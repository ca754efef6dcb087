import VariableImport.CallSite.Batch
import VariableImport.Config.File

/-!
# CommandLine/Outcome — what a command has written, and its trouble

What a run of a command has written, and the trouble in which it ended if it did.
-/

namespace VariableImport.CommandLine

/-- Why a run does not succeed. -/
inductive Trouble where
  | config (e : Config.LoadError)
  | failure (f : Failure)
  | file (e : FileError)
  /-- There is a configuration file already. -/
  | starterExists
  /-- There is no call site to rewrite. -/
  | noSources
  /-- Some call sites were rejected. -/
  | sitesFailed (count : Nat)

/-- A line for the reader of the messages. -/
def infoLine (message : Text) : Text :=
  "\x1b[92m\x1b[1mINFO:\x1b[0m ".toList ++ message ++ ['\n']

/-- A line about an error. -/
def errorLine (message : Text) : Text := "Error: ".toList ++ message ++ ['\n']

/-- What is told of trouble. -/
def Trouble.line : Trouble → Text
  | .config e => errorLine ("Invalid configuration:\n".toList ++ e.message)
  | .failure f => errorLine f.message
  | .file e => errorLine e.message
  | .starterExists => errorLine (Config.fileName ++ " already exists".toList)
  | .noSources => errorLine "No call sites given".toList
  | .sitesFailed count =>
    infoLine ("❌ ".toList ++ Text.ofNat count ++ " call site(s) failed".toList)

/-- What a run has come to. -/
structure Outcome where
  output : Text := []
  /-- What was told beside the output, before any trouble. -/
  told : Text := []
  trouble : Option Trouble := none

namespace Outcome

/-- The exit code of a run. -/
def exitCode (o : Outcome) : Nat := if o.trouble.isSome then 1 else 0

/-- Everything that is told beside the output. -/
def messages (o : Outcome) : Text := o.told ++ o.trouble.elim [] Trouble.line

/-- A run that ends in trouble at once. -/
def fail (t : Trouble) : Outcome := { trouble := some t }

/-- A run that tells something first. -/
def after (told : Text) (o : Outcome) : Outcome := { o with told := told ++ o.told }

/-- A run that writes some lines, or fails. -/
def ofLines : Except Failure (List Text) → Outcome
  | .ok lines => { output := lines.flatMap (· ++ ['\n']) }
  | .error f => fail (.failure f)

end Outcome

end VariableImport.CommandLine
