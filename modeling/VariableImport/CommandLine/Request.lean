import VariableImport.CommandLine.Options

/-!
# CommandLine/Request — what the words of a command line ask for

What the words of a command line ask for: a command, and what holds for every command.
-/

namespace VariableImport.CommandLine

/-- A command. -/
inductive Command where
  /-- Shows the globs of an expression. -/
  | glob (expression importer : Text)
  /-- Lists the files that an expression can import. -/
  | files (expression importer : Text)
  /-- Rewrites call sites, which are read from the input if there are none. -/
  | transform (importer : Text) (sources : List Text)
  /-- Writes a first configuration file. -/
  | init
deriving DecidableEq, Repr

/-- The file in which imports are looked at. -/
def Command.importer? : Command → Option Text
  | .glob _ importer | .files _ importer | .transform importer _ => some importer
  | .init => none

/-- What is asked for. -/
structure Request where
  command : Command
  /-- Whether every note is told. -/
  verbose : Bool := false
  /-- Whether wildcards stay in their directory. -/
  strict : Bool := false
  /-- The configuration file, empty for the usual places. -/
  config : Text := []
deriving DecidableEq, Repr

/-- The option that names the importing file. -/
def importerName : Text := "--importer".toList

/-- The option that names the configuration file. -/
def configName : Text := "--config".toList

/-- The option to tell every note. -/
def verboseName : Text := "--verbose".toList

/-- The option to keep wildcards in their directory. -/
def strictName : Text := "--strict".toList

/-- The options before the command. -/
def generalOptions : Options := { flags := [verboseName, strictName], valued := [configName] }

/-- The options of commands about one expression. -/
def expressionOptions : Options := { valued := [importerName] }

/-- How requests are written. -/
def usage : Text :=
  Text.join ['\n'] (List.map String.toList [
    "usage: [--help] [--verbose] [--strict] [--config FILE] COMMAND",
    "",
    "commands:",
    "  glob EXPRESSION --importer FILE    show the globs of an import expression",
    "  files EXPRESSION --importer FILE   list the files that it can import",
    "  transform FILE [CALL ...]          rewrite call sites, or those on the lines of the input",
    "  init                               write a first configuration file",
    ""])

/-- An answer that has to be there. -/
def required {α : Type} (a : Option α) : Except Stop α := a.elim (.error .misuse) .ok

/-- The expression and the importer of a command about one expression. -/
def readExpression (words : List Text) : Except Stop (Text × Text) := do
  let r ← Reading.ofWords expressionOptions true words
  return (← required r.only?, ← required (r.value? importerName))

/-- A command of a given name with the words behind it. -/
def Command.ofWords (name : Text) (words : List Text) : Except Stop Command :=
  if name = "glob".toList then do
    let (expression, importer) ← readExpression words
    return .glob expression importer
  else if name = "files".toList then do
    let (expression, importer) ← readExpression words
    return .files expression importer
  else if name = "transform".toList then do
    let r ← Reading.ofWords {} true words
    let (importer, sources) ← required r.firstAndOthers?
    return .transform importer sources
  else if name = "init".toList then do
    let r ← Reading.ofWords {} true words
    if r.surplus ∨ r.operands ≠ [] ∨ r.rest ≠ [] then .error .misuse else return .init
  else .error .misuse

/-- **What the words of a command line ask for**; without a command they ask for help. -/
def Request.ofWords (words : List Text) : Except Stop Request := do
  let r ← Reading.ofWords generalOptions false words
  match r.rest with
  | [] => .error (if r.surplus then .misuse else .help)
  | name :: words =>
    let command ← Command.ofWords name words
    if r.surplus then .error .misuse
    else return {
      command
      verbose := verboseName ∈ r.flags
      strict := strictName ∈ r.flags
      config := (r.value? configName).getD [] }

example : (Request.ofWords ["--str".toList, "glob".toList, "--importer=a".toList, "b".toList]).toOption =
    some { command := .glob ['b'] ['a'], strict := true } := by decide +kernel
example : (Request.ofWords ["transform".toList, "a".toList, "--".toList, "--b".toList]).toOption =
    some { command := .transform ['a'] ["--b".toList] } := by decide +kernel

end VariableImport.CommandLine
