import VariableImport.DispatchTable.Script
import VariableImport.Glob.Basic
import VariableImport.Path.Plain

/-!
# CallSite/Basic — what becomes of one import

What becomes of one import: its `Verdict`, with what it rests on.  Kind, files, replacement and the
like are views of the verdict, so they cannot disagree.
-/

namespace VariableImport

/-- What becomes of a call site. -/
inductive Verdict where
  /-- A comment asks to leave it alone. -/
  | ignored
  /-- It imports one file as it is written. -/
  | asWritten (path : Text)
  /-- It imports one file by another path than it is written with. -/
  | redirected (path : Text) (glob : Option GlobPattern)
  /-- It is a fixed import that is left alone. -/
  | fixed (glob : GlobPattern)
  /-- No file matches its globs. -/
  | unmatched (glob : GlobPattern) (globs : List Text)
  /-- It imports one of several files. -/
  | dispatch (glob : GlobPattern) (globs files : List Text) (table : DispatchTable)
deriving DecidableEq, Repr

/-- The kinds of outcomes. -/
inductive Verdict.Kind where
  | dispatch
  | normal
  | skipped
deriving DecidableEq, Repr

/-- The name of a kind. -/
def Verdict.Kind.name : Verdict.Kind → Text
  | .dispatch => "dispatch".toList
  | .normal => "normal".toList
  | .skipped => "skipped".toList

namespace Verdict

/-- The kind of a verdict. -/
def kind : Verdict → Kind
  | .dispatch .. => .dispatch
  | .asWritten _ | .redirected .. => .normal
  | .ignored | .fixed _ | .unmatched .. => .skipped

/-- The glob that was found. -/
def glob : Verdict → Option GlobPattern
  | .ignored | .asWritten _ => none
  | .redirected _ glob => glob
  | .fixed glob | .unmatched glob _ | .dispatch glob .. => some glob

/-- The globs that were searched. -/
def globs : Verdict → List Text
  | .unmatched _ globs | .dispatch _ globs _ _ => globs
  | _ => []

/-- The files that may be imported. -/
def files : Verdict → List Text
  | .dispatch _ _ files _ => files
  | _ => []

/-- The dispatch table. -/
def table : Verdict → Option DispatchTable
  | .dispatch _ _ _ table => some table
  | _ => none

/-- The one path that is imported. -/
def path : Verdict → Option Text
  | .asWritten path | .redirected path _ => some path
  | _ => none

/-- What to warn of. -/
def warning : Verdict → Option VariableImport.Kind
  | .unmatched .. => some .noFilesMatched
  | _ => none

end Verdict

/-- A call site in a file that imports, its argument, and what becomes of it. -/
structure CallSite where
  source : Text
  argument : Text
  importer : Text
  verdict : Verdict
deriving DecidableEq, Repr

/-- An import of one path. -/
def importOf (path : Text) : Text := "import(\"".toList ++ path ++ "\")".toList

/-- A call site in a file, with the number of its dispatch function if it has one. -/
structure NumberedSite where
  site : CallSite
  index : Option Nat := none
deriving DecidableEq, Repr

namespace NumberedSite

/-- The name of the dispatch function. -/
def functionName (s : NumberedSite) : Option Text := s.index.map fun n => DispatchTable.functionName n

/-- The source of the dispatch function. -/
def function (s : NumberedSite) : Option Text :=
  match s.functionName, s.site.verdict.table with
  | some name, some table => some (table.render name)
  | _, _ => none

/-- The text to write in place of the call site. -/
def replacement (s : NumberedSite) : Option Text :=
  match s.site.verdict with
  | .redirected path _ => some (importOf path)
  | .dispatch .. => s.functionName.map fun name => name ++ '(' :: s.site.argument ++ [')']
  | _ => none

end NumberedSite

end VariableImport
