import VariableImport.Text.Basic

/-!
# Error — why a call site is rejected, and how this is told

Why a call site is rejected (`Cause`), with the source text that it is about (`ImportError`), and how
this is told (`Report`).
-/

namespace VariableImport

/-- The categories of errors and warnings. -/
inductive Kind where
  | unsupportedOperator | wildcardInLiteral | unboundedWildcard | absoluteImport | bareImport
  | ownDirectory | noFilesMatched | unknownSpecifier | syntaxError
deriving DecidableEq, Repr

/-- The name of a category. -/
def Kind.name : Kind → Text
  | .unsupportedOperator => "UnsupportedOperator".toList
  | .wildcardInLiteral => "WildcardInLiteral".toList
  | .unboundedWildcard => "UnboundedWildcard".toList
  | .absoluteImport => "AbsoluteDynamicImport".toList
  | .bareImport => "BareDynamicImport".toList
  | .ownDirectory => "SelfDirectoryAmbiguity".toList
  | .noFilesMatched => "NoFilesMatched".toList
  | .unknownSpecifier => "UnknownSpecifierAtRuntime".toList
  | .syntaxError => "ExpressionSyntax".toList

/-- Every category. -/
def Kind.all : List Kind :=
  [.unsupportedOperator, .wildcardInLiteral, .unboundedWildcard, .absoluteImport, .bareImport,
    .ownDirectory, .noFilesMatched, .unknownSpecifier, .syntaxError]

/-- The category of a name. -/
def Kind.ofName? (name : Text) : Option Kind := Kind.all.find? (·.name == name)

/-- What is told of an error. -/
structure Report where
  kind : Option Kind
  message : Text
  context : Option Text
  suggestion : Option Text
deriving DecidableEq, Repr

namespace Report

/-- Attaches a source text where none is attached yet. -/
def withContext (r : Report) (context : Text) : Report :=
  { r with context := some (r.context.getD context) }

/-- The report as a framed text; an empty context or suggestion is left out. -/
def render (r : Report) : Text :=
  "\n❌ Dynamic Import Error".toList
    ++ r.kind.elim [] (fun k => " (".toList ++ k.name ++ [')'])
    ++ ":\n   ".toList ++ r.message ++ ['\n']
    ++ shown r.context (fun c => "   > \"".toList ++ c ++ "\"\n".toList)
    ++ shown r.suggestion (fun s => "   💡 ".toList ++ s ++ ['\n'])
where
  /-- A text in its frame, if there is one to show. -/
  shown (s : Option Text) (frame : Text → Text) : Text :=
    match s with
    | none | some [] => []
    | some s => frame s

end Report

/-- Why an import is rejected. -/
inductive Cause where
  /-- An operator other than `+` joins two parts. -/
  | unsupportedOperator (operator : Text)
  /-- A static fragment holds a wildcard. -/
  | wildcardInLiteral (fragment : Text)
  /-- The glob of the source starts with a wildcard. -/
  | unboundedWildcard (source : Text)
  /-- The glob of the source is absolute. -/
  | absoluteImport (source : Text)
  /-- The glob of the source starts with a bare name. -/
  | bareImport (source : Text)
  /-- The glob of the source holds every file of its own directory. -/
  | ownDirectory (source : Text)
  /-- The source is no expression; line and column where they are known. -/
  | syntaxError (line column : Option Int)
  /-- A specifier that no file is registered under. -/
  | unknownSpecifier (specifier : Text)
deriving DecidableEq, Repr

namespace Cause

/-- The category of a cause. -/
def kind : Cause → Kind
  | .unsupportedOperator _ => .unsupportedOperator
  | .wildcardInLiteral _ => .wildcardInLiteral
  | .unboundedWildcard _ => .unboundedWildcard
  | .absoluteImport _ => .absoluteImport
  | .bareImport _ => .bareImport
  | .ownDirectory _ => .ownDirectory
  | .syntaxError .. => .syntaxError
  | .unknownSpecifier _ => .unknownSpecifier

/-- The first words of a message about a source. -/
def invalid (source rest : Text) : Text := "invalid import \"".toList ++ source ++ "\". ".toList ++ rest

/-- The message of a cause; a line or column that is zero is not told. -/
def message : Cause → Text
  | .unsupportedOperator operator => operator ++ " operator is not supported.".toList
  | .wildcardInLiteral _ => "A dynamic import cannot contain * characters.".toList
  | .unboundedWildcard source => invalid source
      ("It cannot be statically analyzed. Variable dynamic imports must start with ./ and be ".toList ++
        "limited to a specific directory.".toList)
  | .absoluteImport source => invalid source
      ("Variable absolute imports are not supported, imports must start with ./ in the static ".toList ++
        "part of the import.".toList)
  | .bareImport source => invalid source
      ("Variable bare imports are not supported, imports must start with ./ in the static ".toList ++
        "part of the import.".toList)
  | .ownDirectory source => invalid source
      ("Variable imports cannot import their own directory, place imports in a separate ".toList ++
        "directory or make the import filename more specific.".toList)
  | .syntaxError line column =>
    "Syntax error in import expression".toList ++
      match line.filter (· ≠ 0) with
      | none => []
      | some l => " at line ".toList ++ Text.ofInt l ++
        match column.filter (· ≠ 0) with
        | none => []
        | some c => ", column ".toList ++ Text.ofInt c
  | .unknownSpecifier specifier => "Unknown variable dynamic import: ".toList ++ specifier

/-- An import that is accepted. -/
def acceptedForm : Text := "For example: import(`./foo/$\x7bbar\x7d.js`).".toList

/-- How to mend it. -/
def suggestion : Cause → Option Text
  | .unsupportedOperator _ =>
    some "Only '+' can join the parts of a dynamic import path".toList
  | .bareImport _ =>
    some ("Configure an alias for the prefix or install the package under ".toList ++
      "node_modules".toList)
  | .syntaxError .. => some "Check syntax around this expression".toList
  | .unknownSpecifier _ => none
  | .wildcardInLiteral _ | .unboundedWildcard _ | .absoluteImport _ | .ownDirectory _ =>
    some acceptedForm

end Cause

/-- A rejection: its cause and the source text that it quotes. -/
structure ImportError where
  cause : Cause
  context : Option Text := none
deriving DecidableEq, Repr

namespace ImportError

/-- The rejection of a glob, which quotes the source that its cause names. -/
def ofSource (cause : Text → Cause) (source : Text) : ImportError := ⟨cause source, some source⟩

/-- Attaches a source text where none is attached yet. -/
def withContext (e : ImportError) (context : Text) : ImportError :=
  { e with context := some (e.context.getD context) }

/-- **A context is never replaced.** -/
theorem withContext_withContext (e : ImportError) (c d : Text) :
    (e.withContext c).withContext d = e.withContext c := rfl

/-- What is told of a rejection. -/
def report (e : ImportError) : Report :=
  ⟨some e.cause.kind, e.cause.message, e.context, e.cause.suggestion⟩

/-- The text of a rejection: its report, or the message alone for an unknown specifier. -/
def text (e : ImportError) : Text :=
  match e.cause with
  | .unknownSpecifier _ => e.cause.message
  | _ => e.report.render

end ImportError

/-- Why a call site cannot be settled at all. -/
inductive Failure where
  /-- The import is rejected. -/
  | rejected (e : ImportError)
  /-- A rule is written with a text that is no regular expression. -/
  | badPattern (written : Text)
  /-- A way is asked for to a target without a name. -/
  | noTarget
  /-- A directory is to be listed whose name holds a null character. -/
  | nullCharacter
deriving DecidableEq, Repr

/-- The wording of a failure. -/
def Failure.message : Failure → Text
  | .rejected e => e.text
  | .badPattern written => "no regular expression: ".toList ++ written
  | .noTarget => "no path specified".toList
  | .nullCharacter => "embedded null byte".toList

end VariableImport
