import VariableImport.Script.Token

/-!
# Script/ImportCall — import calls are seen without parsing

Import calls seen without parsing: whether a text holds one, whether one is to be left alone, and
the text of its first argument.
-/

namespace VariableImport.Script

/-! ## Searching -/

/-- Whether a text begins with the word `import` and an opening parenthesis. -/
def startsCall (s : Text) : Bool :=
  match importText.isPrefixOf? s with
  | some rest => (Text.trimLeft rest).head? == some '('
  | none => false

/-- Whether a call starts in a text; `inWord` says whether a word character stands before it. -/
def callFrom (inWord : Bool) : Text → Bool
  | [] => false
  | c :: s => (!inWord && startsCall (c :: s)) || callFrom (Text.isWord c) s

/-- **Whether a text may hold a dynamic import.**  Comments and strings are not told apart. -/
def hasDynamicImport (code : Text) : Bool := callFrom false code

/-- The mark of an import that is to be left alone. -/
def ignoreMark : Text := "@vite-ignore".toList

/-- Whether a text begins with a comment that holds nothing but the mark. -/
def startsIgnore (s : Text) : Bool :=
  match s with
  | '/' :: '*' :: t =>
    match ignoreMark.isPrefixOf? (Text.trimLeft t) with
    | some rest => ['*', '/'].isPrefixOf (Text.trimLeft rest)
    | none => false
  | _ => false

/-- Whether a text holds a comment that asks to leave the import alone. -/
def isIgnored (source : Text) : Bool := Text.anyTail startsIgnore source

/-! ## The first argument -/

/-- The text between the parentheses of a source that is an import call as a whole. -/
def inner? (source : Text) : Option Text :=
  match importText.isPrefixOf? (Text.trimLeft source) with
  | none => none
  | some rest =>
    match Text.trimLeft rest with
    | '(' :: inner =>
      let body := Text.trimRight inner
      if body.getLast? = some ')' then some body.dropLast else none
    | _ => none

/-- The mark that closes what a mark opens. -/
def closer? (c : Char) : Option Char :=
  match c with
  | '(' => some ')'
  | '[' => some ']'
  | '\x7b' => some '\x7d'
  | _ => none

/-- Where a scan stands: the marks that are to come, a backtick for a template whose expression is
under way, the quote under way, and whether the next character passes without effect. -/
structure Scan where
  stack : List Char := []
  quote : Option Char := none
  pass : Bool := false
deriving DecidableEq, Repr

namespace Scan

/-- A character outside of quotes. -/
def code (scan : Scan) (c : Char) : Scan :=
  if c = '\'' ∨ c = '"' ∨ c = '`' then { scan with quote := some c }
  else match closer? c, scan.stack with
    | some d, stack => { scan with stack := d :: stack }
    | none, [] => scan
    | none, top :: rest =>
      if c = '\x7d' ∧ top = '`' then { scan with stack := rest, quote := some '`' }
      else if c = top then { scan with stack := rest }
      else scan

/-- A character inside quotes, with the one after it. -/
def text (scan : Scan) (q c : Char) (next : Option Char) : Scan :=
  if c = '\\' then { scan with pass := true }
  else if c = q then { scan with quote := none }
  else if q = '`' ∧ c = '$' ∧ next = some '\x7b' then
    { stack := '`' :: scan.stack, quote := none, pass := true }
  else scan

/-- One character, with the one after it. -/
def step (scan : Scan) (c : Char) (next : Option Char) : Scan :=
  if scan.pass then { scan with pass := false }
  else match scan.quote with
    | some q => scan.text q c next
    | none => scan.code c

/-- Whether a comma here ends the argument. -/
def isOutside (scan : Scan) : Bool := !scan.pass && scan.quote.isNone && scan.stack.isEmpty

end Scan

/-- The text up to the first comma outside of quotes and brackets. -/
def firstArgument (scan : Scan) : Text → Text
  | [] => []
  | c :: s =>
    if scan.isOutside ∧ c = ',' then [] else c :: firstArgument (scan.step c s.head?) s

/-- **The source text of the first argument** of an import call; any other source is an argument
itself. -/
def importArgument (source : Text) : Text :=
  match inner? source with
  | none => Text.trim source
  | some inner => Text.trim (firstArgument {} inner)

example : importArgument "import(`a$\x7bb,c\x7dd`, e)".toList = "`a$\x7bb,c\x7dd`".toList := by
  decide +kernel
example : hasDynamicImport "reimport(a)".toList = false := by decide +kernel

end VariableImport.Script
