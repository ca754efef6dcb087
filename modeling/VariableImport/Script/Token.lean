import VariableImport.Text.CharClass

/-!
# Script/Token — a terminal is read in one way at most

A terminal is read at a place of the text in one way at most, as far as it goes (`Terminal.scan`).
Which terminals are tried at a place is for the grammar to say, so one place may begin tokens of
several kinds.  Blanks and comments between tokens are gaps; a gap is never forced on the reader,
since a slash may start a comment or divide (`places`).
-/

namespace VariableImport.Script

/-- The terminals of the grammar. -/
inductive Terminal where
  /-- The word `import`. -/
  | importWord
  /-- A punctuation mark. -/
  | mark (c : Char)
  /-- A string between the given quotes; its token is the text between them. -/
  | quoted (quote : Char)
  /-- A template without expressions; its token is the text between the backticks. -/
  | plainTemplate
  /-- A template up to its first expression. -/
  | templateHead
  /-- A template between two expressions. -/
  | templateMiddle
  /-- A template after its last expression. -/
  | templateTail
  | number
  | name
  | logical
  | relational
  | additive
  | multiplicative
  | unary
deriving DecidableEq, Repr

/-- The first of some words that a text begins with, and what follows it. -/
def oneOf (words : List Text) (s : Text) : Option (Text × Text) :=
  words.findSome? fun w => (w.isPrefixOf? s).map fun rest => (w, rest)

/-- Operators between conditions. -/
def logicalWords : List Text := [['&', '&'], ['|', '|'], ['?', '?']]

/-- Comparisons, the longer ones first. -/
def relationalWords : List Text :=
  [['=', '=', '='], ['!', '=', '='], ['=', '='], ['!', '='], ['>', '='], ['<', '='], ['>'], ['<']]

/-- Sums and differences. -/
def additiveWords : List Text := [['+'], ['-']]

/-- Products, quotients and remainders. -/
def multiplicativeWords : List Text := [['*'], ['/'], ['%']]

/-- Operators before an operand, the longer ones first. -/
def unaryWords : List Text :=
  [['t', 'y', 'p', 'e', 'o', 'f'], ['d', 'e', 'l', 'e', 't', 'e'], ['a', 'w', 'a', 'i', 't'],
    ['v', 'o', 'i', 'd'], ['!'], ['-'], ['+'], ['~']]

/-- The word that starts an import. -/
def importText : Text := ['i', 'm', 'p', 'o', 'r', 't']

/-- Words that are no names by themselves. -/
def reservedWords : List Text :=
  [importText, ['t', 'y', 'p', 'e', 'o', 'f'], ['v', 'o', 'i', 'd'], ['d', 'e', 'l', 'e', 't', 'e'],
    ['a', 'w', 'a', 'i', 't']]

/-- Text up to a closing quote on the same line, escapes included, and the text after the quote. -/
def quotedBody (quote : Char) : Text → Option (Text × Text)
  | [] => none
  | '\\' :: c :: s => (quotedBody quote s).map fun (body, rest) => ('\\' :: c :: body, rest)
  | c :: s =>
    if c = quote then some ([], s)
    else if c = '\\' ∨ c = '\n' then none
    else (quotedBody quote s).map fun (body, rest) => (c :: body, rest)

/-- Text of a template up to its end or the start of an expression, which of the two it is (`true`
for an expression), and the text after that. -/
def templateBody : Text → Option (Text × Bool × Text)
  | [] => none
  | '\\' :: c :: s => (templateBody s).map fun (body, opens, rest) => ('\\' :: c :: body, opens, rest)
  | '$' :: '\x7b' :: s => some ([], true, s)
  | c :: s =>
    if c = '`' then some ([], false, s)
    else if c = '\\' then none
    else (templateBody s).map fun (body, opens, rest) => (c :: body, opens, rest)

/-- Text of a template after a mark, if it ends in the given way. -/
def templatePart (opening : Char) (opens : Bool) (s : Text) : Option (Text × Text) :=
  match s with
  | c :: t =>
    if c = opening then
      match templateBody t with
      | some (body, o, rest) => if o = opens then some (body, rest) else none
      | none => none
    else none
  | [] => none

/-- Digits, and a fraction if one follows. -/
def scanNumber (s : Text) : Option (Text × Text) :=
  let whole := s.takeWhile Text.isDecimal
  if whole = [] then none
  else match s.dropWhile Text.isDecimal with
    | '.' :: t =>
      let fraction := t.takeWhile Text.isDecimal
      if fraction = [] then some (whole, '.' :: t)
      else some (whole ++ '.' :: fraction, t.dropWhile Text.isDecimal)
    | t => some (whole, t)

/-- Whether a text begins with a reserved word that no word character follows. -/
def startsReserved (s : Text) : Bool :=
  reservedWords.any fun w =>
    match w.isPrefixOf? s with
    | some (c :: _) => !Text.isWord c
    | some [] => true
    | none => false

/-- Whether a character may start a name. -/
def startsName (c : Char) : Bool := c.isAlpha || c == '_' || c == '$'

/-- Whether a character may go on a name. -/
def inName (c : Char) : Bool := Text.isWord c || c == '$'

/-- A name that is not a reserved word. -/
def scanName (s : Text) : Option (Text × Text) :=
  match s with
  | [] => none
  | c :: t =>
    if startsName c ∧ startsReserved s = false then
      some (c :: t.takeWhile inName, t.dropWhile inName)
    else none

/-- The token of a terminal at the start of a text, and what follows it. -/
def Terminal.scan (s : Text) : Terminal → Option (Text × Text)
  | .importWord => oneOf [importText] s
  | .mark c => oneOf [[c]] s
  | .quoted quote =>
    match s with
    | c :: t => if c = quote then quotedBody quote t else none
    | [] => none
  | .plainTemplate => templatePart '`' false s
  | .templateHead => templatePart '`' true s
  | .templateMiddle => templatePart '\x7d' true s
  | .templateTail => templatePart '\x7d' false s
  | .number => scanNumber s
  | .name => scanName s
  | .logical => oneOf logicalWords s
  | .relational => oneOf relationalWords s
  | .additive => oneOf additiveWords s
  | .multiplicative => oneOf multiplicativeWords s
  | .unary => oneOf unaryWords s

/-! ## Gaps -/

/-- Blanks that may stand between tokens. -/
def isGapBlank (c : Char) : Bool := c == ' ' || c == '\t' || c == '\x0c' || c == '\r' || c == '\n'

/-- The text after the first closing mark of a block comment. -/
def afterBlock : Text → Option Text
  | '*' :: '/' :: s => some s
  | _ :: s => afterBlock s
  | [] => none

/-- The text after a run of blanks, a line comment or a block comment. -/
def gap? (s : Text) : Option Text :=
  match s with
  | '/' :: '/' :: t => some (t.dropWhile (· ≠ '\n'))
  | '/' :: '*' :: t => afterBlock t
  | c :: t => if isGapBlank c then some (t.dropWhile isGapBlank) else none
  | [] => none

/-- A text and what is left of it after one gap, two gaps and so on, at most `n`. -/
def placesWithin : Nat → Text → List Text
  | 0, s => [s]
  | n + 1, s => s :: (match gap? s with
    | some t => placesWithin n t
    | none => [])

/-- **The places where the next token may start**: here, or after any number of gaps. -/
def places (s : Text) : List Text := placesWithin s.length s

end VariableImport.Script
