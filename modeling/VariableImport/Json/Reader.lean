import VariableImport.Json.Basic
import VariableImport.Text.Lines

/-!
# Json/Reader — one value that fills a text is read

`Json.read` reads one value that fills a text.  A fault keeps how much text was left where it
arose, so that its message can name line, column and offset.  Besides the standard's numbers, `NaN`
and the infinities are read; of two fields with one name the later value is kept in the earlier
place.
-/

namespace VariableImport.Json

/-- What is wrong at a place. -/
inductive Fault where
  | value | name | colon | comma | control | unclosed | escape | unitEscape | extra | mark
deriving DecidableEq, Repr

/-- The wording of a fault. -/
def Fault.wording : Fault → String
  | .value => "Expecting value"
  | .name => "Expecting property name enclosed in double quotes"
  | .colon => "Expecting ':' delimiter"
  | .comma => "Expecting ',' delimiter"
  | .control => "Invalid control character at"
  | .unclosed => "Unterminated string starting at"
  | .escape => "Invalid \\escape"
  | .unitEscape => "Invalid \\uXXXX escape"
  | .extra => "Extra data"
  | .mark => "Unexpected UTF-8 BOM (decode using utf-8-sig)"

/-- A fault and the place where it arose. -/
structure ReadError where
  fault : Fault
  offset : Nat
  line : Nat
  column : Nat
deriving DecidableEq, Repr

/-- The message of an error: what is wrong, and where. -/
def ReadError.message (e : ReadError) : Text :=
  s!"{e.fault.wording}: line {e.line} column {e.column} (char {e.offset})".toList

/-- The error of a fault in a text of which `left` characters follow the place. -/
def ReadError.at (source : Text) (fault : Fault) (left : Nat) : ReadError :=
  let before := source.take (source.length - left)
  let place := Text.lineColumn before
  ⟨fault, before.length, place.1, place.2⟩

/-- A fault and how much text was left where it arose. -/
abbrev Stop := Fault × Nat

/-- The text after the blanks of JSON. -/
def skipBlanks (s : Text) : Text :=
  s.dropWhile fun c => c == ' ' || c == '\t' || c == '\n' || c == '\r'

/-! ## String literals -/

/-- The UTF-16 unit of exactly four hexadecimal digits. -/
def unit? (s : Text) : Option Nat :=
  let digits := s.take 4
  if digits.length = 4 ∧ digits.all Text.isHex then some (Text.ofHex digits) else none

/-- The character of a code point; the replacement character stands for a lone surrogate. -/
def charOf (n : Nat) : Char := if n.isValidChar then Char.ofNat n else '\ufffd'

/-- The character of a one-letter escape. -/
def escaped? (c : Char) : Option Char :=
  match c with
  | '"' => some '"'
  | '\\' => some '\\'
  | '/' => some '/'
  | 'b' => some '\x08'
  | 'f' => some '\x0c'
  | 'n' => some '\n'
  | 'r' => some '\r'
  | 't' => some '\t'
  | _ => none

/-- The character of a unit escape, whose digits start `s`, and the text after it: a high surrogate
takes the unit escape after it along if that is a low one. -/
def unitEscape (s : Text) : Except Stop (Char × Text) :=
  match (if s.length ≤ 4 then none else unit? s) with
  | none => .error (.unitEscape, s.length + 1)
  | some u =>
    let rest := s.drop 4
    if 0xd800 ≤ u ∧ u < 0xdc00 then
      match rest with
      | '\\' :: 'u' :: low =>
        if low.length ≤ 4 then .ok (charOf u, rest)
        else match unit? low with
          | none => .error (.unitEscape, low.length + 1)
          | some v =>
            if 0xdc00 ≤ v ∧ v < 0xe000 then
              .ok (charOf (0x10000 + (u - 0xd800) * 0x400 + (v - 0xdc00)), low.drop 4)
            else .ok (charOf u, rest)
      | _ => .ok (charOf u, rest)
    else .ok (charOf u, rest)

/-- The characters up to the closing quote; `opening` is the length of text left at the opening
one. -/
def stringBody (opening : Nat) : Nat → Text → Except Stop (Text × Text)
  | 0, _ => .error (.unclosed, opening)
  | _ + 1, [] => .error (.unclosed, opening)
  | n + 1, c :: s =>
    if c = '"' then .ok ([], s)
    else if c = '\\' then
      match s with
      | [] => .error (.unclosed, opening)
      | 'u' :: t => do
        let (d, t) ← unitEscape t
        let (ds, t) ← stringBody opening n t
        return (d :: ds, t)
      | e :: t =>
        match escaped? e with
        | none => .error (.escape, s.length + 1)
        | some d => do
          let (ds, t) ← stringBody opening n t
          return (d :: ds, t)
    else if c.toNat < 32 then .error (.control, s.length + 1)
    else do
      let (ds, t) ← stringBody opening n s
      return (c :: ds, t)

/-- The text of a string literal whose opening quote has been read. -/
def string (s : Text) : Except Stop (Text × Text) := stringBody (s.length + 1) (s.length + 1) s

/-! ## Numbers -/

/-- The digits at the start of a text and what follows them. -/
def digits (s : Text) : Text × Text := (s.takeWhile Char.isDigit, s.dropWhile Char.isDigit)

/-- The value of decimal digits. -/
def natOf (s : Text) : Nat := s.foldl (fun n c => n * 10 + (c.toNat - 48)) 0

/-- A number without its sign: whole part, then fraction and exponent where they are complete. -/
def unsigned? (s : Text) : Option ((Text × Text) × Text) :=
  let whole := match s with
    | '0' :: t => (['0'], t)
    | _ => digits s
  if whole.1.isEmpty then none else
    let fraction := match whole.2 with
      | '.' :: t => let (ds, u) := digits t; if ds.isEmpty then ([], whole.2) else ('.' :: ds, u)
      | _ => ([], whole.2)
    let exponent := match fraction.2 with
      | e :: t =>
        if e = 'e' ∨ e = 'E' then
          let (sign, u) := match t with
            | '+' :: u => (['+'], u)
            | '-' :: u => (['-'], u)
            | _ => ([], t)
          let (ds, v) := digits u
          if ds.isEmpty then ([], fraction.2) else (e :: sign ++ ds, v)
        else ([], fraction.2)
      | [] => ([], [])
    some ((whole.1, fraction.1 ++ exponent.1), exponent.2)

/-- A number and the text after it. -/
def number? (s : Text) : Option (Number × Text) :=
  let (sign, body) := match s with
    | '-' :: t => (['-'], t)
    | _ => ([], s)
  match unsigned? body with
  | none => none
  | some ((whole, []), rest) =>
    some (.integer (if sign.isEmpty then natOf whole else -(natOf whole : Int)), rest)
  | some ((whole, tail), rest) => some (.decimal (sign ++ whole ++ tail), rest)

/-- The words that are values by themselves. -/
def words : List (Text × Json) :=
  [ ("null".toList, .null), ("true".toList, .bool true), ("false".toList, .bool false),
    ("NaN".toList, .number (.decimal "NaN".toList)),
    ("Infinity".toList, .number (.decimal "Infinity".toList)),
    ("-Infinity".toList, .number (.decimal "-Infinity".toList)) ]

/-- A word or a number. -/
def scalar (s : Text) : Except Stop (Json × Text) :=
  match words.findSome? fun (w, v) => (w.isPrefixOf? s).map fun rest => (v, rest) with
  | some found => .ok found
  | none =>
    match number? s with
    | some (n, rest) => .ok (.number n, rest)
    | none => .error (.value, s.length)

/-! ## Values -/

/-- Items up to the closing bracket, each read by `item`. -/
def items (item : Text → Except Stop (Json × Text)) : Nat → Text → Except Stop (List Json × Text)
  | 0, s => .error (.value, s.length)
  | n + 1, s => do
    let (x, s) ← item s
    match skipBlanks s with
    | ']' :: t => return ([x], t)
    | ',' :: t => do
      let (xs, t) ← items item n (skipBlanks t)
      return (x :: xs, t)
    | t => .error (.comma, t.length)

/-- Fields up to the closing brace, each value read by `item`, put into those read before. -/
def fields (item : Text → Except Stop (Json × Text)) :
    Nat → List (Text × Json) → Text → Except Stop (List (Text × Json) × Text)
  | 0, _, s => .error (.name, s.length)
  | n + 1, known, s =>
    match s with
    | '"' :: t => do
      let (key, t) ← string t
      match skipBlanks t with
      | ':' :: t => do
        let (value, t) ← item (skipBlanks t)
        let known := put known key value
        match skipBlanks t with
        | '\x7d' :: t => return (known, t)
        | ',' :: t => fields item n known (skipBlanks t)
        | t => .error (.comma, t.length)
      | t => .error (.colon, t.length)
    | _ => .error (.name, s.length)

/-- One value at the start of a text, nested at most `depth` deep. -/
def value : Nat → Text → Except Stop (Json × Text)
  | 0, s => .error (.value, s.length)
  | depth + 1, s =>
    match s with
    | '"' :: t => do
      let (x, t) ← string t
      return (.text x, t)
    | '[' :: t =>
      match skipBlanks t with
      | ']' :: t => .ok (.list [], t)
      | t => do
        let (xs, u) ← items (value depth) (t.length + 1) t
        return (.list xs, u)
    | '\x7b' :: t =>
      match skipBlanks t with
      | '\x7d' :: t => .ok (.object [], t)
      | t => do
        let (fs, u) ← fields (value depth) (t.length + 1) [] t
        return (.object fs, u)
    | _ => scalar s

/-- The value that fills a text, blanks around it apart. -/
def read (source : Text) : Except ReadError Json :=
  match source with
  | '\ufeff' :: _ => .error (.at source .mark source.length)
  | _ =>
    match value (source.length + 1) (skipBlanks source) with
    | .error (fault, left) => .error (.at source fault left)
    | .ok (v, rest) =>
      match skipBlanks rest with
      | [] => .ok v
      | t => .error (.at source .extra t.length)

end VariableImport.Json
