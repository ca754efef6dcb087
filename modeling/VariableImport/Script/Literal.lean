import VariableImport.Text.Basic

/-!
# Script/Literal — what string literals spell

What the text between the quotes of a string literal spells.  A backslash starts an escape: a code
point in braces, four or two hexadecimal digits, a named character, a continued line, or the
character itself.
-/

namespace VariableImport.Script

/-- The text of one code point, or the code point if there is none of that number; the replacement
character stands for a surrogate. -/
def codePoint (n : Nat) : Except Nat Text :=
  if n.isValidChar then .ok [Char.ofNat n]
  else if n < 0x110000 then .ok ['\ufffd']
  else .error n

/-- The character that a letter after a backslash names, or the character itself. -/
def named (c : Char) : Char :=
  match c with
  | 'n' => '\n'
  | 't' => '\t'
  | 'r' => '\r'
  | 'b' => '\x08'
  | 'f' => '\x0c'
  | 'v' => '\x0b'
  | '0' => '\x00'
  | c => c

/-- Exactly `n` hexadecimal digits at the start of a text. -/
def hexDigits? (n : Nat) (s : Text) : Option Text :=
  let digits := s.take n
  if digits.length = n ∧ digits.all Text.isHex then some digits else none

/-- Hexadecimal digits, one or more, between braces at the start of a text. -/
def braced? (s : Text) : Option Text :=
  match s with
  | '\x7b' :: t =>
    let digits := t.takeWhile Text.isHex
    if digits ≠ [] ∧ (t.dropWhile Text.isHex).head? = some '\x7d' then some digits else none
  | _ => none

/-- What the escape spells whose first character after the backslash is `c`, and how many characters
of the text after `c` belong to it. -/
def escape (c : Char) (s : Text) : Except Nat Text × Nat :=
  if c = 'u' then
    match braced? s, hexDigits? 4 s with
    | some digits, _ => (codePoint (Text.ofHex digits), digits.length + 2)
    | none, some digits => (codePoint (Text.ofHex digits), 4)
    | none, none => (.ok ['u'], 0)
  else if c = 'x' then
    match hexDigits? 2 s with
    | some digits => (codePoint (Text.ofHex digits), 2)
    | none => (.ok ['x'], 0)
  else if c = '\r' then (.ok [], if s.head? = some '\n' then 1 else 0)
  else if c = '\n' then (.ok [], 0)
  else (.ok [named c], 0)

/-- What a text spells after `skip` of its characters, or the first code point beyond Unicode. -/
def unescapeFrom : Nat → Text → Except Nat Text
  | _, [] => .ok []
  | skip + 1, _ :: s => unescapeFrom skip s
  | 0, '\\' :: c :: s =>
    let (spelled, skip) := escape c s
    spelled.bind fun t => (unescapeFrom skip s).map (t ++ ·)
  | 0, c :: s => (unescapeFrom 0 s).map (c :: ·)

/-- **What the text between the quotes spells**, or the first code point beyond Unicode. -/
def unescape (s : Text) : Except Nat Text := unescapeFrom 0 s

/-- What a literal spells: its first and last characters are the quotes, whatever they are. -/
def decode (token : Text) : Except Nat Text := unescape token.tail.dropLast

example : (unescape "\\x41\\u0042\\u\x7b43\x7d\\n\\q\\u12".toList).toOption =
    some "ABC\nqu12".toList := by
  decide +kernel

end VariableImport.Script
