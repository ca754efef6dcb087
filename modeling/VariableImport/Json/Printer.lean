import VariableImport.Json.Basic

/-!
# Json/Printer — values are written in printable ASCII

`encodeText` writes a text as a string literal in printable ASCII: other characters become `\u`
escapes of their UTF-16 units in lower-case hexadecimal.  `encode` writes a value on one line and
`encodeIndented` on lines of their own.
-/

namespace VariableImport.Json

/-- The `\u` escape of one UTF-16 unit. -/
def escapeUnit (n : Nat) : Text := '\\' :: 'u' :: Text.toHex 4 n

/-- A character inside a string literal. -/
def encodeChar (c : Char) : Text :=
  match c with
  | '"' => ['\\', '"']
  | '\\' => ['\\', '\\']
  | '\n' => ['\\', 'n']
  | '\r' => ['\\', 'r']
  | '\t' => ['\\', 't']
  | '\x0c' => ['\\', 'f']
  | '\x08' => ['\\', 'b']
  | c =>
    let n := c.toNat
    if 32 ≤ n ∧ n ≤ 126 then [c]
    else if n < 0x10000 then escapeUnit n
    else escapeUnit (0xd800 + (n - 0x10000) / 0x400) ++ escapeUnit (0xdc00 + (n - 0x10000) % 0x400)

/-- **A text as a string literal** of printable ASCII. -/
def encodeText (s : Text) : Text := '"' :: s.flatMap encodeChar ++ ['"']

/-- A number as it is written. -/
def Number.encode : Number → Text
  | .integer n => Text.ofInt n
  | .decimal spelling => spelling

mutual

/-- A value on one line. -/
def encode : Json → Text
  | .null => ['n', 'u', 'l', 'l']
  | .bool true => ['t', 'r', 'u', 'e']
  | .bool false => ['f', 'a', 'l', 's', 'e']
  | .number n => n.encode
  | .text s => encodeText s
  | .list xs => '[' :: encodeItems xs ++ [']']
  | .object fields => '\x7b' :: encodeFields fields ++ ['\x7d']

/-- Items with commas between them. -/
def encodeItems : List Json → Text
  | [] => []
  | [x] => encode x
  | x :: y :: xs => encode x ++ ',' :: ' ' :: encodeItems (y :: xs)

/-- Fields with commas between them. -/
def encodeFields : List (Text × Json) → Text
  | [] => []
  | [(k, v)] => encodeText k ++ ':' :: ' ' :: encode v
  | (k, v) :: f :: fields => encodeText k ++ ':' :: ' ' :: encode v ++ ',' :: ' ' :: encodeFields (f :: fields)

end

/-- A line end and two blanks for every level of depth. -/
def newline (depth : Nat) : Text := '\n' :: List.replicate (2 * depth) ' '

mutual

/-- A value with every item and field on a line of its own, `depth` levels deep. -/
def encodeAt (depth : Nat) : Json → Text
  | .list [] => ['[', ']']
  | .list (x :: xs) => '[' :: encodeItemsAt (depth + 1) (x :: xs) ++ newline depth ++ [']']
  | .object [] => ['\x7b', '\x7d']
  | .object (f :: fields) =>
    '\x7b' :: encodeFieldsAt (depth + 1) (f :: fields) ++ newline depth ++ ['\x7d']
  | .null => ['n', 'u', 'l', 'l']
  | .bool true => ['t', 'r', 'u', 'e']
  | .bool false => ['f', 'a', 'l', 's', 'e']
  | .number n => n.encode
  | .text s => encodeText s

/-- Items on lines of their own. -/
def encodeItemsAt (depth : Nat) : List Json → Text
  | [] => []
  | [x] => newline depth ++ encodeAt depth x
  | x :: y :: xs => newline depth ++ encodeAt depth x ++ ',' :: encodeItemsAt depth (y :: xs)

/-- Fields on lines of their own. -/
def encodeFieldsAt (depth : Nat) : List (Text × Json) → Text
  | [] => []
  | [(k, v)] => newline depth ++ encodeText k ++ ':' :: ' ' :: encodeAt depth v
  | (k, v) :: f :: fields =>
    newline depth ++ encodeText k ++ ':' :: ' ' :: encodeAt depth v ++ ',' :: encodeFieldsAt depth (f :: fields)

end

/-- A value with every item and field on a line of its own, two blanks deeper at each level. -/
def encodeIndented (v : Json) : Text := encodeAt 0 v

example : encodeText "é\n😀".toList = "\"\\u00e9\\n\\ud83d\\ude00\"".toList := by decide +kernel
example : encodeIndented (.object [(['a'], .list [.int 1, .null])]) =
    "\x7b\n  \"a\": [\n    1,\n    null\n  ]\n\x7d".toList := by decide +kernel

end VariableImport.Json
