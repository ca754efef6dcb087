import VariableImport.Text.Basic
import VariableImport.Text.WordRanges
import VariableImport.Text.DecimalRanges
import VariableImport.Text.PrintableRanges

/-!
# Text/CharClass — classes of characters

Blanks, line breaks, word characters, decimal digits and printable characters of Unicode.  ASCII is
decided by comparison, the rest by tables; `trim` removes blanks at both ends.
-/

namespace VariableImport.Text

/-- Whether a code point lies in one of the ranges. -/
def inRanges (ranges : List (Nat × Nat)) (n : Nat) : Bool :=
  ranges.any fun (first, last) => first ≤ n && n ≤ last

/-- Blanks: white space and the separators of files, groups, records and units. -/
def isBlank (c : Char) : Bool :=
  let n := c.toNat
  (9 ≤ n && n ≤ 13) || (28 ≤ n && n ≤ 32) || n == 0x85 || n == 0xa0 || n == 0x1680 ||
    (0x2000 ≤ n && n ≤ 0x200a) || n == 0x2028 || n == 0x2029 || n == 0x202f || n == 0x205f ||
    n == 0x3000

/-- Characters that end a line. -/
def isLineBreak (c : Char) : Bool :=
  let n := c.toNat
  (10 ≤ n && n ≤ 13) || (28 ≤ n && n ≤ 30) || n == 0x85 || n == 0x2028 || n == 0x2029

/-- Decimal digits of every script. -/
def isDecimal (c : Char) : Bool :=
  if c.toNat < 128 then c.isDigit else inRanges decimalRanges c.toNat

/-- Word characters: letters, numerals and the low line. -/
def isWord (c : Char) : Bool :=
  if c.toNat < 128 then c.isAlphanum || c == '_' else inRanges wordRanges c.toNat

/-- Characters that are shown as themselves in a quoted text. -/
def isPrintable (c : Char) : Bool :=
  if c.toNat < 128 then 32 ≤ c.toNat && c.toNat ≠ 127 else inRanges printableRanges c.toNat

/-! ## Trimming -/

/-- The text without the blanks at its start. -/
def trimLeft (s : Text) : Text := s.dropWhile isBlank

/-- The text without the blanks at its end. -/
def trimRight (s : Text) : Text := (s.reverse.dropWhile isBlank).reverse

/-- The text without the blanks at both ends. -/
def trim (s : Text) : Text := trimRight (trimLeft s)

/-- The text without a newline at its end, if there is one. -/
def dropNewline (s : Text) : Text := if s.getLast? = some '\n' then s.dropLast else s

end VariableImport.Text
