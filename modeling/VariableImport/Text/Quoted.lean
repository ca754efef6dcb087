import VariableImport.Text.CharClass

/-!
# Text/Quoted — texts as messages show them

How a text is shown inside a message: between single quotes, or double ones where it holds a single
quote and no double one.  Backslashes, the quote in use and characters that are not printable are
escaped.
-/

namespace VariableImport.Text

/-- The quote mark that a text is shown with. -/
def quoteMark (s : Text) : Char := if '\'' ∈ s ∧ '"' ∉ s then '"' else '\''

/-- A character as it is shown between quote marks `q`. -/
def showChar (q c : Char) : Text :=
  if c = q ∨ c = '\\' then ['\\', c]
  else if c = '\n' then ['\\', 'n']
  else if c = '\r' then ['\\', 'r']
  else if c = '\t' then ['\\', 't']
  else if isPrintable c then [c]
  else if c.toNat < 0x100 then '\\' :: 'x' :: toHex 2 c.toNat
  else if c.toNat < 0x10000 then '\\' :: 'u' :: toHex 4 c.toNat
  else '\\' :: 'U' :: toHex 8 c.toNat

/-- A text in quote marks. -/
def quoted (s : Text) : Text :=
  let q := quoteMark s
  q :: s.flatMap (showChar q) ++ [q]

example : quoted "it's".toList = "\"it's\"".toList := by decide +kernel
example : quoted "a\n\\".toList = "'a\\n\\\\'".toList := by decide +kernel

end VariableImport.Text
