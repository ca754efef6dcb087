import VariableImport.Text.CharClass

/-!
# Text/Lines — a text as its lines

A text as lines: `lines` cuts at every line break of Unicode, `withNewlines` writes the line ends of
a file as newlines, and `lineColumn` counts where a place in a text is.
-/

namespace VariableImport.Text

/-- The lines of a text without their breaks; a carriage return before a newline is one break with
it, and a break at the end starts no line. -/
def lines : Text → List Text
  | [] => []
  | '\r' :: '\n' :: s => [] :: lines s
  | c :: s =>
    if isLineBreak c then [] :: lines s
    else match lines s with
      | [] => [[c]]
      | w :: ws => (c :: w) :: ws

/-- The text with each line end, a carriage return with or without a newline, as one newline. -/
def withNewlines : Text → Text
  | [] => []
  | '\r' :: '\n' :: s => '\n' :: withNewlines s
  | c :: s => (if c = '\r' then '\n' else c) :: withNewlines s

/-- Line and column, from one, of the place after `before`; newlines alone start a line. -/
def lineColumn (before : Text) : Nat × Nat :=
  (before.count '\n' + 1, (before.reverse.takeWhile (· ≠ '\n')).length + 1)

example : lines "a\r\nb\n\nc".toList = ["a".toList, "b".toList, [], "c".toList] := by decide +kernel
example : lineColumn "ab\nc".toList = (2, 2) := by decide +kernel

end VariableImport.Text
