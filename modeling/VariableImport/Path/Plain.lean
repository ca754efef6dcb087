import VariableImport.Text.CharClass
import VariableImport.Path.Basic

/-!
# Path/Plain — plain paths name one file

A plain path names one file relative to the importer: it can be imported as it stands.
-/

namespace VariableImport.Path

/-- Characters of a plain path. -/
def isPlainChar (c : Char) : Bool := c == '.' || c == '-' || c == '/' || Text.isWord c

/-- Whether a text is made of plain characters and an extension of word characters. -/
def hasPlainName (s : Text) : Bool :=
  match Text.cutLast '.' s with
  | some (stem, ext) => !stem.isEmpty && stem.all isPlainChar && !ext.isEmpty && ext.all Text.isWord
  | none => false

/-- **A plain relative path**: `./` or `../`, plain characters and an extension; a newline may
follow. -/
def isPlain (p : Text) : Bool :=
  match p with
  | '.' :: '/' :: rest => hasPlainName (Text.dropNewline rest)
  | '.' :: '.' :: '/' :: rest => hasPlainName (Text.dropNewline rest)
  | _ => false

example : isPlain "./views/a-b.test.js".toList = true := by decide +kernel
example : isPlain "./.js".toList = false := by decide +kernel

end VariableImport.Path
