import VariableImport.Json.Basic
import VariableImport.Text.Quoted

/-!
# Json/Display — values as messages show them

How a value is shown inside a message: texts in quote marks (`Text.quoted`), lists in brackets,
objects in braces, and a word for each of the other values.
-/

namespace VariableImport.Json

mutual

/-- **A value as it is shown in messages.** -/
def display : Json → Text
  | .null => "None".toList
  | .bool true => "True".toList
  | .bool false => "False".toList
  | .number (.integer n) => Text.ofInt n
  | .number (.decimal spelling) => spelling
  | .text s => s.quoted
  | .list xs => '[' :: displayItems xs ++ [']']
  | .object fields => '\x7b' :: displayFields fields ++ ['\x7d']

/-- Items with commas between them. -/
def displayItems : List Json → Text
  | [] => []
  | [x] => display x
  | x :: y :: xs => display x ++ ',' :: ' ' :: displayItems (y :: xs)

/-- Fields with commas between them. -/
def displayFields : List (Text × Json) → Text
  | [] => []
  | [(k, v)] => k.quoted ++ ':' :: ' ' :: display v
  | (k, v) :: f :: fields =>
    k.quoted ++ ':' :: ' ' :: display v ++ ',' :: ' ' :: displayFields (f :: fields)

end

example : display (.list [.null, .bool true, .text ['a']]) = "[None, True, 'a']".toList := by
  decide +kernel

end VariableImport.Json
