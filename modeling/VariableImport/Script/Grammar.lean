import VariableImport.Script.Reader
import VariableImport.Script.Tree

/-!
# Script/Grammar — one reader for every level of the grammar

One reader per level of the grammar, from operands to conditional expressions; each takes the reader
of a nested expression as an argument, so that `expression` is one recursion on how deep expressions
nest.  Operators of one level associate to the left.  Where a name and an operator word glued to its
operand cover the same text, the name is found (`prefixed`).
-/

namespace VariableImport.Script

open Reader

/-- A punctuation mark. -/
def mark (c : Char) : Reader Unit := do
  let _ ← token (.mark c)
  pure ()

/-- A trailing comma may stand here. -/
def optionalComma : Reader Unit := pure () <|> mark ','

/-- A list, begun with the given items in reverse, that commas go on. -/
def commaSeparated (item : Reader Tree) (begun : List Tree) : Reader (List Tree) := do
  let items ← steps (fun items => do
    mark ','
    return (← item) :: items) begun
  return items.reverse

/-- The arguments of a call and the closing parenthesis. -/
def arguments (nested : Reader Tree) : Reader (List Tree) :=
  (do mark ')'; return []) <|>
  (do
    let first ← nested
    let items ← commaSeparated nested [first]
    optionalComma
    mark ')'
    return items)

/-- A template with expressions; fragments and expressions are collected in reverse. -/
def templateWithHoles (nested : Reader Tree) : Reader Tree := do
  let head ← token .templateHead
  let first ← nested
  let (quasis, holes) ← steps (fun (quasis, holes) => do
    let quasi ← token .templateMiddle
    let hole ← nested
    return (quasi :: quasis, hole :: holes)) ([head], [first])
  let tail ← token .templateTail
  return .template (tail :: quasis).reverse holes.reverse

/-- An operand without accesses or calls. -/
def primary (nested : Reader Tree) : Reader Tree :=
  (do return .string (← token (.quoted '\''))) <|>
  (do return .string (← token (.quoted '"'))) <|>
  (do return .template [← token .plainTemplate] []) <|>
  templateWithHoles nested <|>
  (do return .number (← token .number)) <|>
  (do return .name (← token .name)) <|>
  (do mark '('; let e ← nested; mark ')'; return e)

/-- One access or call of what was read so far. -/
def postfixStep (nested : Reader Tree) (e : Tree) : Reader Tree :=
  (do mark '.'; return .member e (← token .name)) <|>
  (do mark '['; let key ← nested; mark ']'; return .index e key) <|>
  (do mark '('; return .call e (← arguments nested))

/-- An operand with accesses and calls. -/
def operand (nested : Reader Tree) : Reader Tree := do
  steps (postfixStep nested) (← primary nested)

/-- An operand with at most `n` operators before it. -/
def prefixedWithin (nested : Reader Tree) : Nat → Reader Tree
  | 0 => fail
  | n + 1 => (operand nested).orWhereNot do
    let operator ← token .unary
    let e ← prefixedWithin nested n
    return .unary operator e

/-- An operand with any operators before it. -/
def prefixed (nested : Reader Tree) : Reader Tree := fun s => prefixedWithin nested (s.length + 1) s

/-- Operands with operators of one level between them, from left to right. -/
def leftToRight (operator : Terminal) (make : Text → Tree → Tree → Tree) (item : Reader Tree) :
    Reader Tree := do
  steps (fun left => do
    let op ← token operator
    let right ← item
    return make op left right) (← item)

/-- Products. -/
def product (nested : Reader Tree) : Reader Tree :=
  leftToRight .multiplicative .binary (prefixed nested)

/-- Sums. -/
def sum (nested : Reader Tree) : Reader Tree := leftToRight .additive .binary (product nested)

/-- Comparisons. -/
def comparison (nested : Reader Tree) : Reader Tree := leftToRight .relational .binary (sum nested)

/-- Conditions. -/
def condition (nested : Reader Tree) : Reader Tree := leftToRight .logical .logical (comparison nested)

/-- A condition, or a choice between two expressions. -/
def conditional (nested : Reader Tree) : Reader Tree := do
  let test ← condition nested
  pure test <|> (do
    mark '?'
    let consequent ← nested
    mark ':'
    return .conditional test consequent (← nested))

/-- An expression with others nested in it less than `n` deep. -/
def expressionWithin : Nat → Reader Tree
  | 0 => fail
  | n + 1 => conditional (expressionWithin n)

/-- An expression. -/
def expression : Reader Tree := fun s => expressionWithin (s.length + 1) s

/-- An import call. -/
def importCall : Reader Source := do
  let _ ← token .importWord
  mark '('
  let argument ← expression
  let options ← pure none <|> (do mark ','; return some (← expression))
  optionalComma
  mark ')'
  return .importCall argument options

/-- A whole source, up to the end of the text. -/
def source : Reader Source := do
  let s ← importCall <|> (do return .expression (← expression))
  finish
  return s

end VariableImport.Script
