import VariableImport.Expression.Basic
import VariableImport.Script.Literal

/-!
# Script/Tree — expressions as they are written

An expression as it is written, literals still spelled out, and the import expression that it
stands for (`Tree.toExpression`).
-/

namespace VariableImport.Script

/-- An expression as it is written; parentheses leave no trace. -/
inductive Tree where
  /-- A string with the text between its quotes. -/
  | string (body : Text)
  | number (digits : Text)
  | name (name : Text)
  /-- A template with its fragments as written and the expressions between them. -/
  | template (quasis : List Text) (holes : List Tree)
  | member (receiver : Tree) (name : Text)
  | index (receiver key : Tree)
  | call (callee : Tree) (arguments : List Tree)
  | unary (operator : Text) (operand : Tree)
  | binary (operator : Text) (left right : Tree)
  | logical (operator : Text) (left right : Tree)
  | conditional (test consequent alternate : Tree)
deriving Repr, Inhabited

/-- A whole source: an import call with its argument and options, or an expression alone. -/
inductive Source where
  | importCall (argument : Tree) (options : Option Tree)
  | expression (e : Tree)
deriving Repr, Inhabited

open Expression in
/-- A member access. -/
def memberOf (receiver : Expression) (name : Text) : Expression :=
  .other "MemberExpression".toList (describe receiver ++ '.' :: name) (some receiver) (some name)

open Expression in
/-- An access by a computed key. -/
def indexOf (receiver key : Expression) : Expression :=
  .other "MemberExpression".toList (describe receiver ++ '[' :: describe key ++ [']']) none none

open Expression in
/-- **A call**: of a member named `concat` it joins texts, and otherwise may give anything. -/
def callOf (callee : Expression) (arguments : List Expression) : Expression :=
  match callee with
  | .other _ _ (some receiver) (some ['c', 'o', 'n', 'c', 'a', 't']) => .concat receiver arguments
  | _ => .other "CallExpression".toList
      (describe callee ++ '(' :: describeItems arguments ++ [')']) none none

open Expression in
/-- An operator before its operand. -/
def unaryOf (operator : Text) (operand : Expression) : Expression :=
  .other "UnaryExpression".toList (operator ++ describe operand) none none

open Expression in
/-- Either of two operands, as a condition decides. -/
def logicalOf (operator : Text) (left right : Expression) : Expression :=
  .other "LogicalExpression".toList
    (describe left ++ ' ' :: operator ++ ' ' :: describe right) none none

open Expression in
/-- Either of two branches. -/
def conditionalOf (test consequent alternate : Expression) : Expression :=
  .other "ConditionalExpression".toList
    (describe test ++ " ? ".toList ++ describe consequent ++ " : ".toList ++ describe alternate)
    none none

mutual

/-- The import expression that a tree stands for; none if a string spells a code point beyond
Unicode. -/
def Tree.toExpression : Tree → Option Expression
  | .string body => (unescape body).toOption.map .literal
  | .number digits => some (.literal digits)
  | .name name => some (.identifier name)
  | .template quasis holes => do return .template quasis (← toExpressions holes)
  | .member receiver name => do return memberOf (← receiver.toExpression) name
  | .index receiver key => do return indexOf (← receiver.toExpression) (← key.toExpression)
  | .call callee arguments => do
    return callOf (← callee.toExpression) (← toExpressions arguments)
  | .unary operator operand => do return unaryOf operator (← operand.toExpression)
  | .binary operator left right => do
    return .binary operator (← left.toExpression) (← right.toExpression)
  | .logical operator left right => do
    return logicalOf operator (← left.toExpression) (← right.toExpression)
  | .conditional test consequent alternate => do
    return conditionalOf (← test.toExpression) (← consequent.toExpression)
      (← alternate.toExpression)

/-- The import expressions that trees stand for. -/
def toExpressions : List Tree → Option (List Expression)
  | [] => some []
  | t :: ts => do return (← t.toExpression) :: (← toExpressions ts)

end

/-- The import expression of a source: the argument of an import call, whose options have to be
sound as well, or the expression itself. -/
def Source.toExpression : Source → Option Expression
  | .expression e => e.toExpression
  | .importCall argument none => argument.toExpression
  | .importCall argument (some options) => do
    let _ ← options.toExpression
    argument.toExpression

end VariableImport.Script
