import VariableImport.Text.Quoted

/-!
# Expression/Basic — the argument of an import as far as its value matters

The argument of an import as far as its value matters: literals, templates, concatenations, and
everything else, which may have any value.  `describe` shows an expression in messages.
-/

namespace VariableImport

/-- The argument of an import. -/
inductive Expression where
  /-- A literal with its value. -/
  | literal (value : Text)
  /-- Static fragments with expressions between them; as written there is one fragment more. -/
  | template (quasis : List Text) (holes : List Expression)
  /-- Two operands and the operator between them. -/
  | binary (operator : Text) (left right : Expression)
  /-- A `.concat` call. -/
  | concat (receiver : Expression) (arguments : List Expression)
  /-- Any other expression: its kind, its source and, for a member access, receiver and member. -/
  | other (kind source : Text) (receiver : Option Expression) (member : Option Text)
deriving Repr, Inhabited

namespace Expression

/-- An identifier. -/
def identifier (name : Text) : Expression := .other "Identifier".toList name none none

/-- The name of the form of an expression. -/
def form : Expression → Text
  | .literal .. => "Literal".toList
  | .template .. => "TemplateLiteral".toList
  | .binary .. => "Concatenation".toList
  | .concat .. => "ConcatCall".toList
  | .other .. => "Other".toList

mutual

/-- The expression close to how it is written. -/
def describe : Expression → Text
  | .literal value => Text.quoted value
  | .template quasis holes => '`' :: quasis.headD [] ++ describeHoles holes quasis.tail ++ ['`']
  | .binary operator left right => describe left ++ ' ' :: operator ++ ' ' :: describe right
  | .concat receiver arguments =>
    describe receiver ++ ".concat(".toList ++ describeItems arguments ++ [')']
  | .other kind source _ _ => if source.isEmpty then kind else source

/-- Expressions of a template with the fragment after each, as long as both last. -/
def describeHoles : List Expression → List Text → Text
  | e :: holes, q :: quasis => '$' :: '\x7b' :: describe e ++ '\x7d' :: q ++ describeHoles holes quasis
  | _, _ => []

/-- Expressions with commas between them. -/
def describeItems : List Expression → Text
  | [] => []
  | [e] => describe e
  | e :: f :: es => describe e ++ ',' :: ' ' :: describeItems (f :: es)

end

mutual

/-- Whether no template that `describe` shows lacks a first fragment. -/
def isShown : Expression → Bool
  | .literal _ | .other .. => true
  | .template quasis holes => !quasis.isEmpty && areShown (quasis.length - 1) holes
  | .binary _ left right => isShown left && isShown right
  | .concat receiver arguments => isShown receiver && areShown arguments.length arguments

/-- Whether `isShown` holds of the first `n` members. -/
def areShown : Nat → List Expression → Bool
  | n + 1, e :: es => isShown e && areShown n es
  | _, _ => true

end

end Expression

end VariableImport
