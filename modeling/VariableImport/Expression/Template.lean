import VariableImport.Expression.Basic

/-!
# Expression/Template — templates from parts in any order

`ofParts` makes a template of static texts and expressions in any order: adjacent texts run together
and a fragment stands before, between and after the expressions, empty where no text does.
-/

namespace VariableImport.Template

/-- A part of a template. -/
inductive Part where
  | static (text : Text)
  | hole (e : Expression)

/-- The first fragment, and every expression with the fragment after it. -/
def pieces : List Part → Text × List (Expression × Text)
  | [] => ([], [])
  | .static text :: parts => (text ++ (pieces parts).1, (pieces parts).2)
  | .hole e :: parts => ([], (e, (pieces parts).1) :: (pieces parts).2)

/-- The template of a list of parts. -/
def ofParts (parts : List Part) : Expression :=
  .template ((pieces parts).1 :: (pieces parts).2.map Prod.snd) ((pieces parts).2.map Prod.fst)

end VariableImport.Template
