import VariableImport.Pattern.Reader
import VariableImport.Error

/-!
# Alias/Rule — the part of a specifier that a rule matches

A rule replaces the head of a specifier.  A literal rule matches its text before a slash; a regular
expression is searched anywhere, by any engine.
-/

namespace VariableImport

/-- One alias: what is found is replaced. -/
structure AliasRule where
  find : Text
  replacement : Text
  regex : Bool := false
deriving DecidableEq, Repr

namespace AliasRule

/-- Start and end of the aliased part of a specifier, if the rule matches. -/
def span (rule : AliasRule) (specifier : Text) (engine : Engine := Pattern.engine) :
    Except Failure (Option (Nat × Nat)) :=
  if rule.regex then
    match engine rule.find with
    | some search => .ok (search specifier)
    | none => .error (.badPattern rule.find)
  else if specifier.startsWith (rule.find ++ ['/']) then .ok (some (0, rule.find.length))
  else .ok none

/-- A literal rule never fails. -/
theorem span_literal {rule : AliasRule} (h : rule.regex = false) (specifier : Text) (engine : Engine) :
    rule.span specifier engine = .ok
      (if specifier.startsWith (rule.find ++ ['/']) then some (0, rule.find.length) else none) := by
  by_cases hs : specifier.startsWith (rule.find ++ ['/']) <;> simp [span, h, hs]

end AliasRule

end VariableImport
