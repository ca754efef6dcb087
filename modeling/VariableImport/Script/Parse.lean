import VariableImport.Script.Grammar
import VariableImport.Text.Lines
import VariableImport.Error

/-!
# Script/Parse — a trimmed source is read as a whole

`Script.parse` reads a trimmed source as a whole.  A source that is no expression is rejected at the
first character where nothing was left to go on with: no reading had come further, and no gap was
under way.  A source that only stops too early is rejected without a place.
-/

namespace VariableImport.Script

/-- The first place, at least `reached`, with no gap that started at or before it and goes on after
it.  `place` is that of the text, `pending` the farthest end of the gaps before it. -/
def stallFrom (reached : Nat) : Nat → Nat → Text → Option Nat
  | _, _, [] => none
  | place, pending, c :: s =>
    let pending := match gap? (c :: s) with
      | some rest => max pending (place + (s.length + 1 - rest.length))
      | none => pending
    if reached ≤ place ∧ pending ≤ place + 1 then some place
    else stallFrom reached (place + 1) pending s

/-- Where reading broke off in a text of which at least `left` characters were always left. -/
def stall (s : Text) (left : Nat) : Option Nat := stallFrom (s.length - left) 0 0 s

/-- The rejection of a source whose trimmed form broke off with `left` characters left. -/
def rejection (given trimmed : Text) (left : Nat) : ImportError :=
  match stall trimmed left with
  | none => .ofSource (fun _ => .syntaxError none none) given
  | some place =>
    let (line, column) := Text.lineColumn (trimmed.take place)
    .ofSource (fun _ => .syntaxError (some line) (some column)) given

/-- **The import expression that a source spells.** -/
def parse (given : Text) : Except ImportError Expression :=
  let trimmed := Text.trim given
  let findings := source trimmed
  match findings.found with
  | [] => .error (rejection given trimmed findings.left)
  | (tree, _) :: _ =>
    match tree.toExpression with
    | some e => .ok e
    | none => .error (.ofSource (fun _ => .syntaxError none none) given)

end VariableImport.Script
