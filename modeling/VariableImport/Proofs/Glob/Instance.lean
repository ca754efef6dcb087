import Mathlib.Data.List.Infix
import VariableImport.Glob.Basic
import VariableImport.Glob.Component

/-!
# Proofs/Glob/Instance — the texts that a glob stands for

`Instance g s` says that `s` is `g` with a text in place of every wildcard.  Instances of a glob are
instances of its parts one after another (`instance_append`), so a glob can be taken apart at any
place.  A run of wildcards stands for no more than one of them (`instance_collapse`).
-/

namespace VariableImport.Glob

/-- **An instance of a glob**: every wildcard is replaced by some text, all else stands for
itself. -/
inductive Instance : Text → Text → Prop
  | nil : Instance [] []
  | char {c : Char} {g s : Text} (hc : c ≠ wildcard) (h : Instance g s) : Instance (c :: g) (c :: s)
  | star {g s : Text} (fill : Text) (h : Instance g s) : Instance (wildcard :: g) (fill ++ s)

@[simp] theorem instance_nil {s : Text} : Instance [] s ↔ s = [] :=
  ⟨fun h => by cases h; rfl, fun h => h ▸ .nil⟩

theorem instance_star {g s : Text} :
    Instance (wildcard :: g) s ↔ ∃ fill t, s = fill ++ t ∧ Instance g t := by
  constructor
  · intro h
    cases h with
    | char hc _ => exact absurd rfl hc
    | star fill h => exact ⟨fill, _, rfl, h⟩
  · rintro ⟨fill, t, rfl, h⟩
    exact .star fill h

theorem instance_char {c : Char} {g s : Text} (hc : c ≠ wildcard) :
    Instance (c :: g) s ↔ ∃ t, s = c :: t ∧ Instance g t := by
  constructor
  · intro h
    cases h with
    | char _ h => exact ⟨_, rfl, h⟩
    | star fill h => exact absurd rfl hc
  · rintro ⟨t, rfl, h⟩
    exact .char hc h

/-- A lone wildcard stands for every text. -/
theorem instance_wildcard (s : Text) : Instance [wildcard] s := by
  simpa using Instance.star s .nil

theorem Instance.append {g h s t : Text} (hg : Instance g s) (hh : Instance h t) :
    Instance (g ++ h) (s ++ t) := by
  induction hg with
  | nil => exact hh
  | char hc _ ih => exact .char hc ih
  | star fill _ ih =>
    rw [List.append_assoc]
    exact .star fill ih

/-- **Instances are taken apart with their glob.** -/
theorem instance_append {g h s : Text} :
    Instance (g ++ h) s ↔ ∃ a b, s = a ++ b ∧ Instance g a ∧ Instance h b := by
  refine ⟨fun hs => ?_, fun ⟨a, b, e, hg, hh⟩ => e ▸ hg.append hh⟩
  induction g generalizing s with
  | nil => exact ⟨[], s, rfl, .nil, hs⟩
  | cons c g ih =>
    by_cases hc : c = wildcard
    · subst hc
      obtain ⟨fill, t, rfl, ht⟩ := instance_star.mp hs
      obtain ⟨a, b, rfl, hg, hh⟩ := ih ht
      exact ⟨fill ++ a, b, by simp, .star fill hg, hh⟩
    · obtain ⟨t, rfl, ht⟩ := (instance_char hc).mp hs
      obtain ⟨a, b, rfl, hg, hh⟩ := ih ht
      exact ⟨c :: a, b, rfl, .char hc hg, hh⟩

/-- A glob without a wildcard stands for itself alone. -/
theorem instance_fixed {g s : Text} (hg : wildcard ∉ g) : Instance g s ↔ s = g := by
  induction g generalizing s with
  | nil => exact instance_nil
  | cons c g ih =>
    obtain ⟨hc, hg⟩ := not_or.mp (List.mem_cons.not.mp hg)
    rw [instance_char (Ne.symm hc)]
    constructor
    · rintro ⟨t, rfl, ht⟩
      rw [(ih hg).mp ht]
    · rintro rfl
      exact ⟨g, rfl, (ih hg).mpr rfl⟩

/-- Every glob is an instance of itself. -/
theorem instance_self (g : Text) : Instance g g := by
  induction g with
  | nil => exact .nil
  | cons c g ih =>
    by_cases hc : c = wildcard
    · subst hc
      exact .star [wildcard] ih
    · exact .char hc ih

/-! ## Deciding -/

/-- Whether a text is an instance of a glob. -/
def isInstance : Text → Text → Bool
  | [], s => s.isEmpty
  | c :: g, s =>
    if c = wildcard then matchTail (isInstance g) s
    else match s with
      | [] => false
      | d :: t => c == d && isInstance g t

theorem isInstance_iff {g s : Text} : isInstance g s = true ↔ Instance g s := by
  induction g generalizing s with
  | nil => simp [isInstance]
  | cons c g ih =>
    unfold isInstance
    by_cases hc : c = wildcard
    · subst hc
      rw [if_pos rfl, matchTail_iff, instance_star]
      simp only [ih]
    · rw [if_neg hc, instance_char hc]
      cases s with
      | nil => simp
      | cons d t =>
        rw [Bool.and_eq_true, beq_iff_eq, ih]
        constructor
        · rintro ⟨rfl, h⟩
          exact ⟨t, rfl, h⟩
        · rintro ⟨u, e, h⟩
          obtain ⟨rfl, rfl⟩ := List.cons.inj e
          exact ⟨rfl, h⟩

instance (g s : Text) : Decidable (Instance g s) := decidable_of_iff _ isInstance_iff

/-! ## Runs of wildcards -/

/-- **Collapsing keeps the instances.** -/
theorem instance_collapse (g s : Text) : Instance (collapse g) s ↔ Instance g s := by
  induction g generalizing s with
  | nil => rfl
  | cons c g ih =>
    unfold collapse
    split
    · next h =>
      obtain ⟨rfl, hd⟩ := h
      obtain ⟨g, rfl⟩ := List.head?_eq_some_iff.mp hd
      rw [ih, instance_star, instance_star]
      constructor
      · rintro ⟨fill, t, rfl, ht⟩
        exact ⟨[], fill ++ t, rfl, .star fill ht⟩
      · rintro ⟨fill, t, rfl, ht⟩
        obtain ⟨more, u, rfl, hu⟩ := instance_star.mp ht
        exact ⟨fill ++ more, u, (List.append_assoc ..).symm, hu⟩
    · by_cases hc : c = wildcard
      · subst hc
        simp only [instance_star, ih]
      · simp only [instance_char hc, ih]

theorem head?_collapse (g : Text) : (collapse g).head? = g.head? := by
  induction g with
  | nil => rfl
  | cons c g ih =>
    unfold collapse
    split
    · next h => rw [ih, h.2, h.1]; rfl
    · rfl

/-- Collapsing takes characters away. -/
theorem collapse_sublist (g : Text) : (collapse g).Sublist g := by
  induction g with
  | nil => exact .slnil
  | cons c g ih =>
    unfold collapse
    split
    · exact ih.cons c
    · exact ih.cons_cons c

/-- Text without a wildcard is not collapsed. -/
theorem collapse_append {s : Text} (hs : wildcard ∉ s) (g : Text) :
    collapse (s ++ g) = s ++ collapse g := by
  induction s with
  | nil => rfl
  | cons c s ih =>
    obtain ⟨hc, hs⟩ := not_or.mp (List.mem_cons.not.mp hs)
    rw [List.cons_append, collapse, if_neg fun h => hc h.1.symm, ih hs]
    rfl

theorem wildcard_mem_collapse {g : Text} : wildcard ∈ collapse g ↔ wildcard ∈ g := by
  induction g with
  | nil => rfl
  | cons c g ih =>
    unfold collapse
    split
    · next h =>
      obtain ⟨rfl, hd⟩ := h
      rw [ih]
      exact ⟨List.mem_cons_of_mem _, fun _ => List.mem_of_head? hd⟩
    · rw [List.mem_cons, List.mem_cons, ih]

/-- **No two wildcards stand side by side after collapsing.** -/
theorem not_infix_collapse (g : Text) : ¬ [wildcard, wildcard] <:+: collapse g := by
  induction g with
  | nil => simp [collapse]
  | cons c g ih =>
    unfold collapse
    split
    · exact ih
    · next h =>
      rw [List.infix_cons_iff, not_or]
      refine ⟨fun hp => h ?_, ih⟩
      obtain ⟨hc, hp⟩ := List.cons_prefix_cons.mp hp
      obtain ⟨t, ht⟩ := hp
      exact ⟨hc.symm, by rw [← head?_collapse, ← ht]; rfl⟩

end VariableImport.Glob
