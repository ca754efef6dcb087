import Mathlib.Data.List.Induction
import Mathlib.Data.List.Nodup
import VariableImport.Text.Basic

/-!
# Proofs/Text/Distinct — first occurrences

What is kept of a list are the first occurrences of its members (`distinct_eq_eraseDups`).  They are
the same if repetitions are taken out of parts of the list before (`distinct_flatMap_distinct`), and a list
without repetition is kept as it is (`distinct_eq_self`).
-/

namespace VariableImport.Text

variable {α β : Type} [BEq α] [LawfulBEq α]

/-- What is put behind a list are the first occurrences of what it does not hold. -/
theorem foldl_addNew_eq (xs seen : List α) :
    xs.foldl addNew seen = seen ++ (xs.filter (!seen.contains ·)).eraseDups := by
  induction xs generalizing seen with
  | nil => simp
  | cons x xs ih =>
    rw [List.foldl_cons, ih, addNew]
    split
    · next hx => rw [List.filter_cons_of_neg (by rw [hx]; decide)]
    · next hx =>
      rw [Bool.not_eq_true] at hx
      rw [List.filter_cons_of_pos (by rw [hx]; decide), List.eraseDups_cons, List.filter_filter, List.append_assoc,
        List.singleton_append]
      congr 3
      refine List.filter_congr fun y _ => ?_
      by_cases hy : y = x <;> simp [hy]

/-- **First occurrences are kept**, in their order. -/
theorem distinct_eq_eraseDups (xs : List α) : distinct xs = xs.eraseDups := by
  rw [distinct, foldl_addNew_eq, List.nil_append]
  exact congrArg List.eraseDups (List.filter_eq_self.mpr fun _ _ => rfl)

/-- What stands in the list already changes nothing. -/
theorem addNew_of_mem {seen : List α} {x : α} (h : x ∈ seen) : addNew seen x = seen :=
  if_pos (List.contains_iff_mem.mpr h)

theorem foldl_addNew_eq_self {seen xs : List α} (h : ∀ x ∈ xs, x ∈ seen) : xs.foldl addNew seen = seen := by
  induction xs with
  | nil => rfl
  | cons x xs ih =>
    rw [List.foldl_cons, addNew_of_mem (h x (List.mem_cons_self ..))]
    exact ih fun y hy => h y (List.mem_cons_of_mem _ hy)

/-- Repetitions within what is put behind a list do not matter. -/
theorem foldl_addNew_distinct (xs seen : List α) : (distinct xs).foldl addNew seen = xs.foldl addNew seen := by
  induction xs using List.reverseRecOn with
  | nil => rfl
  | append_singleton xs x ih =>
    have hlast : distinct (xs ++ [x]) = addNew (distinct xs) x := List.foldl_append ..
    rw [hlast, List.foldl_append, List.foldl_cons, List.foldl_nil, ← ih]
    by_cases hx : x ∈ distinct xs
    · rw [addNew_of_mem hx, addNew_of_mem (mem_foldl_addNew.mpr (.inr hx))]
    · rw [addNew, if_neg (List.contains_iff_mem.not.mpr hx), List.foldl_append]
      rfl

/-- **Repetitions within parts do not matter.** -/
theorem distinct_flatMap_distinct (xs : List β) (part : β → List α) :
    distinct (xs.flatMap fun x => distinct (part x)) = distinct (xs.flatMap part) := by
  have hparts (seen : List α) : (xs.flatMap fun x => distinct (part x)).foldl addNew seen =
      (xs.flatMap part).foldl addNew seen := by
    induction xs generalizing seen with
    | nil => rfl
    | cons x xs ih =>
      rw [List.flatMap_cons, List.flatMap_cons, List.foldl_append, List.foldl_append, foldl_addNew_distinct, ih]
  exact hparts []

theorem foldl_addNew_eq_concat {seen xs : List α} {p : α} (hnew : p ∉ seen) (hp : p ∈ xs)
    (h : ∀ x ∈ xs, x ∈ seen ∨ x = p) : xs.foldl addNew seen = seen ++ [p] := by
  induction xs with
  | nil => exact absurd hp List.not_mem_nil
  | cons x xs ih =>
    have hrest : ∀ y ∈ xs, y ∈ seen ∨ y = p := fun y hy => h y (List.mem_cons_of_mem _ hy)
    rw [List.foldl_cons]
    rcases h x (List.mem_cons_self ..) with hx | rfl
    · have hne : p ≠ x := fun e => hnew (e ▸ hx)
      rw [addNew_of_mem hx]
      exact ih (List.mem_of_ne_of_mem hne hp) hrest
    · rw [addNew, if_neg (List.contains_iff_mem.not.mpr hnew)]
      exact foldl_addNew_eq_self fun y hy => by simpa using hrest y hy

/-- **A step changes nothing** if it gives each member again, and else only members before it. -/
theorem distinct_flatMap_eq_self {xs : List α} {step : α → List α} (hnodup : xs.Nodup)
    (h : ∀ before p after, xs = before ++ p :: after → p ∈ step p ∧ ∀ x ∈ step p, x ∈ before ∨ x = p) :
    distinct (xs.flatMap step) = xs := by
  induction xs using List.reverseRecOn with
  | nil => rfl
  | append_singleton xs p ih =>
    obtain ⟨hxs, -, hnew⟩ := List.nodup_append.mp hnodup
    have hrest := ih hxs fun before q after e => h before q (after ++ [p]) (by simp [e])
    obtain ⟨hp, hstep⟩ := h xs p [] rfl
    rw [List.flatMap_append, distinct, List.foldl_append, List.flatMap_singleton]
    rw [distinct] at hrest
    rw [hrest]
    exact foldl_addNew_eq_concat (fun hmem => hnew p hmem p (List.mem_singleton_self p) rfl) hp hstep

theorem distinct_eq_self {xs : List α} (hnodup : xs.Nodup) : distinct xs = xs := by
  have h : distinct (xs.flatMap fun x => [x]) = xs :=
    distinct_flatMap_eq_self hnodup fun _ p _ _ => by simp
  rwa [List.flatMap_singleton'] at h

end VariableImport.Text
