import VariableImport.Text.Basic

/-!
# Proofs/Text/Replace — occurrences of a text and their replacement

A text without an occurrence stays as it is (`replace_eq_self`).  No occurrence crosses a character that
it does not hold, so on the two sides of such a character the replacement is made apart
(`replace_append_cons`).
-/

namespace VariableImport.Text

variable {old new s : Text} {c : Char}

theorem contains_iff {s part : Text} : s.contains part = true ↔ part <:+: s := by
  induction s with
  | nil => simp [contains]
  | cons c s ih => rw [contains, Bool.or_eq_true, List.isPrefixOf_iff_prefix, ih, List.infix_cons_iff]

/-- **What does not occur** is not replaced. -/
theorem replace_eq_self (hold : old ≠ []) (hs : s.contains old = false) (new : Text) :
    replace s old new = s := by
  induction s with
  | nil => exact replace_nil hold new
  | cons c s ih =>
    have hnone : ¬ old <:+: c :: s := fun h => by simp [contains_iff.mpr h] at hs
    have hrest : Text.contains s old = false :=
      Bool.eq_false_iff.mpr fun h => hnone ((contains_iff.mp h).trans (List.suffix_cons c s).isInfix)
    rw [replace_cons hold new fun h => hnone h.isInfix, ih hrest]

/-- A text occurs only where its characters do. -/
theorem contains_eq_false (hc : c ∈ old) (hs : c ∉ s) : s.contains old = false :=
  Bool.eq_false_iff.mpr fun h => hs ((contains_iff.mp h).subset hc)

/-- What a text begins with before some character, it begins with up to the character. -/
theorem prefix_of_prefix_append_cons {head before rest : Text} (hc : c ∉ head)
    (h : head <+: before ++ c :: rest) : head <+: before := by
  obtain ⟨t, ht⟩ := h
  rcases List.append_eq_append_iff.mp ht with ⟨z, rfl, -⟩ | ⟨z, rfl, hz⟩
  · exact List.prefix_append _ _
  · cases z with
    | nil => simp
    | cons d z =>
      obtain ⟨rfl, -⟩ := List.cons.inj hz
      exact absurd (by simp) hc

theorem replace_self (hold : old ≠ []) (new : Text) : replace old old new = new := by
  have h := replace_append_self hold new []
  rwa [List.append_nil, replace_nil hold, List.append_nil] at h

/-- **A character that an occurrence does not hold** parts the replacement. -/
theorem replace_append_cons (hold : old ≠ []) (hc : c ∉ old) (new a b : Text) :
    replace (a ++ c :: b) old new = replace a old new ++ c :: replace b old new := by
  induction hn : a.length using Nat.strongRecOn generalizing a with
  | ind n ih =>
    by_cases hocc : old <+: a
    · -- the occurrence at the start is replaced in both texts, and less is left behind it
      obtain ⟨rest, rfl⟩ := hocc
      have hlength := List.length_pos_iff.mpr hold
      have hrest := ih rest.length (by rw [← hn, List.length_append]; omega) rest rfl
      rw [List.append_assoc, replace_append_self hold, replace_append_self hold, hrest, List.append_assoc]
    · have hboth : ¬ old <+: a ++ c :: b := fun h => hocc (prefix_of_prefix_append_cons hc h)
      cases a with
      | nil => rw [List.nil_append, replace_cons hold new hboth, replace_nil hold, List.nil_append]
      | cons d a =>
        rw [List.cons_append] at hboth
        rw [List.cons_append, replace_cons hold new hboth, replace_cons hold new hocc,
          ih a.length (by rw [← hn, List.length_cons]; omega) a rfl, List.cons_append]

end VariableImport.Text
