import VariableImport.Enumeration
import VariableImport.Proofs.DispatchTable.Candidates

/-!
# Proofs/DispatchTable/Lookup — the first file keeps a specifier

A table gives a specifier to the first file that has it (`lookup_ofFiles`).  Two paths have a specifier
in common only if they lie at one depth, or one is the index file below the other
(`exists_index_of_shared`).
-/

namespace VariableImport

/-! ## The first of several -/

namespace Text

theorem findSome?_flatMap {α β γ : Type} (f : β → Option γ) (g : α → List β) (xs : List α) :
    (xs.flatMap g).findSome? f = xs.findSome? fun x => (g x).findSome? f := by
  induction xs with
  | nil => rfl
  | cons x xs ih =>
    rw [List.flatMap_cons, List.findSome?_append, ih, List.findSome?_cons]
    cases (g x).findSome? f <;> rfl

variable {α β : Type} [BEq α] [LawfulBEq α]

theorem findSome?_addNew (f : α → Option β) (seen : List α) (x : α) :
    (addNew seen x).findSome? f = (seen ++ [x]).findSome? f := by
  unfold addNew
  split
  · next h =>
    rw [List.findSome?_append]
    cases hs : seen.findSome? f with
    | some b => rfl
    | none =>
      have hx := List.findSome?_eq_none_iff.mp hs x (List.contains_iff_mem.mp h)
      simp [hx]
  · rfl

/-- **Keeping first occurrences** keeps the first result. -/
theorem findSome?_distinct (f : α → Option β) (xs : List α) :
    (distinct xs).findSome? f = xs.findSome? f := by
  have go (xs seen : List α) : (xs.foldl addNew seen).findSome? f = (seen ++ xs).findSome? f := by
    induction xs generalizing seen with
    | nil => simp
    | cons x xs ih =>
      rw [List.foldl_cons, ih, List.findSome?_append, findSome?_addNew, ← List.findSome?_append]
      simp
  rw [distinct, go, List.nil_append]

theorem find?_distinct (p : α → Bool) (xs : List α) : (distinct xs).find? p = xs.find? p := by
  have h (l : List α) : l.find? p = l.findSome? fun x => if p x then some x else none := by
    induction l with
    | nil => rfl
    | cons x l ih => by_cases hx : p x = true <;> simp [hx, ih]
  rw [h, h, findSome?_distinct]

end Text

namespace DispatchTable

open Glob

/-! ## Looking up -/

theorem lookup_register (table : DispatchTable) (specifier file k : Text) :
    (table.register specifier file).lookup k =
      (table.lookup k).or (if k = specifier then some file else none) := by
  unfold register
  cases hs : table.lookup specifier with
  | none =>
    show (table.entries ++ [(specifier, file)]).lookup k = _
    rw [List.lookup_append]
    refine congrArg _ ?_
    by_cases hk : k = specifier
    · simp [hk]
    · simp [hk, List.lookup_cons, beq_eq_false_iff_ne.mpr hk]
  | some kept =>
    have hkeep : table.lookup k = (table.lookup k).or (if k = specifier then some file else none) := by
      by_cases hk : k = specifier
      · rw [hk, hs]
        rfl
      · simp [hk]
    dsimp only
    split
    · exact hkeep
    · exact hkeep

theorem lookup_foldl_register (regs : List (Text × Text)) (table : DispatchTable) (k : Text) :
    (regs.foldl (fun table (specifier, file) => table.register specifier file) table).lookup k =
      (table.lookup k).or (regs.lookup k) := by
  induction regs generalizing table with
  | nil => simp
  | cons r regs ih =>
    obtain ⟨specifier, file⟩ := r
    rw [List.foldl_cons, ih, lookup_register, Option.or_assoc]
    refine congrArg _ ?_
    by_cases hk : k = specifier
    · simp [hk]
    · simp [hk, List.lookup_cons, beq_eq_false_iff_ne.mpr hk]

theorem lookup_registrations (resolved : Option Resolved) (files : List Text) (k : Text) :
    (registrations resolved files).lookup k =
      files.find? fun file => decide (k ∈ candidates resolved file) := by
  have hone (file : Text) (specifiers : List Text) :
      (specifiers.map fun specifier => (specifier, file)).lookup k =
        if k ∈ specifiers then some file else none := by
    induction specifiers with
    | nil => rfl
    | cons specifier specifiers ih =>
      by_cases hk : k = specifier
      · simp [hk]
      · simp [hk, List.lookup_cons, beq_eq_false_iff_ne.mpr hk, ih]
  unfold registrations
  induction files with
  | nil => rfl
  | cons file files ih =>
    rw [List.flatMap_cons, List.lookup_append, ih, hone]
    by_cases hk : k ∈ candidates resolved file <;> simp [hk]

/-- **A specifier stands for the first file that has it.** -/
theorem lookup_ofFiles (files : List Text) (resolved : Option Resolved) (k : Text) :
    (ofFiles files resolved).lookup k =
      files.find? fun file => decide (k ∈ candidates resolved file) := by
  rw [ofFiles, lookup_foldl_register, lookup_registrations]
  rfl

/-! ## Shared specifiers -/

/-- An extension is a word behind a dot. -/
theorem exists_extension_eq {p : Text} (h : Path.extension p ≠ []) :
    ∃ stem word, p = stem ++ '.' :: word ∧ Path.extension p = '.' :: word ∧ IsWord word := by
  cases hcut : Text.cutLast '.' (Path.cutName p).2 with
  | none => simp [Path.extension, Path.splitExtension, hcut] at h
  | some cut =>
    obtain ⟨stem, word⟩ := cut
    by_cases hall : stem.all (· == '.') = true
    · simp [Path.extension, Path.splitExtension, hcut, hall] at h
    · have hsplit : Path.splitExtension p = ((Path.cutName p).1 ++ stem, '.' :: word) := by
        simp [Path.splitExtension, hcut, hall]
      have hp := Path.splitExtension_append p
      rw [hsplit] at hp
      obtain ⟨e, hdot⟩ := Text.cutLast_eq_some.mp hcut
      have hslash : '/' ∉ (Path.cutName p).2 := Path.slash_not_mem_basename p
      refine ⟨_, word, hp.symm, by rw [Path.extension, hsplit], hdot, fun hmem => hslash ?_⟩
      rw [e]
      simp [hmem]

/-- **The specifiers of a path** are the path, and what is left without an extension or an index
file. -/
theorem mem_specifiersOf {k p : Text} (h : k ∈ specifiersOf p) :
    k = p ∨ ∃ word, IsWord word ∧ (p = k ++ '.' :: word ∨ p = k ++ indexName ++ '.' :: word) := by
  unfold specifiersOf at h
  dsimp only at h
  split at h
  · exact .inl (List.mem_singleton.mp h)
  · next hext =>
    obtain ⟨stem, word, hp, he, hword⟩ := exists_extension_eq hext
    have hstem : p.take (p.length - (Path.extension p).length) = stem := by
      rw [he, hp, List.length_append, Nat.add_sub_cancel, List.take_left]
    rw [hstem] at h
    have hwhole : k = stem → ∃ word, IsWord word ∧ (p = k ++ '.' :: word ∨
        p = k ++ indexName ++ '.' :: word) := fun e => ⟨word, hword, .inl (e ▸ hp)⟩
    split at h
    · next hends =>
      rw [Text.endsWith, List.isSuffixOf_iff_suffix] at hends
      obtain ⟨s, hs⟩ := hends
      have htake : p.take (p.length - (indexName ++ Path.extension p).length) = s := by
        have hlen : p.length - (indexName ++ Path.extension p).length = s.length := by
          have := congrArg List.length hs
          rw [List.length_append] at this
          omega
        rw [hlen]
        exact hs ▸ List.take_left
      rw [htake] at h
      simp only [List.mem_cons, List.not_mem_nil, or_false] at h
      rcases h with rfl | h | h
      · exact .inr ⟨word, hword, .inr (by rw [← hs, he]; simp)⟩
      · exact .inr (hwhole h)
      · exact .inl h
    · simp only [List.mem_cons, List.not_mem_nil, or_false] at h
      exact h.elim (fun h => .inr (hwhole h)) .inl

theorem IsWord.count_slash {word : Text} (h : IsWord word) : ('.' :: word).count '/' = 0 :=
  List.count_eq_zero.mpr (by simp [h.2])

/-- **A specifier that two paths share** is the directory of an index file if one path has more slashes
than the other. -/
theorem exists_index_of_shared {k p p' : Text} (hp : k ∈ specifiersOf p) (hp' : k ∈ specifiersOf p')
    (hlt : p'.count '/' < p.count '/') : p.count '/' = p'.count '/' + 1 ∧
      ∃ word, IsWord word ∧ p = k ++ indexName ++ '.' :: word ∧
        (p' = k ∨ ∃ word', IsWord word' ∧ p' = k ++ '.' :: word') := by
  have hge : k.count '/' ≤ p'.count '/' := by
    rcases mem_specifiersOf hp' with rfl | ⟨word, -, rfl | rfl⟩
    · rfl
    · rw [List.count_append]
      exact Nat.le_add_right _ _
    · rw [List.append_assoc, List.count_append]
      exact Nat.le_add_right _ _
  rcases mem_specifiersOf hp with rfl | ⟨word, hword, rfl | rfl⟩
  · omega
  · rw [List.count_append, hword.count_slash] at hlt
    omega
  · rw [List.append_assoc, List.count_append, List.count_append, hword.count_slash] at hlt ⊢
    have hone : indexName.count '/' = 1 := by decide
    rw [hone] at hlt ⊢
    refine ⟨by omega, word, hword, by simp, ?_⟩
    rcases mem_specifiersOf hp' with rfl | ⟨word', hword', rfl | rfl⟩
    · exact .inl rfl
    · exact .inr ⟨word', hword', rfl⟩
    · rw [List.append_assoc, List.count_append, List.count_append, hone] at hlt
      omega

end DispatchTable

end VariableImport
