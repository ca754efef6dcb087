import VariableImport.Proofs.Path.Trail

/-!
# Proofs/Path/Extension — the last component and its extension

The last component goes on with text that holds no slash (`cutName_append`) and does not see what
stands before a path with one (`mem_basename_append`).  What is put behind a dot is an extension if
the component holds anything else (`extension_append`), and only then
(`exists_basename_eq_of_extension`).
-/

namespace VariableImport.Path

/-- Text without a slash goes on with the last component. -/
theorem cutName_append (s : Text) {t : Text} (ht : '/' ∉ t) :
    cutName (s ++ t) = ((cutName s).1, (cutName s).2 ++ t) := by
  unfold cutName
  cases hs : Text.cutLast '/' s with
  | none =>
    have hst : Text.cutLast '/' (s ++ t) = none := by
      rw [Text.cutLast_eq_none] at hs ⊢
      simp [hs, ht]
    rw [hst]
  | some cut =>
    obtain ⟨h, name⟩ := cut
    obtain ⟨rfl, hname⟩ := Text.cutLast_eq_some.mp hs
    have hst : Text.cutLast '/' (h ++ '/' :: name ++ t) = some (h, name ++ t) :=
      Text.cutLast_eq_some.mpr ⟨by simp, by simp [hname, ht]⟩
    rw [hst]

/-- What stands before a path changes its last component only by text before it. -/
theorem mem_basename_append {t : Text} {c : Char} (h : c ∈ basename t) (s : Text) :
    c ∈ basename (s ++ t) := by
  by_cases ht : '/' ∈ t
  · obtain ⟨head, name, hcut, rfl, hname⟩ := Text.exists_cutLast ht
    have hst : Text.cutLast '/' (s ++ (head ++ '/' :: name)) = some (s ++ head, name) :=
      Text.cutLast_eq_some.mpr ⟨by simp, hname⟩
    simp only [basename, splitName, cutName, hcut] at h
    simpa only [basename, splitName, cutName, hst] using h
  · have hself : basename t = t := by
      simp [basename, splitName, cutName, Text.cutLast_eq_none.mpr ht]
    rw [basename, splitName, cutName_append s ht]
    exact List.mem_append_right _ (hself ▸ h)

/-- The last component without a slash before it. -/
theorem basename_of_not_mem {t : Text} (ht : '/' ∉ t) : basename t = t := by
  simp [basename, splitName, cutName, Text.cutLast_eq_none.mpr ht]

/-- The last component behind a slash. -/
theorem basename_append_cons (s : Text) {name : Text} (h : '/' ∉ name) :
    basename (s ++ '/' :: name) = name := by
  have hcut : Text.cutLast '/' (s ++ '/' :: name) = some (s, name) :=
    Text.cutLast_eq_some.mpr ⟨rfl, h⟩
  simp [basename, splitName, cutName, hcut]

/-- The last component holds no slash. -/
theorem slash_not_mem_basename (p : Text) : '/' ∉ basename p := by
  simp only [basename, splitName, cutName]
  split
  · next hcut => exact (Text.cutLast_eq_some.mp hcut).2
  · next hcut => exact Text.cutLast_eq_none.mp hcut

theorem basename_append (s : Text) {t : Text} (ht : '/' ∉ t) : basename (s ++ t) = basename s ++ t := by
  simp only [basename, splitName, cutName_append s ht]

/-- **An extension stands behind a dot** in the last component, and anything but dots before it. -/
theorem exists_basename_eq_of_extension {p : Text} (h : extension p ≠ []) :
    ∃ stem word, basename p = stem ++ '.' :: word ∧ '.' ∉ word ∧ ∃ c ∈ stem, c ≠ '.' := by
  cases hcut : Text.cutLast '.' (cutName p).2 with
  | none => simp [extension, splitExtension, hcut] at h
  | some cut =>
    obtain ⟨stem, word⟩ := cut
    obtain ⟨hname, hword⟩ := Text.cutLast_eq_some.mp hcut
    refine ⟨stem, word, hname, hword, ?_⟩
    by_contra! hall
    have hdots : stem.all (· == '.') = true := by simpa using hall
    simp [extension, splitExtension, hcut, hdots] at h

/-- **What is put behind a dot** is the extension of a component that holds anything but dots. -/
theorem extension_append {s word : Text} (hs : ∃ c ∈ basename s, c ≠ '.') (hdot : '.' ∉ word)
    (hslash : '/' ∉ word) : extension (s ++ '.' :: word) = '.' :: word := by
  have hcut : Text.cutLast '.' ((cutName s).2 ++ '.' :: word) = some ((cutName s).2, word) :=
    Text.cutLast_eq_some.mpr ⟨rfl, hdot⟩
  have hall : (cutName s).2.all (· == '.') = false := by
    obtain ⟨c, hc, hne⟩ := hs
    exact List.all_eq_false.mpr ⟨c, hc, by simpa using hne⟩
  have hslash' : '/' ∉ '.' :: word := by simp [hslash]
  unfold extension splitExtension
  rw [cutName_append s hslash']
  dsimp only
  rw [hcut]
  simp [hall]

end VariableImport.Path
