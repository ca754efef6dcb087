import Mathlib.Data.List.Basic
import VariableImport.Glob.Component
import VariableImport.Proofs.FileSystem.Named

/-!
# Proofs/FileSystem/Place — where paths lead

A path that goes on behind a slash leads first to a directory (`isDirectory_of_leadsAnywhere`), so no
path leads to a file and goes on.  What stands in a directory under a name is listed there
(`mem_names`).
-/

namespace VariableImport

namespace FileSystem

variable {fs : FileSystem}

theorem append_append_of_ne_nil (directory : Text) {p : Text} (hp : p ≠ []) (s : Text) :
    Path.append directory (p ++ s) = Path.append directory p ++ s := by
  have habs : Path.isAbsolute (p ++ s) = Path.isAbsolute p := by
    obtain ⟨c, p, rfl⟩ := List.exists_cons_of_ne_nil hp
    rfl
  unfold Path.append
  rw [habs]
  split
  · rfl
  · split <;> simp

theorem append_ne_nil (directory : Text) {p : Text} (hp : p ≠ []) : Path.append directory p ≠ [] := by
  unfold Path.append
  split
  · exact hp
  · split <;> simp [hp]

/-- **A path is followed** up to a slash first. -/
theorem locate_append {p : Text} (hp : p ≠ []) (s : Text) :
    fs.locate (p ++ '/' :: s) =
      (fs.locate p).bind fun place => (Text.split '/' s).foldlM fs.enter place := by
  unfold locate
  rw [if_neg hp, if_neg (by simp), append_append_of_ne_nil _ hp, Text.split_append_cons,
    List.foldlM_append]
  rfl

theorem at?_of_enter {place place' : List Text} {c : Text} (h : fs.enter place c = some place') :
    fs.at? place = some .directory := by
  unfold enter at h
  split at h
  · assumption
  · simp at h

/-- One component further stands something under its name. -/
theorem enter_name {place place' : List Text} {c : Text} (hne : c ≠ []) (hdot : Glob.isHidden c = false)
    (h : fs.enter place c = some place') :
    place' = place ++ [c] ∧ (fs.at? (place ++ [c])).isSome = true := by
  have hhere : ¬ (c = [] ∨ c = Path.here) := by
    rintro (rfl | rfl)
    · exact hne rfl
    · simp [Glob.isHidden] at hdot
  have hup : c ≠ Path.up := by
    rintro rfl
    simp [Glob.isHidden] at hdot
  unfold enter at h
  split at h
  · rw [if_neg hhere, if_neg hup] at h
    split at h
    · next hat => exact ⟨(Option.some.inj h).symm, hat⟩
    · simp at h
  · simp at h

/-- A path that goes on starts with a directory. -/
theorem exists_locate_of_append {p s : Text} (hp : p ≠ []) {place' : List Text}
    (h : fs.locate (p ++ '/' :: s) = some place') : ∃ place, fs.locate p = some place ∧
      fs.at? place = some .directory ∧ (Text.split '/' s).foldlM fs.enter place = some place' := by
  rw [locate_append hp] at h
  obtain ⟨place, hplace, hfold⟩ := Option.bind_eq_some_iff.mp h
  obtain ⟨c, cs, hsplit⟩ := List.exists_cons_of_ne_nil (Text.split_ne_nil '/' s)
  have hfold' := hfold
  rw [hsplit, List.foldlM_cons] at hfold'
  obtain ⟨next, henter, -⟩ := Option.bind_eq_some_iff.mp hfold'
  exact ⟨place, hplace, at?_of_enter henter, hfold⟩

/-- **A path that goes on behind a slash** leads to a directory up to it. -/
theorem isDirectory_of_leadsAnywhere {p s : Text} (hp : p ≠ [])
    (h : fs.leadsAnywhere (p ++ '/' :: s) = true) : fs.find? p = some .directory := by
  obtain ⟨e, he⟩ := Option.isSome_iff_exists.mp h
  obtain ⟨place', hplace', -⟩ := Option.bind_eq_some_iff.mp he
  obtain ⟨place, hplace, hat, -⟩ := exists_locate_of_append hp hplace'
  rw [find?, hplace]
  exact hat

theorem leadsAnywhere_of_isFile {p : Text} (h : fs.isFile p = true) : fs.leadsAnywhere p = true := by
  unfold isFile at h
  split at h
  · next hfind =>
    rw [leadsAnywhere, hfind]
    rfl
  · simp at h

/-- **No file has files below it.** -/
theorem isFile_append_eq_false {p : Text} (hp : p ≠ []) (h : fs.isFile p = true) (s : Text) :
    fs.isFile (p ++ '/' :: s) = false := by
  by_contra hfile
  have hdir := isDirectory_of_leadsAnywhere hp (leadsAnywhere_of_isFile (by simpa using hfile))
  rw [isFile, hdir] at h
  simp at h

/-- **What stands in a directory is listed there.** -/
theorem mem_names {place : List Text} {n : Text} {e : Entry} (h : fs.at? (place ++ [n]) = some e) :
    (n, e) ∈ fs.names place := by
  rw [at?, if_neg (by simp)] at h
  refine List.mem_filterMap.mpr ⟨(place ++ [n], e), ?_, ?_⟩
  · obtain ⟨l₁, l₂, hl, -⟩ := List.lookup_eq_some_iff.mp h
    rw [hl]
    simp
  · dsimp only
    rw [Text.isPrefixOf?_eq_some.mpr rfl]

end FileSystem

end VariableImport
