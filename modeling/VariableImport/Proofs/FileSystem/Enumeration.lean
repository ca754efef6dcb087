import VariableImport.Enumeration
import VariableImport.Proofs.Path.Way
import VariableImport.Proofs.Text.Distinct

/-!
# Proofs/FileSystem/Enumeration — the files that are enumerated

A path that is not absolute denotes a file from the directory of the importing file (`denoted`), and it
denotes the same one when it is made explicit (`denoted_relativeify`).  So **nothing is lost but the importer
itself**: what is enumerated are the first occurrences of the paths that denote another file, made explicit
(`enumerate_eq_eraseDups`), and enumerating them again changes nothing (`enumerate_loses_nothing`).
-/

namespace VariableImport

namespace Path

variable {importer p s t u : Text}

/-- **The file that a path denotes** from the directory of an importing file. -/
def denoted (importer p : Text) : Text := normalize (append (dirname importer) p)

theorem sameFile_eq_false : sameFile importer p = false ↔ denoted importer p ≠ normalize importer :=
  beq_eq_false_iff_ne

/-- **The slashes of a root**: two are kept where there are exactly two, and else one of them. -/
theorem root_slashes (k : ℕ) (hu : u.head? ≠ some '/') :
    root (List.replicate k '/' ++ u) = if k = 0 then [] else if k = 2 then ['/', '/'] else ['/'] := by
  have hcons (v : Text) : u ≠ '/' :: v := fun e => hu (congrArg List.head? e)
  match k with
  | 0 => exact root.eq_4 u (fun _ => hcons _) (fun _ => hcons _) hcons
  | 1 => exact root.eq_3 u (fun _ => hcons _) hcons
  | 2 => exact root.eq_2 u hcons
  | _ + 3 => rfl

/-- What follows the slashes does not matter to them. -/
theorem root_append (directory : Text) (hs : s.head? ≠ some '/') (ht : t.head? ≠ some '/') :
    root (directory ++ s) = root (directory ++ t) := by
  obtain ⟨k, rest, rfl, hrest⟩ : ∃ k rest, directory = List.replicate k '/' ++ rest ∧ rest.head? ≠ some '/' := by
    refine ⟨(directory.takeWhile (· == '/')).length, directory.dropWhile (· == '/'), ?_, fun hhead => ?_⟩
    · rw [← List.eq_replicate_of_mem fun c hc => by simpa using List.mem_takeWhile_imp hc,
        List.takeWhile_append_dropWhile]
    · have hnot := List.head?_dropWhile_not (· == '/') directory
      simp [hhead] at hnot
  have hhead {u : Text} (hu : u.head? ≠ some '/') : (rest ++ u).head? ≠ some '/' := by
    cases rest with
    | nil => exact hu
    | cons c rest => exact hrest
  rw [List.append_assoc, List.append_assoc, root_slashes k (hhead hs), root_slashes k (hhead ht)]

theorem isAbsolute_eq_false : isAbsolute p = false ↔ p.head? ≠ some '/' := by
  simp [isAbsolute]

/-- Whether a slash is put before a path depends on the directory alone. -/
theorem exists_append_eq (directory : Text) :
    ∃ base, ∀ p, isAbsolute p = false → append directory p = base ++ p := by
  unfold append
  by_cases h : (directory.isEmpty || directory.getLast? == some '/') = true
  · exact ⟨directory, fun p hp => by rw [if_neg (by simp [hp]), if_pos h]⟩
  · exact ⟨directory ++ ['/'], fun p hp => by rw [if_neg (by simp [hp]), if_neg h]; simp⟩

/-- What is made explicit is one of the dots or explicit. -/
theorem relativeify_cases (p : Text) :
    relativeify p = here ∨ relativeify p = up ∨ IsExplicit (relativeify p) := by
  unfold relativeify
  split
  · exact .inl rfl
  · split
    · next h =>
      rcases h with h | h | h | h
      · exact .inl h
      · exact .inr (.inl h)
      · exact .inr (.inr (.inl (List.isPrefixOf_iff_prefix.mp h)))
      · exact .inr (.inr (.inr (List.isPrefixOf_iff_prefix.mp h)))
    · exact .inr (.inr (.inl ⟨p, rfl⟩))

theorem isAbsolute_relativeify (p : Text) : isAbsolute (relativeify p) = false := by
  rcases relativeify_cases p with h | h | h
  · rw [h]; rfl
  · rw [h]; rfl
  · exact h.isAbsolute_eq

/-- The normal form of a path from the root is its slashes and its place. -/
theorem normalize_of_isAbsolute (hp : isAbsolute p = true) :
    normalize p = root p ++ Text.join ['/'] (fromRoot p) := by
  obtain ⟨k, hk⟩ := exists_root_eq hp
  rw [normalize, hp, if_neg (by simp [hk, List.replicate_succ])]
  rfl

/-- **A path that is made explicit denotes the same file.** -/
theorem denoted_relativeify (himporter : isAbsolute importer = true) (hp : isAbsolute p = false) :
    denoted importer (relativeify p) = denoted importer p := by
  have hexplicit := isAbsolute_relativeify p
  have hdirectory := isAbsolute_dirname himporter
  obtain ⟨base, hbase⟩ := exists_append_eq (dirname importer)
  have hroot : root (append (dirname importer) (relativeify p)) = root (append (dirname importer) p) := by
    rw [hbase _ hexplicit, hbase _ hp]
    exact root_append base (isAbsolute_eq_false.mp hexplicit) (isAbsolute_eq_false.mp hp)
  have hplace : fromRoot (append (dirname importer) (relativeify p)) =
      fromRoot (append (dirname importer) p) := by
    rw [fromRoot_eq, fromRoot_eq, walk_append _ _ hexplicit, walk_append _ _ hp, walk_relativeify]
  rw [denoted, denoted, normalize_of_isAbsolute (isAbsolute_append hdirectory _),
    normalize_of_isAbsolute (isAbsolute_append hdirectory _), hroot, hplace]

end Path

variable {importer p : Text} {found : List Text}

/-- **What is enumerated** are the first occurrences of the paths that do not denote the importer, made
explicit. -/
theorem enumerate_eq_eraseDups (himporter : Path.isAbsolute importer = true)
    (hfound : ∀ q ∈ found, Path.isAbsolute q = false) : enumerate importer found =
      ((found.filter fun q => Path.denoted importer q ≠ Path.normalize importer).map
        Path.relativeify).eraseDups := by
  rw [enumerate, Text.distinct_eq_eraseDups, List.filter_map]
  congr 2
  refine List.filter_congr fun q hq => ?_
  have hother : Path.sameFile importer (Path.relativeify q) = false ↔
      Path.denoted importer q ≠ Path.normalize importer := by
    rw [Path.sameFile_eq_false, Path.denoted_relativeify himporter (hfound q hq)]
  rw [Bool.eq_iff_iff, decide_eq_true_iff, ← hother]
  exact iff_of_eq (Bool.not_eq_true' _)

/-- **What is enumerated is enumerated again.** -/
theorem enumerate_enumerate (importer : Text) (found : List Text) :
    enumerate importer (enumerate importer found) = enumerate importer found := by
  have hkept : ∀ p ∈ enumerate importer found, Path.relativeify p = p ∧ (!Path.sameFile importer p) = true := by
    intro p hp
    obtain ⟨⟨q, -, rfl⟩, hother⟩ := mem_enumerate.mp hp
    exact ⟨Path.relativeify_relativeify q, by rw [hother]; rfl⟩
  have hmap : (enumerate importer found).map Path.relativeify = enumerate importer found :=
    (List.map_congr_left fun p hp => (hkept p hp).1).trans (List.map_id _)
  rw [enumerate, hmap, List.filter_eq_self.mpr fun p hp => (hkept p hp).2,
    Text.distinct_eq_self (nodup_enumerate importer found)]

/-- **Enumeration loses nothing but the importer.** -/
theorem enumerate_loses_nothing (himporter : Path.isAbsolute importer = true)
    (hfound : ∀ q ∈ found, Path.isAbsolute q = false) :
    enumerate importer found =
      ((found.filter fun q => Path.denoted importer q ≠ Path.normalize importer).map
        Path.relativeify).eraseDups ∧
    (enumerate importer found).Nodup ∧
    (∀ q ∈ found, Path.denoted importer (Path.relativeify q) = Path.denoted importer q) ∧
    (∀ p, p ∈ enumerate importer found ↔
      ∃ q ∈ found, Path.relativeify q = p ∧ Path.denoted importer q ≠ Path.normalize importer) ∧
    (∀ p ∈ enumerate importer found, (p = Path.here ∨ p = Path.up ∨ Path.IsExplicit p) ∧
      Path.denoted importer p ≠ Path.normalize importer) ∧
    enumerate importer (enumerate importer found) = enumerate importer found := by
  have hdenoted : ∀ q ∈ found, Path.denoted importer (Path.relativeify q) = Path.denoted importer q :=
    fun q hq => Path.denoted_relativeify himporter (hfound q hq)
  refine ⟨enumerate_eq_eraseDups himporter hfound, nodup_enumerate _ _, hdenoted, fun p => ?_, fun p hp => ?_,
    enumerate_enumerate _ _⟩
  · rw [mem_enumerate, Path.sameFile_eq_false]
    constructor
    · rintro ⟨⟨q, hq, rfl⟩, hother⟩
      exact ⟨q, hq, rfl, hdenoted q hq ▸ hother⟩
    · rintro ⟨q, hq, rfl, hother⟩
      exact ⟨⟨q, hq, rfl⟩, (hdenoted q hq).symm ▸ hother⟩
  · obtain ⟨⟨q, -, rfl⟩, hother⟩ := mem_enumerate.mp hp
    exact ⟨Path.relativeify_cases q, Path.sameFile_eq_false.mp hother⟩

/-- Paths of two files and of the importer, in several spellings. -/
def spelledPaths : List Text :=
  ["a/x.js", "./a/x.js", "../p/main.js", "", "a//x.js", "main.js"].map String.toList

/-- The importer is left out in both spellings, and a path that is written twice is kept once. -/
theorem enumerate_spelledPaths :
    (Path.isAbsolute "/p/main.js".toList = true ∧ ∀ q ∈ spelledPaths, Path.isAbsolute q = false) ∧
      ((spelledPaths.filter fun q =>
        Path.denoted "/p/main.js".toList q ≠ Path.normalize "/p/main.js".toList).map
          Path.relativeify).eraseDups = ["./a/x.js", ".", "./a//x.js"].map String.toList ∧
      enumerate "/p/main.js".toList spelledPaths = ["./a/x.js", ".", "./a//x.js"].map String.toList := by
  have himporter : Path.isAbsolute "/p/main.js".toList = true := by decide
  have hfound : ∀ q ∈ spelledPaths, Path.isAbsolute q = false := by decide +kernel
  have hkept : ((spelledPaths.filter fun q =>
      Path.denoted "/p/main.js".toList q ≠ Path.normalize "/p/main.js".toList).map
        Path.relativeify).eraseDups = ["./a/x.js", ".", "./a//x.js"].map String.toList := by decide +kernel
  exact ⟨⟨himporter, hfound⟩, hkept, (enumerate_loses_nothing himporter hfound).1.trans hkept⟩

end VariableImport
