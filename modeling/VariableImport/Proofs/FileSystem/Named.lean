import VariableImport.FileSystem
import VariableImport.Proofs.Path.Trail

/-!
# Proofs/FileSystem/Named — file trees whose names are names

In a file tree no name is empty or holds a slash (`IsNamed`).  Every tree that is built from paths is
such a tree (`isNamed_ofPaths`), and so are all names that are listed in it.
-/

namespace VariableImport

namespace FileSystem

/-- A file system in which every name is one. -/
def IsNamed (fs : FileSystem) : Prop :=
  ∀ entry ∈ fs.entries, ∀ c ∈ entry.1, Path.IsName c

theorem IsNamed.of_mem_names {fs : FileSystem} (hfs : fs.IsNamed) {place : List Text} {name : Text}
    {e : Entry} (h : (name, e) ∈ fs.names place) : Path.IsName name := by
  obtain ⟨⟨q, e'⟩, hq, hm⟩ := List.mem_filterMap.mp h
  dsimp only at hm
  split at hm
  · next n hp =>
    simp only [Option.some.injEq, Prod.mk.injEq] at hm
    obtain ⟨rfl, rfl⟩ := hm
    refine hfs _ hq _ ?_
    rw [Text.isPrefixOf?_eq_some.mp hp]
    simp
  · simp at hm

theorem IsNamed.of_mem_below {fs : FileSystem} (hfs : fs.IsNamed) {place q : List Text} {e : Entry}
    (h : (q, e) ∈ fs.below place) : q ≠ [] ∧ ∀ c ∈ q, Path.IsName c := by
  obtain ⟨⟨q', e'⟩, hq, hm⟩ := List.mem_filterMap.mp h
  dsimp only at hm
  split at hm
  · next c cs hp =>
    simp only [Option.some.injEq, Prod.mk.injEq] at hm
    obtain ⟨rfl, rfl⟩ := hm
    refine ⟨List.cons_ne_nil _ _, fun d hd => hfs _ hq _ ?_⟩
    rw [Text.isPrefixOf?_eq_some.mp hp]
    exact List.mem_append_right _ hd
  · simp at hm

/-! ## Trees from paths -/

theorem IsNamed.put {fs : FileSystem} (hfs : fs.IsNamed) {place : List Text}
    (h : ∀ c ∈ place, Path.IsName c) (e : Entry) : (fs.put place e).IsNamed := by
  intro entry he
  rcases List.mem_append.mp he with he | he
  · exact hfs entry (List.mem_filter.mp he).1
  · obtain rfl := List.mem_singleton.mp he
    exact h

theorem IsNamed.makeDirectory {fs : FileSystem} (hfs : fs.IsNamed) {place : List Text}
    (h : ∀ c ∈ place, Path.IsName c) : (fs.makeDirectory place).IsNamed := by
  refine List.foldlRecOn _ _ (motive := IsNamed) hfs fun fs hfs q hq => ?_
  obtain ⟨n, -, rfl⟩ := List.mem_map.mp hq
  split
  · exact hfs
  · exact hfs.put (fun c hc => h c (List.mem_of_mem_take hc)) _

theorem IsNamed.makeFile {fs : FileSystem} (hfs : fs.IsNamed) {place : List Text}
    (h : ∀ c ∈ place, Path.IsName c) (content : Text) : (fs.makeFile place content).IsNamed :=
  (hfs.makeDirectory fun c hc => h c (List.mem_of_mem_dropLast hc)).put h _

/-- The components of a path are names. -/
theorem isName_of_mem_components {p c : Text} (h : c ∈ Path.components p) : Path.IsName c := by
  obtain ⟨hc, hne⟩ := List.mem_filter.mp h
  exact ⟨by simpa using hne, Text.not_mem_of_mem_split hc⟩

/-- **A tree built from paths has names.** -/
theorem isNamed_ofPaths (paths : List Text) : (ofPaths paths).IsNamed := by
  refine List.foldlRecOn _ _ (motive := IsNamed) (fun _ h => absurd h List.not_mem_nil)
    fun fs hfs p _ => ?_
  dsimp only
  split
  · exact hfs.makeDirectory fun _ => isName_of_mem_components
  · split
    · exact hfs
    · exact hfs.makeFile (fun _ => isName_of_mem_components) []

end FileSystem

end VariableImport
