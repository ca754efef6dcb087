import VariableImport.DispatchTable.Basic
import VariableImport.Glob.Normal

/-!
# Proofs/Glob/Normal — what normal globs are written like

A glob is made normal at its last wildcard alone: something else may stand there (`Filling`), and a
group of extensions, also of index files, may come behind (`mem_normalize`).
-/

namespace VariableImport.Glob

/-- **What may stand for the last wildcard** of a glob between the text before and after it. -/
inductive Filling (before after : Text) : Text → Prop
  /-- The wildcard itself. -/
  | self : Filling before after ['*']
  /-- Directories of any depth before it. -/
  | above (h : before.getLast? = some '/') : Filling before after ['*', '*', '/', '*']
  /-- Directories of any depth after it. -/
  | below (h : after.head? = some '/') : Filling before after ['*', '/', '*', '*']
  /-- Directories of any depth between two of it. -/
  | between : Filling before after ['*', '/', '*', '*', '/', '*']
  /-- A component of its own. -/
  | apart (h : before.getLast? ≠ some '/') : Filling before after ['/', '*']
  /-- A component of its own, below directories of any depth. -/
  | apartBelow (h : before.getLast? ≠ some '/') : Filling before after ['/', '*', '*', '/', '*']

variable {glob e before after : Text}

/-- Text behind a glob takes nothing away. -/
theorem Filling.append_after {mid : Text} (h : Filling before after mid) (s : Text) :
    Filling before (after ++ s) mid := by
  cases h with
  | self => exact .self
  | above hb => exact .above hb
  | below ha => exact .below (by rw [List.head?_append, ha]; rfl)
  | between => exact .between
  | apart hb => exact .apart hb
  | apartBelow hb => exact .apartBelow hb

theorem mem_stepAll {step : Text → List Text} {globs : List Text} :
    e ∈ stepAll step globs ↔ ∃ g ∈ globs, e ∈ step g := by
  rw [stepAll, Text.mem_distinct, List.mem_flatMap]

/-- What follows the last wildcard holds none. -/
theorem cutLast_append {s t : Text} (h : '*' ∉ t) : Text.cutLast '*' (s ++ '*' :: t) = some (s, t) :=
  Text.cutLast_eq_some.mpr ⟨rfl, h⟩

theorem mem_repairSlash (hafter : '*' ∉ after) (h : e ∈ repairSlash (before ++ '*' :: after)) :
    e = before ++ '*' :: after ∨
      before.getLast? ≠ some '/' ∧ e = (before ++ ['/']) ++ '*' :: after := by
  rw [repairSlash, cutLast_append hafter] at h
  dsimp only at h
  split at h
  · exact .inl (List.mem_singleton.mp h)
  · next hne =>
    rcases List.mem_cons.mp h with rfl | h
    · exact .inr ⟨(not_or.mp hne).2, by simp⟩
    · exact .inl (List.mem_singleton.mp h)

/-- Directories are let in at the last wildcard. -/
theorem mem_expandDepth (hafter : '*' ∉ after) (h : e ∈ expandDepth (before ++ '*' :: after)) :
    e = before ++ ['*'] ++ after ∨
    (before.getLast? = some '/' ∧ e = before ++ ['*', '*', '/', '*'] ++ after) ∨
    (before.getLast? ≠ some '/' ∧ after.head? = some '/' ∧
      e = before ++ ['*', '/', '*', '*'] ++ after) ∨
    (before.getLast? ≠ some '/' ∧ e = before ++ ['*', '/', '*', '*', '/', '*'] ++ after) := by
  unfold expandDepth at h
  split at h
  · exact .inl (by simpa using h)
  · rw [cutLast_append hafter] at h
    dsimp only at h
    split at h
    · next hb =>
      rcases List.mem_cons.mp h with rfl | h
      · exact .inl (by simp)
      · exact .inr (.inl ⟨hb, by simpa using h⟩)
    · next hb =>
      split at h
      · next ha =>
        rcases List.mem_cons.mp h with rfl | h
        · exact .inl (by simp)
        · exact .inr (.inr (.inl ⟨hb, ha, by simpa using h⟩))
      · rcases List.mem_cons.mp h with rfl | h
        · exact .inl (by simp)
        · exact .inr (.inr (.inr ⟨hb, by simpa using h⟩))

/-- A glob is searched as it is, too. -/
theorem mem_expandDepth_self (glob : Text) : glob ∈ expandDepth glob := by
  unfold expandDepth
  split
  · exact List.mem_cons_self ..
  · split
    · exact List.mem_cons_self ..
    · split
      · exact List.mem_cons_self ..
      · split <;> exact List.mem_cons_self ..

theorem mem_repairSlash_self (g : Text) : g ∈ repairSlash g := by
  unfold repairSlash
  split
  · exact List.mem_singleton_self g
  · split
    · exact List.mem_singleton_self g
    · exact List.mem_cons_of_mem _ (List.mem_singleton_self g)

/-- An extension is filled in where there is none, also behind the name of an index file. -/
theorem mem_inferExtension {extensions : List Text} (h : e ∈ inferExtension extensions glob) :
    e = glob ∨ hasExtension glob = false ∧
      ∃ index, (index = [] ∨ index = DispatchTable.indexName) ∧
        e = glob ++ index ++ extensionGroup extensions := by
  unfold inferExtension at h
  split at h
  · exact .inl (List.mem_singleton.mp h)
  · next hne =>
    refine .inr ⟨by simpa using hne, ?_⟩
    rcases List.mem_cons.mp h with rfl | h
    · exact ⟨[], .inl rfl, by simp⟩
    · split at h
      · simp at h
      · exact ⟨_, .inr rfl, by simpa [DispatchTable.indexName] using h⟩

/-- A glob before extensions are filled in has something in place of its last wildcard. -/
theorem exists_filling {loose : Bool} (hafter : '*' ∉ after)
    (h : e ∈ if loose then stepAll expandDepth (repairSlash (before ++ '*' :: after))
      else repairSlash (before ++ '*' :: after)) :
    ∃ mid, Filling before after mid ∧ e = before ++ mid ++ after := by
  cases loose with
  | false =>
    rcases mem_repairSlash hafter h with rfl | ⟨hb, rfl⟩
    · exact ⟨_, .self, by simp⟩
    · exact ⟨_, .apart hb, by simp⟩
  | true =>
    obtain ⟨g, hg, he⟩ := mem_stepAll.mp h
    rcases mem_repairSlash hafter hg with rfl | ⟨hb, rfl⟩
    · rcases mem_expandDepth hafter he with rfl | ⟨hb, rfl⟩ | ⟨-, ha, rfl⟩ | ⟨-, rfl⟩
      · exact ⟨_, .self, rfl⟩
      · exact ⟨_, .above hb, rfl⟩
      · exact ⟨_, .below ha, rfl⟩
      · exact ⟨_, .between, rfl⟩
    · rcases mem_expandDepth hafter he with rfl | ⟨-, rfl⟩ | ⟨hs, -⟩ | ⟨hs, -⟩
      · exact ⟨_, .apart hb, by simp⟩
      · exact ⟨_, .apartBelow hb, by simp⟩
      all_goals exact absurd (by simp) hs

/-- **A normal glob** has something in place of the last wildcard, and extensions behind it only
where it names none. -/
theorem mem_normalize {extensions : List Text} {loose : Bool} (hafter : '*' ∉ after)
    (h : e ∈ normalize (before ++ '*' :: after) extensions loose) :
    ∃ mid, Filling before after mid ∧
      (e = before ++ mid ++ after ∨ hasExtension (before ++ mid ++ after) = false ∧
        ∃ index, (index = [] ∨ index = DispatchTable.indexName) ∧
          e = before ++ mid ++ after ++ index ++ extensionGroup extensions) := by
  obtain ⟨g, hg, he⟩ := mem_stepAll.mp h
  obtain ⟨mid, hmid, rfl⟩ := exists_filling hafter hg
  exact ⟨mid, hmid, mem_inferExtension he⟩

end VariableImport.Glob
