import VariableImport.DispatchTable.Basic
import VariableImport.Proofs.Glob.Instance
import VariableImport.Proofs.Path.Extension

/-!
# Proofs/DispatchTable/Candidates — specifiers that a glob stands for

The specifiers of a path leave out what a normal glob adds behind a glob: an extension
(`mem_specifiersOf_stem`) or an index file (`mem_specifiersOf_index`).  So if a path is an instance of
a glob with one of these behind it, some specifier of it is an instance of the glob
(`exists_mem_specifiersOf`).
-/

namespace VariableImport.DispatchTable

open Glob

/-- Whether a text may stand behind the dot of an extension. -/
def IsWord (word : Text) : Prop := '.' ∉ word ∧ '/' ∉ word

/-- A path without its extension is one of its specifiers. -/
theorem mem_specifiersOf_stem {s word : Text} (hs : ∃ c ∈ Path.basename s, c ≠ '.')
    (hword : IsWord word) : s ∈ specifiersOf (s ++ '.' :: word) := by
  have hstem : (s ++ '.' :: word).take ((s ++ '.' :: word).length - ('.' :: word).length) = s := by
    rw [List.length_append, Nat.add_sub_cancel, List.take_left]
  simp only [specifiersOf, Path.extension_append hs hword.1 hword.2, hstem]
  rw [if_neg (List.cons_ne_nil _ _)]
  split <;> simp

/-- A directory is a specifier of its index file. -/
theorem mem_specifiersOf_index (s : Text) {word : Text} (hword : IsWord word) :
    s ∈ specifiersOf (s ++ indexName ++ '.' :: word) := by
  have hname : ∃ c ∈ Path.basename (s ++ indexName), c ≠ '.' :=
    ⟨'i', Path.mem_basename_append (by decide) s, by decide⟩
  have hends : (s ++ indexName ++ '.' :: word).endsWith (indexName ++ '.' :: word) = true := by
    rw [Text.endsWith, List.isSuffixOf_iff_suffix, List.append_assoc]
    exact List.suffix_append _ _
  have hdir : (s ++ indexName ++ '.' :: word).take
      ((s ++ indexName ++ '.' :: word).length - (indexName ++ '.' :: word).length) = s := by
    rw [List.append_assoc, List.length_append, Nat.add_sub_cancel, List.take_left]
  simp only [specifiersOf, Path.extension_append hname hword.1 hword.2, hends, hdir]
  simp

/-- **Some specifier is an instance** of the glob of an import if the path, without what normal globs
add, is one.  Behind a wildcard at the end any extension is part of an instance already. -/
theorem exists_mem_specifiersOf {head tail before after y index word : Text}
    (htail : collapse tail = before ++ wildcard :: after) (hafter : wildcard ∉ after)
    (hy : Instance (collapse tail) y) (hindex : index = [] ∨ index = indexName)
    (hword : IsWord word) (hname : after = [] ∨ ∃ c ∈ Path.basename after, c ≠ '.') :
    ∃ c ∈ specifiersOf (head ++ (y ++ (index ++ '.' :: word))), Instance (head ++ tail) c := by
  have hinstance {t : Text} (ht : Instance (collapse tail) t) : Instance (head ++ tail) (head ++ t) :=
    (instance_self head).append ((instance_collapse tail t).mp ht)
  rcases hindex with rfl | rfl
  · have hy' := hy
    rw [htail] at hy'
    obtain ⟨u, v, rfl, hu, hv⟩ := instance_append.mp hy'
    obtain ⟨fill, w, rfl, hw⟩ := instance_star.mp hv
    obtain rfl := (instance_fixed hafter).mp hw
    rcases hname with rfl | ⟨c, hc, hne⟩
    · refine ⟨_, mem_specifiersOf_self _, hinstance ?_⟩
      rw [htail, List.append_assoc]
      exact hu.append (instance_wildcard _)
    · refine ⟨head ++ (u ++ (fill ++ w)), ?_, hinstance hy⟩
      have hlast : c ∈ Path.basename (head ++ (u ++ (fill ++ w))) :=
        Path.mem_basename_append (Path.mem_basename_append (Path.mem_basename_append hc _) _) _
      have := mem_specifiersOf_stem ⟨c, hlast, hne⟩ hword
      simpa using this
  · refine ⟨head ++ y, ?_, hinstance hy⟩
    have := mem_specifiersOf_index (head ++ y) hword
    simpa using this

end VariableImport.DispatchTable
