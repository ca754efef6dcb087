import VariableImport.Proofs.DispatchTable.Lookup
import VariableImport.Proofs.Glob.Braces
import VariableImport.Proofs.Glob.Searched

/-!
# Proofs/Glob/Ending — what normal globs end in

Where a glob names no extension, a normal glob has one of some words behind a dot, also behind the name
of an index file (`Ending`), and nothing else (`mem_inferExtension_iff`).  Whether it names one is seen
from its last wildcard on (`hasExtension_append_star`).
-/

namespace VariableImport.Glob

theorem hasMagic_of_isWord {word : Text} (hword : ∀ c ∈ word, Text.isWord c = true) :
    hasMagic word = false := by
  refine hasMagic_of_isSimple (fun c hc => ⟨?_, ?_⟩) (not_mem_of_isWord hword (by decide))
  · rintro rfl
    exact not_mem_of_isWord hword (by decide) hc
  · rintro rfl
    exact not_mem_of_isWord hword (by decide) hc

theorem hasMagic_dot {word : Text} (hword : ∀ c ∈ word, Text.isWord c = true) :
    hasMagic ('.' :: word) = false :=
  (hasMagic_append_dot [] word).trans (hasMagic_of_isWord hword)

/-! ## Named extensions -/

/-- An extension that does not start behind some character holds it. -/
theorem mem_extension {s t : Text} {x : Char} (hx : x ≠ '.') (ht : '.' ∉ t)
    (h : Path.extension (s ++ x :: t) ≠ []) : x ∈ Path.extension (s ++ x :: t) := by
  obtain ⟨stem, word, he, hext, -, -⟩ := DispatchTable.exists_extension_eq h
  rw [hext]
  rcases List.append_eq_append_iff.mp he with ⟨z, -, hz⟩ | ⟨z, -, hz⟩
  · -- the dot would stand behind the character
    have hdot : '.' ∈ x :: t := by simp [hz]
    simp [hx.symm, ht] at hdot
  · cases z with
    | nil =>
      obtain ⟨rfl, -⟩ := List.cons.inj hz
      exact absurd rfl hx
    | cons c z =>
      obtain ⟨-, rfl⟩ := List.cons.inj hz
      simp

/-- **Whether a glob names an extension** does not depend on what stands before its last wildcard. -/
theorem hasExtension_append_star (s : Text) {t : Text} :
    hasExtension (s ++ wildcard :: t) = hasExtension (wildcard :: t) := by
  by_cases hslash : '/' ∈ t
  · obtain ⟨head, name, -, rfl, hname⟩ := Text.exists_cutLast hslash
    have hs : s ++ wildcard :: (head ++ '/' :: name) = (s ++ wildcard :: head) ++ '/' :: name := by simp
    have hstar : wildcard :: (head ++ '/' :: name) = (wildcard :: head) ++ '/' :: name := rfl
    rw [hasExtension, hasExtension, hs, hstar, Path.basename_append_cons _ hname,
      Path.basename_append_cons _ hname]
  · have hlast : '/' ∉ wildcard :: t := by simp [hslash, slash_ne_wildcard]
    have hbase (s : Text) : ∃ r, Path.basename (s ++ wildcard :: t) = r ++ wildcard :: t :=
      ⟨(Path.cutName s).2, by rw [Path.basename, Path.splitName, Path.cutName_append _ hlast]⟩
    obtain ⟨r, hr⟩ := hbase s
    obtain ⟨r', hr'⟩ := hbase []
    rw [List.nil_append] at hr'
    rw [hasExtension, hasExtension, hr, hr']
    by_cases hdot : '.' ∈ t
    · obtain ⟨a, b, -, rfl, hb⟩ := Text.exists_cutLast hdot
      have hb' : '/' ∉ b := fun h => hslash (by simp [h])
      have hext (r : Text) : Path.extension (r ++ wildcard :: (a ++ '.' :: b)) = '.' :: b := by
        have ha : '/' ∉ wildcard :: a := by
          have : '/' ∉ a := fun h => hslash (by simp [h])
          simp [this, slash_ne_wildcard]
        have hstar : wildcard ∈ Path.basename (wildcard :: a) := by
          rw [Path.basename_of_not_mem ha]
          exact List.mem_cons_self ..
        have hname : ∃ c ∈ Path.basename (r ++ wildcard :: a), c ≠ '.' :=
          ⟨wildcard, Path.mem_basename_append hstar r, by decide⟩
        have := Path.extension_append hname hb hb'
        simpa using this
      simp only [hext]
    · have hext (r : Text) : (!(Path.extension (r ++ wildcard :: t)).isEmpty &&
          !decide (wildcard ∈ Path.extension (r ++ wildcard :: t))) = false := by
        by_cases hnil : Path.extension (r ++ wildcard :: t) = []
        · simp [hnil]
        · simp [mem_extension (by decide) hdot hnil]
      simp only [hext]

theorem hasExtension_star_eq (s s' : Text) {t : Text} :
    hasExtension (s ++ wildcard :: t) = hasExtension (s' ++ wildcard :: t) :=
  (hasExtension_append_star s).trans (hasExtension_append_star s').symm

/-! ## Endings -/

/-- **What stands behind a glob** in the texts that are searched for it. -/
inductive Ending (extensions : List Text) (glob : Text) : Text → Prop
  /-- Nothing, where the glob names an extension. -/
  | named (h : hasExtension glob = true) : Ending extensions glob []
  /-- An extension. -/
  | extension (h : hasExtension glob = false) {word : Text} (hword : word ∈ words extensions) :
      Ending extensions glob ('.' :: word)
  /-- An index file with an extension. -/
  | index (h : hasExtension glob = false) (hflat : glob.contains deep = false) {word : Text}
      (hword : word ∈ words extensions) : Ending extensions glob (DispatchTable.indexName ++ '.' :: word)

/-- **The texts that are searched for a glob** are the glob with its endings. -/
theorem mem_inferExtension_iff {extensions : List Text} {glob x : Text} (hbrace : '\x7b' ∉ glob)
    (hext : AreWords extensions) : (∃ pattern ∈ inferExtension extensions glob, x ∈ expandBraces pattern) ↔
      ∃ e, Ending extensions glob e ∧ x = glob ++ e := by
  have hindex : '\x7b' ∉ glob ++ DispatchTable.indexName := by
    rw [List.mem_append, not_or]
    exact ⟨hbrace, by decide⟩
  have hgroup : glob ++ '/' :: 'i' :: 'n' :: 'd' :: 'e' :: 'x' :: extensionGroup extensions =
      (glob ++ DispatchTable.indexName) ++ extensionGroup extensions := by
    simp [DispatchTable.indexName]
  unfold inferExtension
  constructor
  · rintro ⟨pattern, hpattern, hx⟩
    split at hpattern
    · next h =>
      rw [List.mem_singleton.mp hpattern, expandBraces_of_not_mem hbrace] at hx
      exact ⟨[], .named h, by simpa using hx⟩
    · next h =>
      have h : hasExtension glob = false := by simpa using h
      rcases List.mem_cons.mp hpattern with rfl | hpattern
      · obtain ⟨word, hword, rfl⟩ := (mem_expandBraces_group_iff hbrace hext).mp hx
        exact ⟨_, .extension h hword, rfl⟩
      · split at hpattern
        · simp at hpattern
        · next hflat =>
          rw [List.mem_singleton.mp hpattern, hgroup] at hx
          obtain ⟨word, hword, rfl⟩ := (mem_expandBraces_group_iff hindex hext).mp hx
          exact ⟨_, .index h (by simpa using hflat) hword, by simp⟩
  · rintro ⟨e, he, rfl⟩
    cases he with
    | named h =>
      rw [if_pos h]
      exact ⟨glob, List.mem_singleton_self _, by simp [expandBraces_of_not_mem hbrace]⟩
    | extension h hword =>
      rw [if_neg (by simp [h])]
      exact ⟨_, List.mem_cons_self .., (mem_expandBraces_group_iff hbrace hext).mpr ⟨_, hword, rfl⟩⟩
    | index h hflat hword =>
      rw [if_neg (by simp [h])]
      dsimp only
      rw [if_neg (by simp [hflat])]
      refine ⟨_, List.mem_cons_of_mem _ (List.mem_singleton_self _), ?_⟩
      rw [hgroup]
      exact (mem_expandBraces_group_iff hindex hext).mpr ⟨_, hword, by simp⟩

end VariableImport.Glob
