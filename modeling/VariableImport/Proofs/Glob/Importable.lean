import VariableImport.Proofs.Glob.IndexFile
import VariableImport.Proofs.Glob.Language

/-!
# Proofs/Glob/Importable — the files that extensions are filled in for

Where a glob names no extension, it is searched with every extension behind it, at any depth, and with
the names of index files behind it, one directory deeper at most (`matches_inferred_iff`).  So a path
that it means leads to the file with an extension in any case, and **to the index file of a directory
if the glob means this directory strictly, or if the name of an index file ends as the glob does**
(`importable_iff`).  Other index files are lost (`misses_index`).
-/

namespace VariableImport.Glob

open DispatchTable (indexName)

variable {g s t before after p word : Text} {texts : List Text} {extensions : List Text}
  {ok : Text → Prop}

/-! ## Endings behind the globs that are searched -/

/-- Slashes are repaired whatever stands behind. -/
theorem repairSlash_append (hafter : '*' ∉ after) (ht : '*' ∉ t) :
    repairSlash ((before ++ '*' :: after) ++ t) = (repairSlash (before ++ '*' :: after)).map (· ++ t) := by
  have hlast : '*' ∉ after ++ t := by simp [hafter, ht]
  rw [List.append_assoc, List.cons_append, repairSlash, repairSlash, cutLast_append hlast,
    cutLast_append hafter]
  dsimp only
  split_ifs <;> simp

/-- A text without magic brings no double wildcard. -/
theorem contains_deep_append (ht : hasMagic t = false) : (g ++ t).contains deep = g.contains deep := by
  rw [Bool.eq_iff_iff, Text.contains_iff, Text.contains_iff]
  refine ⟨fun h => ?_, fun h => h.trans (List.prefix_append _ _).isInfix⟩
  by_contra hg
  exact flat_append hg (wildcard_not_mem ht) h

/-- Directories are let in whatever stands behind, as long as no component ends there. -/
theorem expandDepth_append (hafter : '*' ∉ after) (ht : hasMagic t = false) (hslash : t.head? ≠ some '/') :
    expandDepth ((before ++ '*' :: after) ++ t) = (expandDepth (before ++ '*' :: after)).map (· ++ t) := by
  have hlast : '*' ∉ after ++ t := by simpa [hafter] using wildcard_not_mem ht
  have hhead : (after ++ t).head? = some '/' ↔ after.head? = some '/' := by
    cases after with
    | nil => simp [hslash]
    | cons c after => rfl
  unfold expandDepth
  rw [contains_deep_append ht]
  split
  · rfl
  · rw [List.append_assoc, List.cons_append, cutLast_append hlast, cutLast_append hafter]
    dsimp only
    simp only [hhead]
    split_ifs <;> simp

/-- A slash before a wildcard brings no double wildcard. -/
theorem flat_of_mem_repairSlash {e : Text} (hstar : wildcard ∈ g) (hflat : ¬ deep <:+: g)
    (he : e ∈ repairSlash g) : ¬ deep <:+: e := by
  obtain ⟨before, after, -, rfl, hafter⟩ := Text.exists_cutLast hstar
  obtain rfl | ⟨-, rfl⟩ := mem_repairSlash hafter he
  · exact hflat
  · intro h
    rw [List.append_assoc] at h
    rcases infix_append_cons (by decide) h with h | h
    · exact hflat (h.trans (List.prefix_append _ _).isInfix)
    · exact hflat (h.trans (List.suffix_append _ _).isInfix)

/-- **The globs that hold no double wildcard** are those with slashes repaired. -/
theorem mem_loose_flat {e : Text} (hstar : wildcard ∈ g) (hflat : ¬ deep <:+: g) :
    e ∈ stepAll expandDepth (repairSlash g) ∧ e.contains deep = false ↔ e ∈ repairSlash g := by
  have hrepaired : ∀ e ∈ repairSlash g, ¬ deep <:+: e := fun e => flat_of_mem_repairSlash hstar hflat
  obtain ⟨before, after, -, rfl, hafter⟩ := Text.exists_cutLast hstar
  have hcontains {e : Text} : e.contains deep = false ↔ ¬ deep <:+: e := by
    rw [← Text.contains_iff, Bool.not_eq_true]
  rw [hcontains, mem_stepAll]
  constructor
  · rintro ⟨⟨r, hr, he⟩, hflat⟩
    obtain ⟨lead, rfl⟩ : ∃ lead, r = lead ++ '*' :: after := by
      obtain rfl | ⟨-, rfl⟩ := mem_repairSlash hafter hr
      exacts [⟨_, rfl⟩, ⟨_, rfl⟩]
    rcases mem_expandDepth hafter he with rfl | ⟨-, rfl⟩ | ⟨-, -, rfl⟩ | ⟨-, rfl⟩
    · simpa using hr
    · exact absurd ⟨lead, ['/', '*'] ++ after, by simp⟩ hflat
    · exact absurd ⟨lead ++ ['*', '/'], after, by simp⟩ hflat
    · exact absurd ⟨lead ++ ['*', '/'], ['/', '*'] ++ after, by simp⟩ hflat
  · exact fun he => ⟨⟨e, he, mem_expandDepth_self e⟩, hrepaired e he⟩

/-- The globs with slashes repaired, with an ending behind each. -/
theorem mem_repairSlash_append {e : Text} (hstar : wildcard ∈ g) (ht : wildcard ∉ t) :
    e ∈ repairSlash (g ++ t) ↔ ∃ r ∈ repairSlash g, e = r ++ t := by
  obtain ⟨before, after, -, rfl, hafter⟩ := Text.exists_cutLast hstar
  rw [repairSlash_append hafter ht, List.mem_map]
  simp only [eq_comm]

/-- The globs with directories let in, with an ending behind each. -/
theorem mem_loose_append {e : Text} (hstar : wildcard ∈ g) (ht : hasMagic t = false)
    (hslash : t.head? ≠ some '/') : e ∈ stepAll expandDepth (repairSlash (g ++ t)) ↔
      ∃ r ∈ stepAll expandDepth (repairSlash g), e = r ++ t := by
  have hstep {r : Text} (hr : r ∈ repairSlash g) : expandDepth (r ++ t) = (expandDepth r).map (· ++ t) := by
    obtain ⟨before, after, -, rfl, hafter⟩ := Text.exists_cutLast hstar
    obtain rfl | ⟨-, rfl⟩ := mem_repairSlash hafter hr
    · exact expandDepth_append hafter ht hslash
    · exact expandDepth_append hafter ht hslash
  simp only [mem_stepAll, mem_repairSlash_append hstar (wildcard_not_mem ht)]
  constructor
  · rintro ⟨-, ⟨r, hr, rfl⟩, he⟩
    rw [hstep hr, List.mem_map] at he
    obtain ⟨x, hx, rfl⟩ := he
    exact ⟨x, ⟨r, hr, hx⟩, rfl⟩
  · rintro ⟨x, ⟨r, hr, hx⟩, rfl⟩
    exact ⟨_, ⟨r, hr, rfl⟩, by rw [hstep hr]; exact List.mem_map_of_mem hx⟩

theorem wildcard_not_mem_index (hword : ∀ c ∈ word, Text.isWord c = true) :
    wildcard ∉ indexName ++ '.' :: word := by
  rw [List.mem_append, not_or]
  exact ⟨by decide, wildcard_not_mem (hasMagic_dot hword)⟩

/-- Nothing but wildcards and slashes takes the place of the last wildcard. -/
theorem brace_not_mem {e : Text} (hstar : wildcard ∈ g) (hbrace : '\x7b' ∉ g)
    (h : e ∈ stepAll expandDepth (repairSlash g)) : '\x7b' ∉ e := by
  obtain ⟨before, after, -, rfl, hafter⟩ := Text.exists_cutLast hstar
  obtain ⟨mid, hmid, rfl⟩ := @exists_filling e _ _ true hafter h
  have hmid : '\x7b' ∉ mid := by cases hmid <;> decide
  simp only [List.mem_append, List.mem_cons, not_or] at hbrace ⊢
  exact ⟨⟨hbrace.1, hmid⟩, hbrace.2.2⟩

/-- The globs that are searched are the globs with repaired slashes at every depth, with their endings. -/
theorem exists_normalize_iff {P : Text → Prop} (hstar : wildcard ∈ g) (hbrace : '\x7b' ∉ g)
    (hwords : AreWords extensions) :
    (∃ e ∈ normalize g extensions true, ∃ x ∈ expandBraces e, P x) ↔
      ∃ r ∈ stepAll expandDepth (repairSlash g), ∃ ending, Ending extensions r ending ∧ P (r ++ ending) := by
  constructor
  · rintro ⟨e, he, x, hx, hP⟩
    obtain ⟨r, hr, he⟩ := mem_stepAll.mp he
    obtain ⟨ending, hending, rfl⟩ :=
      (mem_inferExtension_iff (brace_not_mem hstar hbrace hr) hwords).mp ⟨e, he, hx⟩
    exact ⟨r, hr, ending, hending, hP⟩
  · rintro ⟨r, hr, ending, hending, hP⟩
    obtain ⟨e, he, hx⟩ :=
      (mem_inferExtension_iff (brace_not_mem hstar hbrace hr) hwords).mpr ⟨ending, hending, rfl⟩
    exact ⟨e, mem_stepAll.mpr ⟨r, hr, he⟩, _, hx, hP⟩

/-- **What is searched for a glob without an extension** is the glob with an extension, at any depth, and
with the name of an index file, one directory deeper at most. -/
theorem exists_inferred_iff {P : Text → Prop} (hstar : wildcard ∈ g) (hflat : ¬ deep <:+: g)
    (hbrace : '\x7b' ∉ g) (hnone : hasExtension g = false) (hwords : AreWords extensions) :
    (∃ e ∈ normalize g extensions true, ∃ x ∈ expandBraces e, P x) ↔
      ∃ word ∈ words extensions,
        (∃ x ∈ stepAll expandDepth (repairSlash (g ++ '.' :: word)), P x) ∨
          ∃ x ∈ repairSlash (g ++ (indexName ++ '.' :: word)), P x := by
  have hext {r : Text} (hr : r ∈ stepAll expandDepth (repairSlash g)) : hasExtension r = false :=
    (@hasExtension_of_mem g true r hstar hr).trans hnone
  rw [exists_normalize_iff hstar hbrace hwords]
  constructor
  · rintro ⟨r, hr, ending, hending, hP⟩
    cases hending with
    | named h => exact absurd h (by simp [hext hr])
    | extension _ hword =>
      refine ⟨_, hword, .inl ⟨_, ?_, hP⟩⟩
      exact (mem_loose_append hstar (hasMagic_dot (isWord_of_mem_words hwords hword)) (by simp)).mpr ⟨r, hr, rfl⟩
    | index _ hdeep hword =>
      refine ⟨_, hword, .inr ⟨_, ?_, hP⟩⟩
      exact (mem_repairSlash_append hstar (wildcard_not_mem_index (isWord_of_mem_words hwords hword))).mpr
        ⟨r, (mem_loose_flat hstar hflat).mp ⟨hr, hdeep⟩, rfl⟩
  · rintro ⟨word, hword, ⟨x, hx, hP⟩ | ⟨x, hx, hP⟩⟩
    · obtain ⟨r, hr, rfl⟩ :=
        (mem_loose_append hstar (hasMagic_dot (isWord_of_mem_words hwords hword)) (by simp)).mp hx
      exact ⟨r, hr, _, .extension (hext hr) hword, hP⟩
    · obtain ⟨r, hr, rfl⟩ :=
        (mem_repairSlash_append hstar (wildcard_not_mem_index (isWord_of_mem_words hwords hword))).mp hx
      obtain ⟨hr, hdeep⟩ := (mem_loose_flat hstar hflat).mpr hr
      exact ⟨r, hr, _, .index (hext hr) hdeep hword, hP⟩

/-! ## Fixed text behind a glob -/

/-- Dots of a filled glob are kept where text behind it brings no others. -/
theorem dotsKept_append (hstart : ¬ AtStart (fill texts g)) (ht : wildcard ∉ t) (hslash : '/' ∉ t)
    (h : DotsKept texts g) : DotsKept texts (g ++ t) := by
  intro u v e hu
  rw [fill_append, fill_fixed ht] at e
  rcases List.append_eq_append_iff.mp e with ⟨z, rfl, hz⟩ | ⟨z, hz, he⟩
  · -- a component would begin within the text behind the glob
    cases z with
    | nil => exact absurd (by simpa using hu) hstart
    | cons c z =>
      have hlast : '/' ∈ c :: z := by
        rcases hu with hu | hu
        · simp at hu
        · rw [List.getLast?_append_of_ne_nil _ (List.cons_ne_nil c z)] at hu
          exact List.mem_of_getLast? hu
      exact absurd (hz ▸ List.mem_append_left _ hlast) hslash
  · cases z with
    | nil => exact absurd ((hz.trans (List.append_nil u)) ▸ hu) hstart
    | cons c z =>
      obtain ⟨rfl, -⟩ := List.cons.inj he
      obtain ⟨x, y, rfl, hx, rfl⟩ := h u z hz hu
      exact ⟨x, y ++ t, by simp, hx, rfl⟩

/-- The dots of a glob are kept if they are with text behind it. -/
theorem DotsKept.of_append (ht : wildcard ∉ t) (h : DotsKept texts (g ++ t)) : DotsKept texts g := by
  intro u v e hu
  obtain ⟨x, y, hxy, hx, rfl⟩ := h u (v ++ t) (by rw [fill_append, fill_fixed ht, e]; simp) hu
  rcases List.append_eq_append_iff.mp hxy with ⟨z, rfl, -⟩ | ⟨z, rfl, hz⟩
  · rw [fill_append] at e
    simpa using congrArg List.length e
  · cases z with
    | nil =>
      rw [List.append_nil] at e
      simpa using congrArg List.length e
    | cons c z =>
      obtain ⟨rfl, -⟩ := List.cons.inj hz
      exact ⟨x, z, rfl, hx, rfl⟩

/-- **Text behind a glob stays behind what it is filled to.** -/
theorem FilledWith.append (hstart : ¬ AtStart s) (ht : wildcard ∉ t) (hslash : '/' ∉ t)
    (h : FilledWith ok g s) : FilledWith ok (g ++ t) (s ++ t) := by
  obtain ⟨texts, last, hlength, htexts, hok, rfl, hkept⟩ := h
  refine ⟨texts, last, ?_, htexts, hok, ?_, dotsKept_append hstart ht hslash hkept⟩
  · rw [List.count_append, List.count_eq_zero.mpr ht, hlength, Nat.add_zero]
  · rw [fill_append, fill_fixed ht]

theorem FilledWith.of_append (ht : wildcard ∉ t) (h : FilledWith ok (g ++ t) p) :
    ∃ s, p = s ++ t ∧ FilledWith ok g s := by
  obtain ⟨texts, last, hlength, htexts, hok, rfl, hkept⟩ := h
  rw [List.count_append, List.count_eq_zero.mpr ht, Nat.add_zero] at hlength
  refine ⟨_, ?_, texts, last, hlength, htexts, hok, rfl, hkept.of_append ht⟩
  rw [fill_append, fill_fixed ht]

/-- What follows the last wildcard ends what the glob is filled to. -/
theorem FilledWith.exists_eq (hafter : wildcard ∉ after) (h : FilledWith ok (before ++ wildcard :: after) s) :
    ∃ r, s = r ++ after := by
  obtain ⟨texts, last, hlength, -, -, rfl, -⟩ := h
  rw [List.count_append, List.count_cons_self, List.count_eq_zero.mpr hafter] at hlength
  rw [fill_append_append (Nat.succ.inj hlength), fill_wildcard, fill_fixed hafter, ← List.append_assoc]
  exact ⟨_, rfl⟩

/-- What ends two texts that a glob is filled to ends itself with the text between them. -/
theorem suffix_append_of_filled (hafter : wildcard ∉ after)
    (hs : FilledWith ok (before ++ wildcard :: after) s)
    (ht : FilledWith ok (before ++ wildcard :: after) (s ++ t)) : after <:+ after ++ t := by
  obtain ⟨r, rfl⟩ := hs.exists_eq hafter
  obtain ⟨q, hq⟩ := ht.exists_eq hafter
  have hlong : after ++ t <:+ r ++ after ++ t := ⟨r, by simp⟩
  refine List.suffix_of_suffix_length_le ⟨q, hq.symm⟩ hlong ?_
  rw [List.length_append]
  exact Nat.le_add_right _ _

/-- Whether the last wildcard stands behind a slash does not change with text behind the glob. -/
theorem lastBehindSlash_append (hstar : wildcard ∈ g) (ht : wildcard ∉ t) :
    LastBehindSlash (g ++ t) ↔ LastBehindSlash g := by
  obtain ⟨before, after, -, rfl, hafter⟩ := Text.exists_cutLast hstar
  rw [List.append_assoc, List.cons_append, lastBehindSlash_iff (by simp [hafter, ht]),
    lastBehindSlash_iff hafter]

/-- **The index files of what a glob means strictly** are those that the glob means with their name
behind it. -/
theorem strictly_index_iff (hstar : wildcard ∈ g) (ht : wildcard ∉ indexName ++ t) :
    Strictly (g ++ (indexName ++ t)) p ↔ ∃ q, p = q ++ (indexName ++ t) ∧ Strictly g q := by
  have htrail : indexName ++ t = Path.trail [FileSystem.indexStem ++ t] := by
    simp [indexName, FileSystem.indexStem]
  unfold Strictly
  simp only [lastBehindSlash_append hstar ht]
  rw [htrail] at ht ⊢
  exact filledWith_rest ht

/-! ## Index files at any depth -/

/-- A text that ends itself with another behind it is made of the other's characters. -/
theorem mem_of_suffix_append {t : Text} (ht : t ≠ []) : ∀ {s : Text}, s <:+ s ++ t → ∀ c ∈ s, c ∈ t := by
  intro s
  induction hn : s.length using Nat.strong_induction_on generalizing s with
  | _ n ih =>
    intro h c hc
    have hsuffix : t <:+ s ++ t := List.suffix_append s t
    rcases le_total s.length t.length with hle | hle
    · exact (List.suffix_of_suffix_length_le h hsuffix hle).subset hc
    · -- the text ends in the other one, and what stands before it ends itself again
      obtain ⟨r, rfl⟩ := List.suffix_of_suffix_length_le hsuffix h hle
      obtain ⟨z, hz⟩ := h
      have hr : r <:+ r ++ t := ⟨z, List.append_cancel_right (by rw [List.append_assoc]; exact hz)⟩
      have hlength : r.length < n := by
        have := List.length_pos_of_ne_nil ht
        rw [← hn, List.length_append]
        omega
      rcases List.mem_append.mp hc with hc | hc
      · exact ih r.length hlength rfl hr c hc
      · exact hc

/-- A character that a text does not hold is found before it. -/
theorem exists_eq_of_append {x : Char} {s t u v : Text} (hx : x ∉ t) (e : s ++ t = u ++ x :: v) :
    ∃ w, s = u ++ x :: w := by
  rcases List.append_eq_append_iff.mp e with ⟨z, rfl, hz⟩ | ⟨z, rfl, hz⟩
  · exact absurd (by simp [hz]) hx
  · cases z with
    | nil =>
      obtain rfl : x :: v = t := hz
      exact absurd (List.mem_cons_self ..) hx
    | cons c z =>
      obtain ⟨rfl, -⟩ := List.cons.inj hz
      exact ⟨z, rfl⟩

/-- **A glob that ends as the name of index files does** means this name behind what it means. -/
theorem loosely_index (hafter : wildcard ∉ after) (hends : after <:+ after ++ indexName)
    (h : Loosely (before ++ wildcard :: after) s) :
    Loosely (before ++ wildcard :: after) (s ++ indexName) := by
  obtain ⟨texts, last, hlength, htexts, -, rfl, hkept⟩ := h
  obtain ⟨more, hmore⟩ := hends
  have hdot : '.' ∉ wildcard :: after := by
    have : '.' ∉ after := fun h => absurd (mem_of_suffix_append (by decide) ⟨more, hmore⟩ _ h) (by decide)
    simp [this, wildcard]
  have hcount : texts.length = before.count wildcard := by
    rw [List.count_append, List.count_cons_self, List.count_eq_zero.mpr hafter] at hlength
    exact Nat.succ.inj hlength
  have hfill (last : Text) : fill (texts ++ [last]) (before ++ wildcard :: after) =
      fill texts before ++ (last ++ after) := by
    rw [fill_append_append hcount, fill_wildcard, fill_fixed hafter]
  have hindex : fill (texts ++ [last ++ more]) (before ++ wildcard :: after) =
      fill (texts ++ [last]) (before ++ wildcard :: after) ++ indexName := by
    rw [hfill, hfill, List.append_assoc last, hmore]
    simp
  refine ⟨texts, last ++ more, hlength, htexts, trivial, hindex, fun u v e hu => ?_⟩
  rw [hindex] at e
  obtain ⟨w, hw⟩ := exists_eq_of_append (by decide) e
  obtain ⟨x, y, hxy, hx, rfl⟩ := hkept u w hw hu
  -- the dot stands before the last wildcard, where the texts are the same
  obtain ⟨z, rfl⟩ := exists_eq_of_append hdot hxy
  have hx' : x.count wildcard ≤ texts.length := by
    rw [hcount, List.count_append]
    exact Nat.le_add_right _ _
  refine ⟨x, z ++ wildcard :: after, by simp, hx, ?_⟩
  rw [fill_append_texts hx', fill_append_texts hx']

/-! ## Importable files -/

/-- **Whether normal globs match a path**, one of their extensions behind each. -/
def NormalMatches (g : Text) (extensions : List Text) (p : Text) : Prop :=
  ∃ e ∈ normalize g extensions true, ∃ x ∈ expandBraces e, Matches x p

instance (g : Text) (extensions : List Text) (p : Text) : Decidable (NormalMatches g extensions p) :=
  inferInstanceAs (Decidable (∃ e ∈ normalize g extensions true, ∃ x ∈ expandBraces e, Matches x p))

section

variable (hstar : wildcard ∈ g) (hflat : ¬ deep <:+: g) (hsimple : IsSimple g) (hbrace : '\x7b' ∉ g)
  (hnone : hasExtension g = false) (hwords : AreWords extensions)

omit hbrace hnone hwords in
include hstar hflat hsimple in
/-- What may be taken apart at its last wildcard may be so with text behind it. -/
theorem searchable_append (ht : hasMagic t = false) :
    wildcard ∈ g ++ t ∧ ¬ deep <:+: g ++ t ∧ IsSimple (g ++ t) := by
  refine ⟨List.mem_append_left _ hstar, flat_append hflat (wildcard_not_mem ht), fun c hc => ?_⟩
  rcases List.mem_append.mp hc with hc | hc
  exacts [hsimple c hc, isSimple_of_hasMagic ht c hc]

include hstar hflat hsimple hbrace hnone hwords

/-- What a glob means with an extension behind it is matched. -/
theorem normalMatches_of_loosely (hword : word ∈ words extensions) (h : Loosely (g ++ '.' :: word) p) :
    NormalMatches g extensions p := by
  obtain ⟨h₁, h₂, h₃⟩ := searchable_append hstar hflat hsimple (hasMagic_dot (isWord_of_mem_words hwords hword))
  rw [NormalMatches, exists_inferred_iff hstar hflat hbrace hnone hwords]
  exact ⟨word, hword, .inl ((exists_matches_iff_loosely h₁ h₂ h₃).mpr h)⟩

/-- **Where a glob names no extension**, normal globs match what it means with an extension behind it, and
strictly with the name of an index file. -/
theorem normalMatches_iff (hp : [] ∉ Text.split '/' p) : NormalMatches g extensions p ↔
    ∃ word ∈ words extensions,
      Loosely (g ++ '.' :: word) p ∨ Strictly (g ++ (indexName ++ '.' :: word)) p := by
  rw [NormalMatches, exists_inferred_iff hstar hflat hbrace hnone hwords]
  refine exists_congr fun word => and_congr_right fun hword => or_congr ?_ ?_
  · obtain ⟨h₁, h₂, h₃⟩ :=
      searchable_append hstar hflat hsimple (hasMagic_dot (isWord_of_mem_words hwords hword))
    exact exists_matches_iff_loosely h₁ h₂ h₃
  · obtain ⟨h₁, h₂, h₃⟩ := searchable_append (t := indexName ++ '.' :: word) hstar hflat hsimple (by
      rw [hasMagic_append, hasMagic_dot (isWord_of_mem_words hwords hword)]
      decide)
    exact exists_matches_iff_strictly h₁ h₂ h₃ hp

end

/-- What has no empty component is no place for one to begin behind it. -/
theorem not_atStart (h : [] ∉ Text.split '/' s) : ¬ AtStart s :=
  not_or.mpr (Path.isBase_of_not_mem_split h)

/-- The name of an index file is one component. -/
theorem split_index (hword : ∀ c ∈ word, Text.isWord c = true) :
    Text.split '/' (s ++ (indexName ++ '.' :: word)) =
      Text.split '/' s ++ [FileSystem.indexStem ++ '.' :: word] := by
  have hslash : '/' ∉ FileSystem.indexStem ++ '.' :: word := by
    rw [List.mem_append, List.mem_cons, not_or, not_or]
    exact ⟨by decide, by decide, not_mem_of_isWord hword (by decide)⟩
  rw [show s ++ (indexName ++ '.' :: word) = s ++ '/' :: (FileSystem.indexStem ++ '.' :: word) from rfl,
    Text.split_append_cons, Text.split_of_not_mem hslash]

/-- An extension is one of the words that are filled in. -/
theorem mem_words (hwords : AreWords extensions) (h : '.' :: word ∈ extensions) : word ∈ words extensions := by
  refine Text.mem_split_join (List.mem_map.mpr ⟨_, h, rfl⟩) fun w hw => ?_
  obtain ⟨e, he, rfl⟩ := List.mem_map.mp hw
  obtain ⟨w, rfl, hchars⟩ := hwords e he
  exact not_mem_of_isWord hchars (by decide)

/-- **Which files can be imported**: with an extension, every file of a path that a glob means, and with the
name of an index file, that of a path which it means strictly, or any where this name ends as the glob
does. -/
theorem importable_iff {e : Text} (hafter : wildcard ∉ after)
    (hflat : ¬ deep <:+: before ++ wildcard :: after) (hsimple : IsSimple (before ++ wildcard :: after))
    (hbrace : '\x7b' ∉ before ++ wildcard :: after)
    (hnone : hasExtension (before ++ wildcard :: after) = false) (hwords : AreWords extensions)
    (hs : Loosely (before ++ wildcard :: after) s) (hnames : [] ∉ Text.split '/' s) (he : e ∈ extensions) :
    NormalMatches (before ++ wildcard :: after) extensions (s ++ e) ∧
      (NormalMatches (before ++ wildcard :: after) extensions (s ++ (indexName ++ e)) ↔
        Strictly (before ++ wildcard :: after) s ∨ after <:+ after ++ indexName) := by
  have hstar : wildcard ∈ before ++ wildcard :: after := by simp
  obtain ⟨word, rfl, hchars⟩ := hwords e he
  have hword := mem_words hwords he
  have hdot : wildcard ∉ '.' :: word := wildcard_not_mem (hasMagic_dot hchars)
  have hslash : '/' ∉ '.' :: word := by simpa using not_mem_of_isWord hchars (by decide)
  have hindexNames : [] ∉ Text.split '/' (s ++ (indexName ++ '.' :: word)) := by
    rw [split_index hchars, List.mem_append, not_or]
    exact ⟨hnames, by simp [FileSystem.indexStem]⟩
  refine ⟨normalMatches_of_loosely hstar hflat hsimple hbrace hnone hwords hword
    (FilledWith.append (not_atStart hnames) hdot hslash hs), ?_⟩
  rw [normalMatches_iff hstar hflat hsimple hbrace hnone hwords hindexNames]
  constructor
  · rintro ⟨other, hother, h⟩
    have hcharsOther := isWord_of_mem_words hwords hother
    have hinj {q : Text} (e : s ++ (indexName ++ '.' :: word) = q ++ '.' :: other) : s ++ indexName = q := by
      rw [← List.append_assoc] at e
      exact (FileSystem.append_dot_inj (not_mem_of_isWord hchars (by decide))
        (not_mem_of_isWord hcharsOther (by decide)) e).1
    rcases h with h | h
    · obtain ⟨q, e, hq⟩ := FilledWith.of_append (wildcard_not_mem (hasMagic_dot hcharsOther)) h
      obtain rfl := hinj e
      exact .inr (suffix_append_of_filled hafter hs hq)
    · obtain ⟨q, e, hq⟩ := (strictly_index_iff hstar (wildcard_not_mem_index hcharsOther)).mp h
      rw [← List.append_assoc q] at e
      obtain rfl := List.append_cancel_right (hinj e)
      exact .inl hq
  · rintro (h | h)
    · exact ⟨word, hword, .inr ((strictly_index_iff hstar (wildcard_not_mem_index hchars)).mpr ⟨s, rfl, h⟩)⟩
    · have hstart : ¬ AtStart (s ++ indexName) := by
        simp [AtStart, indexName, List.getLast?_append]
      refine ⟨word, hword, .inl ?_⟩
      rw [← List.append_assoc]
      exact FilledWith.append hstart hdot hslash (loosely_index hafter h hs)

theorem areWords_js : AreWords [".js".toList] :=
  List.forall_mem_singleton.mpr ⟨['j', 's'], rfl, List.all_eq_true.mp (by decide)⟩

/-- A glob that ends in its wildcard reaches index files at any depth. -/
theorem importable_views :
    Loosely "./views/*".toList "./views/a/b".toList ∧
      NormalMatches "./views/*".toList [".js".toList] "./views/a/b.js".toList ∧
      NormalMatches "./views/*".toList [".js".toList] "./views/a/b/index.js".toList := by
  have hflat : ¬ deep <:+: "./views/".toList ++ wildcard :: [] := by
    decide
  have hsimple : IsSimple ("./views/".toList ++ wildcard :: []) := by
    simp [IsSimple, wildcard]
  have hs : Loosely ("./views/".toList ++ wildcard :: []) "./views/a/b".toList := by
    refine (exists_matches_iff_loosely (by simp) hflat hsimple).mp ?_
    decide +kernel
  obtain ⟨hfile, hindex⟩ := importable_iff List.not_mem_nil hflat hsimple (by decide +kernel)
    (by decide +kernel) areWords_js hs (by decide +kernel) (List.mem_singleton_self _)
  exact ⟨hs, hfile, hindex.mpr (.inr ⟨indexName, rfl⟩)⟩

/-- Whether a path that a glob means has an index file that is lost. -/
def LosesIndex (g : Text) (extensions : List Text) (s : Text) : Prop :=
  wildcard ∈ g ∧ ¬ deep <:+: g ∧ IsSimple g ∧ '\x7b' ∉ g ∧ [] ∉ Text.split '/' g ∧ hasExtension g = false ∧
    AreWords extensions ∧ Loosely g s ∧ [] ∉ Text.split '/' s ∧
    ∃ e ∈ extensions, ¬ NormalMatches g extensions (s ++ (indexName ++ e))

/-- **Index files are lost** where the glob goes on behind its wildcard. -/
theorem misses_index : LosesIndex "a/*b".toList [".js".toList] "a/x/yb".toList ∧
    LosesIndex "./a/*b".toList [".js".toList] "./a/x/yb".toList := by
  have loses {g s : Text} (hsimple : IsSimple g)
      (hrest : wildcard ∈ g ∧ ¬ deep <:+: g ∧ '\x7b' ∉ g ∧ [] ∉ Text.split '/' g ∧ hasExtension g = false ∧
        (∃ e ∈ stepAll expandDepth (repairSlash g), Matches e s) ∧ [] ∉ Text.split '/' s ∧
        ∃ e ∈ [".js".toList], ¬ NormalMatches g [".js".toList] (s ++ (indexName ++ e))) :
      LosesIndex g [".js".toList] s := by
    obtain ⟨hstar, hflat, hbrace, hg, hnone, hmatch, hs, hlost⟩ := hrest
    exact ⟨hstar, hflat, hsimple, hbrace, hg, hnone, areWords_js,
      (exists_matches_iff_loosely hstar hflat hsimple).mp hmatch, hs, hlost⟩
  refine ⟨loses ?_ ?_, loses ?_ ?_⟩
  · simp [IsSimple]
  · decide +kernel
  · simp [IsSimple]
  · decide +kernel

end VariableImport.Glob
