import VariableImport.Proofs.Glob.Importable
import VariableImport.Proofs.Text.Distinct

/-!
# Proofs/Glob/FixedPoint — normal globs made normal again

Behind a name that holds anything but dots, what is filled in is read as an extension
(`hasExtension_append_group`), so that nothing is filled in a second time.  What is left is the slash
before the last wildcard, and, loosely, the directories at any depth.

* Strictly, the glob that goes on a name is repaired once more, into a glob that stands before it
  already: **making strict normal globs normal again changes nothing** (`normalize_strict_idempotent`).
* Loosely, a glob with a double wildcard is kept exactly if a slash stands before its last wildcard and it
  names an extension (`normalize_eq_self_iff`).  Where directories are let in behind a name, the last
  wildcard is the second of the two, and the glob is taken apart again
  (`normalize_deep_eq_self_iff`).
-/

namespace VariableImport

namespace Glob

open DispatchTable (indexName)

variable {g p before after t : Text} {extensions : List Text}

/-! ## What is filled in -/

/-- Whether extensions are dots with text behind them that is part of one name and its extension. -/
def AreSuffixes (extensions : List Text) : Prop :=
  ∀ e ∈ extensions, ∃ w, e = '.' :: w ∧ '*' ∉ w ∧ '/' ∉ w ∧ '.' ∉ w

/-- A group of extensions is one extension. -/
theorem exists_extensionGroup_eq (hext : AreSuffixes extensions) :
    ∃ w, extensionGroup extensions = '.' :: w ∧ '*' ∉ w ∧ '/' ∉ w ∧ '.' ∉ w := by
  refine ⟨_, rfl, ?_⟩
  have hout {x : Char} (hcomma : x ≠ ',') (hopen : x ≠ '\x7b') (hclose : x ≠ '\x7d')
      (hx : ∀ e ∈ extensions, x ∉ e.tail) :
      x ∉ '\x7b' :: Text.join [','] (extensions.map List.tail) ++ ['\x7d'] := by
    have hjoin : x ∉ Text.join [','] (extensions.map List.tail) := by
      intro hm
      rcases Text.mem_of_mem_join hm with h | ⟨word, hword, hc⟩
      · exact hcomma h
      · obtain ⟨e, he, rfl⟩ := List.mem_map.mp hword
        exact hx e he hc
    simp [hopen, hclose, hjoin]
  refine ⟨hout (by decide) (by decide) (by decide) fun e he => ?_,
    hout (by decide) (by decide) (by decide) fun e he => ?_,
    hout (by decide) (by decide) (by decide) fun e he => ?_⟩
  all_goals
    obtain ⟨w, rfl, hstar, hslash, hdot⟩ := hext e he
    assumption

/-- A glob that names an extension has a name before it. -/
theorem exists_of_hasExtension (h : hasExtension g = true) : ∃ c ∈ Path.basename g, c ≠ '.' := by
  have hne : Path.extension (Path.basename g) ≠ [] := by
    rintro hnil
    simp [hasExtension, hnil] at h
  obtain ⟨stem, word, hname, -, c, hc, hdot⟩ := Path.exists_basename_eq_of_extension hne
  rw [Path.basename_of_not_mem (Path.slash_not_mem_basename g)] at hname
  exact ⟨c, by simp [hname, hc], hdot⟩

/-- **A group of extensions is read as an extension** exactly behind a name that holds anything but
dots. -/
theorem hasExtension_append_group (hext : AreSuffixes extensions) :
    hasExtension (g ++ extensionGroup extensions) = true ↔ ∃ c ∈ Path.basename g, c ≠ '.' := by
  obtain ⟨w, hgroup, hstar, hslash, hdot⟩ := exists_extensionGroup_eq hext
  have hself : Path.basename (Path.basename g) = Path.basename g :=
    Path.basename_of_not_mem (Path.slash_not_mem_basename g)
  have hbase : Path.basename (g ++ '.' :: w) = Path.basename g ++ '.' :: w :=
    Path.basename_append g (by simp [hslash])
  rw [hgroup, hasExtension, hbase]
  constructor
  · intro h
    have hne : Path.extension (Path.basename g ++ '.' :: w) ≠ [] := by
      rintro hnil
      simp [hnil] at h
    obtain ⟨stem, word, hname, hword, hstem⟩ := Path.exists_basename_eq_of_extension hne
    rw [Path.basename_append _ (by simp [hslash]), hself] at hname
    have hcut : Text.cutLast '.' (Path.basename g ++ '.' :: w) = some (Path.basename g, w) :=
      Text.cutLast_eq_some.mpr ⟨rfl, hdot⟩
    rw [hname, Text.cutLast_eq_some.mpr ⟨rfl, hword⟩] at hcut
    obtain ⟨rfl, -⟩ := Prod.mk.inj (Option.some.inj hcut)
    exact hstem
  · intro h
    rw [Path.extension_append (hself.symm ▸ h) hdot hslash]
    simp [hstar]

/-- **What is put behind a glob**: nothing if it names an extension; else the extensions, and, unless it
reaches them already, the extensions of index files. -/
def completions (extensions : List Text) (glob : Text) : List Text :=
  if hasExtension glob then [[]]
  else extensionGroup extensions ::
    (if glob.contains deep then [] else [indexName ++ extensionGroup extensions])

theorem inferExtension_eq_map (extensions : List Text) (g : Text) :
    inferExtension extensions g = (completions extensions g).map (g ++ ·) := by
  unfold inferExtension completions
  split
  · simp
  · split <;> simp [indexName]

theorem inferExtension_eq_singleton_iff :
    inferExtension extensions g = [g] ↔ hasExtension g = true := by
  unfold inferExtension
  split
  · next h => simp [h]
  · next h => simp [h, extensionGroup]

theorem completions_cases (h : t ∈ completions extensions g) :
    (t = [] ∧ hasExtension g = true) ∨ t = extensionGroup extensions ∨
      t = indexName ++ extensionGroup extensions ∧ ¬ deep <:+: g := by
  unfold completions at h
  split at h
  · next hnamed => exact .inl ⟨List.mem_singleton.mp h, hnamed⟩
  · rcases List.mem_cons.mp h with rfl | h
    · exact .inr (.inl rfl)
    · split at h
      · exact absurd h List.not_mem_nil
      · next hflat => exact .inr (.inr ⟨List.mem_singleton.mp h, Text.contains_iff.not.mp hflat⟩)

theorem wildcard_not_mem_completion (hext : AreSuffixes extensions) (h : t ∈ completions extensions g) :
    wildcard ∉ t := by
  obtain ⟨w, hgroup, hstar, -, -⟩ := exists_extensionGroup_eq hext
  have hgroup : wildcard ∉ extensionGroup extensions := by
    rw [hgroup, List.mem_cons, not_or]
    exact ⟨by decide, hstar⟩
  have hindex : wildcard ∉ indexName := by decide
  rcases completions_cases h with ⟨rfl, -⟩ | rfl | ⟨rfl, -⟩ <;> simp [hgroup, hindex]

/-- **Nothing is filled in a second time** behind a name that holds anything but dots. -/
theorem hasExtension_completion (hext : AreSuffixes extensions) (hname : ∃ c ∈ Path.basename g, c ≠ '.')
    (h : t ∈ completions extensions g) : hasExtension (g ++ t) = true := by
  rcases completions_cases h with ⟨rfl, hnamed⟩ | rfl | ⟨rfl, -⟩
  · rwa [List.append_nil]
  · exact (hasExtension_append_group hext).mpr hname
  · rw [← List.append_assoc]
    exact (hasExtension_append_group hext).mpr ⟨'i', Path.mem_basename_append (by decide) g, by decide⟩

theorem completions_ne_nil (extensions : List Text) (g : Text) : completions extensions g ≠ [] := by
  unfold completions
  split <;> simp

theorem nodup_completions (extensions : List Text) (g : Text) : (completions extensions g).Nodup := by
  unfold completions
  split
  · simp
  · split
    · simp
    · simp [indexName, extensionGroup]

/-! ## Strictly -/

/-- Slashes are repaired whatever stands behind the last wildcard. -/
theorem repairSlash_append_of_mem (hstar : wildcard ∈ g) (ht : wildcard ∉ t) :
    repairSlash (g ++ t) = (repairSlash g).map (· ++ t) := by
  obtain ⟨before, after, -, rfl, hafter⟩ := Text.exists_cutLast hstar
  exact repairSlash_append hafter ht

/-- **A glob is repaired or not**, and a repaired glob is not: it has another character than the glob at
one place. -/
theorem repairSlash_cases (hstar : wildcard ∈ g) : repairSlash g = [g] ∨
    ∃ r, repairSlash g = [r, g] ∧ wildcard ∈ r ∧ repairSlash r = [r] ∧ ∀ t t', r ++ t ≠ g ++ t' := by
  obtain ⟨before, after, -, rfl, hafter⟩ := Text.exists_cutLast hstar
  have hkept : repairSlash ((before ++ ['/']) ++ '*' :: after) = [(before ++ ['/']) ++ '*' :: after] := by
    rw [repairSlash, cutLast_append hafter]
    simp
  rw [repairSlash, cutLast_append hafter]
  dsimp only
  split
  · exact .inl rfl
  · exact .inr ⟨_, by simp, by simp, hkept, by simp [slash_ne_wildcard]⟩

theorem nodup_repairSlash (g : Text) : (repairSlash g).Nodup := by
  unfold repairSlash
  split
  · simp
  · next hcut =>
    obtain ⟨rfl, -⟩ := Text.cutLast_eq_some.mp hcut
    split
    · simp
    · simp

/-- The character before the last wildcard does not matter to the name at the end. -/
theorem exists_basename_append_star (s : Text) : (∃ c ∈ Path.basename (s ++ wildcard :: t), c ≠ '.') ↔
    ∃ c ∈ Path.basename (wildcard :: t), c ≠ '.' := by
  by_cases hslash : '/' ∈ t
  · obtain ⟨head, name, -, rfl, hname⟩ := Text.exists_cutLast hslash
    have hs : s ++ wildcard :: (head ++ '/' :: name) = (s ++ wildcard :: head) ++ '/' :: name := by simp
    have hstar : wildcard :: (head ++ '/' :: name) = (wildcard :: head) ++ '/' :: name := rfl
    rw [hs, hstar, Path.basename_append_cons _ hname, Path.basename_append_cons _ hname]
  · have hlast : '/' ∉ wildcard :: t := by simp [hslash, slash_ne_wildcard]
    have hself : wildcard ∈ Path.basename (wildcard :: t) := by
      rw [Path.basename_of_not_mem hlast]
      exact List.mem_cons_self ..
    exact iff_of_true ⟨wildcard, Path.mem_basename_append hself s, by decide⟩
      ⟨wildcard, hself, by decide⟩

theorem exists_basename_of_mem (loose : Bool) {e : Text} (hstar : wildcard ∈ g)
    (h : e ∈ if loose then stepAll expandDepth (repairSlash g) else repairSlash g) :
    (∃ c ∈ Path.basename e, c ≠ '.') ↔ ∃ c ∈ Path.basename g, c ≠ '.' := by
  obtain ⟨before, after, -, rfl, hafter⟩ := Text.exists_cutLast hstar
  obtain ⟨mid, hmid, rfl⟩ := exists_filling hafter h
  obtain ⟨lead, rfl⟩ := hmid.exists_concat
  rw [exists_basename_append_star before]
  simpa using exists_basename_append_star (before ++ lead) (t := after)

/-- A glob that names an extension is only repaired. -/
theorem normalize_strict_eq (hstar : wildcard ∈ g) (hnamed : hasExtension g = true) :
    normalize g extensions false = repairSlash g := by
  have hinfer : ∀ r ∈ repairSlash g, inferExtension extensions r = [r] := fun r hr =>
    inferExtension_eq_singleton_iff.mpr ((@hasExtension_of_mem g false r hstar hr).trans hnamed)
  rw [normalize, stepAll, if_neg (by decide), List.flatMap_congr hinfer, List.flatMap_singleton',
    Text.distinct_eq_self (nodup_repairSlash g)]

/-- A glob with fewer double wildcards has no fewer completions. -/
theorem completions_subset {r : Text} (hsame : hasExtension r = hasExtension g)
    (hdeep : deep <:+: r → deep <:+: g) : completions extensions g ⊆ completions extensions r := by
  intro t ht
  unfold completions at ht ⊢
  rw [hsame]
  split at ht
  · next hnamed => rwa [if_pos hnamed]
  · next hnamed =>
    rw [if_neg hnamed]
    by_cases hr : Text.contains r deep = true
    · rw [if_pos hr]
      rwa [if_pos (Text.contains_iff.mpr (hdeep (Text.contains_iff.mp hr)))] at ht
    · rw [if_neg hr]
      split at ht
      · rw [List.mem_singleton.mp ht]
        exact List.mem_cons_self ..
      · exact ht

/-- **The strict normal globs of a glob that is repaired** are those of the repaired glob, and then those
of the glob as it was. -/
theorem normalize_strict_of_repaired {r : Text} (h : repairSlash g = [r, g])
    (hparts : ∀ t t', r ++ t ≠ g ++ t') : normalize g extensions false =
      (completions extensions r).map (r ++ ·) ++ (completions extensions g).map (g ++ ·) := by
  rw [normalize, stepAll, if_neg (by decide), h]
  simp only [List.flatMap_cons, List.flatMap_nil, List.append_nil, inferExtension_eq_map]
  refine Text.distinct_eq_self (List.nodup_append.mpr ⟨?_, ?_, ?_⟩)
  · exact List.Nodup.map (List.append_right_injective r) (nodup_completions _ _)
  · exact List.Nodup.map (List.append_right_injective g) (nodup_completions _ _)
  · intro x hx y hy
    obtain ⟨t, -, rfl⟩ := List.mem_map.mp hx
    obtain ⟨t', -, rfl⟩ := List.mem_map.mp hy
    exact hparts t t'

/-- **Where a strict normal glob is repaired again**, the repaired glob stands before it already. -/
theorem mem_of_mem_repairSlash_normalize {xs ys : List Text} {x : Text} (hstar : wildcard ∈ g)
    (hext : AreSuffixes extensions) (hsplit : normalize g extensions false = xs ++ p :: ys)
    (hx : x ∈ repairSlash p) : x ∈ xs ∨ x = p := by
  rcases repairSlash_cases hstar with hone | ⟨r, htwo, hr, hkept, hparts⟩
  · have hp : p ∈ normalize g extensions false := by simp [hsplit]
    obtain ⟨r, hr, hp⟩ := mem_stepAll.mp hp
    rw [if_neg (by decide), hone, List.mem_singleton] at hr
    rw [hr, inferExtension_eq_map] at hp
    obtain ⟨t, ht, rfl⟩ := List.mem_map.mp hp
    rw [repairSlash_append_of_mem hstar (wildcard_not_mem_completion hext ht), hone] at hx
    exact .inr (List.mem_singleton.mp hx)
  · rw [normalize_strict_of_repaired htwo hparts] at hsplit
    have hsubset : completions extensions g ⊆ completions extensions r := by
      have hmem : r ∈ repairSlash g := by simp [htwo]
      refine completions_subset (@hasExtension_of_mem g false r hstar hmem) fun hdeep => ?_
      by_contra hflat
      exact flat_of_mem_repairSlash hstar hflat hmem hdeep
    -- a repaired glob is kept; for the glob as it was, the repaired one is among those before it
    have hfirst (hp : p ∈ (completions extensions r).map (r ++ ·)) : x ∈ xs ∨ x = p := by
      obtain ⟨t, ht, rfl⟩ := List.mem_map.mp hp
      rw [repairSlash_append_of_mem hr (wildcard_not_mem_completion hext ht), hkept] at hx
      exact .inr (List.mem_singleton.mp hx)
    have hsecond (hp : p ∈ (completions extensions g).map (g ++ ·))
        (hbefore : (completions extensions r).map (r ++ ·) ⊆ xs) : x ∈ xs ∨ x = p := by
      obtain ⟨t, ht, rfl⟩ := List.mem_map.mp hp
      rw [repairSlash_append_of_mem hstar (wildcard_not_mem_completion hext ht), htwo] at hx
      rcases List.mem_cons.mp hx with rfl | hx
      · exact .inl (hbefore (List.mem_map_of_mem (hsubset ht)))
      · exact .inr (List.mem_singleton.mp hx)
    rcases List.append_eq_append_iff.mp hsplit with ⟨z, rfl, hz⟩ | ⟨z, hz, hz'⟩
    · exact hsecond (by simp [hz]) (List.subset_append_left _ _)
    · cases z with
      | nil =>
        rw [List.nil_append] at hz'
        exact hsecond (hz' ▸ List.mem_cons_self ..) (by simp [hz])
      | cons q z =>
        obtain ⟨rfl, -⟩ := List.cons.inj hz'
        exact hfirst (by simp [hz])

/-- **Making strict normal globs normal again changes nothing**: the same globs in the same order, each
with an extension and none twice. -/
theorem normalize_strict_idempotent {g : Text} {extensions : List Text} (hstar : wildcard ∈ g)
    (hname : ∃ c ∈ Path.basename g, c ≠ '.') (hext : AreSuffixes extensions) :
    stepAll (fun p => normalize p extensions false) (normalize g extensions false) =
        normalize g extensions false ∧
      (normalize g extensions false).Nodup ∧
      ∀ p ∈ normalize g extensions false, hasExtension p = true := by
  have hparts : ∀ p ∈ normalize g extensions false,
      ∃ r ∈ repairSlash g, ∃ t ∈ completions extensions r, r ++ t = p := by
    intro p hp
    obtain ⟨r, hr, hp⟩ := mem_stepAll.mp hp
    rw [inferExtension_eq_map] at hp
    exact ⟨r, hr, List.mem_map.mp hp⟩
  have hnamed : ∀ p ∈ normalize g extensions false, hasExtension p = true := by
    intro p hp
    obtain ⟨r, hr, t, ht, rfl⟩ := hparts p hp
    exact hasExtension_completion hext ((exists_basename_of_mem false hstar hr).mpr hname) ht
  have hagain : ∀ p ∈ normalize g extensions false, normalize p extensions false = repairSlash p := by
    intro p hp
    refine normalize_strict_eq ?_ (hnamed p hp)
    obtain ⟨r, hr, t, -, rfl⟩ := hparts p hp
    obtain ⟨before, after, -, rfl, hafter⟩ := Text.exists_cutLast hstar
    rcases mem_repairSlash hafter hr with rfl | ⟨-, rfl⟩ <;> simp
  refine ⟨?_, nodup_normalize _ _ _, hnamed⟩
  rw [stepAll, List.flatMap_congr hagain]
  exact Text.distinct_flatMap_eq_self (nodup_normalize _ _ _) fun xs p ys hsplit =>
    ⟨mem_repairSlash_self p, fun x hx => mem_of_mem_repairSlash_normalize hstar hext hsplit hx⟩

/-- Files behind a double wildcard, which is taken apart and kept as well. -/
theorem normalize_strict_idempotent_deep :
    normalize "./x/**".toList [".js".toList, ".ts".toList] false =
        ["./x/*/*.\x7bjs,ts\x7d".toList, "./x/*/*/index.\x7bjs,ts\x7d".toList, "./x/**.\x7bjs,ts\x7d".toList] ∧
      stepAll (fun p => normalize p [".js".toList, ".ts".toList] false)
        (normalize "./x/**".toList [".js".toList, ".ts".toList] false) =
          normalize "./x/**".toList [".js".toList, ".ts".toList] false := by
  have hext : AreSuffixes [".js".toList, ".ts".toList] := by
    intro e he
    simp only [List.mem_cons, List.not_mem_nil, or_false] at he
    rcases he with rfl | rfl
    · exact ⟨['j', 's'], by decide⟩
    · exact ⟨['t', 's'], by decide⟩
  exact ⟨by decide +kernel, (normalize_strict_idempotent (by decide +kernel) ⟨'*', by decide +kernel⟩ hext).1⟩

/-! ## Loosely -/

/-- **A glob with a double wildcard is kept** exactly if a slash stands before its last wildcard and it
names an extension. -/
theorem normalize_eq_self_iff (hafter : '*' ∉ after) (hdeep : deep <:+: before ++ '*' :: after) :
    normalize (before ++ '*' :: after) extensions true = [before ++ '*' :: after] ↔
      before.getLast? = some '/' ∧ hasExtension (before ++ '*' :: after) = true := by
  by_cases hslash : before.getLast? = some '/'
  · have hrepair : repairSlash (before ++ '*' :: after) = [before ++ '*' :: after] := by
      rw [repairSlash, cutLast_append hafter]
      simp [hslash]
    have hdepth : stepAll expandDepth [before ++ '*' :: after] = [before ++ '*' :: after] := by
      rw [stepAll, List.flatMap_singleton, expandDepth, if_pos (Text.contains_iff.mpr hdeep)]
      rfl
    have hnodup : (inferExtension extensions (before ++ '*' :: after)).Nodup := by
      rw [inferExtension_eq_map]
      exact List.Nodup.map (List.append_right_injective _) (nodup_completions _ _)
    rw [normalize, hrepair, if_pos rfl, hdepth, stepAll, List.flatMap_singleton,
      Text.distinct_eq_self hnodup, inferExtension_eq_singleton_iff, and_iff_right hslash]
  · refine iff_of_false (fun heq => ?_) fun h => hslash h.1
    have hne : before ≠ [] := by
      rintro rfl
      rw [List.nil_append, List.infix_cons_iff] at hdeep
      rcases hdeep with ⟨v, hv⟩ | hdeep
      · obtain ⟨-, rfl⟩ := List.cons.inj hv
        exact hafter (List.mem_cons_self ..)
      · exact hafter (hdeep.subset (List.mem_cons_self ..))
    -- the repaired glob is longer, whatever is put behind it
    obtain ⟨t, ht⟩ := List.exists_mem_of_ne_nil _
      (completions_ne_nil extensions ((before ++ ['/']) ++ '*' :: after))
    have hmem : ((before ++ ['/']) ++ '*' :: after) ++ t ∈
        normalize (before ++ '*' :: after) extensions true := by
      refine mem_stepAll.mpr ⟨(before ++ ['/']) ++ '*' :: after, ?_, ?_⟩
      · rw [if_pos rfl]
        refine mem_stepAll.mpr ⟨_, ?_, mem_expandDepth_self _⟩
        rw [repairSlash, cutLast_append hafter]
        simp [hslash, hne]
      · rw [inferExtension_eq_map]
        exact List.mem_map_of_mem ht
    rw [heq, List.mem_singleton] at hmem
    have hlength := congrArg List.length hmem
    simp only [List.length_append, List.length_cons, List.length_nil] at hlength
    omega

/-- What stands for the last wildcard, if it is not the wildcard itself, ends in a wildcard with a slash or
another wildcard before it. -/
theorem Filling.exists_concat_cases {mid : Text} (h : Filling before after mid) : mid = ['*'] ∨
    ∃ lead c, mid = (lead ++ [c]) ++ ['*'] ∧ (c = '/' ∨ c = '*') := by
  cases h with
  | self => exact .inl rfl
  | above => exact .inr ⟨['*', '*'], '/', rfl, .inl rfl⟩
  | below => exact .inr ⟨['*', '/'], '*', rfl, .inr rfl⟩
  | between => exact .inr ⟨['*', '/', '*', '*'], '/', rfl, .inl rfl⟩
  | apart => exact .inr ⟨[], '/', rfl, .inl rfl⟩
  | apartBelow => exact .inr ⟨['/', '*', '*'], '/', rfl, .inl rfl⟩

/-- Whether the last wildcard of a glob is the second of a double one. -/
def EndsDeep (glob : Text) : Prop := ∃ s t, glob = s ++ deep ++ t ∧ wildcard ∉ t

theorem endsDeep_iff (hafter : '*' ∉ after) :
    EndsDeep (before ++ '*' :: after) ↔ before.getLast? = some '*' := by
  constructor
  · rintro ⟨s, t, he, ht⟩
    have hcut := cutLast_append (s := before) hafter
    have he : before ++ '*' :: after = (s ++ ['*']) ++ '*' :: t := by simp [he]
    rw [he, cutLast_append ht] at hcut
    obtain ⟨rfl, -⟩ := Prod.mk.inj (Option.some.inj hcut)
    simp
  · intro h
    obtain ⟨init, rfl⟩ := List.getLast?_eq_some_iff.mp h
    exact ⟨init, after, by simp, hafter⟩

/-- **What directories at any depth were let into** is kept, when it is made normal again, exactly if its
last wildcard is not the second of a double one and its last component holds anything but dots. -/
theorem normalize_deep_eq_self_iff {g p : Text} {extensions : List Text} (hstar : wildcard ∈ g)
    (hflat : ¬ deep <:+: g) (hext : AreSuffixes extensions) (hp : p ∈ normalize g extensions true)
    (hdeep : deep <:+: p) :
    normalize p extensions true = [p] ↔ ¬ EndsDeep p ∧ ∃ c ∈ Path.basename g, c ≠ '.' := by
  obtain ⟨e, he, hp⟩ := mem_stepAll.mp hp
  rw [inferExtension_eq_map] at hp
  obtain ⟨t, ht, rfl⟩ := List.mem_map.mp hp
  have htstar := wildcard_not_mem_completion hext ht
  have hedeep : deep <:+: e := by
    by_contra h
    exact flat_append h htstar hdeep
  have hnamed : hasExtension (e ++ t) = true ↔ ∃ c ∈ Path.basename g, c ≠ '.' := by
    rw [← exists_basename_of_mem true hstar he]
    rcases completions_cases ht with ⟨rfl, h⟩ | rfl | ⟨-, h⟩
    · rw [List.append_nil]
      exact iff_of_true h (exists_of_hasExtension h)
    · exact hasExtension_append_group hext
    · exact absurd hedeep h
  rw [← hnamed]
  obtain ⟨before, after, -, rfl, hafter⟩ := Text.exists_cutLast hstar
  obtain ⟨mid, hmid, rfl⟩ := @exists_filling e _ _ true hafter he
  rcases hmid.exists_concat_cases with rfl | ⟨lead, c, rfl, hc⟩
  · exact absurd (by simpa using hedeep) hflat
  · have hlast : '*' ∉ after ++ t := by simp [hafter, htstar]
    have hcut : before ++ ((lead ++ [c]) ++ ['*']) ++ after ++ t =
        (before ++ lead ++ [c]) ++ '*' :: (after ++ t) := by simp
    rw [hcut] at hdeep ⊢
    rw [normalize_eq_self_iff hlast hdeep, endsDeep_iff hlast]
    rcases hc with rfl | rfl <;> simp

/-- The globs that let directories into a glob that goes on a name: one is kept, and one is taken apart. -/
theorem normalize_deep_eq_self_iff_name :
    normalize "./foo/**/*/bar.js".toList [".js".toList] true = ["./foo/**/*/bar.js".toList] ∧
      normalize "./foo*/**/bar.js".toList [".js".toList] true ≠ ["./foo*/**/bar.js".toList] := by
  have hext : AreSuffixes [".js".toList] := by
    intro e he
    obtain rfl := List.mem_singleton.mp he
    exact ⟨['j', 's'], by decide⟩
  have hflat : ¬ deep <:+: "./foo*/bar.js".toList := by
    rw [← Text.contains_iff]
    decide +kernel
  have hname : ∃ c ∈ Path.basename "./foo*/bar.js".toList, c ≠ '.' := ⟨'b', by decide +kernel⟩
  have hkept : ¬ EndsDeep "./foo/**/*/bar.js".toList := by
    rw [show "./foo/**/*/bar.js".toList = "./foo/**/".toList ++ '*' :: "/bar.js".toList by decide +kernel,
      endsDeep_iff (by decide +kernel)]
    decide +kernel
  have hapart : EndsDeep "./foo*/**/bar.js".toList :=
    ⟨"./foo*/".toList, "/bar.js".toList, by decide +kernel, by decide +kernel⟩
  have hdeep : ∀ p ∈ ["./foo/**/*/bar.js".toList, "./foo*/**/bar.js".toList], deep <:+: p := by
    simp only [← Text.contains_iff]
    decide +kernel
  have hstar : wildcard ∈ "./foo*/bar.js".toList := by decide +kernel
  exact ⟨(normalize_deep_eq_self_iff hstar hflat hext (by decide +kernel)
      (hdeep _ (List.mem_cons_self ..))).mpr ⟨hkept, hname⟩,
    (normalize_deep_eq_self_iff hstar hflat hext (by decide +kernel)
      (hdeep _ (List.mem_cons_of_mem _ (List.mem_cons_self ..)))).not.mpr fun h => h.1 hapart⟩

/-- Whether one of the globs that let in directories at any depth is not kept, though the glob they are
made of is accepted. -/
def LosesFixedPoint (g : Text) (extensions : List Text) (p : Text) : Prop :=
  validate g g = .ok () ∧ wildcard ∈ g ∧ g.contains deep = false ∧ [] ∉ Text.split '/' g ∧
    p ∈ normalize g extensions true ∧ p.contains deep = true ∧ normalize p extensions true ≠ [p]

/-- **A double wildcard is taken apart** behind a name, and a second group of extensions is put behind
dots. -/
theorem taken_apart_again :
    LosesFixedPoint "./foo*/bar.js".toList [".js".toList] "./foo*/**/bar.js".toList ∧
      LosesFixedPoint "./*/.".toList [".js".toList] "./**/*/..\x7bjs\x7d".toList := by
  unfold LosesFixedPoint
  decide +kernel

end Glob

end VariableImport
