import VariableImport.Proofs.Glob.Deepening

/-!
# Proofs/Glob/LetIn — letting in directories lists no other directory

Loosely, a glob that brings no wildcards together comes with one that lets in directories of any depth, and
begins alike up to the wildcard (`exists_expandDepth`).  So a search that may list its directories strictly may
list them loosely (`FileSystem.listsNull_normalize`).
-/

namespace VariableImport

namespace Glob

/-- **A glob and the one with directories let in**, which begin alike up to the wildcard. -/
theorem exists_expandDepth {before after : Text} (hafter : wildcard ∉ after)
    (hflat : ¬ deep <:+: before ++ wildcard :: after) : ∃ deeper,
      expandDepth (before ++ wildcard :: after) = [before ++ wildcard :: after, deeper] ∧
      before ++ [wildcard] <+: deeper ∧
      (before.getLast? = some '/' → deeper = before ++ (deep ++ '/' :: wildcard :: after)) := by
  have hcontains : ¬ (before ++ wildcard :: after).contains ['*', '*'] = true := fun h =>
    hflat (Text.contains_iff.mp h)
  unfold expandDepth
  rw [if_neg hcontains, cutLast_append hafter]
  dsimp only
  split
  · exact ⟨_, rfl, ⟨'*' :: '/' :: '*' :: after, by simp⟩, fun _ => rfl⟩
  · next hlast =>
    split
    · exact ⟨_, rfl, ⟨'/' :: '*' :: '*' :: after, by simp⟩, fun h => absurd h hlast⟩
    · exact ⟨_, rfl, ⟨'/' :: '*' :: '*' :: '/' :: '*' :: after, by simp⟩, fun h => absurd h hlast⟩

namespace Joint

variable {before after : Text}

/-- The glob with a slash before its wildcard lets in directories behind that slash. -/
theorem expandDepth_apart (j : Joint before after) (hafter : wildcard ∉ after) :
    expandDepth (before ++ '/' :: wildcard :: after) = [before ++ '/' :: wildcard :: after,
      before ++ '/' :: (deep ++ '/' :: wildcard :: after)] := by
  have hflat : ¬ deep <:+: (before ++ ['/']) ++ wildcard :: after := by simpa using j.flat_apart
  obtain ⟨_, hexpand, -, hdeeper⟩ := exists_expandDepth hafter hflat
  obtain rfl := hdeeper (by simp)
  simpa using hexpand

end Joint

/-- Letting in directories keeps every glob. -/
theorem mem_normalize_loose {extensions : List Text} {glob pattern : Text}
    (h : pattern ∈ normalize glob extensions false) : pattern ∈ normalize glob extensions true := by
  obtain ⟨g, hg, hpattern⟩ := mem_stepAll.mp h
  exact mem_stepAll.mpr ⟨g, mem_stepAll.mpr ⟨g, hg, mem_expandDepth_self g⟩, hpattern⟩

theorem normalize_findSome? {α : Type} (f : Text → Option α) (glob : Text) (extensions : List Text)
    (loose : Bool) : (normalize glob extensions loose).findSome? f =
      (if loose then (repairSlash glob).flatMap expandDepth else repairSlash glob).findSome? fun g =>
        (inferExtension extensions g).findSome? f := by
  unfold normalize stepAll
  dsimp only
  rw [Text.findSome?_distinct, Text.findSome?_flatMap]
  cases loose with
  | false => rfl
  | true =>
    rw [if_pos rfl, if_pos rfl]
    exact Text.findSome?_distinct _ _

end Glob

/-! ## Searched directories -/

namespace FileSystem

open Glob

variable {fs : FileSystem} {base : Text}

/-- Which directory is listed for a pattern is seen from its first wildcard. -/
theorem listsNull_append {head : Text} (hmagic : hasMagic head = true) (hbrace : '\x7b' ∉ head)
    (rest : Text) : listsNull base (head ++ rest) =
      decide ('\x00' ∈ base ++ Path.stripSlashes (fixedDirectory head)) := by
  have hone {x : Text} (hx : x ∈ expandBraces (head ++ rest)) :
      (hasMagic x && decide ('\x00' ∈ base ++ (cutMagic x).1)) =
        decide ('\x00' ∈ base ++ Path.stripSlashes (fixedDirectory head)) := by
    obtain ⟨t, rfl⟩ := prefix_of_mem_expandBraces hbrace (List.prefix_append head rest) hx
    have hhead : (cutMagic (head ++ t)).1 = Path.stripSlashes (fixedDirectory (head ++ t)) := by
      simp only [cutMagic, fixedDirectory, fixedHead, hasMagic_eq_any, List.any_cons, List.any_nil,
        Bool.or_false]
    rw [hhead, fixedDirectory, fixedHead_append hmagic, hasMagic_append, hmagic]
    rfl
  obtain ⟨x, xs, hxs⟩ := List.exists_cons_of_ne_nil (expandBraces_ne_nil (head ++ rest))
  rw [listsNull, Bool.eq_iff_iff, List.any_eq_true]
  constructor
  · rintro ⟨x, hx, h⟩
    exact hone hx ▸ h
  · intro h
    have hx : x ∈ expandBraces (head ++ rest) := hxs ▸ List.mem_cons_self ..
    exact ⟨x, hx, (hone hx).trans h⟩

theorem prefix_of_mem_inferExtension {extensions : List Text} {glob pattern : Text}
    (h : pattern ∈ inferExtension extensions glob) : glob <+: pattern := by
  rcases mem_inferExtension h with rfl | ⟨-, index, -, rfl⟩
  · exact List.prefix_refl _
  · exact ⟨index ++ extensionGroup extensions, by simp⟩

theorem exists_mem_inferExtension (extensions : List Text) (glob : Text) :
    ∃ pattern, pattern ∈ inferExtension extensions glob := by
  unfold inferExtension
  split
  exacts [⟨_, List.mem_cons_self ..⟩, ⟨_, List.mem_cons_self ..⟩]

/-- A slash before a wildcard brings no wildcards together. -/
theorem exists_of_mem_repairSlash {glob g : Text} (hstar : wildcard ∈ glob) (hflat : ¬ deep <:+: glob)
    (hbrace : '\x7b' ∉ glob) (h : g ∈ repairSlash glob) : ∃ before after,
      g = before ++ wildcard :: after ∧ wildcard ∉ after ∧ ¬ deep <:+: g ∧ '\x7b' ∉ g := by
  obtain ⟨before, after, -, rfl, hafter⟩ := Text.exists_cutLast hstar
  rcases mem_repairSlash hafter h with rfl | ⟨-, rfl⟩
  · exact ⟨before, after, rfl, hafter, hflat, hbrace⟩
  · refine ⟨before ++ ['/'], after, rfl, hafter, fun hd => hflat ?_, ?_⟩
    · rw [List.append_assoc, List.singleton_append] at hd
      rcases infix_append_cons (by decide) hd with hd | hd
      exacts [hd.trans (List.prefix_append ..).isInfix, hd.trans (List.suffix_append ..).isInfix]
    · simp only [List.mem_append, not_or] at hbrace ⊢
      exact ⟨⟨hbrace.1, by decide⟩, hbrace.2⟩

/-- **Letting in directories lists no directory** that is not listed without them. -/
theorem listsNull_normalize {extensions : List Text} {glob : Text} (hstar : wildcard ∈ glob)
    (hflat : ¬ deep <:+: glob) (hbrace : '\x7b' ∉ glob)
    (h : ∀ pattern ∈ normalize glob extensions false, listsNull base pattern = false) :
    ∀ pattern ∈ normalize glob extensions true, listsNull base pattern = false := by
  intro pattern hpattern
  obtain ⟨g, hg, hpattern⟩ := mem_stepAll.mp hpattern
  obtain ⟨g₀, hg₀, hg⟩ := mem_stepAll.mp hg
  obtain ⟨pattern₀, hpattern₀⟩ := exists_mem_inferExtension extensions g₀
  have hstrict := h pattern₀ (mem_stepAll.mpr ⟨g₀, hg₀, hpattern₀⟩)
  obtain ⟨before, after, rfl, hafter, hflat₀, hbrace₀⟩ := exists_of_mem_repairSlash hstar hflat hbrace hg₀
  obtain ⟨deeper, hexpand, hbegins, -⟩ := exists_expandDepth hafter hflat₀
  have hbegins₀ : before ++ [wildcard] <+: before ++ wildcard :: after := ⟨after, by simp⟩
  have hmagic : hasMagic (before ++ [wildcard]) = true := hasMagic_star before []
  have hbrace' : '\x7b' ∉ before ++ [wildcard] := fun hm => hbrace₀ (hbegins₀.subset hm)
  have hboth : before ++ [wildcard] <+: pattern := by
    refine .trans ?_ (prefix_of_mem_inferExtension hpattern)
    rw [hexpand] at hg
    simp only [List.mem_cons, List.not_mem_nil, or_false] at hg
    rcases hg with rfl | rfl
    exacts [hbegins₀, hbegins]
  obtain ⟨t, rfl⟩ := hboth
  obtain ⟨t₀, rfl⟩ := hbegins₀.trans (prefix_of_mem_inferExtension hpattern₀)
  rw [listsNull_append hmagic hbrace'] at hstrict ⊢
  exact hstrict

theorem matcher_eq_ok {patterns found : List Text} : fs.matcher patterns base = .ok found ↔
    (∀ pattern ∈ patterns, listsNull base pattern = false) ∧ found = fs.matchFiles patterns base := by
  unfold matcher
  by_cases h : patterns.any (listsNull base) = true
  · rw [if_pos h]
    obtain ⟨pattern, hpattern, hnull⟩ := List.any_eq_true.mp h
    simp only [reduceCtorEq, false_iff, not_and]
    exact fun hall => absurd (hall pattern hpattern) (by simp [hnull])
  · rw [if_neg h]
    simp only [Except.ok.injEq]
    have hall : ∀ pattern ∈ patterns, listsNull base pattern = false := by simpa using h
    exact ⟨fun e => ⟨hall, e.symm⟩, fun e => e.2.symm⟩

end FileSystem

end VariableImport
