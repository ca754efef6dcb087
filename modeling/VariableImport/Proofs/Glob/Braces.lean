import VariableImport.Glob.Braces
import VariableImport.Glob.Normal
import VariableImport.Proofs.Path.Trail
import VariableImport.Proofs.Text.Replace
import VariableImport.Text.CharClass

/-!
# Proofs/Glob/Braces — groups and what they leave alone

A pattern without a group stands for itself, and one with a group for what it stands for with each option in
its place (`expandBraces_of_findGroup`).  Each replacement leaves one opening brace less (`count_replaced`),
so that what holds of a pattern without a group and is kept by replacements holds of every pattern
(`replacing_induction`).

Whatever a pattern begins with before a brace, all of its texts begin with (`prefix_of_mem_expandBraces`).
The group of extensions behind a text stands for extensions behind it (`mem_expandBraces_group`).
-/

namespace VariableImport.Glob

variable {s t before body rest x : Text}

/-! ## Groups -/

/-- Whether an opening brace has a closing one anywhere behind it. -/
def HoldsGroup (s : Text) : Prop := ['\x7b', '\x7d'].Sublist s

theorem holdsGroup_cons {c : Char} : HoldsGroup (c :: s) ↔ HoldsGroup s ∨ c = '\x7b' ∧ '\x7d' ∈ s := by
  unfold HoldsGroup
  rw [List.sublist_cons_iff]
  simp [eq_comm]

theorem not_holdsGroup_of_not_mem (h : '\x7b' ∉ s) : ¬ HoldsGroup s := fun hs =>
  h (List.Sublist.subset hs (List.mem_cons_self ..))

/-- Where no group lies, a group begins exactly if a closing brace follows. -/
theorem groupBody_eq_none_iff (h : ¬ HoldsGroup s) : groupBody s = none ↔ '\x7d' ∉ s := by
  induction s with
  | nil => simp [groupBody]
  | cons c s ih =>
    rw [holdsGroup_cons, not_or] at h
    rw [groupBody]
    split
    · next hc => simp [hc]
    · next hc =>
      split
      · next ho =>
        refine iff_of_true rfl fun hmem => ?_
        exact (List.mem_cons.mp hmem).elim (fun e => hc e.symm) fun hmem => h.2 ⟨ho, hmem⟩
      · rw [Option.map_eq_none_iff, ih h.1]
        simp [Ne.symm hc]

/-- **A group is found** exactly if there is one. -/
theorem findGroup_eq_none_iff : findGroup s = none ↔ ¬ HoldsGroup s := by
  induction s with
  | nil => simp [findGroup, HoldsGroup]
  | cons c s ih =>
    rw [holdsGroup_cons, not_or, ← ih, findGroup]
    split
    · next body rest h =>
      split at h
      · next hc =>
        obtain ⟨rfl, -, -⟩ := groupBody_eq_some h
        simp [hc]
      · simp at h
    · next h =>
      rw [Option.map_eq_none_iff]
      refine ⟨fun hs => ⟨hs, ?_⟩, And.left⟩
      rintro ⟨hc, hmem⟩
      rw [if_pos hc, groupBody_eq_none_iff (ih.mp hs)] at h
      exact h hmem

/-- Without an opening brace there is no group. -/
theorem findGroup_of_not_mem (h : '\x7b' ∉ s) : findGroup s = none :=
  findGroup_eq_none_iff.mpr (not_holdsGroup_of_not_mem h)

theorem groupBody_append (ho : '\x7b' ∉ body) (hc : '\x7d' ∉ body) :
    groupBody (body ++ '\x7d' :: rest) = some (body, rest) := by
  induction body with
  | nil => simp [groupBody]
  | cons c body ih =>
    obtain ⟨hco, ho⟩ := not_or.mp (List.mem_cons.not.mp ho)
    obtain ⟨hcc, hc⟩ := not_or.mp (List.mem_cons.not.mp hc)
    rw [List.cons_append, groupBody, if_neg (Ne.symm hcc), if_neg (Ne.symm hco), ih ho hc]
    rfl

/-- No group begins before an opening brace. -/
theorem groupBody_append_open (hbefore : '\x7d' ∉ before) (s : Text) :
    groupBody (before ++ '\x7b' :: s) = none := by
  induction before with
  | nil => simp [groupBody]
  | cons c before ih =>
    obtain ⟨hc, hbefore⟩ := not_or.mp (List.mem_cons.not.mp hbefore)
    rw [List.cons_append, groupBody, if_neg (Ne.symm hc), ih hbefore]
    split <;> rfl

/-- **The first group** is the one behind a text that holds none. -/
theorem findGroup_append (hb : ¬ HoldsGroup before) (ho : '\x7b' ∉ body) (hc : '\x7d' ∉ body) :
    findGroup (before ++ '\x7b' :: body ++ '\x7d' :: rest) = some (before, body, rest) := by
  induction before with
  | nil => simp [findGroup, groupBody_append ho hc]
  | cons c before ih =>
    rw [holdsGroup_cons, not_or] at hb
    have hnone : (if c = '\x7b' then groupBody (before ++ '\x7b' :: body ++ '\x7d' :: rest) else none) =
        none := by
      split
      · next h =>
        rw [List.append_assoc]
        exact groupBody_append_open (fun hmem => hb.2 ⟨h, hmem⟩) _
      · rfl
    rw [List.cons_append, List.cons_append, findGroup, hnone]
    dsimp only
    rw [ih hb.1]
    rfl

/-! ## Replacements -/

/-- **Each replacement leaves one opening brace less.** -/
theorem count_replaced (h : findGroup s = some (before, body, rest)) (hx : x ∈ Text.split ',' body) :
    (before ++ x ++ rest).count '\x7b' + 1 = s.count '\x7b' := by
  obtain ⟨rfl, hopen, -⟩ := findGroup_eq_some h
  have hx : '\x7b' ∉ x := fun hmem => hopen ((Text.infix_of_mem_split hx).subset hmem)
  simp [List.count_eq_zero.mpr hx, List.count_eq_zero.mpr hopen]
  omega

theorem expandBraces_of_findGroup_none (h : findGroup s = none) : expandBraces s = [s] := by
  unfold expandBraces
  cases s.count '\x7b' with
  | zero => rfl
  | succ n => rw [expandWithin, h]

/-- **A pattern with a group stands for what it stands for with each option in its place.** -/
theorem expandBraces_of_findGroup (h : findGroup s = some (before, body, rest)) : expandBraces s =
    Text.distinct ((Text.split ',' body).flatMap fun x => expandBraces (before ++ x ++ rest)) := by
  obtain ⟨x, xs, hsplit⟩ := List.exists_cons_of_ne_nil (Text.split_ne_nil ',' body)
  obtain ⟨n, hn⟩ : ∃ n, s.count '\x7b' = n + 1 :=
    ⟨_, (count_replaced h (hsplit ▸ List.mem_cons_self ..)).symm⟩
  rw [expandBraces, hn, expandWithin, h]
  dsimp only
  congr 1
  refine List.flatMap_congr fun x hx => ?_
  have := count_replaced h hx
  rw [expandBraces, show (before ++ x ++ rest).count '\x7b' = n by omega]

/-- **Induction over replacements.** -/
theorem replacing_induction {motive : Text → Prop} (settled : ∀ s, findGroup s = none → motive s)
    (replaced : ∀ s before body rest, findGroup s = some (before, body, rest) →
      (∀ x ∈ Text.split ',' body, motive (before ++ x ++ rest)) → motive s) (s : Text) : motive s := by
  cases h : findGroup s with
  | none => exact settled s h
  | some found =>
    refine replaced s found.1 found.2.1 found.2.2 h fun x hx => ?_
    have := count_replaced h hx
    exact replacing_induction settled replaced _
termination_by s.count '\x7b'
decreasing_by exact Nat.lt_of_succ_le (Nat.le_of_eq this)

/-- **A text without an opening brace stands for itself.** -/
theorem expandBraces_of_not_mem (h : '\x7b' ∉ s) : expandBraces s = [s] :=
  expandBraces_of_findGroup_none (findGroup_of_not_mem h)

/-- **What a pattern begins with before a brace** all of its texts begin with. -/
theorem prefix_of_mem_expandBraces {head pattern s : Text} (hhead : '\x7b' ∉ head)
    (hp : head <+: pattern) (h : s ∈ expandBraces pattern) : head <+: s := by
  induction pattern using replacing_induction with
  | settled pattern hnone =>
    rw [expandBraces_of_findGroup_none hnone, List.mem_singleton] at h
    rwa [h]
  | replaced pattern before body rest hg ih =>
    rw [expandBraces_of_findGroup hg, Text.mem_distinct, List.mem_flatMap] at h
    obtain ⟨x, hx, h⟩ := h
    refine ih x hx ?_ h
    rw [(findGroup_eq_some hg).1, List.append_assoc, List.cons_append] at hp
    have := Text.prefix_of_prefix_append_cons hhead hp
    rw [List.append_assoc]
    exact this.trans (List.prefix_append _ _)

/-- A pattern stands for some text. -/
theorem expandBraces_ne_nil (pattern : Text) : expandBraces pattern ≠ [] := by
  induction pattern using replacing_induction with
  | settled pattern hnone => simp [expandBraces_of_findGroup_none hnone]
  | replaced pattern before body rest hg ih =>
    obtain ⟨x, hx⟩ := List.exists_mem_of_ne_nil _ (Text.split_ne_nil ',' body)
    obtain ⟨t, ht⟩ := List.exists_mem_of_ne_nil _ (ih x hx)
    rw [expandBraces_of_findGroup hg]
    exact List.ne_nil_of_mem (Text.mem_distinct.mpr (List.mem_flatMap.mpr ⟨x, hx, ht⟩))

/-! ## The group of extensions -/

/-- Whether extensions are made of a dot and characters of words. -/
def AreWords (extensions : List Text) : Prop :=
  ∀ extension ∈ extensions, ∃ word, extension = '.' :: word ∧ ∀ c ∈ word, Text.isWord c = true

/-- The words of a group of extensions. -/
def words (extensions : List Text) : List Text :=
  Text.split ',' (Text.join [','] (extensions.map List.tail))

theorem isWord_of_mem_words {extensions : List Text} (hext : AreWords extensions) {word : Text}
    (h : word ∈ words extensions) : ∀ c ∈ word, Text.isWord c = true := by
  intro c hmem
  have hcomma : ',' ∉ word := Text.not_mem_of_mem_split h
  rcases Text.mem_of_mem_join ((Text.infix_of_mem_split h).subset hmem) with rfl | ⟨w, hw, hc⟩
  · exact absurd hmem hcomma
  · obtain ⟨extension, hmem', rfl⟩ := List.mem_map.mp hw
    obtain ⟨word', rfl, hword⟩ := hext extension hmem'
    exact hword c hc

/-- Characters that do not belong to words are not in a word. -/
theorem not_mem_of_isWord {word : Text} (hword : ∀ c ∈ word, Text.isWord c = true) {x : Char}
    (hx : Text.isWord x = false) : x ∉ word := fun h => by
  rw [hword x h] at hx
  exact absurd hx (by decide)

/-- **The group of extensions behind a text** stands for its words behind a dot. -/
theorem mem_expandBraces_group_iff {s x : Text} {extensions : List Text} (hs : '\x7b' ∉ s)
    (hext : AreWords extensions) :
    x ∈ expandBraces (s ++ extensionGroup extensions) ↔ ∃ word ∈ words extensions, x = s ++ '.' :: word := by
  obtain ⟨body, hbody⟩ : ∃ body, body = Text.join [','] (extensions.map List.tail) := ⟨_, rfl⟩
  have hout {x : Char} (hx : Text.isWord x = false) (hcomma : x ≠ ',') : x ∉ body := by
    intro hm
    rcases Text.mem_of_mem_join (hbody ▸ hm) with h | ⟨word, hword, hc⟩
    · exact hcomma h
    · obtain ⟨extension, hmem, rfl⟩ := List.mem_map.mp hword
      obtain ⟨word, rfl, hw⟩ := hext extension hmem
      exact not_mem_of_isWord hw hx hc
  have ho : '\x7b' ∉ body := hout (by decide) (by decide)
  have hc : '\x7d' ∉ body := hout (by decide) (by decide)
  have hs' : '\x7b' ∉ s ++ ['.'] := by simp [hs]
  have hgroup : s ++ extensionGroup extensions = (s ++ ['.']) ++ '\x7b' :: body ++ '\x7d' :: [] := by
    rw [hbody, extensionGroup]
    simp
  have hfound : findGroup (s ++ extensionGroup extensions) = some (s ++ ['.'], body, []) :=
    hgroup ▸ findGroup_append (not_holdsGroup_of_not_mem hs') ho hc
  have hword {word : Text} (hword : word ∈ Text.split ',' body) :
      expandBraces (s ++ ['.'] ++ word ++ []) = [s ++ '.' :: word] := by
    have hopen : '\x7b' ∉ word := fun hmem => ho ((Text.infix_of_mem_split hword).subset hmem)
    rw [expandBraces_of_not_mem (by simp [hs, hopen])]
    simp
  rw [expandBraces_of_findGroup hfound, Text.mem_distinct, List.flatMap_congr fun word => hword,
    List.mem_flatMap, words, hbody]
  simp only [List.mem_singleton]

theorem mem_expandBraces_group {s x : Text} {extensions : List Text} (hs : '\x7b' ∉ s)
    (hext : AreWords extensions) (h : x ∈ expandBraces (s ++ extensionGroup extensions)) :
    ∃ word, x = s ++ '.' :: word ∧ ∀ c ∈ word, Text.isWord c = true := by
  obtain ⟨word, hword, rfl⟩ := (mem_expandBraces_group_iff hs hext).mp h
  exact ⟨word, rfl, isWord_of_mem_words hext hword⟩

end VariableImport.Glob
