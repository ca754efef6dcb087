import VariableImport.Proofs.Glob.Layout

/-!
# Proofs/Glob/Searched — which globs have a layout

A glob is searched from the last component before a wildcard on (`searched`).  The components around the
last wildcard of an explicit glob (`IsParted`) make a layout if no two wildcards stand side by side and none of
those that are searched is empty (`exists_layout`), and text or a name behind it gives another layout.
-/

namespace VariableImport

namespace Glob

/-! ## Text behind a layout -/

namespace Layout

variable (l : Layout)

/-- Text behind a layout goes on with its last component. -/
theorem exists_append {s : Text} (hslash : '/' ∉ s) (hs : hasMagic s = false) :
    ∃ l' : Layout, l'.before = l.before ∧ l'.after = l.after ++ s := by
  have hfixed {t : Text} (ht : hasMagic t = false) : hasMagic (t ++ s) = false := by
    rw [hasMagic_eq_any] at ht hs ⊢
    rw [List.any_append, ht, hs]
    rfl
  rcases List.eq_nil_or_concat l.rest with hr | ⟨cs, c, hr⟩
  · refine ⟨{ l with
      tail := l.tail ++ s
      tail_slash := by simp [l.tail_slash, hslash]
      tail_fixed := hfixed l.tail_fixed }, rfl, ?_⟩
    simp [after, hr]
  · have hc : c ∈ l.rest := by simp [hr]
    have hcs : ∀ d ∈ cs, d ∈ l.rest := fun d hd => by simp [hr, hd]
    refine ⟨{ l with
      rest := cs ++ [c ++ s]
      isName_rest := fun d hd => ?_
      rest_fixed := fun d hd => ?_ }, rfl, ?_⟩
    · rcases List.mem_append.mp hd with hd | hd
      · exact l.isName_rest d (hcs d hd)
      · rw [List.mem_singleton.mp hd]
        obtain ⟨hne, hns⟩ := l.isName_rest c hc
        exact ⟨by simp [hne], by simp [hns, hslash]⟩
    · rcases List.mem_append.mp hd with hd | hd
      · exact l.rest_fixed d (hcs d hd)
      · rw [List.mem_singleton.mp hd]
        exact hfixed (l.rest_fixed c hc)
    · simp [after, hr]

/-- A name behind a layout is one more component. -/
theorem exists_append_name {n : Text} (hn : Path.IsName n) (hfixed : hasMagic n = false) :
    ∃ l' : Layout, l'.before = l.before ∧ l'.after = l.after ++ '/' :: n := by
  refine ⟨{ l with
    rest := l.rest ++ [n]
    isName_rest := fun d hd => ?_
    rest_fixed := fun d hd => ?_ }, rfl, ?_⟩
  · rcases List.mem_append.mp hd with hd | hd
    · exact l.isName_rest d hd
    · rwa [List.mem_singleton.mp hd]
  · rcases List.mem_append.mp hd with hd | hd
    · exact l.rest_fixed d hd
    · rwa [List.mem_singleton.mp hd]
  · simp [after]

end Layout

/-! ## Searched components -/

/-- The components from the last one before a wildcard on. -/
def fromWildcard : List Text → List Text
  | [] => []
  | [c] => [c]
  | c :: d :: cs => if wildcard ∈ d then c :: d :: cs else fromWildcard (d :: cs)

/-- The components of a glob that are searched, and the one before them. -/
def searched (glob : Text) : List Text := fromWildcard (Text.split '/' glob)

theorem exists_eq_fromWildcard {c : Text} {cs : List Text} (hc : wildcard ∉ c)
    (hany : ∃ d ∈ cs, wildcard ∈ d) :
    ∃ above last ds, c :: cs = above ++ last :: ds ∧ fromWildcard (c :: cs) = last :: ds ∧
      (∀ d ∈ above, wildcard ∉ d) ∧ wildcard ∉ last ∧ ∃ d ∈ ds, wildcard ∈ d := by
  induction cs generalizing c with
  | nil => simp at hany
  | cons d cs ih =>
    by_cases hd : wildcard ∈ d
    · exact ⟨[], c, d :: cs, rfl, by rw [fromWildcard, if_pos hd], by simp, hc, d,
        List.mem_cons_self .., hd⟩
    · obtain ⟨e, he, hw⟩ := hany
      have he' : e ∈ cs := by
        rcases List.mem_cons.mp he with rfl | he
        · exact absurd hw hd
        · exact he
      obtain ⟨above, last, ds, heq, hfrom, habove, hlast, hds⟩ := ih hd ⟨e, he', hw⟩
      refine ⟨c :: above, last, ds, by rw [heq]; rfl, by rw [fromWildcard, if_neg hd, hfrom], ?_,
        hlast, hds⟩
      intro x hx
      rcases List.mem_cons.mp hx with rfl | hx
      · exact hc
      · exact habove x hx

/-- The last component with a wildcard. -/
theorem exists_last_wildcard {cs : List Text} (h : ∃ c ∈ cs, wildcard ∈ c) :
    ∃ dirs c rest, cs = dirs ++ c :: rest ∧ wildcard ∈ c ∧ ∀ d ∈ rest, wildcard ∉ d := by
  induction cs with
  | nil => simp at h
  | cons c cs ih =>
    by_cases hcs : ∃ d ∈ cs, wildcard ∈ d
    · obtain ⟨dirs, d, rest, rfl, hd, hrest⟩ := ih hcs
      exact ⟨c :: dirs, d, rest, rfl, hd, hrest⟩
    · obtain ⟨d, hd, hw⟩ := h
      rcases List.mem_cons.mp hd with rfl | hd
      · exact ⟨[], d, cs, rfl, hw, fun e he hwe => hcs ⟨e, he, hwe⟩⟩
      · exact absurd ⟨d, hd, hw⟩ hcs

/-- Joined components are cut behind any of them. -/
theorem join_append_cons (above : List Text) (last : Text) (ds : List Text) :
    ∃ s, Text.join ['/'] (above ++ last :: ds) = (s ++ last) ++ Path.trail ds ∧
      Text.join ['/'] (above ++ [last]) = s ++ last := by
  cases above with
  | nil => exact ⟨[], by simpa using Path.join_cons last ds, rfl⟩
  | cons a above =>
    refine ⟨a ++ Path.trail above ++ ['/'], ?_, ?_⟩
    · rw [List.cons_append, Path.join_cons]
      simp
    · rw [List.cons_append, Path.join_cons]
      simp

/-- **The components of a glob around its last wildcard**: the fixed ones, the last of which is searched from,
directories, the one with the last wildcard, and fixed ones behind it. -/
structure IsParted (glob : Text) (above : List Text) (last : Text) (dirs : List Text) (joint : Text)
    (rest : List Text) : Prop where
  split_eq : Text.split '/' glob = above ++ last :: (dirs ++ joint :: rest)
  searched_eq : searched glob = last :: (dirs ++ joint :: rest)
  above_fixed : ∀ d ∈ above ++ [last], wildcard ∉ d
  mem_joint : wildcard ∈ joint
  rest_fixed : ∀ d ∈ rest, wildcard ∉ d

/-- **An explicit glob with a wildcard** has components around it. -/
theorem exists_isParted {glob : Text} (hglob : Path.IsExplicit glob) (hstar : wildcard ∈ glob) :
    ∃ above last dirs joint rest, IsParted glob above last dirs joint rest := by
  obtain ⟨dots, tail, hcut, hdots⟩ := hglob.exists_eq
  obtain ⟨c, cs, hsplit, hjoin, hslash⟩ := Path.exists_eq_append_trail glob
  have hc : c = dots := by
    have hd : '/' ∉ dots := by rcases hdots with rfl | rfl <;> decide
    rw [hcut, Text.split_append_cons, Text.split_of_not_mem hd] at hsplit
    exact (List.cons.inj hsplit).1.symm
  have hcw : wildcard ∉ c := by rcases hdots with rfl | rfl <;> rw [hc] <;> decide
  have hany : ∃ d ∈ cs, wildcard ∈ d := by
    rw [← Text.join_split '/' glob, hsplit] at hstar
    rcases Text.mem_of_mem_join hstar with h | ⟨d, hd, hw⟩
    · exact absurd h (by decide)
    · rcases List.mem_cons.mp hd with rfl | hd
      · exact absurd hw hcw
      · exact ⟨d, hd, hw⟩
  obtain ⟨above, last, ds, heq, hfrom, habove, hlast, hds⟩ := exists_eq_fromWildcard hcw hany
  obtain ⟨dirs, joint, rest, rfl, hjoint, hrest⟩ := exists_last_wildcard hds
  refine ⟨above, last, dirs, joint, rest, hsplit.trans heq, ?_, fun d hd => ?_, hjoint, hrest⟩
  · rw [searched, hsplit, hfrom]
  · rcases List.mem_append.mp hd with hd | hd
    · exact habove d hd
    · exact List.mem_singleton.mp hd ▸ hlast

namespace IsParted

variable {glob last joint d : Text} {above dirs rest : List Text}

theorem isInfix (h : IsParted glob above last dirs joint rest)
    (hd : d ∈ above ++ last :: (dirs ++ joint :: rest)) : d <:+: glob :=
  Text.infix_of_mem_split (h.split_eq ▸ hd)

/-- Components that are searched are names, if none of them is empty. -/
theorem isName (h : IsParted glob above last dirs joint rest) (hsearched : [] ∉ searched glob)
    (hd : d ∈ last :: (dirs ++ joint :: rest)) : Path.IsName d :=
  ⟨fun e => hsearched (h.searched_eq ▸ e ▸ hd),
    Text.not_mem_of_mem_split (h.split_eq ▸ List.mem_append_right _ hd)⟩

/-- **The text that is not searched** holds no wildcard; the components that are searched stand behind it. -/
theorem exists_base (h : IsParted glob above last dirs joint rest) :
    ∃ s, glob = (s ++ last) ++ Path.trail (dirs ++ joint :: rest) ∧ wildcard ∉ s ++ last := by
  obtain ⟨s, hall, hbase⟩ := join_append_cons above last (dirs ++ joint :: rest)
  refine ⟨s, ?_, fun hw => ?_⟩
  · rw [← hall, ← h.split_eq, Text.join_split]
  · rw [← hbase] at hw
    rcases Text.mem_of_mem_join hw with hw | ⟨d, hd, hw⟩
    · exact absurd hw (by decide)
    · exact h.above_fixed d hd hw

end IsParted

/-- **Accepted globs have layouts**: an explicit glob without magic but wildcards, of which no two
stand side by side, if no searched component is empty. -/
theorem exists_layout {glob : Text} (hglob : Path.IsExplicit glob) (hsimple : IsSimple glob)
    (hstar : wildcard ∈ glob) (hdeep : ¬ [wildcard, wildcard] <:+: glob)
    (hsearched : [] ∉ searched glob) : ∃ l : Layout, l.glob = glob := by
  obtain ⟨above, last, dirs, joint, rest, h⟩ := exists_isParted hglob hstar
  obtain ⟨s, hs, hfixed⟩ := h.exists_base
  have hplain {d : Text} (hd : d ∈ last :: (dirs ++ joint :: rest)) : IsSimple d := fun c hc =>
    hsimple c ((h.isInfix (List.mem_append_right _ hd)).subset hc)
  obtain ⟨head, tail, -, rfl, htail⟩ := Text.exists_cutLast h.mem_joint
  have hname := h.isName hsearched (d := head ++ wildcard :: tail) (by simp)
  have hjoint : IsSimple (head ++ wildcard :: tail) := hplain (by simp)
  have hapart : ¬ [wildcard, wildcard] <:+: head ++ wildcard :: tail := fun hd =>
    hdeep (hd.trans (h.isInfix (by simp)))
  refine ⟨{
    base := s ++ last
    dirs, head, tail, rest
    isBase := (h.isName hsearched (by simp)).isBase_append s
    base_fixed := hasMagic_of_isSimple (fun c hc => hsimple c (hs ▸ List.mem_append_left _ hc)) hfixed
    isName_dirs := fun d hd => h.isName hsearched (by simp [hd])
    isSimple_dirs := fun d hd => hplain (by simp [hd])
    dirs_ne_deep := fun d hd e => hdeep (show deep <:+: glob from e ▸ h.isInfix (by simp [hd]))
    head_slash := fun h => hname.2 (by simp [h])
    isSimple_head := fun c hc => hjoint c (by simp [hc])
    head_getLast? := fun hlast => ?_
    tail_slash := fun h => hname.2 (by simp [h])
    tail_fixed := hasMagic_of_isSimple (fun c hc => hjoint c (by simp [hc])) htail
    isName_rest := fun d hd => h.isName hsearched (by simp [hd])
    rest_fixed := fun d hd => hasMagic_of_isSimple (hplain (by simp [hd])) (h.rest_fixed d hd) }, ?_⟩
  · obtain ⟨init, rfl⟩ := List.getLast?_eq_some_iff.mp hlast
    exact hapart ⟨init, tail, by simp⟩
  · refine Eq.trans ?_ hs.symm
    simp [Layout.glob, Layout.before, Layout.after]

end Glob

end VariableImport
