import VariableImport.Glob.Search
import VariableImport.Proofs.FileSystem.Named
import VariableImport.Proofs.Glob.Instance

/-!
# Proofs/Glob/Search — what a search can find

A search goes from a base through components.  Each step puts a name behind the path so far, and the
name is an instance of the component, or several names for `**` (`mem_step`).  So what is found is
the base with a text that the components reach behind it (`exists_reaches_of_mem_search`), and it
starts with everything that is written before the first magic character and up to a slash
(`prefix_of_mem_search`).
-/

namespace VariableImport

namespace Glob

/-- The component that spans directories at any depth. -/
abbrev deep : Text := ['*', '*']

/-- Characters with a meaning of their own in a component. -/
def isMagic (c : Char) : Bool := c == '*' || c == '?' || c == '['

theorem hasMagic_eq_any (s : Text) : hasMagic s = s.any isMagic := rfl

theorem hasMagic_eq_false {s : Text} : hasMagic s = false ↔ ∀ c ∈ s, isMagic c = false := by
  simp [hasMagic_eq_any]

/-- The characters besides the wildcard that a search does not take for themselves. -/
def reread : List Char := ['?', '[', '\x7b']

/-- Whether a text has no magic but wildcards. -/
def IsSimple (s : Text) : Prop := ∀ c ∈ s, c ≠ '?' ∧ c ≠ '['

/-! ## Magic -/

theorem hasMagic_append {s t : Text} : hasMagic (s ++ t) = (hasMagic s || hasMagic t) := by
  simp only [hasMagic_eq_any, List.any_append]

theorem hasMagic_star (s t : Text) : hasMagic (s ++ wildcard :: t) = true := by
  rw [hasMagic_append, Bool.or_eq_true]
  exact .inr rfl

/-- A dot is no magic. -/
theorem hasMagic_append_dot (s t : Text) : hasMagic (s ++ '.' :: t) = (hasMagic s || hasMagic t) := by
  rw [hasMagic_append]
  rfl

theorem hasMagic_of_infix {s t : Text} (h : t <:+: s) (hs : hasMagic s = false) : hasMagic t = false :=
  hasMagic_eq_false.mpr fun c hc => hasMagic_eq_false.mp hs c (h.subset hc)

theorem isSimple_of_hasMagic {s : Text} (h : hasMagic s = false) : IsSimple s := by
  intro c hc
  have := hasMagic_eq_false.mp h c hc
  constructor <;> rintro rfl <;> simp [isMagic] at this

theorem wildcard_not_mem {s : Text} (h : hasMagic s = false) : wildcard ∉ s := fun hm => by
  simpa [isMagic] using hasMagic_eq_false.mp h _ hm

theorem hasMagic_of_isSimple {s : Text} (hs : IsSimple s) (hw : wildcard ∉ s) :
    hasMagic s = false := by
  refine hasMagic_eq_false.mpr fun c hc => ?_
  obtain ⟨hq, hb⟩ := hs c hc
  have hstar : c ≠ wildcard := fun e => hw (e ▸ hc)
  simp [isMagic, hq, hb, hstar]

/-! ## Components and names -/

theorem instance_of_matchPieces {n : Nat} {c name : Text} (hc : IsSimple c) (hn : c.length ≤ n)
    (h : matchPieces (piecesWithin n c) name = true) : Instance c name := by
  induction n generalizing c name with
  | zero =>
    obtain rfl := List.length_eq_zero_iff.mp (Nat.le_zero.mp hn)
    exact instance_nil.mpr (List.isEmpty_iff.mp h)
  | succ n ih =>
    cases c with
    | nil => exact instance_nil.mpr (List.isEmpty_iff.mp h)
    | cons x c =>
      obtain ⟨hq, hb⟩ := hc x (List.mem_cons_self ..)
      have hc' : IsSimple c := fun y hy => hc y (List.mem_cons_of_mem _ hy)
      have hn' : c.length ≤ n := Nat.le_of_succ_le_succ hn
      rw [piecesWithin] at h
      by_cases hx : x = '*'
      · subst hx
        rw [if_pos rfl, matchPieces, matchTail_iff] at h
        obtain ⟨fill, t, rfl, ht⟩ := h
        exact .star fill (ih hc' hn' ht)
      · rw [if_neg hx, if_neg hq, if_neg hb] at h
        cases name with
        | nil => simp [matchPieces] at h
        | cons d t =>
          rw [matchPieces, Bool.and_eq_true, beq_iff_eq] at h
          obtain ⟨rfl, ht⟩ := h
          exact .char hx (ih hc' hn' ht)

/-- **A name that a component matches is an instance of it.** -/
theorem instance_of_matchesName {c name : Text} (hc : IsSimple c)
    (h : matchesName c name = true) : Instance c name :=
  instance_of_matchPieces hc le_rfl h

theorem matchPieces_of_instance {n : Nat} {c name : Text} (hc : IsSimple c) (hn : c.length ≤ n)
    (h : Instance c name) : matchPieces (piecesWithin n c) name = true := by
  induction h generalizing n with
  | nil =>
    cases n <;> rfl
  | @char x c s hx _ ih =>
    obtain ⟨n, rfl⟩ := Nat.exists_eq_succ_of_ne_zero (Nat.ne_of_gt (Nat.zero_lt_of_lt hn))
    obtain ⟨hq, hb⟩ := hc x (List.mem_cons_self ..)
    rw [piecesWithin, if_neg hx, if_neg hq, if_neg hb, matchPieces, Bool.and_eq_true, beq_iff_eq]
    exact ⟨rfl, ih (fun y hy => hc y (List.mem_cons_of_mem _ hy)) (Nat.le_of_succ_le_succ hn)⟩
  | star fill _ ih =>
    obtain ⟨n, rfl⟩ := Nat.exists_eq_succ_of_ne_zero (Nat.ne_of_gt (Nat.zero_lt_of_lt hn))
    rw [piecesWithin, if_pos rfl, matchPieces, matchTail_iff]
    exact ⟨fill, _, rfl, ih (fun y hy => hc y (List.mem_cons_of_mem _ hy)) (Nat.le_of_succ_le_succ hn)⟩

/-- A component without other magic than wildcards matches its instances. -/
theorem matchesName_iff {c name : Text} (hc : IsSimple c) :
    matchesName c name = true ↔ Instance c name :=
  ⟨instance_of_matchesName hc, matchPieces_of_instance hc le_rfl⟩

/-- **What components reach**, each name after a slash: an instance for each component, and any
number of names for `**`. -/
inductive Reaches : List Text → Text → Prop
  | nil : Reaches [] []
  | name {c n : Text} {cs : List Text} {s : Text} (hc : c ≠ deep) (hn : Path.IsName n)
      (h : Instance c n) (hs : Reaches cs s) : Reaches (c :: cs) ('/' :: n ++ s)
  | deep {names cs : List Text} {s : Text} (hn : ∀ n ∈ names, Path.IsName n) (hs : Reaches cs s) :
      Reaches (deep :: cs) (Path.trail names ++ s)

end Glob

namespace FileSystem

open Glob

variable {fs : FileSystem}

/-- **One step of a search**: `**` stands for some names, another component with magic for a name
that it matches, and any other one for itself. -/
theorem mem_step (hfs : fs.IsNamed) {directory c name : Text} {last : Bool} (hc : c ≠ [])
    (h : name ∈ fs.step directory c last) :
    (c = deep ∧ ∃ names, (∀ n ∈ names, Path.IsName n) ∧ name = Text.join ['/'] names) ∨
    (c ≠ deep ∧ Path.IsName name ∧ matchesName c name = true) ∨
    (c ≠ deep ∧ hasMagic c = false ∧ name = c) := by
  unfold step at h
  dsimp only at h
  split at h
  · next hd =>
    refine .inl ⟨hd, ?_⟩
    split at h
    · simp at h
    · next place _ =>
      rcases List.mem_cons.mp h with rfl | h
      · exact ⟨[], by simp, rfl⟩
      · obtain ⟨⟨q, e⟩, hq, hm⟩ := List.mem_filterMap.mp h
        dsimp only at hm
        split at hm
        · exact ⟨q, (hfs.of_mem_below hq).2, (Option.some.inj hm).symm⟩
        · simp at hm
  · next hd =>
    split at h
    · refine .inr (.inl ⟨hd, ?_⟩)
      split at h
      · simp at h
      · obtain ⟨⟨n, e⟩, hn, hm⟩ := List.mem_filterMap.mp h
        dsimp only at hm
        split at hm
        · next hw =>
          obtain rfl := Option.some.inj hm
          exact ⟨hfs.of_mem_names hn, (Bool.and_eq_true_iff.mp hw).2⟩
        · simp at hm
    · next hm =>
      refine .inr (.inr ⟨hd, by simpa using hm, ?_⟩)
      split at h
      · simpa using h
      · simp at h

/-- No step finds an absolute path. -/
theorem head?_of_mem_step (hfs : fs.IsNamed) {directory c name : Text} {last : Bool}
    (hc : '/' ∉ c) (h : name ∈ fs.step directory c last) : name.head? ≠ some '/' := by
  by_cases hne : c = []
  · subst hne
    have : name = [] := by
      have h' : name ∈ if fs.isDirectory directory then [[]] else [] := h
      split at h'
      · simpa using h'
      · simp at h'
    simp [this]
  · rcases mem_step hfs hne h with ⟨-, names, hn, rfl⟩ | ⟨-, hn, -⟩ | ⟨-, -, rfl⟩
    · cases names with
      | nil => simp
      | cons n names =>
        rw [Path.join_cons]
        exact (hn n (List.mem_cons_self ..)).head?_append _
    · simpa using hn.head?_append []
    · simpa using Path.IsName.head?_append ⟨hne, hc⟩ []

/-! ## Components one after another -/

/-- What is found starts with the path that is followed. -/
theorem prefix_of_mem_follow (hfs : fs.IsNamed) {base p q : Text} {cs : List Text}
    (hcs : ∀ c ∈ cs, '/' ∉ c) (h : q ∈ fs.follow base p cs) : p <+: q := by
  induction cs generalizing p with
  | nil => rw [List.mem_singleton.mp h]
  | cons c cs ih =>
    obtain ⟨name, hname, hq⟩ := List.mem_flatMap.mp h
    have hhead := head?_of_mem_step hfs (hcs c (List.mem_cons_self ..)) hname
    exact (Path.prefix_append hhead).trans (ih (fun d hd => hcs d (List.mem_cons_of_mem _ hd)) hq)

/-- **Following components** puts behind the path what they reach.  The path may end in a slash
where `**` stood for no name. -/
theorem exists_reaches_of_mem_follow (hfs : fs.IsNamed) {base q p₀ p : Text} {cs : List Text}
    (hq : Path.IsBase q) (hp₀ : p₀ = q ∨ p₀ = q ++ ['/'])
    (hcs : ∀ c ∈ cs, Path.IsName c ∧ IsSimple c) (hlast : cs.getLast? ≠ some deep)
    (hnil : cs = [] → p₀ = q) (h : p ∈ fs.follow base p₀ cs) : ∃ s, p = q ++ s ∧ Reaches cs s := by
  induction cs generalizing q p₀ with
  | nil =>
    obtain rfl := List.mem_singleton.mp h
    exact ⟨[], by simp [hnil rfl], .nil⟩
  | cons c cs ih =>
    obtain ⟨name, hname, hp⟩ := List.mem_flatMap.mp h
    obtain ⟨⟨hcn, hslash⟩, hsimple⟩ := hcs c (List.mem_cons_self ..)
    have hcs' : ∀ d ∈ cs, Path.IsName d ∧ IsSimple d := fun d hd => hcs d (List.mem_cons_of_mem _ hd)
    have hlast' : cs.getLast? ≠ some deep := by
      cases cs with
      | nil => simp
      | cons d cs => rwa [List.getLast?_cons_cons] at hlast
    have happ : Path.append p₀ name = q ++ '/' :: name := by
      have := Path.append_of_base hq (head?_of_mem_step hfs hslash hname)
      rcases hp₀ with rfl | rfl
      exacts [this.1, this.2]
    rw [happ] at hp
    -- a name is put behind the path, which stays a base
    have one (hn : Path.IsName name) (hc : c ≠ deep) (hi : Instance c name) :
        ∃ s, p = q ++ s ∧ Reaches (c :: cs) s := by
      obtain ⟨s, rfl, hs⟩ := ih (hq.append_name hn) (.inl rfl) hcs' hlast' (fun _ => rfl) hp
      exact ⟨'/' :: name ++ s, by simp, .name hc hn hi hs⟩
    rcases mem_step hfs hcn hname with ⟨rfl, names, hns, rfl⟩ | ⟨hc, hn, hm⟩ | ⟨hc, -, rfl⟩
    · cases names with
      | nil =>
        have hne : cs ≠ [] := by
          rintro rfl
          exact hlast rfl
        obtain ⟨s, rfl, hs⟩ := ih hq (.inr rfl) hcs' hlast' (fun e => absurd e hne) hp
        have hnone : ∀ n ∈ ([] : List Text), Path.IsName n := by simp
        exact ⟨s, rfl, .deep hnone hs⟩
      | cons n names =>
        have htrail : q ++ '/' :: Text.join ['/'] (n :: names) = q ++ Path.trail (n :: names) := by
          rw [Path.trail_eq_cons_join (List.cons_ne_nil _ _)]
        rw [htrail] at hp
        obtain ⟨s, rfl, hs⟩ := ih (hq.append_trail hns) (.inl rfl) hcs' hlast' (fun _ => rfl) hp
        exact ⟨Path.trail (n :: names) ++ s, by simp, .deep hns hs⟩
    · exact one hn hc (instance_of_matchesName hsimple hm)
    · exact one ⟨hcn, hslash⟩ hc (instance_self _)

/-! ## Searches -/

/-- What is fixed up to a slash stands before the magic. -/
theorem takeWhile_append_slash {q : Text} (hmagic : hasMagic q = false) (t : Text) :
    (q ++ '/' :: t).takeWhile (fun y => !hasMagic [y]) = q ++ '/' :: t.takeWhile fun y => !hasMagic [y] := by
  have hkeep : ∀ y ∈ q ++ ['/'], (!hasMagic [y]) = true := by
    intro y hy
    rcases List.mem_append.mp hy with hy | hy
    · have : isMagic y = false := hasMagic_eq_false.mp hmagic y hy
      simpa [hasMagic_eq_any] using this
    · rw [List.mem_singleton.mp hy]
      rfl
  have e : q ++ '/' :: t = (q ++ ['/']) ++ t := by simp
  rw [e, List.takeWhile_append_of_pos hkeep]
  simp

/-- A glob is cut before its first component with magic. -/
theorem cutMagic_append_trail {q c : Text} {cs : List Text} (hq : Path.IsBase q)
    (hmagic : hasMagic q = false) (hcs : ∀ d ∈ c :: cs, Path.IsName d) (hc : hasMagic c = true) :
    cutMagic (q ++ Path.trail (c :: cs)) = (q, c :: cs) := by
  obtain ⟨hcn, hslash⟩ := hcs c (List.mem_cons_self ..)
  obtain ⟨x, hx, hxm⟩ := List.any_eq_true.mp hc
  have htake : (q ++ Path.trail (c :: cs)).takeWhile (fun y => !hasMagic [y]) =
      q ++ '/' :: c.takeWhile (fun y => !hasMagic [y]) := by
    have hstop : c.takeWhile (fun y => !hasMagic [y]) ≠ c := by
      intro heq
      have := List.takeWhile_eq_self_iff.mp heq x hx
      simp_all [hasMagic_eq_any, isMagic]
    rw [Path.trail_cons, List.cons_append, takeWhile_append_slash hmagic, List.takeWhile_append]
    have hlen : (c.takeWhile fun y => !hasMagic [y]).length ≠ c.length := fun hl =>
      hstop ((List.takeWhile_prefix _).eq_of_length hl)
    rw [if_neg hlen]
  have hcut : Path.cutName (q ++ '/' :: c.takeWhile fun y => !hasMagic [y]) =
      (q ++ ['/'], c.takeWhile fun y => !hasMagic [y]) := by
    have : Text.cutLast '/' (q ++ '/' :: c.takeWhile fun y => !hasMagic [y]) = some (q, _) :=
      Text.cutLast_eq_some.mpr ⟨rfl, fun h => hslash ((List.takeWhile_prefix _).subset h)⟩
    rw [Path.cutName, this]
  have hdrop : (q ++ Path.trail (c :: cs)).drop (q ++ ['/']).length = c ++ Path.trail cs := by
    simp
  have hsplit : Text.split '/' (c ++ Path.trail cs) = c :: cs := by
    rw [Path.split_append_trail c fun d hd => (hcs d (List.mem_cons_of_mem _ hd)).2,
      Text.split_of_not_mem hslash]
    rfl
  have hfilter : (c :: cs).filter (fun d : Text => !d.isEmpty) = c :: cs :=
    List.filter_eq_self.mpr fun d hd => by simpa using (hcs d hd).1
  have hlast : (c :: cs).getLast? ≠ some [] := fun h => (hcs _ (List.mem_of_getLast? h)).1 rfl
  unfold cutMagic
  dsimp only
  rw [htake, hcut, hdrop, hsplit, hfilter, if_neg hlast, Path.stripSlashes_base hq]

/-- **A search puts behind its base what the components reach.** -/
theorem exists_reaches_of_mem_search (hfs : fs.IsNamed) {base q p : Text} {cs : List Text}
    (hq : Path.IsBase q) (hmagic : hasMagic q = false)
    (hcs : ∀ c ∈ cs, Path.IsName c ∧ IsSimple c) (hlast : cs.getLast? ≠ some deep)
    (hany : ∃ c ∈ cs, hasMagic c = true) (h : p ∈ fs.search base (q ++ Path.trail cs)) :
    ∃ s, p = q ++ s ∧ Reaches cs s := by
  induction cs generalizing q with
  | nil => simp at hany
  | cons c cs ih =>
    by_cases hc : hasMagic c = true
    · have hm : hasMagic (q ++ Path.trail (c :: cs)) = true := by
        simp only [hasMagic_eq_any, Path.trail_cons, List.any_append, List.any_cons] at hc ⊢
        simp [hc]
      rw [search, if_pos hm, cutMagic_append_trail hq hmagic (fun d hd => (hcs d hd).1) hc] at h
      exact exists_reaches_of_mem_follow hfs hq (.inl rfl) hcs hlast (by simp) h
    · rw [Bool.not_eq_true] at hc
      have hcs' : ∀ d ∈ cs, Path.IsName d ∧ IsSimple d := fun d hd =>
        hcs d (List.mem_cons_of_mem _ hd)
      obtain ⟨d, hd, hdm⟩ := hany
      have hd' : d ∈ cs := by
        rcases List.mem_cons.mp hd with rfl | hd
        · simp [hc] at hdm
        · exact hd
      have hlast' : cs.getLast? ≠ some deep := by
        cases cs with
        | nil => simp
        | cons e cs => rwa [List.getLast?_cons_cons] at hlast
      have hcn := (hcs c (List.mem_cons_self ..)).1
      have hm : hasMagic (q ++ '/' :: c) = false := by
        rw [hasMagic_eq_any] at hmagic hc ⊢
        simp [List.any_append, hmagic, hc, isMagic]
      have h' : p ∈ fs.search base ((q ++ '/' :: c) ++ Path.trail cs) := by simpa using h
      obtain ⟨s, rfl, hs⟩ := ih (hq.append_name hcn) hm hcs' hlast' ⟨d, hd', hdm⟩ h'
      have hdeep : c ≠ deep := by
        rintro rfl
        simp [hasMagic] at hc
      exact ⟨'/' :: c ++ s, by simp, .name hdeep hcn (instance_self c) hs⟩

/-- There is a component to search for, and none holds a slash. -/
theorem components_cutMagic (glob : Text) :
    (cutMagic glob).2 ≠ [] ∧ ∀ c ∈ (cutMagic glob).2, '/' ∉ c := by
  have hslash (tail : Text) : ∀ c ∈ (Text.split '/' tail).filter (!·.isEmpty), '/' ∉ c :=
    fun c hc => Text.not_mem_of_mem_split (List.mem_filter.mp hc).1
  unfold cutMagic
  dsimp only
  split
  · refine ⟨by simp, fun c hc => ?_⟩
    rcases List.mem_append.mp hc with hc | hc
    · exact hslash _ c hc
    · simp [List.mem_singleton.mp hc]
  · next hlast =>
    refine ⟨fun hnil => ?_, hslash _⟩
    obtain ⟨w, hw⟩ := Option.ne_none_iff_exists'.mp
      (mt List.getLast?_eq_none_iff.mp (Text.split_ne_nil '/' _))
    rw [hw] at hlast
    have hne : w ≠ [] := fun e => hlast (congrArg some e)
    have := List.filter_eq_nil_iff.mp hnil w (List.mem_of_getLast? hw)
    simp [hne] at this

/-- The text before the magic keeps what is written there up to a slash. -/
theorem isBase_head_cutMagic {q : Text} (hq : Path.IsBase q) (hmagic : hasMagic q = false)
    (rest : Text) :
    Path.IsBase (cutMagic (q ++ '/' :: rest)).1 ∧
      q ++ ['/'] <+: (cutMagic (q ++ '/' :: rest)).1 ++ ['/'] := by
  have hhead : (cutMagic (q ++ '/' :: rest)).1 =
      Path.dirname (q ++ '/' :: rest.takeWhile fun y => !hasMagic [y]) := by
    rw [← takeWhile_append_slash hmagic]
    rfl
  rw [hhead]
  exact hq.dirname_append _

/-- **A search keeps what is written before its magic**, up to a slash. -/
theorem prefix_of_mem_search (hfs : fs.IsNamed) {base q rest p : Text} (hq : Path.IsBase q)
    (hmagic : hasMagic q = false) (h : p ∈ fs.search base (q ++ '/' :: rest)) :
    q ++ ['/'] <+: p := by
  by_cases hm : hasMagic (q ++ '/' :: rest) = true
  · rw [search, if_pos hm] at h
    obtain ⟨hbase, hhead⟩ := isBase_head_cutMagic hq hmagic rest
    obtain ⟨hne, hslash⟩ := components_cutMagic (q ++ '/' :: rest)
    have hfollow : p ∈ fs.follow base (cutMagic (q ++ '/' :: rest)).1
        (cutMagic (q ++ '/' :: rest)).2 := h
    cases hcs : (cutMagic (q ++ '/' :: rest)).2 with
    | nil => exact absurd hcs hne
    | cons c cs =>
      rw [hcs] at hfollow hslash
      obtain ⟨name, hname, hp⟩ := List.mem_flatMap.mp hfollow
      have hn := head?_of_mem_step hfs (hslash c (List.mem_cons_self ..)) hname
      rw [(Path.append_of_base hbase hn).1] at hp
      have hp' := prefix_of_mem_follow hfs (fun d hd => hslash d (List.mem_cons_of_mem _ hd)) hp
      exact hhead.trans (.trans ⟨name, by simp⟩ hp')
  · rw [search, if_neg hm] at h
    split at h
    · rw [List.mem_singleton.mp h]
      exact ⟨rest, by simp⟩
    · simp at h

end FileSystem

end VariableImport
