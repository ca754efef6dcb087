import VariableImport.Proofs.Glob.Matching
import VariableImport.Proofs.Glob.Searched
import VariableImport.Proofs.Text.Replace

/-!
# Proofs/Glob/Cut — what normal globs match

A `Cut` takes a glob apart at its last wildcard, and at every slash.  Of the globs that are searched for
it, each has its own components in place of the one with this wildcard (`split_around`).  Together they
match what this component stands for at any depth (`exists_matches_loose`), and without loose matching
at most one directory deeper (`exists_matches_strict`).
-/

namespace VariableImport.Glob

/-! ## Parts -/

theorem split_two {a b : Text} (ha : '/' ∉ a) (hb : '/' ∉ b) : Text.split '/' (a ++ '/' :: b) = [a, b] := by
  rw [Text.split_append_cons, Text.split_of_not_mem ha, Text.split_of_not_mem hb]
  rfl

theorem split_three {a b c : Text} (ha : '/' ∉ a) (hb : '/' ∉ b) (hc : '/' ∉ c) :
    Text.split '/' (a ++ '/' :: b ++ '/' :: c) = [a, b, c] := by
  rw [Text.split_append_cons, split_two ha hb, Text.split_of_not_mem hc]
  rfl

/-! ## Cuts -/

/-- **A glob taken apart** at its last wildcard, which stands between `head` and `tail`, behind
directories and before further components. -/
structure Cut where
  dirs : List Text
  head : Text
  tail : Text
  rest : List Text
  dirs_slash : ∀ c ∈ dirs, '/' ∉ c
  head_slash : '/' ∉ head
  tail_slash : '/' ∉ tail
  rest_slash : ∀ c ∈ rest, '/' ∉ c
  isSimple : IsSimple ((Path.lead dirs ++ head) ++ wildcard :: (tail ++ Path.trail rest))
  flat : ¬ deep <:+: (Path.lead dirs ++ head) ++ wildcard :: (tail ++ Path.trail rest)
  last : wildcard ∉ tail ++ Path.trail rest

namespace Cut

variable (l : Cut) {mid : Text} {ns : List Text}

/-- The text before the last wildcard. -/
def before : Text := Path.lead l.dirs ++ l.head

/-- The text after the last wildcard. -/
def after : Text := l.tail ++ Path.trail l.rest

/-- The glob of a cut. -/
def glob : Text := l.before ++ wildcard :: l.after

/-- **Every glob has a cut** if it has a wildcard, no two of them side by side, and no other magic. -/
theorem exists_glob_eq {g : Text} (hstar : wildcard ∈ g) (hflat : ¬ deep <:+: g) (hsimple : IsSimple g) :
    ∃ l : Cut, l.glob = g := by
  obtain ⟨before, after, -, rfl, hlast⟩ := Text.exists_cutLast hstar
  obtain ⟨dirs, head, hsplit⟩ : ∃ dirs head, Text.split '/' before = dirs ++ [head] := by
    simpa using List.eq_nil_or_concat (Text.split '/' before) |>.resolve_left (Text.split_ne_nil _ _)
  obtain ⟨tail, rest, -, rfl, hslash⟩ := Path.exists_eq_append_trail after
  obtain ⟨htail, hrest⟩ := List.forall_mem_cons.mp hslash
  obtain rfl : before = Path.lead dirs ++ head := by
    rw [← Text.join_split '/' before, hsplit, Path.join_append_lead _ (List.cons_ne_nil _ _)]
    rfl
  have hdirs : ∀ c ∈ dirs ++ [head], '/' ∉ c := fun c hc => Text.not_mem_of_mem_split (hsplit ▸ hc)
  obtain ⟨hdirs, hhead⟩ := List.forall_mem_append.mp hdirs
  exact ⟨{ dirs, head, tail, rest
           dirs_slash := hdirs
           head_slash := hhead head (List.mem_singleton_self _)
           tail_slash := htail
           rest_slash := hrest
           isSimple := hsimple
           flat := hflat
           last := hlast }, rfl⟩

/-! ## Components -/

theorem head_eq_nil (h : l.before.getLast? = some '/') : l.head = [] := by
  by_contra hne
  rw [before, List.getLast?_append_of_ne_nil _ hne] at h
  exact l.head_slash (List.mem_of_getLast? h)

theorem tail_eq_nil (h : l.after.head? = some '/') : l.tail = [] := by
  by_contra hne
  rw [after, List.head?_append_of_ne_nil _ hne] at h
  exact l.tail_slash (List.mem_of_head? h)

/-- A head that is not empty ends in no slash. -/
theorem getLast?_before (h : l.head ≠ []) : l.before ≠ [] ∧ l.before.getLast? ≠ some '/' :=
  ⟨by simp [before, h], fun e => h (l.head_eq_nil e)⟩

/-- **The components around the last wildcard** stay, whatever takes its place. -/
theorem split_around (mid : Text) : Text.split '/' (l.before ++ mid ++ l.after) =
    l.dirs ++ (Text.split '/' (l.head ++ mid ++ l.tail) ++ l.rest) := by
  have h : l.before ++ mid ++ l.after =
      Path.lead l.dirs ++ ((l.head ++ mid ++ l.tail) ++ Path.trail l.rest) := by
    simp [before, after]
  rw [h, Path.split_lead_append l.dirs_slash, Path.split_append_trail _ l.rest_slash]

theorem star_slash : '/' ∉ l.head ++ wildcard :: l.tail := by
  simp [l.head_slash, l.tail_slash, slash_ne_wildcard]

theorem not_mem_after : wildcard ∉ l.after := l.last

/-- The components with the last wildcard in them stand in the glob. -/
theorem infix_glob : l.head ++ wildcard :: l.tail <:+: l.glob :=
  ⟨Path.lead l.dirs, Path.trail l.rest, by simp [glob, before, after]⟩

theorem infix_of_mem_dirs {c : Text} (h : c ∈ l.dirs) : c <:+: l.glob := by
  have hsplit := l.split_around [wildcard]
  rw [List.append_assoc, List.singleton_append] at hsplit
  exact Text.infix_of_mem_split (hsplit ▸ List.mem_append_left _ h)

theorem isSimple_star : IsSimple (l.head ++ wildcard :: l.tail) := fun c hc =>
  l.isSimple c (l.infix_glob.subset hc)

theorem isSimple_dirs {c : Text} (h : c ∈ l.dirs) : IsSimple c := fun x hx =>
  l.isSimple x ((l.infix_of_mem_dirs h).subset hx)

theorem isSimple_head : IsSimple l.head := fun c hc =>
  l.isSimple_star c (List.mem_append_left _ hc)

theorem isSimple_head_star : IsSimple (l.head ++ [wildcard]) := fun c hc =>
  l.isSimple_star c (by simpa using (List.mem_append.mp hc).imp_right (by simp +contextual))

theorem isSimple_star_tail : IsSimple (wildcard :: l.tail) := fun c hc =>
  l.isSimple_star c (List.mem_append_right _ hc)

theorem rest_fixed : ∀ c ∈ l.rest, hasMagic c = false := by
  intro c hc
  obtain ⟨s, t, ht⟩ := List.append_of_mem hc
  have hin : c <:+: l.tail ++ Path.trail l.rest :=
    ⟨l.tail ++ Path.trail s ++ ['/'], Path.trail t, by simp [ht]⟩
  refine hasMagic_of_isSimple (fun x hx => ?_) fun hw => l.last (hin.subset hw)
  exact l.isSimple x (List.mem_append_right _ (List.mem_cons_of_mem _ (hin.subset hx)))

/-- A component of the glob is not `**`. -/
theorem ne_deep {c : Text} (h : c <:+: l.glob) : c ≠ deep := by
  rintro rfl
  exact l.flat h

theorem head_ne_deep : l.head ≠ deep :=
  l.ne_deep (List.IsInfix.trans ⟨[], wildcard :: l.tail, rfl⟩ l.infix_glob)

theorem head_star_ne_deep : l.head ++ [wildcard] ≠ deep :=
  l.ne_deep (List.IsInfix.trans ⟨[], l.tail, by simp⟩ l.infix_glob)

theorem star_tail_ne_deep : wildcard :: l.tail ≠ deep :=
  l.ne_deep (List.IsInfix.trans ⟨l.head, [], by simp⟩ l.infix_glob)

theorem deep_not_mem_dirs : deep ∉ l.dirs := fun h => l.ne_deep (l.infix_of_mem_dirs h) rfl

/-- **The names around those for the last wildcard** are accepted by the components around it. -/
theorem matches_around {p : Text} : Matches (l.before ++ mid ++ l.after) p ↔
    ∃ above names, Text.split '/' p = above ++ (names ++ l.rest) ∧ List.Forall₂ Accepts l.dirs above ∧
      Follows (Text.split '/' (l.head ++ mid ++ l.tail)) names := by
  rw [Matches, split_around, follows_append]
  simp only [follows_append, follows_flat l.deep_not_mem_dirs, follows_fixed l.rest_fixed]
  constructor
  · rintro ⟨above, -, hp, habove, names, -, rfl, hnames, rfl⟩
    exact ⟨above, names, hp, habove, hnames⟩
  · rintro ⟨above, names, hp, habove, hnames⟩
    exact ⟨above, _, hp, habove, names, _, rfl, hnames, rfl⟩

/-! ## Names for the last wildcard -/

/-- A component that goes on with a wildcard accepts what it accepts. -/
theorem accepts_head_star {n : Text} (h : Accepts l.head n) : Accepts (l.head ++ [wildcard]) n := by
  obtain ⟨hhidden, hn⟩ := (accepts_iff l.isSimple_head).mp h
  refine (accepts_iff l.isSimple_head_star).mpr ⟨fun hh => ?_, ?_⟩
  · obtain ⟨s, hs⟩ := List.head?_eq_some_iff.mp (beq_iff_eq.mp (hhidden hh))
    rw [hs]
    rfl
  · simpa using hn.append (instance_wildcard [])

/-- **What the component with the last wildcard stands for at any depth**: a name, or directories and a
name, the first of which begins as it does and the last of which ends as it does. -/
inductive AnyDepth : List Text → Prop
  | one {n : Text} (h : Accepts (l.head ++ wildcard :: l.tail) n) : AnyDepth [n]
  | more {n m : Text} {ns : List Text} (hn : Accepts (l.head ++ [wildcard]) n)
      (hns : ∀ k ∈ ns, isHidden k = false) (hm : Accepts (wildcard :: l.tail) m) :
      AnyDepth (n :: (ns ++ [m]))

/-- **What it stands for at most one directory deeper**: a name, or what stands before the wildcard and a
name in it. -/
inductive OneDeeper : List Text → Prop
  | one {n : Text} (h : Accepts (l.head ++ wildcard :: l.tail) n) : OneDeeper [n]
  | two {n m : Text} (hhead : l.head ≠ []) (hn : Accepts l.head n) (hm : Accepts (wildcard :: l.tail) m) :
      OneDeeper [n, m]

/-! ## What takes the place of the last wildcard -/

theorem head_star_slash : '/' ∉ l.head ++ [wildcard] := by
  simp [l.head_slash, slash_ne_wildcard]

theorem star_tail_slash : '/' ∉ wildcard :: l.tail := by
  simp [l.tail_slash, slash_ne_wildcard]

theorem split_self : Text.split '/' (l.head ++ ['*'] ++ l.tail) = [l.head ++ wildcard :: l.tail] := by
  rw [List.append_assoc]
  exact Text.split_of_not_mem l.star_slash

theorem split_above (h : l.head = []) :
    Text.split '/' (l.head ++ ['*', '*', '/', '*'] ++ l.tail) = [deep, wildcard :: l.tail] := by
  simpa [h] using split_two (by decide : '/' ∉ deep) l.star_tail_slash

theorem split_below (h : l.tail = []) :
    Text.split '/' (l.head ++ ['*', '/', '*', '*'] ++ l.tail) = [l.head ++ [wildcard], deep] := by
  simpa [h] using split_two l.head_star_slash (by decide : '/' ∉ deep)

theorem split_between : Text.split '/' (l.head ++ ['*', '/', '*', '*', '/', '*'] ++ l.tail) =
    [l.head ++ [wildcard], deep, wildcard :: l.tail] := by
  simpa using split_three l.head_star_slash (by decide : '/' ∉ deep) l.star_tail_slash

theorem split_apart : Text.split '/' (l.head ++ ['/', '*'] ++ l.tail) = [l.head, wildcard :: l.tail] := by
  simpa using split_two l.head_slash l.star_tail_slash

theorem split_apartBelow : Text.split '/' (l.head ++ ['/', '*', '*', '/', '*'] ++ l.tail) =
    [l.head, deep, wildcard :: l.tail] := by
  simpa using split_three l.head_slash (by decide : '/' ∉ deep) l.star_tail_slash

/-- **Whatever takes the place of the last wildcard** stands for names at any depth. -/
theorem anyDepth_of_filling (hmid : Filling l.before l.after mid)
    (h : Follows (Text.split '/' (l.head ++ mid ++ l.tail)) ns) : l.AnyDepth ns := by
  cases hmid with
  | self =>
    rw [split_self, follows_one (l.ne_deep l.infix_glob)] at h
    obtain ⟨n, rfl, hn⟩ := h
    exact .one hn
  | above hbefore =>
    have hhead := l.head_eq_nil hbefore
    rw [l.split_above hhead, follows_deep_last l.star_tail_ne_deep] at h
    obtain ⟨ms, m, rfl, hms, hm⟩ := h
    cases ms with
    | nil => exact .one (by simpa [hhead] using hm)
    | cons n ms =>
      obtain ⟨hn, hms⟩ := List.forall_mem_cons.mp hms
      exact .more (by simpa [hhead] using accepts_wildcard.mpr hn) hms hm
  | below hafter =>
    have htail := l.tail_eq_nil hafter
    rw [l.split_below htail, follows_first_deep l.head_star_ne_deep] at h
    obtain ⟨n, ms, rfl, hn, hms⟩ := h
    rcases List.eq_nil_or_concat' ms with rfl | ⟨ms, m, rfl⟩
    · exact .one (by simpa [htail] using hn)
    · obtain ⟨hms, hm⟩ := forall_not_hidden_concat hms
      exact .more hn hms (by simpa [htail] using hm)
  | between =>
    rw [split_between, follows_first_deep_last l.head_star_ne_deep l.star_tail_ne_deep] at h
    obtain ⟨n, ms, m, rfl, hn, hms, hm⟩ := h
    exact .more hn hms hm
  | apart =>
    rw [split_apart, follows_two l.head_ne_deep l.star_tail_ne_deep] at h
    obtain ⟨n, m, rfl, hn, hm⟩ := h
    exact .more (l.accepts_head_star hn) (List.forall_mem_nil _) hm
  | apartBelow =>
    rw [split_apartBelow, follows_first_deep_last l.head_ne_deep l.star_tail_ne_deep] at h
    obtain ⟨n, ms, m, rfl, hn, hms, hm⟩ := h
    exact .more (l.accepts_head_star hn) hms hm

/-! ## The globs that are searched -/

/-- A component of its own is tried where the last wildcard goes on a name. -/
theorem apart_mem_repairSlash (h : l.head ≠ []) : l.before ++ ['/', '*'] ++ l.after ∈ repairSlash l.glob := by
  have hbefore : ¬ (l.before = [] ∨ l.before.getLast? = some '/') :=
    not_or.mpr (l.getLast?_before h)
  rw [repairSlash, glob, cutLast_append l.not_mem_after]
  dsimp only
  rw [if_neg hbefore]
  simp

/-- **Directories are let in** before the last wildcard, behind it or between two of it. -/
theorem expandDepth_glob : expandDepth l.glob =
    if l.before.getLast? = some '/' then [l.glob, l.before ++ ['*', '*', '/', '*'] ++ l.after]
    else if l.after.head? = some '/' then [l.glob, l.before ++ ['*', '/', '*', '*'] ++ l.after]
    else [l.glob, l.before ++ ['*', '/', '*', '*', '/', '*'] ++ l.after] := by
  have hflat : l.glob.contains ['*', '*'] = false := by
    rw [← Bool.not_eq_true, Text.contains_iff]
    exact l.flat
  rw [expandDepth, hflat, if_neg Bool.false_ne_true, glob, cutLast_append l.not_mem_after]
  simp

/-- **What the last wildcard stands for at any depth** is matched by a glob that is searched for it. -/
theorem exists_mem_expandDepth (h : l.AnyDepth ns) :
    ∃ mid, l.before ++ mid ++ l.after ∈ expandDepth l.glob ∧
      Follows (Text.split '/' (l.head ++ mid ++ l.tail)) ns := by
  cases h with
  | one hn =>
    refine ⟨['*'], ?_, ?_⟩
    · have e : l.before ++ ['*'] ++ l.after = l.glob := by simp [glob]
      exact e ▸ mem_expandDepth_self l.glob
    · rw [split_self, follows_one (l.ne_deep l.infix_glob)]
      exact ⟨_, rfl, hn⟩
  | @more n m ns hn hns hm =>
    rw [expandDepth_glob]
    split_ifs with hbefore hafter
    · have hhead := l.head_eq_nil hbefore
      refine ⟨_, List.mem_cons_of_mem _ (List.mem_singleton_self _), ?_⟩
      rw [l.split_above hhead, follows_deep_last l.star_tail_ne_deep]
      refine ⟨n :: ns, m, rfl, List.forall_mem_cons.mpr ⟨?_, hns⟩, hm⟩
      exact accepts_wildcard.mp (by simpa [hhead] using hn)
    · have htail := l.tail_eq_nil hafter
      refine ⟨_, List.mem_cons_of_mem _ (List.mem_singleton_self _), ?_⟩
      rw [l.split_below htail, follows_first_deep l.head_star_ne_deep]
      refine ⟨n, _, rfl, hn, List.forall_mem_append.mpr ⟨hns, List.forall_mem_singleton.mpr ?_⟩⟩
      exact accepts_wildcard.mp (by simpa [htail] using hm)
    · refine ⟨_, List.mem_cons_of_mem _ (List.mem_singleton_self _), ?_⟩
      rw [split_between, follows_first_deep_last l.head_star_ne_deep l.star_tail_ne_deep]
      exact ⟨n, ns, m, rfl, hn, hns, hm⟩

/-! ## Matching -/

/-- **What is matched loosely**: a path with any names for the last wildcard, at any depth. -/
theorem exists_matches_loose {p : Text} :
    (∃ e ∈ stepAll expandDepth (repairSlash l.glob), Matches e p) ↔
      ∃ above names, Text.split '/' p = above ++ (names ++ l.rest) ∧
        List.Forall₂ Accepts l.dirs above ∧ l.AnyDepth names := by
  constructor
  · rintro ⟨e, he, h⟩
    obtain ⟨mid, hmid, rfl⟩ := @exists_filling e _ _ true l.not_mem_after he
    obtain ⟨above, names, hp, habove, hnames⟩ := l.matches_around.mp h
    exact ⟨above, names, hp, habove, l.anyDepth_of_filling hmid hnames⟩
  · rintro ⟨above, names, hp, habove, hnames⟩
    obtain ⟨mid, he, h⟩ := l.exists_mem_expandDepth hnames
    exact ⟨_, mem_stepAll.mpr ⟨l.glob, mem_repairSlash_self _, he⟩,
      l.matches_around.mpr ⟨above, names, hp, habove, h⟩⟩

/-- **What is matched otherwise**: a path with one name for the last wildcard, or with one more directory
where it goes on a name. -/
theorem exists_matches_strict {p : Text} (hp : [] ∉ Text.split '/' p) :
    (∃ e ∈ repairSlash l.glob, Matches e p) ↔
      ∃ above names, Text.split '/' p = above ++ (names ++ l.rest) ∧
        List.Forall₂ Accepts l.dirs above ∧ l.OneDeeper names := by
  have hself : l.before ++ ['*'] ++ l.after = l.glob := by simp [glob]
  constructor
  · rintro ⟨e, he, h⟩
    obtain rfl | ⟨-, rfl⟩ := mem_repairSlash l.not_mem_after he
    · rw [show l.before ++ '*' :: l.after = l.before ++ ['*'] ++ l.after by simp, matches_around] at h
      obtain ⟨above, names, hp, habove, h⟩ := h
      rw [split_self, follows_one (l.ne_deep l.infix_glob)] at h
      obtain ⟨n, rfl, hn⟩ := h
      exact ⟨above, _, hp, habove, .one hn⟩
    · rw [show (l.before ++ ['/']) ++ '*' :: l.after = l.before ++ ['/', '*'] ++ l.after by simp,
        matches_around] at h
      obtain ⟨above, names, hnames, habove, h⟩ := h
      rw [split_apart, follows_two l.head_ne_deep l.star_tail_ne_deep] at h
      obtain ⟨n, m, rfl, hn, hm⟩ := h
      refine ⟨above, _, hnames, habove, .two (fun hhead => hp ?_) hn hm⟩
      obtain rfl : n = [] := (accepts_fixed rfl).mp (hhead ▸ hn)
      simp [hnames]
  · rintro ⟨above, names, hp, habove, hnames⟩
    cases hnames with
    | @one n hn =>
      refine ⟨l.glob, mem_repairSlash_self _, hself ▸ l.matches_around.mpr ⟨above, [n], hp, habove, ?_⟩⟩
      rw [split_self, follows_one (l.ne_deep l.infix_glob)]
      exact ⟨n, rfl, hn⟩
    | @two n m hhead hn hm =>
      refine ⟨_, l.apart_mem_repairSlash hhead, l.matches_around.mpr ⟨above, [n, m], hp, habove, ?_⟩⟩
      rw [split_apart, follows_two l.head_ne_deep l.star_tail_ne_deep]
      exact ⟨n, m, rfl, hn, hm⟩

end Cut

end VariableImport.Glob
