import VariableImport.Proofs.Glob.Cut
import VariableImport.Proofs.Glob.Ending
import VariableImport.Proofs.Glob.Fill

/-!
# Proofs/Glob/Language — the paths that normal globs match

A glob means the paths that it is filled to, with a text of any depth for its last wildcard (`Loosely`)
or with one that goes at most one directory deeper (`Strictly`), where only its own dots hide names.
Filling goes component by component (`filledWith_dirs`), and so does matching: **the globs that are
searched for a glob together match exactly the paths that it means** (`matches_normalize_iff`).
-/

namespace VariableImport.Glob

variable {g p c b : Text} {dirs rest : List Text} {ok : Text → Prop}

/-- **What a glob means**: itself with texts for its wildcards that hold no slash, but for the last one,
which is to be as asked for.  Where a component begins with a dot, the glob has one there. -/
def FilledWith (ok : Text → Prop) (g p : Text) : Prop :=
  ∃ texts last, texts.length + 1 = g.count wildcard ∧ (∀ t ∈ texts, '/' ∉ t) ∧ ok last ∧
    fill (texts ++ [last]) g = p ∧ DotsKept (texts ++ [last]) g

/-- The paths that a glob means if its last wildcard stands for any text. -/
def Loosely (g p : Text) : Prop := FilledWith (fun _ => True) g p

/-- Whether the last wildcard of a glob stands behind a slash. -/
def LastBehindSlash (g : Text) : Prop := ∃ u v, g = u ++ '/' :: wildcard :: v ∧ wildcard ∉ v

/-- It is seen from the text before it. -/
theorem lastBehindSlash_iff {before after : Text} (hafter : wildcard ∉ after) :
    LastBehindSlash (before ++ wildcard :: after) ↔ before.getLast? = some '/' := by
  constructor
  · rintro ⟨u, v, e, hv⟩
    have hcut := cutLast_append (s := before) hafter
    rw [show before ++ '*' :: after = (u ++ ['/']) ++ '*' :: v by simpa using e, cutLast_append hv] at hcut
    obtain ⟨hbefore, -⟩ := Prod.mk.inj (Option.some.inj hcut)
    simp [← hbefore]
  · intro h
    obtain ⟨u, rfl⟩ := List.getLast?_eq_some_iff.mp h
    exact ⟨u, after, by simp, hafter⟩

/-- The paths that a glob means if its last wildcard stands for a name or a part of one, or, where it goes
on a name, for a name in the directory of this one. -/
def Strictly (g p : Text) : Prop :=
  FilledWith (fun last => '/' ∉ last ∨ ¬ LastBehindSlash g ∧ ∃ s, last = '/' :: s ∧ '/' ∉ s) g p

/-! ## Filling component by component -/

/-- Texts without a slash bring none in. -/
theorem slash_not_mem_fill {texts : List Text} (hlength : texts.length = g.count wildcard)
    (htexts : ∀ t ∈ texts, '/' ∉ t) (hg : '/' ∉ g) : '/' ∉ fill texts g := by
  induction g generalizing texts with
  | nil => simp
  | cons x g ih =>
    obtain ⟨hx, hrest⟩ := not_or.mp (List.mem_cons.not.mp hg)
    by_cases hw : x = wildcard
    · subst hw
      rw [List.count_cons_self] at hlength
      obtain ⟨t, texts, rfl⟩ := List.exists_cons_of_length_eq_add_one hlength
      obtain ⟨ht, htexts⟩ := List.forall_mem_cons.mp htexts
      rw [fill_wildcard, List.mem_append, not_or]
      exact ⟨ht, ih (Nat.succ.inj hlength) htexts hrest⟩
    · rw [List.count_cons_of_ne hw] at hlength
      rw [fill_char hw, List.mem_cons, not_or]
      exact ⟨hx, ih hlength htexts hrest⟩

/-- A component that is filled is one, whatever texts are left over. -/
theorem split_fill {first : List Text} (hfirst : first.length = c.count wildcard)
    (hn : '/' ∉ fill first c) (rest : List Text) :
    Text.split '/' (fill (first ++ rest) c) = [fill first c] := by
  rw [fill_append_texts hfirst.ge, Text.split_of_not_mem hn]

/-- **A component before the last wildcard** is filled to the names that it accepts. -/
theorem filledWith_dir (hc : '/' ∉ c) (hsimple : IsSimple c) (hg : wildcard ∈ g) :
    FilledWith ok (c ++ '/' :: g) p ↔
      ∃ n q, p = n ++ '/' :: q ∧ '/' ∉ n ∧ Accepts c n ∧ FilledWith ok g q := by
  have hcount : (c ++ '/' :: g).count wildcard = c.count wildcard + g.count wildcard := by
    rw [List.count_append, List.count_cons_of_ne (by decide)]
  have hpos : 0 < g.count wildcard := List.count_pos_iff.mpr hg
  constructor
  · rintro ⟨texts, last, hlength, htexts, hok, rfl, hkept⟩
    rw [hcount] at hlength
    obtain ⟨first, texts, rfl, hfirst⟩ : ∃ first more, texts = first ++ more ∧
        first.length = c.count wildcard :=
      ⟨_, _, (List.take_append_drop (c.count wildcard) texts).symm, by rw [List.length_take]; omega⟩
    obtain ⟨htexts₁, htexts₂⟩ := List.forall_mem_append.mp htexts
    rw [List.append_assoc] at hkept ⊢
    rw [dotsKept_append_slash, ← hfirst, List.drop_left] at hkept
    have hn : '/' ∉ fill first c := slash_not_mem_fill hfirst htexts₁ hc
    refine ⟨fill first c, fill (texts ++ [last]) g, by rw [fill_append_append hfirst, fill_slash], hn, ?_,
      texts, last, ?_, htexts₂, hok, rfl, hkept.2⟩
    · have hsplit := split_fill hfirst hn (texts ++ [last])
      exact (accepts_iff hsimple).mpr ⟨((dotsKept_component hc hsplit).mp hkept.1).1,
        instance_iff_fill.mpr ⟨first, hfirst, rfl⟩⟩
    · rw [List.length_append] at hlength
      omega
  · rintro ⟨n, q, rfl, hn, haccepts, texts, last, hlength, htexts, hok, rfl, hkept⟩
    obtain ⟨hhidden, hinstance⟩ := (accepts_iff hsimple).mp haccepts
    obtain ⟨first, hfirst, rfl⟩ := instance_iff_fill.mp hinstance
    refine ⟨first ++ texts, last, ?_, ?_, hok, ?_, ?_⟩
    · rw [List.length_append, hcount]
      omega
    · exact List.forall_mem_append.mpr ⟨fun t ht h => hn ((infix_fill hfirst ht).subset h), htexts⟩
    · rw [List.append_assoc, fill_append_append hfirst, fill_slash]
    · rw [List.append_assoc, dotsKept_append_slash, ← hfirst, List.drop_left]
      have hsplit := split_fill hfirst hn (texts ++ [last])
      exact ⟨(dotsKept_component hc hsplit).mpr ⟨hhidden, List.forall_mem_nil _⟩, hkept⟩

/-- **The components before the one with the last wildcard** are filled to names that they accept. -/
theorem filledWith_dirs (hslash : ∀ c ∈ dirs, '/' ∉ c) (hsimple : ∀ c ∈ dirs, IsSimple c)
    (hg : wildcard ∈ g) : FilledWith ok (Path.lead dirs ++ g) p ↔
      ∃ above q, p = Path.lead above ++ q ∧ (∀ n ∈ above, '/' ∉ n) ∧
        List.Forall₂ Accepts dirs above ∧ FilledWith ok g q := by
  induction dirs generalizing p with
  | nil =>
    constructor
    · exact fun h => ⟨[], p, rfl, List.forall_mem_nil _, .nil, h⟩
    · rintro ⟨above, q, rfl, -, hnil, h⟩
      obtain rfl := List.forall₂_nil_left_iff.mp hnil
      exact h
  | cons c dirs ih =>
    obtain ⟨hc, hslash⟩ := List.forall_mem_cons.mp hslash
    obtain ⟨hcs, hsimple⟩ := List.forall_mem_cons.mp hsimple
    rw [Path.lead_cons, List.append_assoc, List.cons_append,
      filledWith_dir hc hcs (List.mem_append_right _ hg)]
    simp only [ih hslash hsimple]
    constructor
    · rintro ⟨n, -, rfl, hn, haccepts, above, q, rfl, habove, hall, h⟩
      exact ⟨n :: above, q, by simp, List.forall_mem_cons.mpr ⟨hn, habove⟩, .cons haccepts hall, h⟩
    · rintro ⟨above, q, rfl, habove, hall, h⟩
      obtain ⟨n, above, haccepts, hdirs, rfl⟩ := List.forall₂_cons_left_iff.mp hall
      obtain ⟨hn, habove⟩ := List.forall_mem_cons.mp habove
      exact ⟨n, _, by simp, hn, haccepts, above, q, rfl, habove, hdirs, h⟩

/-- **The components behind the one with the last wildcard** are kept. -/
theorem filledWith_rest (hrest : wildcard ∉ Path.trail rest) :
    FilledWith ok (g ++ Path.trail rest) p ↔ ∃ q, p = q ++ Path.trail rest ∧ FilledWith ok g q := by
  have hcount : (g ++ Path.trail rest).count wildcard = g.count wildcard := by
    rw [List.count_append, List.count_eq_zero.mpr hrest, Nat.add_zero]
  have hfill (texts : List Text) : fill texts (g ++ Path.trail rest) = fill texts g ++ Path.trail rest := by
    rw [fill_append, fill_fixed hrest]
  have hkept (texts : List Text) : DotsKept texts (g ++ Path.trail rest) ↔ DotsKept texts g := by
    cases rest with
    | nil => simp
    | cons c rest =>
      rw [Path.trail_cons, List.cons_append, dotsKept_append_slash, and_iff_left]
      exact dotsKept_fixed fun h => hrest (by rw [Path.trail_cons]; exact List.mem_cons_of_mem _ h)
  simp only [FilledWith, hcount, hfill, hkept]
  constructor
  · rintro ⟨texts, last, hlength, htexts, hok, rfl, hk⟩
    exact ⟨_, rfl, texts, last, hlength, htexts, hok, rfl, hk⟩
  · rintro ⟨q, rfl, texts, last, hlength, htexts, hok, rfl, hk⟩
    exact ⟨texts, last, hlength, htexts, hok, rfl, hk⟩

/-! ## The component with the last wildcard -/

/-- A text with a slash is cut into its components at the first and last of them. -/
theorem exists_eq_of_slash {s : Text} (h : '/' ∈ s) :
    ∃ x ns y, s = x ++ (Path.trail ns ++ '/' :: y) ∧ '/' ∉ x ∧ (∀ n ∈ ns, '/' ∉ n) ∧ '/' ∉ y := by
  obtain ⟨x, cs, -, rfl, hcs⟩ := Path.exists_eq_append_trail s
  obtain ⟨hx, hcs⟩ := List.forall_mem_cons.mp hcs
  rcases List.eq_nil_or_concat' cs with rfl | ⟨ns, y, rfl⟩
  · exact absurd (by simpa using h) hx
  · obtain ⟨hns, hy⟩ := List.forall_mem_append.mp hcs
    exact ⟨x, ns, y, by simp, hx, hns, hy y (List.mem_singleton_self y)⟩

namespace Cut

variable (l : Cut) {q : Text}

theorem tail_fixed : wildcard ∉ l.tail := fun h => l.not_mem_after (List.mem_append_left _ h)

/-- What goes on with the last wildcard begins as the component with it does. -/
theorem isHidden_head_star : isHidden (l.head ++ [wildcard]) = isHidden (l.head ++ wildcard :: l.tail) := by
  cases hl : l.head <;> rfl

/-- **The component with the last wildcard** is filled with any text there. -/
theorem filledWith_star : FilledWith ok (l.head ++ wildcard :: l.tail) q ↔
    ∃ s last n ns, Instance l.head s ∧ '/' ∉ s ∧ ok last ∧ q = s ++ (last ++ l.tail) ∧
      Text.split '/' q = n :: ns ∧ (isHidden n = true → isHidden (l.head ++ wildcard :: l.tail) = true) ∧
      ∀ m ∈ ns, isHidden m = false := by
  have hcount : (l.head ++ wildcard :: l.tail).count wildcard = l.head.count wildcard + 1 := by
    rw [List.count_append, List.count_cons_self, List.count_eq_zero.mpr l.tail_fixed]
  have hfill {texts : List Text} (last : Text) (h : texts.length = l.head.count wildcard) :
      fill (texts ++ [last]) (l.head ++ wildcard :: l.tail) = fill texts l.head ++ (last ++ l.tail) := by
    rw [fill_append_append h, fill_wildcard, fill_fixed l.tail_fixed]
  constructor
  · rintro ⟨texts, last, hlength, htexts, hok, rfl, hkept⟩
    have hlength := Nat.succ.inj (hlength.trans hcount)
    obtain ⟨n, ns, hsplit⟩ := List.exists_cons_of_ne_nil
      (Text.split_ne_nil '/' (fill (texts ++ [last]) (l.head ++ wildcard :: l.tail)))
    exact ⟨fill texts l.head, last, n, ns, instance_iff_fill.mpr ⟨texts, hlength, rfl⟩,
      slash_not_mem_fill hlength htexts l.head_slash, hok, hfill last hlength, hsplit,
      (dotsKept_component l.star_slash hsplit).mp hkept⟩
  · rintro ⟨s, last, n, ns, hs, hslash, hok, rfl, hsplit, hdots⟩
    obtain ⟨texts, hlength, rfl⟩ := instance_iff_fill.mp hs
    rw [← hfill last hlength] at hsplit ⊢
    exact ⟨texts, last, by rw [hlength, hcount], fun t ht h => hslash ((infix_fill hlength ht).subset h),
      hok, rfl, (dotsKept_component l.star_slash hsplit).mpr hdots⟩

/-- A last wildcard that stands for no slash leaves one name. -/
theorem accepts_of_filled {s last n : Text} (hs : Instance l.head s)
    (hq : s ++ (last ++ l.tail) = n)
    (hhidden : isHidden n = true → isHidden (l.head ++ wildcard :: l.tail) = true) :
    Accepts (l.head ++ wildcard :: l.tail) n :=
  (accepts_iff l.isSimple_star).mpr
    ⟨hhidden, hq ▸ hs.append (.star last (instance_self l.tail))⟩

/-- A name that the component accepts is filled to. -/
theorem exists_filled_of_accepts {n : Text} (h : Accepts (l.head ++ wildcard :: l.tail) n) :
    ∃ s last, Instance l.head s ∧ n = s ++ (last ++ l.tail) ∧
      (isHidden n = true → isHidden (l.head ++ wildcard :: l.tail) = true) := by
  obtain ⟨hhidden, hn⟩ := (accepts_iff l.isSimple_star).mp h
  obtain ⟨s, t, rfl, hs, ht⟩ := instance_append.mp hn
  obtain ⟨last, u, rfl, hu⟩ := instance_star.mp ht
  obtain rfl := (instance_fixed l.tail_fixed).mp hu
  exact ⟨s, last, hs, rfl, hhidden⟩

/-- What ends as the component does and is not hidden is accepted behind directories. -/
theorem accepts_star_tail {m : Text} :
    Accepts (wildcard :: l.tail) m ↔ isHidden m = false ∧ ∃ y, m = y ++ l.tail := by
  rw [accepts_iff l.isSimple_star_tail, instance_star]
  have hnot : isHidden (wildcard :: l.tail) = false := rfl
  simp [hnot, instance_fixed l.tail_fixed]

/-- A text of several components for the last wildcard. -/
theorem split_filled {s x y : Text} {ms : List Text} (hs : '/' ∉ s) (hx : '/' ∉ x) (hms : ∀ m ∈ ms, '/' ∉ m)
    (hy : '/' ∉ y) : Text.split '/' (s ++ (x ++ (Path.trail ms ++ '/' :: y) ++ l.tail)) =
      (s ++ x) :: (ms ++ [y ++ l.tail]) := by
  have hcs : ∀ c ∈ ms ++ [y ++ l.tail], '/' ∉ c :=
    List.forall_mem_append.mpr ⟨hms, by simp [hy, l.tail_slash]⟩
  have hsx : '/' ∉ s ++ x := by simp [hs, hx]
  have h := Path.split_append_trail (s ++ x) hcs
  rw [Text.split_of_not_mem hsx] at h
  simpa using h

/-- **Any text for the last wildcard** makes names at any depth. -/
theorem anyDepth_of_filledWith (h : FilledWith ok (l.head ++ wildcard :: l.tail) q) :
    l.AnyDepth (Text.split '/' q) := by
  obtain ⟨s, last, n, ns, hs, hslash, -, rfl, hsplit, hhidden, hrest⟩ := l.filledWith_star.mp h
  by_cases hlast : '/' ∈ last
  · obtain ⟨x, ms, y, rfl, hx, hms, hy⟩ := exists_eq_of_slash hlast
    rw [l.split_filled hslash hx hms hy] at hsplit ⊢
    obtain ⟨rfl, rfl⟩ := List.cons.inj hsplit
    obtain ⟨hms, hlast⟩ := List.forall_mem_append.mp hrest
    refine .more ?_ hms (l.accepts_star_tail.mpr ⟨hlast _ (List.mem_singleton_self _), y, rfl⟩)
    exact (accepts_iff l.isSimple_head_star).mpr
      ⟨fun h => l.isHidden_head_star ▸ hhidden h, hs.append (instance_wildcard x)⟩
  · have hq : '/' ∉ s ++ (last ++ l.tail) := by simp [hslash, hlast, l.tail_slash]
    rw [Text.split_of_not_mem hq] at hsplit ⊢
    obtain ⟨rfl, -⟩ := List.cons.inj hsplit
    exact .one (l.accepts_of_filled hs rfl hhidden)

/-- **One name that is accepted** is a text without a slash for the last wildcard. -/
theorem filledWith_of_accepts (hok : ∀ last, '/' ∉ last → ok last) (hq : '/' ∉ q)
    (h : Accepts (l.head ++ wildcard :: l.tail) q) : FilledWith ok (l.head ++ wildcard :: l.tail) q := by
  obtain ⟨s, last, hs, rfl, hhidden⟩ := l.exists_filled_of_accepts h
  simp only [List.mem_append, not_or] at hq
  refine l.filledWith_star.mpr ⟨s, last, _, [], hs, hq.1, hok last hq.2.1, rfl, ?_, hhidden,
    List.forall_mem_nil _⟩
  exact Text.split_of_not_mem (by simp [hq])

/-- **Names at any depth** are what some text for the last wildcard makes. -/
theorem filledWith_of_anyDepth (h : l.AnyDepth (Text.split '/' q)) :
    FilledWith (fun _ => True) (l.head ++ wildcard :: l.tail) q := by
  generalize hsplit : Text.split '/' q = names at h
  have hslash : ∀ c ∈ names, '/' ∉ c := fun c hc => Text.not_mem_of_mem_split (hsplit ▸ hc)
  have hq : q = Text.join ['/'] names := by rw [← hsplit, Text.join_split]
  cases h with
  | @one n hn =>
    obtain rfl : q = n := hq
    exact l.filledWith_of_accepts (fun _ _ => trivial) (hslash q (List.mem_singleton_self q)) hn
  | @more n m ms hn hms hm =>
    obtain ⟨hhidden, hinstance⟩ := (accepts_iff l.isSimple_head_star).mp hn
    obtain ⟨s, x, rfl, hs, -⟩ := instance_append.mp hinstance
    obtain ⟨hm, y, rfl⟩ := l.accepts_star_tail.mp hm
    rw [Path.join_cons] at hq
    refine l.filledWith_star.mpr ⟨s, x ++ (Path.trail ms ++ '/' :: y), _, _, hs, fun h => ?_, trivial,
      by simp [hq], hsplit, fun h => l.isHidden_head_star ▸ hhidden h, ?_⟩
    · exact hslash _ (List.mem_cons_self ..) (List.mem_append_left _ h)
    · exact List.forall_mem_append.mpr ⟨hms, List.forall_mem_singleton.mpr hm⟩

/-- What stands before the last wildcard hides the component with it. -/
theorem isHidden_star (h : l.head ≠ []) : isHidden (l.head ++ wildcard :: l.tail) = isHidden l.head := by
  rw [isHidden, isHidden, List.head?_append_of_ne_nil _ h]

/-- **A name or a name in a directory** for the last wildcard. -/
theorem filledWith_oneDeeper {behind : Prop} (hbehind : l.head ≠ [] → ¬ behind)
    (hq : [] ∉ Text.split '/' q) :
    FilledWith (fun last => '/' ∉ last ∨ ¬ behind ∧ ∃ s, last = '/' :: s ∧ '/' ∉ s)
      (l.head ++ wildcard :: l.tail) q ↔ l.OneDeeper (Text.split '/' q) := by
  constructor
  · intro h
    obtain ⟨s, last, n, ns, hs, hslash, hlast, rfl, hsplit, hhidden, hrest⟩ := l.filledWith_star.mp h
    rcases hlast with hlast | ⟨-, y, rfl, hy⟩
    · have hq : '/' ∉ s ++ (last ++ l.tail) := by simp [hslash, hlast, l.tail_slash]
      rw [Text.split_of_not_mem hq] at hsplit ⊢
      obtain ⟨rfl, -⟩ := List.cons.inj hsplit
      exact .one (l.accepts_of_filled hs rfl hhidden)
    · have hy : '/' ∉ y ++ l.tail := by simp [hy, l.tail_slash]
      rw [List.cons_append, split_two hslash hy] at hsplit hq ⊢
      obtain ⟨rfl, rfl⟩ := List.cons.inj hsplit
      have hhead : l.head ≠ [] := fun e => hq (by simp [instance_nil.mp (e ▸ hs)])
      refine .two hhead ?_ (l.accepts_star_tail.mpr ⟨hrest _ (List.mem_singleton_self _), y, rfl⟩)
      exact (accepts_iff l.isSimple_head).mpr ⟨fun h => l.isHidden_star hhead ▸ hhidden h, hs⟩
  · intro h
    generalize hsplit : Text.split '/' q = names at h
    have hslash : ∀ c ∈ names, '/' ∉ c := fun c hc => Text.not_mem_of_mem_split (hsplit ▸ hc)
    have hq : q = Text.join ['/'] names := by rw [← hsplit, Text.join_split]
    cases h with
    | @one n hn =>
      obtain rfl : q = n := hq
      exact l.filledWith_of_accepts (fun _ => .inl) (hslash q (List.mem_singleton_self q)) hn
    | @two n m hhead hn hm =>
      obtain ⟨hhidden, hs⟩ := (accepts_iff l.isSimple_head).mp hn
      obtain ⟨hm, y, rfl⟩ := l.accepts_star_tail.mp hm
      obtain ⟨hn, hy⟩ := List.forall_mem_cons.mp hslash
      have hy : '/' ∉ y := fun h => hy _ (List.mem_singleton_self _) (List.mem_append_left _ h)
      exact l.filledWith_star.mpr ⟨n, '/' :: y, n, _, hs, hn, .inr ⟨hbehind hhead, y, rfl, hy⟩,
        by simpa using hq, hsplit, fun h => l.isHidden_star hhead ▸ hhidden h,
        List.forall_mem_singleton.mpr hm⟩

/-! ## The whole glob -/

/-- **A glob is filled around the component with its last wildcard** as its other components say. -/
theorem filledWith_glob : FilledWith ok l.glob p ↔
    ∃ above q, Text.split '/' p = above ++ (Text.split '/' q ++ l.rest) ∧
      List.Forall₂ Accepts l.dirs above ∧ FilledWith ok (l.head ++ wildcard :: l.tail) q := by
  have hglob : l.glob = Path.lead l.dirs ++ ((l.head ++ wildcard :: l.tail) ++ Path.trail l.rest) := by
    simp [glob, before, after]
  have hrest : wildcard ∉ Path.trail l.rest := fun h => l.not_mem_after (List.mem_append_right _ h)
  rw [hglob, filledWith_dirs l.dirs_slash (fun c => l.isSimple_dirs) (by simp)]
  simp only [filledWith_rest hrest]
  constructor
  · rintro ⟨above, -, rfl, habove, hall, q, rfl, h⟩
    refine ⟨above, q, ?_, hall, h⟩
    rw [Path.split_lead_append habove, Path.split_append_trail _ l.rest_slash]
  · rintro ⟨above, q, hsplit, hall, h⟩
    have hne : Text.split '/' q ++ l.rest ≠ [] := by simp [Text.split_ne_nil]
    refine ⟨above, q ++ Path.trail l.rest, ?_, fun n hn => ?_, hall, q, rfl, h⟩
    · rw [← Text.join_split '/' p, hsplit, Path.join_append_lead _ hne,
        Path.join_append (Text.split_ne_nil _ _), Text.join_split]
    · exact Text.not_mem_of_mem_split (hsplit ▸ List.mem_append_left _ hn)

/-- Components of a path are those of a path of their own. -/
theorem exists_split_eq {above names : List Text} (hne : names ≠ [])
    (hp : Text.split '/' p = above ++ (names ++ l.rest)) : ∃ q, Text.split '/' q = names := by
  refine ⟨_, Path.split_join hne fun c hc => ?_⟩
  exact Text.not_mem_of_mem_split (hp ▸ List.mem_append_right _ (List.mem_append_left _ hc))

/-- **What a glob means at any depth**, component by component. -/
theorem loosely_iff : Loosely l.glob p ↔
    ∃ above names, Text.split '/' p = above ++ (names ++ l.rest) ∧
      List.Forall₂ Accepts l.dirs above ∧ l.AnyDepth names := by
  rw [Loosely, filledWith_glob]
  constructor
  · rintro ⟨above, q, hp, hall, h⟩
    exact ⟨above, _, hp, hall, l.anyDepth_of_filledWith h⟩
  · rintro ⟨above, names, hp, hall, h⟩
    obtain ⟨q, rfl⟩ := l.exists_split_eq (by cases h <;> simp) hp
    exact ⟨above, q, hp, hall, l.filledWith_of_anyDepth h⟩

/-- **What a glob means otherwise**, component by component. -/
theorem strictly_iff (hp : [] ∉ Text.split '/' p) : Strictly l.glob p ↔
    ∃ above names, Text.split '/' p = above ++ (names ++ l.rest) ∧
      List.Forall₂ Accepts l.dirs above ∧ l.OneDeeper names := by
  have hbehind : l.head ≠ [] → ¬ LastBehindSlash l.glob := fun h =>
    (lastBehindSlash_iff l.not_mem_after).not.mpr (l.getLast?_before h).2
  have hnames {above names : List Text} (h : Text.split '/' p = above ++ (names ++ l.rest)) : [] ∉ names :=
    fun hnil => hp (h ▸ List.mem_append_right _ (List.mem_append_left _ hnil))
  rw [Strictly, filledWith_glob]
  constructor
  · rintro ⟨above, q, hsplit, hall, h⟩
    exact ⟨above, _, hsplit, hall, (l.filledWith_oneDeeper hbehind (hnames hsplit)).mp h⟩
  · rintro ⟨above, names, hsplit, hall, h⟩
    obtain ⟨q, rfl⟩ := l.exists_split_eq (by cases h <;> simp) hsplit
    exact ⟨above, q, hsplit, hall, (l.filledWith_oneDeeper hbehind (hnames hsplit)).mpr h⟩

end Cut

/-! ## Normal globs -/

section

variable (hstar : wildcard ∈ g) (hflat : ¬ deep <:+: g) (hsimple : IsSimple g)

include hstar hflat hsimple

/-- **The globs with directories let in** match what the glob means at any depth. -/
theorem exists_matches_iff_loosely :
    (∃ e ∈ stepAll expandDepth (repairSlash g), Matches e p) ↔ Loosely g p := by
  obtain ⟨l, rfl⟩ := Cut.exists_glob_eq hstar hflat hsimple
  rw [l.exists_matches_loose, l.loosely_iff]

/-- **The globs with slashes repaired** match what the glob means otherwise. -/
theorem exists_matches_iff_strictly (hp : [] ∉ Text.split '/' p) :
    (∃ e ∈ repairSlash g, Matches e p) ↔ Strictly g p := by
  obtain ⟨l, rfl⟩ := Cut.exists_glob_eq hstar hflat hsimple
  rw [l.exists_matches_strict hp, l.strictly_iff hp]

end

/-- What takes the place of the last wildcard ends in one. -/
theorem Filling.exists_concat {before after mid : Text} (h : Filling before after mid) :
    ∃ lead, mid = lead ++ [wildcard] := by
  cases h
  exacts [⟨[], rfl⟩, ⟨['*', '*', '/'], rfl⟩, ⟨['*', '/', '*'], rfl⟩, ⟨['*', '/', '*', '*', '/'], rfl⟩,
    ⟨['/'], rfl⟩, ⟨['/', '*', '*', '/'], rfl⟩]

/-- **A filled glob names an extension** exactly if the glob does. -/
theorem Filling.hasExtension_eq {before after mid : Text} (h : Filling before after mid) :
    hasExtension (before ++ mid ++ after) = hasExtension (before ++ wildcard :: after) := by
  obtain ⟨lead, rfl⟩ := h.exists_concat
  rw [hasExtension_append_star before]
  simpa using hasExtension_append_star (before ++ lead) (t := after)

/-- The globs before extensions are filled in name one if the glob does. -/
theorem hasExtension_of_mem {loose : Bool} {e : Text} (hstar : wildcard ∈ g)
    (h : e ∈ if loose then stepAll expandDepth (repairSlash g) else repairSlash g) :
    hasExtension e = hasExtension g := by
  obtain ⟨before, after, -, rfl, hafter⟩ := Text.exists_cutLast hstar
  obtain ⟨mid, hmid, rfl⟩ := exists_filling hafter h
  exact hmid.hasExtension_eq

/-- Where an extension is named, none is filled in. -/
theorem mem_normalize_of_hasExtension {loose : Bool} {extensions : List Text} {e : Text}
    (hstar : wildcard ∈ g) (hext : hasExtension g = true) : e ∈ normalize g extensions loose ↔
      e ∈ if loose then stepAll expandDepth (repairSlash g) else repairSlash g := by
  rw [normalize, mem_stepAll]
  constructor
  · rintro ⟨x, hx, he⟩
    rw [inferExtension, if_pos ((hasExtension_of_mem hstar hx).trans hext)] at he
    exact List.mem_singleton.mp he ▸ hx
  · refine fun he => ⟨e, he, ?_⟩
    rw [inferExtension, if_pos ((hasExtension_of_mem hstar he).trans hext)]
    exact List.mem_singleton_self e

/-- **Normal globs match exactly the paths that a glob means**, where it names an extension. -/
theorem matches_normalize_iff (extensions : List Text) (hstar : wildcard ∈ g) (hflat : ¬ deep <:+: g)
    (hsimple : IsSimple g) (hext : hasExtension g = true) (hp : [] ∉ Text.split '/' p) :
    ((∃ e ∈ normalize g extensions true, Matches e p) ↔ Loosely g p) ∧
      ((∃ e ∈ normalize g extensions false, Matches e p) ↔ Strictly g p) := by
  simp only [mem_normalize_of_hasExtension hstar hext]
  exact ⟨exists_matches_iff_loosely hstar hflat hsimple, exists_matches_iff_strictly hstar hflat hsimple hp⟩

/-- A wildcard that goes on a name means files of any depth below its directory, and otherwise only those
in it. -/
theorem matches_normalize_iff_below :
    Loosely "./a/x-*.js".toList "./a/x-b/c/d.js".toList ∧
      Strictly "./a/x-*.js".toList "./a/x-/d.js".toList ∧
      ¬ Strictly "./a/x-*.js".toList "./a/x-b/d.js".toList := by
  have hflat : ¬ deep <:+: "./a/x-*.js".toList := by
    decide
  have hsimple : IsSimple "./a/x-*.js".toList := by
    simp [IsSimple]
  have h (p : Text) (hp : [] ∉ Text.split '/' p) :=
    matches_normalize_iff (p := p) [] (by decide +kernel) hflat hsimple (by decide +kernel) hp
  refine ⟨(h _ ?_).1.mp ?_, (h _ ?_).2.mp ?_, (h _ ?_).2.not.mp ?_⟩
  all_goals decide +kernel

end VariableImport.Glob
