import VariableImport.Proofs.Glob.Normal
import VariableImport.Proofs.Glob.Search

/-!
# Proofs/Glob/Layout — searches stay inside the language of a glob

A `Layout` takes a glob apart at its last wildcard, with the components that are searched.  Whatever
may stand for this wildcard (`Filling`), a search for it finds instances of the glob alone
(`Layout.instance_of_mem_search`).
-/

namespace VariableImport

namespace Glob

/-! ## Instances from what is reached -/

theorem reaches_deep {cs : List Text} {s : Text} (h : Reaches (deep :: cs) s) :
    ∃ names t, s = Path.trail names ++ t ∧ Reaches cs t := by
  cases h with
  | name hc => exact absurd rfl hc
  | deep _ hs => exact ⟨_, _, rfl, hs⟩

theorem reaches_name {c : Text} {cs : List Text} {s : Text} (hc : c ≠ deep)
    (h : Reaches (c :: cs) s) : ∃ n t, s = '/' :: n ++ t ∧ Instance c n ∧ Reaches cs t := by
  cases h with
  | name _ _ hi hs => exact ⟨_, _, rfl, hi, hs⟩
  | deep => exact absurd rfl hc

theorem reaches_append {cs ds : List Text} {s : Text} (h : Reaches (cs ++ ds) s) :
    ∃ a b, s = a ++ b ∧ Reaches cs a ∧ Reaches ds b := by
  induction cs generalizing s with
  | nil => exact ⟨[], s, rfl, .nil, h⟩
  | cons c cs ih =>
    cases h with
    | name hc hn hi hs =>
      obtain ⟨a, b, rfl, ha, hb⟩ := ih hs
      exact ⟨_, b, by simp, .name hc hn hi ha, hb⟩
    | deep hn hs =>
      obtain ⟨a, b, rfl, ha, hb⟩ := ih hs
      exact ⟨_, b, by simp, .deep hn ha, hb⟩

/-- **Without `**`** the components reach instances of what they are written like. -/
theorem Reaches.instance_trail {cs : List Text} {s : Text} (hcs : ∀ c ∈ cs, c ≠ Glob.deep)
    (h : Reaches cs s) : Instance (Path.trail cs) s := by
  induction cs generalizing s with
  | nil =>
    cases h
    exact .nil
  | cons c cs ih =>
    obtain ⟨n, t, rfl, hi, hs⟩ := reaches_name (hcs c (List.mem_cons_self ..)) h
    have ht := ih (fun d hd => hcs d (List.mem_cons_of_mem _ hd)) hs
    exact .append (.char (by decide) hi) ht

/-- Some text between two instances stands for a wildcard. -/
theorem Instance.fill {g h s t : Text} (hg : Instance g s) (fill : Text) (hh : Instance h t) :
    Instance (g ++ wildcard :: h) (s ++ (fill ++ t)) :=
  hg.append (.star fill hh)

/-! ## Layouts -/

/-- **A glob taken apart** at its last wildcard, which stands between `head` and `tail`, behind
directories below a base that is not searched, and before further components. -/
structure Layout where
  base : Text
  dirs : List Text
  head : Text
  tail : Text
  rest : List Text
  isBase : Path.IsBase base
  base_fixed : hasMagic base = false
  isName_dirs : ∀ c ∈ dirs, Path.IsName c
  isSimple_dirs : ∀ c ∈ dirs, IsSimple c
  dirs_ne_deep : ∀ c ∈ dirs, c ≠ deep
  head_slash : '/' ∉ head
  isSimple_head : IsSimple head
  head_getLast? : head.getLast? ≠ some wildcard
  tail_slash : '/' ∉ tail
  tail_fixed : hasMagic tail = false
  isName_rest : ∀ c ∈ rest, Path.IsName c
  rest_fixed : ∀ c ∈ rest, hasMagic c = false

theorem slash_ne_wildcard : '/' ≠ wildcard := by decide

namespace Layout

variable (l : Layout)

/-- The text before the last wildcard. -/
def before : Text := l.base ++ Path.trail l.dirs ++ '/' :: l.head

/-- The text after the last wildcard. -/
def after : Text := l.tail ++ Path.trail l.rest

/-- The glob of a layout. -/
def glob : Text := l.before ++ wildcard :: l.after

theorem head_eq_nil (h : l.before.getLast? = some '/') : l.head = [] := by
  by_contra hne
  rw [before, List.getLast?_append_of_ne_nil _ (List.cons_ne_nil _ _), List.getLast?_cons,
    List.getLast?_eq_some_getLast hne] at h
  exact l.head_slash (Option.some.inj h ▸ List.getLast_mem hne)

theorem head_ne_nil (h : l.before.getLast? ≠ some '/') : l.head ≠ [] := by
  intro e
  rw [before, e] at h
  simp at h

theorem tail_eq_nil (h : l.after.head? = some '/') : l.tail = [] ∧ l.rest ≠ [] := by
  cases ht : l.tail with
  | nil =>
    refine ⟨rfl, fun hr => ?_⟩
    simp [after, ht, hr] at h
  | cons c s =>
    rw [after, ht] at h
    obtain rfl : c = '/' := Option.some.inj h
    exact absurd (by simp [ht]) l.tail_slash

theorem star_tail_ne_deep : wildcard :: l.tail ≠ deep := fun e => by
  have ht : l.tail = [wildcard] := (List.cons.inj e).2
  exact wildcard_not_mem l.tail_fixed (by simp [ht])

theorem joint_ne_deep : l.head ++ wildcard :: l.tail ≠ deep := by
  intro e
  cases hh : l.head with
  | nil => exact l.star_tail_ne_deep (by simpa [hh] using e)
  | cons c s =>
    rw [hh] at e
    obtain ⟨rfl, e⟩ := List.cons.inj e
    obtain ⟨rfl, -⟩ : s = [] ∧ _ := by
      cases s with
      | nil => exact ⟨rfl, trivial⟩
      | cons d s => simp at e
    exact l.head_getLast? (by simp [hh])

theorem head_ne_deep : l.head ≠ deep := fun e => l.head_getLast? (by simp [e])

/-- The head does not go on to `**` with the wildcard. -/
theorem head_star_ne_deep : l.head ++ [wildcard] ≠ deep := by
  intro e
  have hh : l.head = [wildcard] := List.append_cancel_right (show _ = [wildcard] ++ [wildcard] from e)
  exact l.head_getLast? (by simp [hh])

/-- The components in place of the one with the last wildcard: they reach instances of it. -/
structure Spans (new : List Text) : Prop where
  isName : ∀ c ∈ new, Path.IsName c
  isSimple : ∀ c ∈ new, IsSimple c
  hasMagic : ∃ c ∈ new, hasMagic c = true
  getLast? : new.getLast? = some deep → l.rest ≠ []
  instance_of_reaches : ∀ s, Reaches new s → Instance ('/' :: l.head ++ wildcard :: l.tail) s

theorem isName_star_tail : Path.IsName (wildcard :: l.tail) :=
  ⟨List.cons_ne_nil _ _, by simp [l.tail_slash, slash_ne_wildcard]⟩

theorem isName_head_star : Path.IsName (l.head ++ [wildcard]) :=
  ⟨by simp, by simp [l.head_slash, slash_ne_wildcard]⟩

theorem isSimple_star_tail : IsSimple (wildcard :: l.tail) := by
  intro c hc
  rcases List.mem_cons.mp hc with rfl | hc
  · decide
  · exact isSimple_of_hasMagic l.tail_fixed c hc

theorem isSimple_head_star : IsSimple (l.head ++ [wildcard]) := by
  intro c hc
  rcases List.mem_append.mp hc with hc | hc
  · exact l.isSimple_head c hc
  · rw [List.mem_singleton.mp hc]
    decide

theorem isName_deep : Path.IsName deep := ⟨by simp, by decide⟩

theorem isSimple_deep : IsSimple deep := by simp [IsSimple]

/-- The wildcard itself. -/
theorem spans_self : l.Spans [l.head ++ wildcard :: l.tail] where
  isName := by
    intro c hc
    rw [List.mem_singleton.mp hc]
    exact ⟨by simp, by simp [l.head_slash, l.tail_slash, slash_ne_wildcard]⟩
  isSimple := by
    intro c hc
    rw [List.mem_singleton.mp hc]
    intro d hd
    rcases List.mem_append.mp hd with hd | hd
    · exact l.isSimple_head d hd
    · exact l.isSimple_star_tail d hd
  hasMagic := ⟨_, List.mem_singleton_self _, hasMagic_star _ _⟩
  getLast? := fun e => absurd (Option.some.inj e) l.joint_ne_deep
  instance_of_reaches := by
    intro s hs
    obtain ⟨n, t, rfl, hn, ht⟩ := reaches_name l.joint_ne_deep hs
    cases ht
    rw [List.append_nil]
    exact .char (by decide) hn

/-- Names and a slash. -/
theorem exists_trail_append_slash (names : List Text) :
    ∃ fill, Path.trail names ++ ['/'] = '/' :: fill := by
  cases names with
  | nil => exact ⟨[], rfl⟩
  | cons n names => exact ⟨_, rfl⟩

/-- Directories of any depth before a component that starts with the wildcard. -/
theorem spans_above (hhead : l.head = []) : l.Spans [deep, wildcard :: l.tail] where
  isName := by simp [isName_deep, l.isName_star_tail]
  isSimple := by simp [isSimple_deep, l.isSimple_star_tail]
  hasMagic := ⟨deep, List.mem_cons_self .., rfl⟩
  getLast? := fun e => absurd (Option.some.inj e) l.star_tail_ne_deep
  instance_of_reaches := by
    intro s hs
    obtain ⟨names, t, rfl, ht⟩ := reaches_deep hs
    obtain ⟨n, u, rfl, hn, hu⟩ := reaches_name l.star_tail_ne_deep ht
    cases hu
    obtain ⟨fill, v, rfl, hv⟩ := instance_star.mp hn
    obtain ⟨more, hmore⟩ := exists_trail_append_slash names
    have e : Path.trail names ++ ('/' :: (fill ++ v) ++ []) = ['/'] ++ ((more ++ fill) ++ v) := by
      calc Path.trail names ++ ('/' :: (fill ++ v) ++ [])
          = (Path.trail names ++ ['/']) ++ (fill ++ v) := by simp
        _ = ['/'] ++ ((more ++ fill) ++ v) := by rw [hmore]; simp
    rw [e, hhead]
    exact (instance_self ['/']).fill _ hv

/-- Directories of any depth after a component that ends with the wildcard. -/
theorem spans_below (htail : l.tail = []) (hrest : l.rest ≠ []) :
    l.Spans [l.head ++ [wildcard], deep] where
  isName := by simp [isName_deep, l.isName_head_star]
  isSimple := by simp [isSimple_deep, l.isSimple_head_star]
  hasMagic := ⟨deep, by simp, rfl⟩
  getLast? := fun _ => hrest
  instance_of_reaches := by
    intro s hs
    obtain ⟨n, t₁, rfl, hn, ht₁⟩ := reaches_name l.head_star_ne_deep hs
    obtain ⟨names, t₂, rfl, ht₂⟩ := reaches_deep ht₁
    cases ht₂
    obtain ⟨u, fill, rfl, hu, -⟩ := instance_append.mp hn
    have e : '/' :: (u ++ fill) ++ (Path.trail names ++ []) =
        '/' :: u ++ ((fill ++ Path.trail names) ++ []) := by simp
    rw [e, htail]
    exact Instance.fill (.char (by decide) hu) _ .nil

/-- A component that ends with the wildcard, directories of any depth, and one that starts with the
wildcard. -/
theorem spans_between :
    l.Spans [l.head ++ [wildcard], deep, wildcard :: l.tail] where
  isName := by simp [isName_deep, l.isName_head_star, l.isName_star_tail]
  isSimple := by simp [isSimple_deep, l.isSimple_head_star, l.isSimple_star_tail]
  hasMagic := ⟨deep, by simp, rfl⟩
  getLast? := fun e => absurd (Option.some.inj e) l.star_tail_ne_deep
  instance_of_reaches := by
    intro s hs
    obtain ⟨n, t₁, rfl, hn, ht₁⟩ := reaches_name l.head_star_ne_deep hs
    obtain ⟨names, t₂, rfl, ht₂⟩ := reaches_deep ht₁
    obtain ⟨m, t₃, rfl, hm, ht₃⟩ := reaches_name l.star_tail_ne_deep ht₂
    cases ht₃
    obtain ⟨u, fill, rfl, hu, -⟩ := instance_append.mp hn
    obtain ⟨more, v, rfl, hv⟩ := instance_star.mp hm
    have e : '/' :: (u ++ fill) ++ (Path.trail names ++ ('/' :: (more ++ v) ++ [])) =
        '/' :: u ++ ((fill ++ Path.trail names ++ '/' :: more) ++ v) := by simp
    rw [e]
    exact Instance.fill (.char (by decide) hu) _ hv

/-- A component of its own for the wildcard, and directories of any depth before it if wanted. -/
theorem spans_apart (hhead : l.head ≠ []) {depth : List Text}
    (hdepth : depth = [] ∨ depth = [deep]) :
    l.Spans (l.head :: depth ++ [wildcard :: l.tail]) where
  isName := by
    have : Path.IsName l.head := ⟨hhead, l.head_slash⟩
    rcases hdepth with rfl | rfl <;> simp [isName_deep, this, l.isName_star_tail]
  isSimple := by
    rcases hdepth with rfl | rfl <;> simp [isSimple_deep, l.isSimple_head, l.isSimple_star_tail]
  hasMagic := ⟨wildcard :: l.tail, by simp, hasMagic_star [] _⟩
  getLast? := fun e => by
    rw [List.getLast?_concat] at e
    exact absurd (Option.some.inj e) l.star_tail_ne_deep
  instance_of_reaches := by
    intro s hs
    obtain ⟨n, t₁, rfl, hn, ht₁⟩ := reaches_name l.head_ne_deep hs
    obtain ⟨a, t₂, rfl, -, ht₂⟩ := reaches_append ht₁
    obtain ⟨m, t₃, rfl, hm, ht₃⟩ := reaches_name l.star_tail_ne_deep ht₂
    cases ht₃
    obtain ⟨more, v, rfl, hv⟩ := instance_star.mp hm
    have e : '/' :: n ++ (a ++ ('/' :: (more ++ v) ++ [])) =
        '/' :: n ++ ((a ++ '/' :: more) ++ v) := by simp
    rw [e]
    exact Instance.fill (.char (by decide) hn) _ hv

/-- **Whatever stands for the last wildcard** is components that reach instances of it. -/
theorem exists_spans {mid : Text} (h : Filling l.before l.after mid) :
    ∃ new, l.Spans new ∧
      l.before ++ mid ++ l.after = l.base ++ Path.trail (l.dirs ++ new ++ l.rest) := by
  cases h with
  | self => exact ⟨_, l.spans_self, by simp [before, after]⟩
  | above hb =>
    have hhead := l.head_eq_nil hb
    exact ⟨_, l.spans_above hhead, by simp [before, after, hhead]⟩
  | below ha =>
    obtain ⟨htail, hrest⟩ := l.tail_eq_nil ha
    exact ⟨_, l.spans_below htail hrest, by simp [before, after, htail]⟩
  | between => exact ⟨_, l.spans_between, by simp [before, after]⟩
  | apart hb =>
    exact ⟨_, l.spans_apart (l.head_ne_nil hb) (.inl rfl), by simp [before, after]⟩
  | apartBelow hb =>
    exact ⟨_, l.spans_apart (l.head_ne_nil hb) (.inr rfl), by simp [before, after]⟩

/-- **A search for a glob with something in place of its last wildcard** finds instances of the
glob. -/
theorem instance_of_mem_search {fs : FileSystem} (hfs : fs.IsNamed) {directory mid p : Text}
    (hmid : Filling l.before l.after mid)
    (h : p ∈ fs.search directory (l.before ++ mid ++ l.after)) : Instance l.glob p := by
  obtain ⟨new, hnew, e⟩ := l.exists_spans hmid
  rw [e] at h
  have hcs : ∀ c ∈ l.dirs ++ new ++ l.rest, Path.IsName c ∧ IsSimple c := by
    intro c hc
    rcases List.mem_append.mp hc with hc | hc
    · rcases List.mem_append.mp hc with hc | hc
      · exact ⟨l.isName_dirs c hc, l.isSimple_dirs c hc⟩
      · exact ⟨hnew.isName c hc, hnew.isSimple c hc⟩
    · exact ⟨l.isName_rest c hc, isSimple_of_hasMagic (l.rest_fixed c hc)⟩
  have hrest : ∀ c ∈ l.rest, c ≠ deep := by
    rintro c hc rfl
    exact absurd (l.rest_fixed _ hc) (by decide)
  have hlast : (l.dirs ++ new ++ l.rest).getLast? ≠ some deep := by
    intro e
    by_cases hr : l.rest = []
    · obtain ⟨c, hc, -⟩ := hnew.hasMagic
      rw [hr, List.append_nil, List.getLast?_append_of_ne_nil _ (List.ne_nil_of_mem hc)] at e
      exact hnew.getLast? e hr
    · rw [List.getLast?_append_of_ne_nil _ hr] at e
      exact hrest _ (List.mem_of_getLast? e) rfl
  obtain ⟨c, hc, hm⟩ := hnew.hasMagic
  obtain ⟨s, rfl, hs⟩ := FileSystem.exists_reaches_of_mem_search hfs l.isBase l.base_fixed hcs hlast
    ⟨c, by simp [hc], hm⟩ h
  obtain ⟨s, t, rfl, hs, ht⟩ := reaches_append hs
  obtain ⟨r, s, rfl, hr, hs⟩ := reaches_append hs
  have hglob : l.glob = l.base ++ (Path.trail l.dirs ++ ('/' :: l.head ++ wildcard :: l.tail) ++
      Path.trail l.rest) := by simp [glob, before, after]
  rw [hglob]
  refine (instance_self l.base).append (.append (.append ?_ ?_) ?_)
  · exact hr.instance_trail l.dirs_ne_deep
  · exact hnew.instance_of_reaches s hs
  · exact ht.instance_trail hrest

end Layout

end Glob

end VariableImport
