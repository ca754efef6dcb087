import Mathlib.Data.List.Forall2
import VariableImport.Proofs.Glob.Follow
import VariableImport.Proofs.Glob.Layout

/-!
# Proofs/Glob/Matching — globs against paths

A glob is matched with a path component by component: `**` stands for any number of names that are not
hidden, and every other component for one name that it accepts (`Follows`).  Components are matched one
after another (`follows_append`), so that a glob can be taken apart at any slash.
-/

namespace VariableImport.Glob

variable {c n : Text} {cs ds ns : List Text}

/-- **A component without other magic than wildcards** accepts its instances, and hidden names only if it
begins as they do. -/
theorem accepts_iff (hc : IsSimple c) :
    Accepts c n ↔ (isHidden n = true → isHidden c = true) ∧ Instance c n := by
  unfold Accepts
  split
  · rw [matchesName_iff hc]
    cases isHidden n <;> simp
  · next hm =>
    have hstar : wildcard ∉ c := wildcard_not_mem (Bool.not_eq_true _ ▸ hm)
    rw [instance_fixed hstar]
    exact ⟨fun e => ⟨fun h => e ▸ h, e⟩, And.right⟩

/-! ## Components and names -/

/-- **The names that components stand for**. -/
inductive Follows : List Text → List Text → Prop
  | nil : Follows [] []
  /-- One name for a component. -/
  | name {c n : Text} {cs ns : List Text} (hc : c ≠ deep) (h : Accepts c n) (hs : Follows cs ns) :
      Follows (c :: cs) (n :: ns)
  /-- Directories of any depth, none of them hidden. -/
  | deep {names cs ns : List Text} (h : ∀ n ∈ names, isHidden n = false) (hs : Follows cs ns) :
      Follows (deep :: cs) (names ++ ns)

/-- **Whether a glob matches a path.** -/
def Matches (glob p : Text) : Prop := Follows (Text.split '/' glob) (Text.split '/' p)

theorem follows_nil : Follows [] ns ↔ ns = [] :=
  ⟨fun h => by cases h; rfl, fun h => h ▸ .nil⟩

theorem follows_name (hc : c ≠ Glob.deep) :
    Follows (c :: cs) ns ↔ ∃ n ms, ns = n :: ms ∧ Accepts c n ∧ Follows cs ms := by
  constructor
  · intro h
    cases h with
    | name _ h hs => exact ⟨_, _, rfl, h, hs⟩
    | deep => exact absurd rfl hc
  · rintro ⟨n, ms, rfl, h, hs⟩
    exact .name hc h hs

theorem follows_deep :
    Follows (Glob.deep :: cs) ns ↔
      ∃ names ms, ns = names ++ ms ∧ (∀ n ∈ names, isHidden n = false) ∧ Follows cs ms := by
  constructor
  · intro h
    cases h with
    | name hc => exact absurd rfl hc
    | deep h hs => exact ⟨_, _, rfl, h, hs⟩
  · rintro ⟨names, ms, rfl, h, hs⟩
    exact .deep h hs

/-- **Components are matched one after another.** -/
theorem follows_append :
    Follows (cs ++ ds) ns ↔ ∃ ms ks, ns = ms ++ ks ∧ Follows cs ms ∧ Follows ds ks := by
  constructor
  · intro h
    induction cs generalizing ns with
    | nil => exact ⟨[], ns, rfl, .nil, h⟩
    | cons c cs ih =>
      cases h with
      | name hc h hs =>
        obtain ⟨ms, ks, rfl, hms, hks⟩ := ih hs
        exact ⟨_, ks, rfl, .name hc h hms, hks⟩
      | deep h hs =>
        obtain ⟨ms, ks, rfl, hms, hks⟩ := ih hs
        exact ⟨_, ks, (List.append_assoc ..).symm, .deep h hms, hks⟩
  · rintro ⟨ms, ks, rfl, hms, hks⟩
    induction hms with
    | nil => exact hks
    | name hc h _ ih => exact .name hc h ih
    | deep h _ ih =>
      rw [List.append_assoc]
      exact .deep h ih

/-- Without `**` every component stands for one name. -/
theorem follows_flat (hcs : Glob.deep ∉ cs) : Follows cs ns ↔ List.Forall₂ Accepts cs ns := by
  induction cs generalizing ns with
  | nil => rw [follows_nil, List.forall₂_nil_left_iff]
  | cons c cs ih =>
    obtain ⟨hc, hcs⟩ := not_or.mp (List.mem_cons.not.mp hcs)
    rw [follows_name (Ne.symm hc), List.forall₂_cons_left_iff]
    simp only [ih hcs]
    constructor
    · rintro ⟨n, ms, rfl, h, hms⟩
      exact ⟨n, ms, h, hms, rfl⟩
    · rintro ⟨n, ms, h, hms, rfl⟩
      exact ⟨n, ms, rfl, h, hms⟩

/-- Fixed components stand for themselves. -/
theorem follows_fixed (hcs : ∀ c ∈ cs, hasMagic c = false) : Follows cs ns ↔ ns = cs := by
  have hdeep : Glob.deep ∉ cs := fun h => absurd (hcs _ h) (by decide)
  rw [follows_flat hdeep]
  refine ⟨eq_of_accepts_fixed hcs, ?_⟩
  rintro rfl
  exact List.forall₂_same.mpr fun c hc => (accepts_fixed (hcs c hc)).mpr rfl

/-! ## A few components -/

/-- A wildcard of its own accepts what is not hidden. -/
theorem accepts_wildcard {n : Text} : Accepts [wildcard] n ↔ isHidden n = false := by
  rw [accepts_iff (by simp [IsSimple, wildcard])]
  simp [instance_wildcard, isHidden, wildcard]

theorem follows_one {c : Text} (hc : c ≠ deep) : Follows [c] ns ↔ ∃ n, ns = [n] ∧ Accepts c n := by
  simp only [follows_name hc, follows_nil]
  constructor
  · rintro ⟨n, -, rfl, h, rfl⟩
    exact ⟨n, rfl, h⟩
  · rintro ⟨n, rfl, h⟩
    exact ⟨n, [], rfl, h, rfl⟩

theorem follows_two {c d : Text} (hc : c ≠ deep) (hd : d ≠ deep) :
    Follows [c, d] ns ↔ ∃ n m, ns = [n, m] ∧ Accepts c n ∧ Accepts d m := by
  rw [follows_name hc]
  simp only [follows_one hd]
  constructor
  · rintro ⟨n, -, rfl, h, m, rfl, hm⟩
    exact ⟨n, m, rfl, h, hm⟩
  · rintro ⟨n, m, rfl, h, hm⟩
    exact ⟨n, [m], rfl, h, m, rfl, hm⟩

theorem follows_deep_last {d : Text} (hd : d ≠ deep) :
    Follows [deep, d] ns ↔ ∃ ms m, ns = ms ++ [m] ∧ (∀ k ∈ ms, isHidden k = false) ∧ Accepts d m := by
  rw [follows_deep]
  simp only [follows_one hd]
  constructor
  · rintro ⟨ms, -, rfl, h, m, rfl, hm⟩
    exact ⟨ms, m, rfl, h, hm⟩
  · rintro ⟨ms, m, rfl, h, hm⟩
    exact ⟨ms, [m], rfl, h, m, rfl, hm⟩

theorem follows_first_deep {c : Text} (hc : c ≠ deep) :
    Follows [c, deep] ns ↔ ∃ n ms, ns = n :: ms ∧ Accepts c n ∧ ∀ k ∈ ms, isHidden k = false := by
  rw [follows_name hc]
  simp only [follows_deep, follows_nil]
  constructor
  · rintro ⟨n, -, rfl, h, ms, -, rfl, hms, rfl⟩
    exact ⟨n, _, rfl, h, by simpa using hms⟩
  · rintro ⟨n, ms, rfl, h, hms⟩
    exact ⟨n, ms, rfl, h, ms, [], (List.append_nil ms).symm, hms, rfl⟩

theorem follows_first_deep_last {c d : Text} (hc : c ≠ deep) (hd : d ≠ deep) :
    Follows [c, deep, d] ns ↔ ∃ n ms m, ns = n :: (ms ++ [m]) ∧ Accepts c n ∧
      (∀ k ∈ ms, isHidden k = false) ∧ Accepts d m := by
  rw [follows_name hc]
  simp only [follows_deep_last hd]
  constructor
  · rintro ⟨n, -, rfl, h, ms, m, rfl, hms, hm⟩
    exact ⟨n, ms, m, rfl, h, hms, hm⟩
  · rintro ⟨n, ms, m, rfl, h, hms, hm⟩
    exact ⟨n, _, rfl, h, ms, m, rfl, hms, hm⟩

/-- Names that are not hidden are one of any depth and one behind them. -/
theorem forall_not_hidden_concat {m : Text} {ms : List Text} (h : ∀ k ∈ ms ++ [m], isHidden k = false) :
    (∀ k ∈ ms, isHidden k = false) ∧ Accepts [wildcard] m :=
  ⟨fun k hk => h k (List.mem_append_left _ hk),
    accepts_wildcard.mpr (h m (List.mem_append_right _ (List.mem_singleton_self m)))⟩

/-! ## Deciding -/

instance (c n : Text) : Decidable (Accepts c n) := inferInstanceAs (Decidable (ite _ _ _))

/-- Whether a test holds for what is left behind some names that are not hidden. -/
def anyDepth (next : List Text → Bool) : List Text → Bool
  | [] => next []
  | n :: ns => next (n :: ns) || (!isHidden n && anyDepth next ns)

theorem anyDepth_iff {next : List Text → Bool} : anyDepth next ns = true ↔
    ∃ names ms, ns = names ++ ms ∧ (∀ n ∈ names, isHidden n = false) ∧ next ms = true := by
  induction ns with
  | nil => simp [anyDepth]
  | cons n ns ih =>
    rw [anyDepth, Bool.or_eq_true, Bool.and_eq_true, ih, Bool.not_eq_true']
    constructor
    · rintro (h | ⟨hn, names, ms, rfl, hnames, h⟩)
      · exact ⟨[], n :: ns, rfl, List.forall_mem_nil _, h⟩
      · exact ⟨n :: names, ms, rfl, List.forall_mem_cons.mpr ⟨hn, hnames⟩, h⟩
    · rintro ⟨names, ms, e, hnames, h⟩
      cases names with
      | nil => exact .inl (e ▸ h)
      | cons m names =>
        obtain ⟨rfl, rfl⟩ := List.cons.inj e
        obtain ⟨hn, hnames⟩ := List.forall_mem_cons.mp hnames
        exact .inr ⟨hn, names, ms, rfl, hnames, h⟩

/-- `Follows`, to be run. -/
def follows : List Text → List Text → Bool
  | [], ns => ns.isEmpty
  | c :: cs, ns =>
    if c = Glob.deep then anyDepth (follows cs) ns
    else match ns with
      | [] => false
      | n :: ms => decide (Accepts c n) && follows cs ms

theorem follows_iff : follows cs ns = true ↔ Follows cs ns := by
  induction cs generalizing ns with
  | nil => rw [follows, List.isEmpty_iff, follows_nil]
  | cons c cs ih =>
    unfold follows
    by_cases hc : c = Glob.deep
    · subst hc
      simp only [if_true, anyDepth_iff, follows_deep, ih]
    · rw [if_neg hc, follows_name hc]
      cases ns with
      | nil => simp
      | cons n ns => simp [ih]

instance (glob p : Text) : Decidable (Matches glob p) := decidable_of_iff _ follows_iff

end VariableImport.Glob
