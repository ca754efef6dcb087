import VariableImport.Proofs.Glob.Matching

/-!
# Proofs/Glob/Fill — globs with texts for their wildcards

`fill` puts a text in place of every wildcard of a glob.  The dots that begin components of what comes
out are to be dots that begin components of the glob (`DotsKept`), which can be said of every component
apart from the others (`dotsKept_append_slash`, `dotsKept_component`).
-/

namespace VariableImport.Glob

variable {g h : Text} {texts more : List Text}

/-- **A glob with texts in place of its wildcards**, in their order. -/
def fill (texts : List Text) : Text → Text
  | [] => []
  | c :: g => if c = wildcard then texts.headD [] ++ fill texts.tail g else c :: fill texts g

/-! ## Filling one part after another -/

@[simp] theorem fill_nil (texts : List Text) : fill texts [] = [] := rfl

@[simp] theorem fill_wildcard (t : Text) (texts : List Text) (g : Text) :
    fill (t :: texts) (wildcard :: g) = t ++ fill texts g := by
  simp [fill]

theorem fill_char {c : Char} (hc : c ≠ wildcard) : fill texts (c :: g) = c :: fill texts g := by
  simp [fill, hc]

@[simp] theorem fill_slash : fill texts ('/' :: g) = '/' :: fill texts g := fill_char (by decide)

/-- **The parts of a glob are filled one after another.** -/
theorem fill_append (texts : List Text) (g h : Text) :
    fill texts (g ++ h) = fill texts g ++ fill (texts.drop (g.count wildcard)) h := by
  induction g generalizing texts with
  | nil => simp
  | cons c g ih =>
    by_cases hc : c = wildcard
    · subst hc
      simp only [List.cons_append, fill, if_true, ih, List.append_assoc, List.count_cons_self]
      rw [← List.drop_one, List.drop_drop, Nat.add_comm]
    · rw [List.cons_append, fill_char hc, fill_char hc, ih, List.count_cons_of_ne hc, List.cons_append]

/-- Texts that are left over make no difference. -/
theorem fill_append_texts (h : g.count wildcard ≤ texts.length) : fill (texts ++ more) g = fill texts g := by
  induction g generalizing texts with
  | nil => rfl
  | cons c g ih =>
    by_cases hc : c = wildcard
    · subst hc
      rw [List.count_cons_self] at h
      obtain ⟨t, texts, rfl⟩ := List.exists_cons_of_length_pos (Nat.lt_of_lt_of_le (Nat.succ_pos _) h)
      rw [List.cons_append, fill_wildcard, fill_wildcard, ih (Nat.le_of_succ_le_succ h)]
    · rw [List.count_cons_of_ne hc] at h
      rw [fill_char hc, fill_char hc, ih h]

/-- Texts for one part, and texts for the next. -/
theorem fill_append_append (hlength : texts.length = g.count wildcard) :
    fill (texts ++ more) (g ++ h) = fill texts g ++ fill more h := by
  rw [fill_append, fill_append_texts hlength.ge, ← hlength, List.drop_left]

/-- A glob without a wildcard is kept. -/
theorem fill_fixed (hg : wildcard ∉ g) : fill texts g = g := by
  induction g with
  | nil => rfl
  | cons c g ih =>
    obtain ⟨hc, hg⟩ := not_or.mp (List.mem_cons.not.mp hg)
    rw [fill_char (Ne.symm hc), ih hg]

/-- **What a glob is filled to** are its instances. -/
theorem instance_iff_fill {s : Text} :
    Instance g s ↔ ∃ texts, texts.length = g.count wildcard ∧ fill texts g = s := by
  constructor
  · intro hs
    induction hs with
    | nil => exact ⟨[], rfl, rfl⟩
    | char hc _ ih =>
      obtain ⟨texts, hlength, rfl⟩ := ih
      exact ⟨texts, by rw [List.count_cons_of_ne hc, hlength], fill_char hc⟩
    | star t _ ih =>
      obtain ⟨texts, hlength, rfl⟩ := ih
      exact ⟨t :: texts, by simp [hlength], fill_wildcard ..⟩
  · rintro ⟨texts, hlength, rfl⟩
    induction g generalizing texts with
    | nil => exact .nil
    | cons c g ih =>
      by_cases hc : c = wildcard
      · subst hc
        rw [List.count_cons_self] at hlength
        obtain ⟨t, texts, rfl⟩ := List.exists_cons_of_length_eq_add_one hlength
        rw [fill_wildcard]
        exact .star t (ih _ (Nat.succ.inj hlength))
      · rw [List.count_cons_of_ne hc] at hlength
        rw [fill_char hc]
        exact .char hc (ih _ hlength)

/-- The texts stand in what comes out. -/
theorem infix_fill (hlength : texts.length = g.count wildcard) {t : Text} (ht : t ∈ texts) :
    t <:+: fill texts g := by
  induction g generalizing texts with
  | nil => simp [List.length_eq_zero_iff.mp hlength] at ht
  | cons c g ih =>
    by_cases hc : c = wildcard
    · subst hc
      rw [List.count_cons_self] at hlength
      obtain ⟨u, texts, rfl⟩ := List.exists_cons_of_length_eq_add_one hlength
      rw [fill_wildcard]
      rcases List.mem_cons.mp ht with rfl | ht
      · exact List.infix_append' [] _ _
      · exact (ih (Nat.succ.inj hlength) ht).trans (List.suffix_append _ _).isInfix
    · rw [List.count_cons_of_ne hc] at hlength
      rw [fill_char hc]
      exact (ih hlength ht).trans (List.suffix_cons _ _).isInfix

/-! ## Dots that begin components -/

/-- Whether a component begins behind a text. -/
def AtStart (u : Text) : Prop := u = [] ∨ u.getLast? = some '/'

/-- **The dots that begin components** of a filled glob stand for dots that begin components of the
glob. -/
def DotsKept (texts : List Text) (g : Text) : Prop :=
  ∀ u v, fill texts g = u ++ '.' :: v → AtStart u →
    ∃ x y, g = x ++ '.' :: y ∧ AtStart x ∧ fill texts x = u

/-- Behind a slash, a component begins as it does in the whole. -/
theorem atStart_append_cons {s u : Text} : AtStart (s ++ '/' :: u) ↔ AtStart u := by
  unfold AtStart
  cases u with
  | nil => simp
  | cons c u => simp [List.getLast?_append]

/-- Without a slash only one component begins. -/
theorem atStart_iff_of_not_mem {u : Text} (hu : '/' ∉ u) : AtStart u ↔ u = [] :=
  or_iff_left fun h => hu (List.mem_of_getLast? h)

/-- One text that is cut at two characters is cut at one of them first. -/
theorem append_cons_cases {c d : Char} (hcd : c ≠ d) {s t u v : Text} (e : s ++ c :: t = u ++ d :: v) :
    (∃ w, s = u ++ d :: w) ∨ ∃ w, u = s ++ c :: w ∧ t = w ++ d :: v := by
  rcases List.append_eq_append_iff.mp e with ⟨z, rfl, hz⟩ | ⟨z, rfl, hz⟩
  · cases z with
    | nil => exact absurd (List.cons.inj hz).1 hcd
    | cons x z =>
      obtain ⟨rfl, rfl⟩ := List.cons.inj hz
      exact .inr ⟨z, rfl, rfl⟩
  · cases z with
    | nil => exact absurd (List.cons.inj hz).1.symm hcd
    | cons x z =>
      obtain ⟨rfl, -⟩ := List.cons.inj hz
      exact .inl ⟨z, rfl⟩

/-- **Dots are kept on both sides of a slash**, or not at all. -/
theorem dotsKept_append_slash : DotsKept texts (g ++ '/' :: h) ↔
    DotsKept texts g ∧ DotsKept (texts.drop (g.count wildcard)) h := by
  have hfill (w : Text) : fill texts (g ++ '/' :: w) =
      fill texts g ++ '/' :: fill (texts.drop (g.count wildcard)) w := by rw [fill_append, fill_slash]
  constructor
  · refine fun hkept => ⟨fun u v e hu => ?_, fun u v e hu => ?_⟩
    · obtain ⟨x, y, hxy, hx, rfl⟩ := hkept u (v ++ '/' :: fill (texts.drop (g.count wildcard)) h)
        (by rw [hfill, e, List.append_assoc]; rfl) hu
      rcases append_cons_cases (by decide) hxy with ⟨w, rfl⟩ | ⟨w, rfl, -⟩
      · exact ⟨x, w, rfl, hx, rfl⟩
      · rw [hfill] at e
        simpa using congrArg List.length e
    · obtain ⟨x, y, hxy, hx, hxu⟩ := hkept (fill texts g ++ '/' :: u) v
        (by rw [hfill, e, List.append_assoc]; rfl) (atStart_append_cons.mpr hu)
      rcases append_cons_cases (by decide) hxy with ⟨w, hw⟩ | ⟨w, rfl, hw⟩
      · have hlength := congrArg (fun g => (fill texts g).length) hw
        rw [fill_append, hxu, fill_char (by decide)] at hlength
        simp at hlength
      · rw [hfill] at hxu
        exact ⟨w, y, hw, atStart_append_cons.mp hx, (List.cons.inj (List.append_cancel_left hxu)).2⟩
  · rintro ⟨hg, hh⟩ u v e hu
    rw [hfill] at e
    rcases append_cons_cases (by decide) e with ⟨w, hw⟩ | ⟨w, rfl, hw⟩
    · obtain ⟨x, y, rfl, hx, rfl⟩ := hg u w hw hu
      exact ⟨x, y ++ '/' :: h, by simp, hx, rfl⟩
    · obtain ⟨x, y, rfl, hx, rfl⟩ := hh w v hw (atStart_append_cons.mp hu)
      exact ⟨g ++ '/' :: x, y, by simp, atStart_append_cons.mpr hx, hfill x⟩

/-- The dots of a glob without a wildcard are kept. -/
theorem dotsKept_fixed (hg : wildcard ∉ g) : DotsKept texts g := by
  intro u v e hu
  rw [fill_fixed hg] at e
  refine ⟨u, v, e, hu, fill_fixed fun h => hg ?_⟩
  exact e ▸ List.mem_append_left _ h

/-! ## Components that begin with a dot -/

variable {s c n : Text} {ns : List Text}

/-- The first component of a text begins as the text does. -/
theorem isHidden_first (hsplit : Text.split '/' s = n :: ns) : isHidden n = true ↔ ∃ v, s = '.' :: v := by
  have hs : s = n ++ Path.trail ns := by rw [← Path.join_cons, ← hsplit, Text.join_split]
  rw [hs]
  cases n with
  | nil => cases ns <;> simp [isHidden]
  | cons x n => simp [isHidden]

/-- The further components of a text begin behind its slashes. -/
theorem exists_isHidden_rest (hsplit : Text.split '/' s = n :: ns) :
    (∃ m ∈ ns, isHidden m = true) ↔ ∃ u v, s = u ++ '/' :: '.' :: v := by
  have hs : s = n ++ Path.trail ns := by rw [← Path.join_cons, ← hsplit, Text.join_split]
  constructor
  · rintro ⟨m, hm, hhidden⟩
    obtain ⟨before, after, rfl⟩ := List.append_of_mem hm
    obtain ⟨m, rfl⟩ := List.head?_eq_some_iff.mp (beq_iff_eq.mp hhidden)
    exact ⟨n ++ Path.trail before, m ++ Path.trail after, by simp [hs]⟩
  · rintro ⟨u, v, rfl⟩
    rw [Text.split_append_cons] at hsplit
    obtain ⟨x, xs, hx⟩ := List.exists_cons_of_ne_nil (Text.split_ne_nil '/' u)
    obtain ⟨m, ms, hm⟩ := List.exists_cons_of_ne_nil (Text.split_ne_nil '/' ('.' :: v))
    rw [hx, hm] at hsplit
    obtain ⟨-, rfl⟩ := List.cons.inj hsplit
    exact ⟨m, by simp, (isHidden_first hm).mpr ⟨v, rfl⟩⟩

/-- **The dots of one component are kept** if only its first name may be hidden, and only as it is
itself. -/
theorem dotsKept_component (hc : '/' ∉ c) (hsplit : Text.split '/' (fill texts c) = n :: ns) :
    DotsKept texts c ↔
      (isHidden n = true → isHidden c = true) ∧ ∀ m ∈ ns, isHidden m = false := by
  have hstart {x y : Text} (e : c = x ++ '.' :: y) (hx : AtStart x) : x = [] :=
    (atStart_iff_of_not_mem fun h => hc (e ▸ List.mem_append_left _ h)).mp hx
  have hrest : (∀ m ∈ ns, isHidden m = false) ↔ ¬ ∃ u v, fill texts c = u ++ '/' :: '.' :: v := by
    rw [← exists_isHidden_rest hsplit]
    simp
  rw [hrest, isHidden_first hsplit]
  constructor
  · refine fun hkept => ⟨fun ⟨v, e⟩ => ?_, fun ⟨u, v, e⟩ => ?_⟩
    · obtain ⟨x, y, hxy, hx, -⟩ := hkept [] v e (.inl rfl)
      rw [hxy, hstart hxy hx]
      rfl
    · obtain ⟨x, y, hxy, hx, hxu⟩ := hkept (u ++ ['/']) v (by simp [e]) (atStart_append_cons.mpr (.inl rfl))
      rw [hstart hxy hx] at hxu
      simp at hxu
  · rintro ⟨hfirst, hrest⟩ u v e hu
    rcases hu with rfl | hu
    · obtain ⟨y, rfl⟩ := List.head?_eq_some_iff.mp (beq_iff_eq.mp (hfirst ⟨v, e⟩))
      exact ⟨[], y, rfl, .inl rfl, rfl⟩
    · obtain ⟨w, rfl⟩ := List.getLast?_eq_some_iff.mp hu
      exact absurd ⟨w, v, by simp [e]⟩ hrest

end VariableImport.Glob
