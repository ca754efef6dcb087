import Mathlib.Data.List.TakeWhile
import VariableImport.Text.CharClass

/-!
# Proofs/Text/Blank — what trimming takes away

A text is `Solid` if no blank stands at either end of it.  Trimming takes blanks from around a solid
text and nothing else (`trim_solid`), so a text has the same trimmed form with blanks in front of it
(`trim_append`).  No blank is a word character or a digit, whatever the tables of characters say about the
others (`isWord_of_isBlank`, `isDecimal_of_isBlank`).
-/

namespace VariableImport.Text

/-! ## Blanks among the characters -/

/-- The blanks, one by one. -/
def blanks : List Char :=
  ([9, 10, 11, 12, 13, 28, 29, 30, 31, 32, 0x85, 0xa0, 0x1680, 0x2000, 0x2001, 0x2002, 0x2003,
    0x2004, 0x2005, 0x2006, 0x2007, 0x2008, 0x2009, 0x200a, 0x2028, 0x2029, 0x202f, 0x205f,
    0x3000] : List ℕ).map Char.ofNat

/-- The numbers of an interval that a list holds from end to end. -/
theorem mem_of_interval {l : List ℕ} {a b n : ℕ} (hl : ∀ m ∈ List.range' a (b + 1 - a), m ∈ l)
    (h : a ≤ n ∧ n ≤ b) : n ∈ l :=
  hl n (List.mem_range'_1.mpr (by omega))

theorem mem_blanks {c : Char} (h : isBlank c = true) : c ∈ blanks := by
  refine List.mem_map.mpr ⟨c.toNat, ?_, Char.ofNat_toNat c⟩
  simp only [isBlank, Bool.or_eq_true, Bool.and_eq_true, decide_eq_true_eq, beq_iff_eq] at h
  rcases h with (((((((((h | h) | h) | h) | h) | h) | h) | h) | h) | h) | h
  all_goals first
    | exact mem_of_interval (by decide) h
    | rw [h]; decide

/-- A class of characters without blanks, tried on the blanks one by one. -/
theorem not_of_isBlank {p : Char → Bool} (hp : (blanks.all fun d => !p d) = true) {c : Char}
    (h : isBlank c = true) : p c = false := by
  simpa using List.all_eq_true.mp hp c (mem_blanks h)

/-- A character of a class without blanks is no blank. -/
theorem isBlank_of_class {p : Char → Bool} (hp : ∀ {c}, isBlank c = true → p c = false) {c : Char}
    (hc : p c = true) : isBlank c = false := by
  by_contra hb
  rw [hp (Bool.not_eq_false _ ▸ hb)] at hc
  simp at hc

/-- The blanks beyond ASCII, first and last code point of each run. -/
def wideBlanks : List (ℕ × ℕ) :=
  [(0x85, 0x85), (0xa0, 0xa0), (0x1680, 0x1680), (0x2000, 0x200a), (0x2028, 0x2029), (0x202f, 0x202f),
    (0x205f, 0x205f), (0x3000, 0x3000)]

theorem exists_wideBlank {c : Char} (h : isBlank c = true) (hwide : ¬ c.toNat < 128) :
    ∃ r ∈ wideBlanks, r.1 ≤ c.toNat ∧ c.toNat ≤ r.2 := by
  simp only [isBlank, Bool.or_eq_true, Bool.and_eq_true, decide_eq_true_eq, beq_iff_eq] at h
  simp only [wideBlanks, List.mem_cons, List.not_mem_nil, or_false, exists_eq_or_imp, exists_eq_left]
  omega

/-- Whether no two of the ranges of two tables meet, told by comparisons that are quick to run. -/
def apart (ranges others : List (ℕ × ℕ)) : Bool :=
  ranges.all fun r => others.all fun q => Nat.ble (q.2 + 1) r.1 || Nat.ble (r.2 + 1) q.1

theorem inRanges_of_apart {ranges others : List (ℕ × ℕ)} (h : apart ranges others = true) {n : ℕ}
    (hn : ∃ q ∈ others, q.1 ≤ n ∧ n ≤ q.2) : inRanges ranges n = false := by
  obtain ⟨q, hq, hlow, hhigh⟩ := hn
  refine List.any_eq_false.mpr fun r hr => ?_
  have := List.all_eq_true.mp (List.all_eq_true.mp h r hr) q hq
  rw [Bool.or_eq_true, Nat.ble_eq, Nat.ble_eq] at this
  simp only [Bool.and_eq_true, decide_eq_true_eq]
  omega

/-- **No blank is a word character.** -/
theorem isWord_of_isBlank {c : Char} (h : isBlank c = true) : isWord c = false := by
  by_cases hc : c.toNat < 128
  · have hascii : (blanks.all fun d => decide (128 ≤ d.toNat) || !isWord d) = true := by decide
    have := List.all_eq_true.mp hascii c (mem_blanks h)
    simpa [Nat.not_le.mpr hc] using this
  · rw [isWord, if_neg hc]
    exact inRanges_of_apart (by decide +kernel) (exists_wideBlank h hc)

/-- **No blank is a digit.** -/
theorem isDecimal_of_isBlank {c : Char} (h : isBlank c = true) : isDecimal c = false :=
  not_of_isBlank (by decide +kernel) h

/-! ## Solid texts -/

/-- **Whether no blank stands at either end** of a text that is not empty. -/
def Solid (w : Text) : Prop :=
  (∃ c ∈ w.head?, isBlank c = false) ∧ ∃ c ∈ w.getLast?, isBlank c = false

instance (w : Text) : Decidable (Solid w) :=
  decidable_of_iff ((w.head?.any (!isBlank ·)) = true ∧ (w.getLast?.any (!isBlank ·)) = true)
    (by simp [Solid, Option.any_eq_true])

/-- Whether a text holds blanks alone. -/
def AllBlank (g : Text) : Prop := ∀ c ∈ g, isBlank c = true

variable {g g' w : Text}

theorem Solid.exists_head (h : Solid w) : ∃ c u, w = c :: u ∧ isBlank c = false := by
  obtain ⟨c, hc, hb⟩ := h.1
  obtain ⟨u, rfl⟩ := List.head?_eq_some_iff.mp hc
  exact ⟨c, u, rfl, hb⟩

theorem Solid.exists_last (h : Solid w) : ∃ u c, w = u ++ [c] ∧ isBlank c = false := by
  obtain ⟨c, hc, hb⟩ := h.2
  obtain ⟨u, rfl⟩ := List.getLast?_eq_some_iff.mp hc
  exact ⟨u, c, rfl, hb⟩

/-- Blanks at the start go. -/
theorem trimLeft_append (hg : AllBlank g) {c : Char} (hc : isBlank c = false) (u : Text) :
    trimLeft (g ++ c :: u) = c :: u := by
  rw [trimLeft, List.dropWhile_append_of_pos hg, List.dropWhile_cons_of_neg (by simp [hc])]

/-- Blanks at the end go. -/
theorem trimRight_append (hg : AllBlank g) {c : Char} (hc : isBlank c = false) (u : Text) :
    trimRight (u ++ [c] ++ g) = u ++ [c] := by
  have hg' : ∀ d ∈ g.reverse, isBlank d = true := fun d hd => hg d (List.mem_reverse.mp hd)
  rw [trimRight, List.reverse_append, List.dropWhile_append_of_pos hg', List.reverse_append,
    List.reverse_singleton, List.singleton_append, List.dropWhile_cons_of_neg (by simp [hc]),
    List.reverse_cons, List.reverse_reverse]

/-- **Trimming** leaves the solid text between blanks. -/
theorem trim_solid (hg : AllBlank g) (hg' : AllBlank g') (hw : Solid w) : trim (g ++ w ++ g') = w := by
  obtain ⟨c, u, hu, hc⟩ := hw.exists_head
  obtain ⟨v, d, hv, hd⟩ := hw.exists_last
  have hleft : trimLeft (g ++ w ++ g') = w ++ g' := by
    rw [hu, List.append_assoc, List.cons_append]
    exact trimLeft_append hg hc _
  rw [trim, hleft, hv]
  exact trimRight_append hg' hd v

/-- A solid text is trimmed. -/
theorem Solid.trim_eq (hw : Solid w) : trim w = w := by
  have hnil : AllBlank [] := fun c hc => absurd hc List.not_mem_nil
  have := trim_solid hnil hnil hw
  rwa [List.nil_append, List.append_nil] at this

/-- A text begins with the blanks that trimming takes from its start. -/
theorem exists_trimLeft (s : Text) : ∃ g, AllBlank g ∧ s = g ++ trimLeft s :=
  ⟨s.takeWhile isBlank, fun _ hc => List.mem_takeWhile_imp hc, List.takeWhile_append_dropWhile.symm⟩

/-- A text ends with the blanks that trimming takes from its end. -/
theorem exists_trimRight (s : Text) : ∃ g, AllBlank g ∧ s = trimRight s ++ g := by
  refine ⟨(s.reverse.takeWhile isBlank).reverse, fun c hc => ?_, ?_⟩
  · exact List.mem_takeWhile_imp (List.mem_reverse.mp hc)
  · rw [trimRight, ← List.reverse_append, List.takeWhile_append_dropWhile, List.reverse_reverse]

/-- **A text is its trimmed form between blanks.** -/
theorem exists_trim (s : Text) : ∃ g g', AllBlank g ∧ AllBlank g' ∧ s = g ++ (trim s ++ g') := by
  obtain ⟨g, hg, h⟩ := exists_trimLeft s
  obtain ⟨g', hg', h'⟩ := exists_trimRight (trimLeft s)
  exact ⟨g, g', hg, hg', by rw [trim, ← h', ← h]⟩

/-- Blanks in front of a text go. -/
theorem trim_append (hg : AllBlank g) (s : Text) : trim (g ++ s) = trim s := by
  rw [trim, trimLeft, List.dropWhile_append_of_pos hg]
  rfl

/-- A text that begins with no blank begins with its trimmed form. -/
theorem trim_prefix {s : Text} (hs : ∀ c ∈ s.head?, isBlank c = false) : trim s <+: s := by
  obtain ⟨g, g', hg, -, hcut⟩ := exists_trim s
  cases g with
  | nil => exact ⟨g', hcut.symm⟩
  | cons c g =>
    have hc : isBlank c = false := hs c (by rw [hcut]; rfl)
    exact absurd (hg c List.mem_cons_self) (by simp [hc])

/-- What is left of a text without its blanks at the start begins with no blank. -/
theorem head_trimLeft (s : Text) : ∀ c ∈ (trimLeft s).head?, isBlank c = false := by
  intro c hc
  unfold trimLeft at hc
  have := List.head?_dropWhile_not isBlank s
  rwa [hc] at this

/-- **A trimmed text** is empty or solid. -/
theorem trim_eq_nil_or_solid (s : Text) : trim s = [] ∨ Solid (trim s) := by
  obtain ⟨g, -, hg⟩ := exists_trimRight (trimLeft s)
  have hreverse : (trim s).reverse = trimLeft (trimLeft s).reverse := List.reverse_reverse _
  cases hlast : (trim s).getLast? with
  | none => exact .inl (List.getLast?_eq_none_iff.mp hlast)
  | some d =>
    refine .inr ⟨?_, d, hlast, head_trimLeft (trimLeft s).reverse d ?_⟩
    · obtain ⟨u, h⟩ := List.getLast?_eq_some_iff.mp hlast
      obtain ⟨c, v, hv⟩ := List.exists_cons_of_ne_nil (l := trim s) (by simp [h])
      have hleft : trimLeft s = trim s ++ g := hg
      exact ⟨c, by rw [hv]; rfl, head_trimLeft s c (by rw [hleft, hv]; rfl)⟩
    · rw [← hreverse, List.head?_reverse, hlast]
      rfl

/-- Trimming a trimmed text takes nothing away. -/
theorem trim_trim (s : Text) : trim (trim s) = trim s :=
  (trim_eq_nil_or_solid s).elim (fun h => by rw [h]; rfl) Solid.trim_eq

end VariableImport.Text
