import Mathlib.Logic.Relation
import VariableImport.Proofs.Script.Piece

/-!
# Proofs/Script/Alike — texts that differ in their gaps

Two texts are `Alike` if the same pieces stand in them one after another, with any gaps between.  Where a token
may go on from one character to the next (`joins`), a gap stands in both or in none, hence a word or a run of
characters that goes on from a piece is the same in both (`prefix_alike`, `run_alike`), and the texts that are
left are alike again (`Alike.later`).
-/

namespace VariableImport.Script

variable {p : Option Char} {c d : Char} {s t w : Text}

/-- The words of the grammar that are longer than a character. -/
def longWords : List Text := importText :: (logicalWords ++ relationalWords ++ unaryWords ++ reservedWords)

/-- Whether two characters stand one after the other in a word of the grammar. -/
def adjacent (c d : Char) : Bool := longWords.any fun w => (w.zip w.tail).contains (c, d)

/-- **Whether a token may go on** from a character into the text after it. -/
def joins (c : Char) : Text → Bool
  | [] => false
  | d :: s => adjacent c d || (inName c && inName d) || (Text.isDecimal c && Text.isDecimal d) ||
      (Text.isDecimal c && d == '.' && s.head?.any Text.isDecimal) || (c == '.' && Text.isDecimal d)

/-- **Whether two texts differ in their gaps alone**, behind a character: the same pieces stand in them
one after another.  Where a token may go on into the one text it may go on into the other. -/
inductive Alike : Option Char → Text → Text → Prop
  | done {p : Option Char} {s t : Text} (hs : Skips s []) (ht : Skips t []) : Alike p s t
  | piece {p : Option Char} {w s t s' t' : Text} (hw : Piece w) (hs : Skips s (w ++ s'))
      (ht : Skips t (w ++ t')) (hst : p.any (joins · s) = true → s = w ++ s' → t = w ++ t')
      (hts : p.any (joins · t) = true → t = w ++ t' → s = w ++ s') (h : Alike w.getLast? s' t') :
      Alike p s t

theorem Alike.symm (h : Alike p s t) : Alike p t s := by
  induction h with
  | done hs ht => exact .done ht hs
  | piece hw hs ht hst hts _ ih => exact .piece hw ht hs hts hst ih

/-- Whether two texts go on after the same piece. -/
def Together (x y : Text × Text) : Prop := ∃ w, Piece w ∧ Skips x.1 (w ++ y.1) ∧ Skips x.2 (w ++ y.2)

/-- **Whether two texts are left** of two others after the same pieces. -/
abbrev Later : Text × Text → Text × Text → Prop := Relation.ReflTransGen Together

theorem Together.unique {x y z : Text × Text} (h : Together x y) (h' : Together x z) : y = z := by
  obtain ⟨w, hw, h₁, h₂⟩ := h
  obtain ⟨v, hv, h₁', h₂'⟩ := h'
  exact Prod.ext (hw.unique hv (h₁.unique h₁')).2 (hw.unique hv (h₂.unique h₂')).2

theorem Together.length_lt {x y : Text × Text} (h : Together x y) :
    y.1.length < x.1.length ∧ y.2.length < x.2.length := by
  obtain ⟨w, hw, h₁, h₂⟩ := h
  have hpos := List.length_pos_of_ne_nil hw.ne_nil
  have hle₁ := h₁.suffix.length_le
  have hle₂ := h₂.suffix.length_le
  rw [List.length_append] at hle₁ hle₂
  omega

theorem Later.eq_or_length_lt {x y : Text × Text} (h : Later x y) :
    y = x ∨ y.1.length < x.1.length ∧ y.2.length < x.2.length := by
  induction h with
  | refl => exact .inl rfl
  | tail _ hyz ih =>
    have := hyz.length_lt
    rcases ih with rfl | ih
    · exact .inr this
    · exact .inr (by omega)

/-- **Places that go together**: what is left of the one text tells what is left of the other. -/
theorem Later.length_eq_iff {x y z : Text × Text} (h : Later x y) (h' : Later x z) :
    y.1.length = z.1.length ↔ y.2.length = z.2.length := by
  rcases Relation.ReflTransGen.total_of_right_unique (fun _ _ _ h h' => h.unique h') h h' with hyz | hzy
  · rcases Later.eq_or_length_lt hyz with rfl | hlt
    · simp
    · omega
  · rcases Later.eq_or_length_lt hzy with rfl | hlt
    · simp
    · omega

theorem Alike.together {x : Text × Text} (h : Alike p s t) (hx : Together (s, t) x) :
    ∃ q, Alike q x.1 x.2 := by
  cases h with
  | done hs _ =>
    obtain ⟨w, hw, hs', -⟩ := hx
    exact absurd (List.append_eq_nil_iff.mp (hs'.unique hs)).1 hw.ne_nil
  | @piece _ w _ _ s' t' hw hs ht _ _ h =>
    obtain rfl := hx.unique ⟨w, hw, hs, ht⟩ (z := (s', t'))
    exact ⟨_, h⟩

/-- **Texts that are left are alike.** -/
theorem Alike.later {x : Text × Text} (h : Alike p s t) (hx : Later (s, t) x) : ∃ q, Alike q x.1 x.2 := by
  induction hx with
  | refl => exact ⟨p, h⟩
  | tail _ hyz ih =>
    obtain ⟨q, hq⟩ := ih
    exact hq.together hyz

/-! ## Tokens from character to character -/

/-- **Where a token may go on** to a character it may in the other text as well. -/
theorem Alike.next (h : Alike (some c) (d :: s) t) (hd : isPlain d = true)
    (hcd : joins c (d :: s) = true) :
    ∃ t', t = d :: t' ∧ Alike (some d) s t' ∧ Together (d :: s, t) (s, t') := by
  have hgap := gap?_of_isPlain hd s
  cases h with
  | done hs _ => cases hs.eq hgap
  | @piece _ w _ _ s' t' hw hs ht hst _ h =>
    have e := hs.eq hgap
    obtain ⟨rfl, rfl⟩ := hw.unique (.plain hd) (t := s) e
    exact ⟨t', hst hcd rfl, h, _, hw, hs, ht⟩

/-- Of a class whose characters always go on one stands next in both texts or in none. -/
theorem Alike.next_or {P : Char → Bool} (h : Alike (some c) s t) (hplain : ∀ d, P d = true → isPlain d = true)
    (hjoins : ∀ d u, P d = true → joins c (d :: u) = true) :
    (∃ d s' t', P d = true ∧ s = d :: s' ∧ t = d :: t' ∧ Alike (some d) s' t' ∧
        Together (s, t) (s', t')) ∨
      ((∀ d ∈ s.head?, P d = false) ∧ ∀ d ∈ t.head?, P d = false) := by
  by_cases hs : ∃ d ∈ s.head?, P d = true
  · obtain ⟨d, hd, hP⟩ := hs
    obtain ⟨s', rfl⟩ := List.head?_eq_some_iff.mp hd
    obtain ⟨t', rfl, h', hstep⟩ := h.next (hplain d hP) (hjoins d s' hP)
    exact .inl ⟨d, s', t', hP, rfl, rfl, h', hstep⟩
  · have hs : ∀ d ∈ s.head?, P d = false := by simpa using hs
    refine .inr ⟨hs, fun d hd => ?_⟩
    by_contra hP
    have hP := Bool.not_eq_false _ ▸ hP
    obtain ⟨t', rfl⟩ := List.head?_eq_some_iff.mp hd
    obtain ⟨s', rfl, -⟩ := h.symm.next (hplain d hP) (hjoins d t' hP)
    rw [hs d rfl] at hP
    simp at hP

theorem isPrefixOf?_eq_none (h : d ∉ s.head?) : (d :: w).isPrefixOf? s = none := by
  cases s with
  | nil => rfl
  | cons e s => rw [Text.cons_isPrefixOf?_cons, if_neg fun he => h (congrArg some (beq_iff_eq.mp he).symm)]

theorem rel_imp {α β : Type} {R S : α → β → Prop} (hRS : ∀ a b, R a b → S a b) {x : Option α}
    {y : Option β} (h : Option.Rel R x y) : Option.Rel S x y := by
  cases h with
  | some h => exact .some (hRS _ _ h)
  | none => exact .none

/-- **A word** that goes on from a character stands in both texts or in none. -/
theorem prefix_alike (h : Alike (some c) s t) (hplain : ∀ d ∈ w, isPlain d = true)
    (hw : List.IsChain (fun c d => adjacent c d = true) (c :: w)) :
    Option.Rel (fun r r' => Later (s, t) (r, r') ∧ Alike (c :: w).getLast? r r') (w.isPrefixOf? s)
      (w.isPrefixOf? t) := by
  induction w generalizing c s t with
  | nil =>
    rw [Text.nil_isPrefixOf?, Text.nil_isPrefixOf?]
    exact .some ⟨.refl, h⟩
  | cons d w ih =>
    rw [List.isChain_cons_cons] at hw
    have hd : ∀ e, (e == d) = true → e = d := fun e => beq_iff_eq.mp
    rcases h.next_or (P := (· == d)) (fun e he => hd e he ▸ hplain d (List.mem_cons_self ..))
      (fun e u he => by simp [joins, hd e he, hw.1]) with ⟨e, s', t', he, rfl, rfl, h', hstep⟩ | ⟨hs, ht⟩
    · obtain rfl := hd e he
      have hrest := ih h' (fun e he => hplain e (List.mem_cons_of_mem _ he)) hw.2
      simp only [Text.cons_isPrefixOf?_cons, beq_self_eq_true, if_true]
      exact rel_imp (fun r r' hr => ⟨.head hstep hr.1, by simpa using hr.2⟩) hrest
    · rw [isPrefixOf?_eq_none fun hd => by simpa using hs d hd,
        isPrefixOf?_eq_none fun hd => by simpa using ht d hd]
      exact .none

/-- **A run of characters** that goes on from one of them is the same in both texts. -/
theorem run_alike {P : Char → Bool} {c : Char} {s t : Text} (hplain : ∀ d, P d = true → isPlain d = true)
    (hjoins : ∀ c d u, P c = true → P d = true → joins c (d :: u) = true) (h : Alike (some c) s t)
    (hc : P c = true) : s.takeWhile P = t.takeWhile P ∧
      Later (s, t) (s.dropWhile P, t.dropWhile P) ∧
      ∃ d, P d = true ∧ Alike (some d) (s.dropWhile P) (t.dropWhile P) := by
  have stop {u : Text} (hu : ∀ d ∈ u.head?, P d = false) : u.takeWhile P = [] ∧ u.dropWhile P = u := by
    cases u with
    | nil => exact ⟨rfl, rfl⟩
    | cons d u => simp [hu d rfl]
  rcases h.next_or hplain (hjoins c · · hc) with ⟨d, s', t', hd, rfl, rfl, h', hstep⟩ | ⟨hs, ht⟩
  · obtain ⟨htake, hlater, hrest⟩ := run_alike hplain hjoins h' hd
    simp only [List.takeWhile_cons_of_pos hd, List.dropWhile_cons_of_pos hd, htake]
    exact ⟨trivial, .head hstep hlater, hrest⟩
  · rw [(stop hs).1, (stop hs).2, (stop ht).1, (stop ht).2]
    exact ⟨rfl, .refl, c, hc, h⟩
termination_by s.length

end VariableImport.Script
