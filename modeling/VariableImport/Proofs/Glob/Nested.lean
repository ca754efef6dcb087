import VariableImport.Proofs.Glob.Braces

/-!
# Proofs/Glob/Nested — patterns with their braces in pairs

A pattern with its braces in pairs is a tree of groups (`Nested`, `isPaired_iff`), whose options hold groups in
turn, and it stands for the texts with one option for every group (`Nested.choices`).
-/

namespace VariableImport.Glob

variable {s : Text}

/-- Whether a character stands for itself: no brace, and no comma within an option. -/
def IsLiteral (inner : Bool) (c : Char) : Prop := c ≠ '\x7b' ∧ c ≠ '\x7d' ∧ (inner = true → c ≠ ',')

instance (inner : Bool) (c : Char) : Decidable (IsLiteral inner c) :=
  inferInstanceAs (Decidable (_ ∧ _ ∧ (_ → _)))

mutual

/-- **A nested pattern**, or what an option holds. -/
inductive Nested : Bool → Type
  | done {inner : Bool} : Nested inner
  | char {inner : Bool} (c : Char) (h : IsLiteral inner c) (rest : Nested inner) : Nested inner
  | group {inner : Bool} (options : Options) (rest : Nested inner) : Nested inner

/-- The options of a group, of which there is at least one. -/
inductive Options : Type
  | last (option : Nested true) : Options
  | more (option : Nested true) (options : Options) : Options

end

mutual

/-- A nested pattern as it is written. -/
def Nested.text {inner : Bool} : Nested inner → Text
  | .done => []
  | .char c _ rest => c :: rest.text
  | .group options rest => '\x7b' :: options.text ++ '\x7d' :: rest.text

/-- Options as they are written. -/
def Options.text : Options → Text
  | .last option => option.text
  | .more option options => option.text ++ ',' :: options.text

end

mutual

/-- **The texts with one option for every group**, the first group varying slowest. -/
def Nested.choices {inner : Bool} : Nested inner → List Text
  | .done => [[]]
  | .char c _ rest => rest.choices.map (c :: ·)
  | .group options rest => options.choices.flatMap fun t => rest.choices.map (t ++ ·)

/-- The texts with one of the options, and one option for every group in it. -/
def Options.choices : Options → List Text
  | .last option => option.choices
  | .more option options => option.choices ++ options.choices

end

/-- Whether there is no group. -/
def Nested.isPlain {inner : Bool} : Nested inner → Bool
  | .done => true
  | .char _ _ rest => rest.isPlain
  | .group _ _ => false

/-- Whether there is no group in any option. -/
def Options.arePlain : Options → Bool
  | .last option => option.isPlain
  | .more option options => option.isPlain && options.arePlain

/-- Whether no group lies in another. -/
def Nested.isFlat {inner : Bool} : Nested inner → Bool
  | .done => true
  | .char _ _ rest => rest.isFlat
  | .group options rest => options.arePlain && rest.isFlat

/-! ## Braces in pairs -/

/-- Whether braces are in pairs, behind some that are still open. -/
def pairsWithin : ℕ → Text → Bool
  | opened, [] => opened == 0
  | opened, c :: s =>
    if c = '\x7b' then pairsWithin (opened + 1) s
    else if c = '\x7d' then opened != 0 && pairsWithin (opened - 1) s
    else pairsWithin opened s

/-- **Whether the braces of a text are in pairs.** -/
def isPaired (s : Text) : Bool := pairsWithin 0 s

theorem pairsWithin_open (opened : ℕ) (s : Text) :
    pairsWithin opened ('\x7b' :: s) = pairsWithin (opened + 1) s := rfl

theorem pairsWithin_close (opened : ℕ) (s : Text) :
    pairsWithin opened ('\x7d' :: s) = (opened != 0 && pairsWithin (opened - 1) s) := rfl

theorem pairsWithin_of_ne {c : Char} (ho : c ≠ '\x7b') (hc : c ≠ '\x7d') (opened : ℕ) (s : Text) :
    pairsWithin opened (c :: s) = pairsWithin opened s := by
  rw [pairsWithin, if_neg ho, if_neg hc]

mutual

theorem Nested.pairsWithin_append {inner : Bool} (p : Nested inner) (opened : ℕ) (s : Text) :
    pairsWithin opened (p.text ++ s) = pairsWithin opened s := by
  match p with
  | .done => rfl
  | .char c h rest =>
    rw [Nested.text, List.cons_append, pairsWithin_of_ne h.1 h.2.1, rest.pairsWithin_append]
  | .group options rest =>
    rw [Nested.text, List.append_assoc, List.cons_append, pairsWithin_open, options.pairsWithin_append,
      List.cons_append, pairsWithin_close]
    exact rest.pairsWithin_append opened s

theorem Options.pairsWithin_append (p : Options) (opened : ℕ) (s : Text) :
    pairsWithin opened (p.text ++ s) = pairsWithin opened s := by
  match p with
  | .last option => rw [Options.text, option.pairsWithin_append]
  | .more option options =>
    rw [Options.text, List.append_assoc, option.pairsWithin_append, List.cons_append,
      pairsWithin_of_ne (by decide) (by decide), options.pairsWithin_append]

end

/-- Where what is read of a pattern ends: at the end, at a closing brace, or at a comma within an option. -/
def Ends (inner : Bool) (s : Text) : Prop := ∀ c ∈ s.head?, c = '\x7d' ∨ inner = true ∧ c = ','

/-- Whether a text begins with a nested pattern, and with options. -/
def IsReadable (s : Text) : Prop :=
  (∀ inner, ∃ (p : Nested inner) (rest : Text), s = p.text ++ rest ∧ Ends inner rest) ∧
    ∃ (p : Options) (rest : Text), s = p.text ++ rest ∧ Ends false rest

/-- What ends a pattern outside of options is a closing brace. -/
theorem Ends.eq_close {c : Char} (h : Ends false (c :: s)) : c = '\x7d' :=
  (h c rfl).resolve_right fun h => Bool.false_ne_true h.1

/-- A pattern goes on with a group, if options and what follows them can be read. -/
theorem exists_group {opened : ℕ} (h : pairsWithin (opened + 1) s = true)
    (ih : ∀ r : Text, r.length ≤ s.length → ∀ opened, pairsWithin opened r = true → IsReadable r)
    (inner : Bool) : ∃ (p : Nested inner) (rest : Text), '\x7b' :: s = p.text ++ rest ∧ Ends inner rest := by
  obtain ⟨options, rest, rfl, hrest⟩ := (ih s le_rfl _ h).2
  rw [options.pairsWithin_append] at h
  cases rest with
  | nil => exact absurd h (by simp [pairsWithin])
  | cons c rest =>
    obtain rfl := hrest.eq_close
    rw [pairsWithin_close, Bool.and_eq_true] at h
    have hshort : rest.length ≤ (options.text ++ '\x7d' :: rest).length := by
      rw [List.length_append, List.length_cons]
      omega
    obtain ⟨p, r, rfl, hr⟩ := (ih rest hshort _ h.2).1 inner
    exact ⟨.group options p, r, by simp [Nested.text], hr⟩

/-- **A text with its braces in pairs is read** as a nested pattern and as options, up to where they end. -/
theorem isReadable_of_pairsWithin (s : Text) (opened : ℕ) (h : pairsWithin opened s = true) :
    IsReadable s := by
  have hpattern (inner : Bool) : ∃ (p : Nested inner) (rest : Text), s = p.text ++ rest ∧ Ends inner rest := by
    cases s with
    | nil => exact ⟨.done, [], rfl, fun c hc => by simp at hc⟩
    | cons c s =>
      by_cases hopen : c = '\x7b'
      · subst hopen
        exact exists_group h (fun r hr => isReadable_of_pairsWithin r) inner
      · by_cases hend : c = '\x7d' ∨ inner = true ∧ c = ','
        · exact ⟨.done, c :: s, rfl, fun d hd => Option.some.inj hd ▸ hend⟩
        · obtain ⟨hclose, hcomma⟩ := not_or.mp hend
          rw [pairsWithin_of_ne hopen hclose] at h
          obtain ⟨p, rest, hs, hrest⟩ := (isReadable_of_pairsWithin s opened h).1 inner
          exact ⟨.char c ⟨hopen, hclose, fun hi hc => hcomma ⟨hi, hc⟩⟩ p, rest, by simp [Nested.text, hs], hrest⟩
  refine ⟨hpattern, ?_⟩
  -- the options are what is read of the first one, and further ones behind a comma
  obtain ⟨p, rest, rfl, hrest⟩ := hpattern true
  rw [p.pairsWithin_append] at h
  cases rest with
  | nil => exact ⟨.last p, [], rfl, fun c hc => by simp at hc⟩
  | cons c rest =>
    rcases hrest c rfl with rfl | ⟨-, rfl⟩
    · exact ⟨.last p, _, rfl, fun d hd => .inl (Option.some.inj hd).symm⟩
    · rw [pairsWithin_of_ne (by decide) (by decide)] at h
      obtain ⟨options, r, hr, hend⟩ := (isReadable_of_pairsWithin rest opened h).2
      exact ⟨.more p options, r, by simp [Options.text, hr], hend⟩
termination_by s.length
decreasing_by all_goals grind

/-- **A text is a nested pattern** exactly if its braces are in pairs. -/
theorem isPaired_iff : isPaired s = true ↔ ∃ p : Nested false, p.text = s := by
  constructor
  · intro h
    obtain ⟨p, rest, rfl, hrest⟩ := (isReadable_of_pairsWithin s 0 h).1 false
    refine ⟨p, ?_⟩
    cases rest with
    | nil => rw [List.append_nil]
    | cons c rest =>
      obtain rfl := hrest.eq_close
      rw [isPaired, p.pairsWithin_append] at h
      exact absurd h Bool.false_ne_true
  · rintro ⟨p, rfl⟩
    have := p.pairsWithin_append 0 []
    rwa [List.append_nil] at this

end VariableImport.Glob
