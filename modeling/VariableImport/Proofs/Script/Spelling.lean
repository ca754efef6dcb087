import VariableImport.Proofs.Script.Lexeme

/-!
# Proofs/Script/Spelling — texts that spell terminals

`Spells gap ws s r` says that the terminals `ws` stand at the start of `s`, with a gap before each,
and that `r` is left.  A text spells no more terminals than it has characters (`Spells.length_le`).  Two kinds of
gaps matter: blanks alone (`BlankGap`), and blanks and comments (`Gap`).
-/

namespace VariableImport.Script

/-! ## Gaps -/

/-- Blanks and comments before a token. -/
def Gap (s u : Text) : Prop := u ∈ places s

/-- Blanks alone. -/
def Blanks (g : Text) : Prop := ∀ c ∈ g, isGapBlank c = true

instance (g : Text) : Decidable (Blanks g) := List.decidableBAll _ g

/-- Blanks alone before a token. -/
def BlankGap (s u : Text) : Prop := ∃ g, Blanks g ∧ s = g ++ u

/-- Before a text that begins with no blank there are none. -/
theorem BlankGap.eq {s u : Text} (h : BlankGap s u) (hs : ∀ c ∈ s.head?, isGapBlank c = false) :
    u = s := by
  obtain ⟨g, hg, rfl⟩ := h
  cases g with
  | nil => rfl
  | cons b g =>
    have := hg b (List.mem_cons_self ..)
    rw [hs b rfl] at this
    simp at this

theorem afterBlock_suffix {s t : Text} (h : afterBlock s = some t) : t <:+ s := by
  fun_induction afterBlock s with
  | case1 s =>
    obtain rfl := Option.some.inj h
    exact ⟨['*', '/'], rfl⟩
  | case2 c s _ ih => exact (ih h).trans (List.suffix_cons _ _)
  | case3 => simp at h

/-- A gap takes at least one character off a text. -/
theorem gap?_suffix {s t : Text} (h : gap? s = some t) : t <:+ s ∧ t.length < s.length := by
  unfold gap? at h
  split at h
  · next u =>
    obtain rfl := Option.some.inj h
    have := (List.dropWhile_suffix (· ≠ '\n') (l := u))
    refine ⟨this.trans ⟨['/', '/'], rfl⟩, ?_⟩
    have := this.length_le
    simp only [List.length_cons]
    omega
  · next u =>
    have := afterBlock_suffix h
    refine ⟨this.trans ⟨['/', '*'], rfl⟩, ?_⟩
    have := this.length_le
    simp only [List.length_cons]
    omega
  · next c u _ _ =>
    split at h
    · obtain rfl := Option.some.inj h
      have := (List.dropWhile_suffix isGapBlank (l := u))
      refine ⟨this.trans (List.suffix_cons _ _), ?_⟩
      have := this.length_le
      simp only [List.length_cons]
      omega
    · simp at h
  · simp at h

theorem suffix_of_mem_placesWithin {n : Nat} {s u : Text} (h : u ∈ placesWithin n s) : u <:+ s := by
  induction n generalizing s with
  | zero =>
    rw [List.mem_singleton.mp h]
  | succ n ih =>
    rw [placesWithin] at h
    rcases List.mem_cons.mp h with rfl | h
    · exact List.suffix_rfl
    · split at h
      · next t ht => exact (ih h).trans (gap?_suffix ht).1
      · simp at h

theorem Gap.suffix {s u : Text} (h : Gap s u) : u <:+ s := suffix_of_mem_placesWithin h

theorem BlankGap.suffix {s u : Text} (h : BlankGap s u) : u <:+ s := by
  obtain ⟨g, -, rfl⟩ := h
  exact List.suffix_append _ _

/-- Where a token may start it may start without a gap. -/
theorem self_mem_places (s : Text) : s ∈ places s := by
  unfold places
  cases s.length with
  | zero => exact List.mem_singleton_self s
  | succ n => exact List.mem_cons_self ..

/-- Blanks are one gap. -/
theorem gap?_blanks {c : Char} {g u : Text} (hg : Blanks (c :: g))
    (hu : ∀ d ∈ u.head?, isGapBlank d = false) : gap? (c :: g ++ u) = some u := by
  have hc : isGapBlank c = true := hg c (List.mem_cons_self ..)
  have hslash : c ≠ '/' := by
    rintro rfl
    exact absurd hc (by decide)
  have hdrop : (g ++ u).dropWhile isGapBlank = u := by
    rw [List.dropWhile_append_of_pos fun d hd => hg d (List.mem_cons_of_mem _ hd)]
    cases u with
    | nil => rfl
    | cons d u => rw [List.dropWhile_cons_of_neg (by simp [hu d rfl])]
  unfold gap?
  split
  · next e => exact absurd (List.cons.inj e).1 hslash
  · next e => exact absurd (List.cons.inj e).1 hslash
  · next e =>
    obtain ⟨rfl, rfl⟩ := List.cons.inj e
    rw [if_pos hc]
    exact congrArg some hdrop
  · next e => simp at e

/-- **Blanks are a gap** before anything that is no blank. -/
theorem BlankGap.gap {s u : Text} (h : BlankGap s u) (hu : ∀ d ∈ u.head?, isGapBlank d = false) :
    Gap s u := by
  obtain ⟨g, hg, rfl⟩ := h
  cases g with
  | nil => exact self_mem_places u
  | cons c g =>
    unfold Gap places
    rw [List.cons_append, List.length_cons, placesWithin, ← List.cons_append, gap?_blanks hg hu]
    refine List.mem_cons_of_mem _ ?_
    cases (g ++ u).length with
    | zero => exact List.mem_singleton_self u
    | succ n => exact List.mem_cons_self ..

/-! ## Spelling -/

/-- **A text spells terminals** and leaves another, with a gap before each token. -/
inductive Spells (gap : Text → Text → Prop) : List Terminal → Text → Text → Prop
  | nil (s : Text) : Spells gap [] s s
  | cons {τ : Terminal} {ws : List Terminal} {s u a t r : Text} (hgap : gap s u)
      (hscan : τ.scan u = some (a, t)) (h : Spells gap ws t r) : Spells gap (τ :: ws) s r

variable {gap : Text → Text → Prop} {ws vs : List Terminal} {s r : Text}

theorem spells_nil : Spells gap [] s r ↔ r = s :=
  ⟨fun h => by cases h; rfl, fun h => h ▸ .nil r⟩

theorem spells_append :
    Spells gap (ws ++ vs) s r ↔ ∃ t, Spells gap ws s t ∧ Spells gap vs t r := by
  constructor
  · intro h
    induction ws generalizing s with
    | nil => exact ⟨s, .nil s, h⟩
    | cons τ ws ih =>
      cases h with
      | cons hgap hscan h =>
        obtain ⟨t, hws, hvs⟩ := ih h
        exact ⟨t, .cons hgap hscan hws, hvs⟩
  · rintro ⟨t, hws, hvs⟩
    induction hws with
    | nil => exact hvs
    | cons hgap hscan _ ih => exact .cons hgap hscan (ih hvs)

theorem spells_singleton {τ : Terminal} :
    Spells gap [τ] s r ↔ ∃ u a, gap s u ∧ τ.scan u = some (a, r) := by
  constructor
  · intro h
    cases h with
    | cons hgap hscan h =>
      cases h
      exact ⟨_, _, hgap, hscan⟩
  · rintro ⟨u, a, hgap, hscan⟩
    exact .cons hgap hscan (.nil r)

/-- **Every terminal takes a character.** -/
theorem Spells.length_le (hgap : ∀ {s u}, gap s u → u <:+ s) (h : Spells gap ws s r) :
    r.length + ws.length ≤ s.length := by
  induction h with
  | nil => simp
  | cons hg hscan _ ih =>
    have hle := (hgap hg).length_le
    have hlt := length_lt_of_scan hscan
    rw [List.length_cons]
    omega

/-- What is left stands at the end. -/
theorem Spells.suffix (hgap : ∀ {s u}, gap s u → u <:+ s) (h : Spells gap ws s r) : r <:+ s := by
  induction h with
  | nil => exact List.suffix_rfl
  | cons hg hscan _ ih =>
    obtain ⟨w, -, rfl⟩ := exists_of_scan hscan
    exact ih.trans ((List.suffix_append w _).trans (hgap hg))

end VariableImport.Script
