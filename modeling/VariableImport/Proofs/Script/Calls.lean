import VariableImport.Proofs.Script.Argument

/-!
# Proofs/Script/Calls — import calls as texts

An import call without comments is the word, and between parentheses an expression, maybe a second one
and maybe a trailing comma, with blanks between them (`IsCall`).  These are the texts that spell a word
of `importCalls` with blanks alone between its tokens (`exists_isCall_iff`), and that language is what
the reader of import calls recognizes (`recognizes_importCall`).
-/

namespace VariableImport.Script

open Computability Reader Scan

variable {A s t r : Text} {B : Option Text}

/-! ## Calls and what ends them -/

/-- The end of an import call: a closing parenthesis, with a trailing comma before it or without. -/
inductive CallEnd : Text → Prop
  | close {g : Text} (hg : Blanks g) : CallEnd (g ++ [')'])
  | comma {g g' : Text} (hg : Blanks g) (hg' : Blanks g') : CallEnd (g ++ ',' :: (g' ++ [')']))

/-- What follows the first argument of an import call: the end, or a second argument and the end. -/
inductive CallTail : Option Text → Text → Prop
  | last {t : Text} (h : CallEnd t) : CallTail none t
  | options {g g' B t : Text} (hg : Blanks g) (hg' : Blanks g') (hB : IsExpression B)
      (h : CallEnd t) : CallTail (some B) (g ++ ',' :: (g' ++ (B ++ t)))

/-- **Whether a text is an import call without comments**, and what its arguments are. -/
inductive IsCall : Text → Text → Option Text → Prop
  | mk {g g' A t : Text} {B : Option Text} (hg : Blanks g) (hg' : Blanks g') (hA : IsExpression A)
      (h : CallTail B t) : IsCall (importText ++ (g ++ '(' :: (g' ++ (A ++ t)))) A B

theorem CallEnd.ends (h : CallEnd t) : Ends t := by
  cases h with
  | close hg => exact ⟨[')'], ⟨_, hg, rfl⟩, fun c hc => .inr (Option.some.inj hc).symm⟩
  | comma hg hg' => exact ⟨_, ⟨_, hg, rfl⟩, fun c hc => .inl (Option.some.inj hc).symm⟩

theorem CallTail.ends (h : CallTail B t) : Ends t := by
  cases h with
  | last h => exact h.ends
  | options hg hg' hB h => exact ⟨_, ⟨_, hg, rfl⟩, fun c hc => .inl (Option.some.inj hc).symm⟩

theorem clean_blanks {g : Text} (hg : Blanks g) : Clean {} (g ++ t) ↔ Clean {} t :=
  (runs_blanks isStack_nil hg t).clean

theorem clean_comma : Clean {} (',' :: t) ↔ Clean {} t :=
  ⟨fun h => h.2, fun h => ⟨fun _ _ => rfl, h⟩⟩

theorem CallEnd.clean (h : CallEnd t) : Clean {} t := by
  have hclose : Clean {} [')'] := ⟨fun _ _ => rfl, trivial⟩
  cases h with
  | close hg => exact (clean_blanks hg).mpr hclose
  | comma hg hg' => exact (clean_blanks hg).mpr (clean_comma.mpr ((clean_blanks hg').mpr hclose))

theorem CallTail.clean (h : CallTail B t) : Clean {} t := by
  cases h with
  | last h => exact h.clean
  | options hg hg' hB h =>
    exact (clean_blanks hg).mpr (clean_comma.mpr ((clean_blanks hg').mpr
      ((hB.runs h.ends.boundary).clean.mpr h.clean)))

/-! ## The language of import calls -/

/-- Import calls. -/
def importCalls : Language Terminal :=
  only .importWord * (only (.mark '(') * (expressions *
    ((1 + only (.mark ',') * expressions) * ((1 + only (.mark ',')) * only (.mark ')')))))

variable {ws : List Terminal} {g : Text}

theorem scan_mark (c : Char) (t : Text) : (Terminal.mark c).scan (c :: t) = some ([c], t) := by
  simp [Terminal.scan, oneOf]

/-- More blanks may stand before a spelling. -/
theorem Spells.behind (hg : Blanks g) (hne : ws ≠ []) (h : Spells BlankGap ws s r) :
    Spells BlankGap ws (g ++ s) r := by
  cases h with
  | nil => exact absurd rfl hne
  | cons hgap hscan h =>
    obtain ⟨g', hg', rfl⟩ := hgap
    refine .cons ⟨g ++ g', fun c hc => ?_, (List.append_assoc ..).symm⟩ hscan h
    exact (List.mem_append.mp hc).elim (hg c) (hg' c)

/-- A mark behind blanks. -/
theorem spells_mark {c : Char} (hg : Blanks g) (h : Spells BlankGap ws t r) :
    Spells BlankGap (.mark c :: ws) (g ++ c :: t) r :=
  .cons ⟨g, hg, rfl⟩ (scan_mark c t) h

theorem CallEnd.exists_spells (h : CallEnd t) : ∃ ws ∈ (1 + only (.mark ',')) * only (.mark ')'),
    Spells BlankGap ws t [] := by
  cases h with
  | close hg => exact ⟨_, ⟨[], .inl rfl, _, rfl, rfl⟩, spells_mark hg (.nil _)⟩
  | comma hg hg' => exact ⟨_, ⟨_, .inr rfl, _, rfl, rfl⟩, spells_mark hg (spells_mark hg' (.nil _))⟩

theorem IsExpression.exists_spells (hA : IsExpression A) (hg : Blanks g) (ht : Boundary t) :
    ∃ ws ∈ expressions, Spells BlankGap ws (g ++ (A ++ t)) t := by
  obtain ⟨ws, hws, h⟩ := hA.spells_append ht
  exact ⟨ws, hws, h.behind hg (ne_nil_of_mem_expressions hws)⟩

theorem CallTail.exists_spells (h : CallTail B t) :
    ∃ ws ∈ (1 + only (.mark ',') * expressions) * ((1 + only (.mark ',')) * only (.mark ')')),
      Spells BlankGap ws t [] := by
  cases h with
  | last h =>
    obtain ⟨vs, hvs, htail⟩ := h.exists_spells
    exact ⟨vs, ⟨[], .inl rfl, vs, hvs, rfl⟩, htail⟩
  | options hg hg' hB h =>
    obtain ⟨ws, hws, hspells⟩ := hB.exists_spells hg' h.ends.boundary
    obtain ⟨vs, hvs, htail⟩ := h.exists_spells
    exact ⟨_, ⟨_, .inr ⟨_, rfl, ws, hws, rfl⟩, vs, hvs, rfl⟩,
      spells_mark hg (spells_append.mpr ⟨_, hspells, htail⟩)⟩

theorem IsCall.exists_spells (h : IsCall s A B) : ∃ ws ∈ importCalls, Spells BlankGap ws s [] := by
  cases h with
  | @mk g g' A t B hg hg' hA h =>
    obtain ⟨ws, hws, hspells⟩ := hA.exists_spells hg' h.ends.boundary
    obtain ⟨vs, hvs, htail⟩ := h.exists_spells
    have hmem : .importWord :: .mark '(' :: (ws ++ vs) ∈ importCalls :=
      ⟨_, rfl, _, ⟨_, rfl, _, ⟨ws, hws, vs, hvs, rfl⟩, rfl⟩, rfl⟩
    have hrest := spells_mark (c := '(') hg (spells_append.mpr ⟨_, hspells, htail⟩)
    exact ⟨_, hmem, .cons ⟨[], blanks_nil, rfl⟩ rfl hrest⟩

/-! ## The text of a spelling -/

theorem exists_of_spells_mark {c : Char} (h : Spells BlankGap [.mark c] s r) :
    ∃ g, Blanks g ∧ s = g ++ c :: r := by
  obtain ⟨u, a, ⟨g, hg, rfl⟩, hscan⟩ := spells_singleton.mp h
  exact ⟨g, hg, by rw [mark_eq hscan]⟩

/-- A spelling of an expression is one, behind blanks. -/
theorem exists_isExpression (hws : ws ∈ expressions) (h : Spells BlankGap ws s r) (hr : Boundary r) :
    ∃ g A, Blanks g ∧ IsExpression A ∧ s = g ++ (A ++ r) := by
  obtain ⟨w, rfl⟩ := h.suffix BlankGap.suffix
  have hf := leads_expressions [] false ws hws
  have hw : Spells BlankGap ws w [] := h.of_append hr hf rfl rfl
  cases hw with
  | nil => exact absurd rfl (ne_nil_of_mem_expressions hws)
  | @cons τ ws _ u a t _ hgap hscan hw =>
    obtain ⟨g, hg, rfl⟩ := hgap
    obtain ⟨m', hτ, -⟩ := Mode.exists_follow hf
    refine ⟨g, u, hg, ⟨⟨_, hws, .cons ⟨[], blanks_nil, rfl⟩ hscan hw⟩, fun c hc => ?_⟩,
      List.append_assoc ..⟩
    obtain ⟨v, rfl⟩ := List.head?_eq_some_iff.mp hc
    exact isGapBlank_of_not_isBlank (isBlank_of_scan hτ hscan)

theorem callEnd_of_spells (hws : ws ∈ (1 + only (.mark ',')) * only (.mark ')'))
    (h : Spells BlankGap ws t []) : CallEnd t := by
  obtain ⟨vs, hvs, _, rfl, rfl⟩ := Language.mem_mul.mp hws
  obtain ⟨u, hu, hclose⟩ := spells_append.mp h
  obtain ⟨g, hg, rfl⟩ := exists_of_spells_mark hclose
  rcases hvs with rfl | rfl
  · obtain rfl := spells_nil.mp hu
    exact .close hg
  · obtain ⟨g', hg', rfl⟩ := exists_of_spells_mark hu
    exact .comma hg' hg

theorem exists_callTail
    (hws : ws ∈ (1 + only (.mark ',') * expressions) * ((1 + only (.mark ',')) * only (.mark ')')))
    (h : Spells BlankGap ws t []) : ∃ B, CallTail B t := by
  obtain ⟨vs, hvs, us, hus, rfl⟩ := Language.mem_mul.mp hws
  obtain ⟨u, hu, hend⟩ := spells_append.mp h
  have hend := callEnd_of_spells hus hend
  rcases hvs with rfl | ⟨_, rfl, xs, hxs, rfl⟩
  · obtain rfl := spells_nil.mp hu
    exact ⟨none, .last hend⟩
  · obtain ⟨v, hv, hxs'⟩ := spells_append.mp hu
    obtain ⟨g, hg, rfl⟩ := exists_of_spells_mark hv
    obtain ⟨g', B, hg', hB, rfl⟩ := exists_isExpression hxs hxs' hend.ends.boundary
    exact ⟨some B, .options hg hg' hB hend⟩

/-- **Import calls without comments** are the texts that spell an import call with blanks alone
between its tokens. -/
theorem exists_isCall_iff (hs : ∀ c ∈ s.head?, isGapBlank c = false) :
    (∃ A B, IsCall s A B) ↔ ∃ ws ∈ importCalls, Spells BlankGap ws s [] := by
  constructor
  · rintro ⟨A, B, h⟩
    exact h.exists_spells
  · rintro ⟨_, hws, h⟩
    obtain ⟨_, rfl, _, ⟨_, rfl, _, ⟨xs, hxs, vs, hvs, rfl⟩, rfl⟩, rfl⟩ := hws
    obtain ⟨t₁, hword, h⟩ := spells_append.mp h
    obtain ⟨t₂, hopen, h⟩ := spells_append.mp h
    obtain ⟨t₃, hxs', h⟩ := spells_append.mp h
    obtain ⟨B, htail⟩ := exists_callTail hvs h
    obtain ⟨g', A, hg', hA, rfl⟩ := exists_isExpression hxs hxs' htail.ends.boundary
    obtain ⟨g, hg, rfl⟩ := exists_of_spells_mark hopen
    obtain ⟨u, a, hgap, hscan⟩ := spells_singleton.mp hword
    obtain rfl := hgap.eq hs
    obtain ⟨ha, rfl⟩ := oneOf_eq hscan
    obtain rfl := List.mem_singleton.mp ha
    exact ⟨A, B, .mk hg hg' hA htail⟩

end VariableImport.Script
