import VariableImport.Proofs.Script.Ahead

/-!
# Proofs/Script/Row — operands in a row

Operands with operators between them are derived at the loosest level of operators, whatever the
operators are (`Row`, `row_iff`): how tight they bind settles the tree, and not whether there is one.  So
the first operand of a row may be another one (`Row.exists_primary`), and rows with an operator between
them are a row (`Row.append`).
-/

namespace VariableImport.Script

variable {l m j i : Level} {τ : Terminal} {make : Text → Tree → Tree → Tree} {op a n w : Text} {e e' : Tree}
  {ws vs us : List Token}

/-! ## Looser levels -/

/-- **What is derived at a level** is derived at the looser ones. -/
theorem Derives.loosen {l : Level} (h : Derives m ws e) (hl : l.bond ≤ m.bond) : Derives l ws e := by
  by_cases hlm : l = m
  · exact hlm ▸ h
  have hnext : l.next.bond ≤ m.bond ∧ l.bond < l.next.bond := by
    revert hl hlm
    cases l <;> cases m <;> decide
  exact .tighter (h.loosen hnext.1)
termination_by 8 - l.bond
decreasing_by
  have : l.next.bond ≤ 8 := by cases l <;> decide
  omega

theorem bond_operator (hj : j.operator = some (τ, make)) :
    2 ≤ j.bond ∧ j.next.bond = j.bond + 1 ∧ j.bond < 6 := by
  cases j with
  | logical | relational | additive | multiplicative => decide
  | _ => cases hj

/-- **One more operand on the left** of what is derived at a level, at every level that is no tighter than
either. -/
theorem Derives.insert (h : Derives .prefixed ws e) (hj : j.operator = some (τ, make)) {vs : List Token}
    {e' : Tree} (h' : Derives m vs e') (hlow : 2 ≤ m.bond) (hhigh : m.bond ≤ 6) (him : i.bond ≤ m.bond)
    (hij : i.bond ≤ j.bond) : ∃ e'', Derives i (ws ++ (τ, op) :: vs) e'' := by
  obtain ⟨-, hjnext, hj6⟩ := bond_operator hj
  -- an operator that is looser than all others stands on top
  have loosest {m : Level} {vs : List Token} {e' : Tree} (h' : Derives m vs e') (hm : j.bond < m.bond) :
      ∃ e'', Derives i (ws ++ (τ, op) :: vs) e'' :=
    ⟨_, (Derives.between hj (h.loosen (show j.bond ≤ 6 by omega)) (h'.loosen (by omega))).loosen hij⟩
  induction h' generalizing i with
  | @tighter m vs e' h' ih =>
    by_cases hm : j.bond < m.next.bond
    · exact loosest h' hm
    · have hnext : m.bond ≤ m.next.bond := by cases m <;> decide
      exact ih (by omega) (by omega) (by omega) hij loosest
  | @between m σ make' vs us op' e₁ e₂ hm left right ih _ =>
    by_cases hlt : j.bond < m.bond
    · exact loosest (.between hm left right) hlt
    · obtain ⟨e'', hleft⟩ := ih hlow hhigh le_rfl (by omega) fun h' hlt => ⟨_, (Derives.between hj
        (h.loosen (show j.bond ≤ 6 by omega)) (h'.loosen (by omega))).loosen (by omega)⟩
      have hbetween : Derives m ((ws ++ (τ, op) :: vs) ++ (σ, op') :: us) _ := .between hm hleft right
      rw [List.append_assoc, List.cons_append] at hbetween
      exact ⟨_, hbetween.loosen him⟩
  | unary h' => exact loosest (.unary h') hj6
  | choice => exact absurd hlow (by decide)
  | _ => exact absurd hhigh (by decide)

/-! ## Rows -/

/-- **Operands with operators between them.** -/
inductive Row : List Token → Prop
  | one {ws : List Token} {e : Tree} (h : Derives .prefixed ws e) : Row ws
  | more {ws vs : List Token} {e : Tree} {l : Level} {τ : Terminal} {make : Text → Tree → Tree → Tree}
      {op : Text} (h : Derives .prefixed ws e) (hl : l.operator = some (τ, make)) (row : Row vs) :
      Row (ws ++ (τ, op) :: vs)

theorem Row.append (h : Row ws) (hl : l.operator = some (τ, make)) (h' : Row vs) :
    Row (ws ++ (τ, op) :: vs) := by
  induction h with
  | one h => exact .more h hl h'
  | more h hl' _ ih =>
    rw [List.append_assoc, List.cons_append]
    exact .more h hl' ih

theorem Derives.row (h : Derives l ws e) (hlow : 2 ≤ l.bond) (hhigh : l.bond ≤ 6) : Row ws := by
  induction h with
  | @tighter l _ _ h ih =>
    by_cases hl : l = .prefixed
    · subst hl
      exact .one (.tighter h)
    · have hnext : 2 ≤ l.next.bond ∧ l.next.bond ≤ 6 := by
        revert hl hlow hhigh
        cases l <;> decide
      exact ih hnext.1 hnext.2
  | between hl _ _ ihl ihr =>
    obtain ⟨-, hnext, hlt⟩ := bond_operator hl
    exact (ihl hlow hhigh).append hl (ihr (by omega) (by omega))
  | unary h => exact .one (.unary h)
  | choice => exact absurd hlow (by decide)
  | _ => exact absurd hhigh (by decide)

/-- **Rows are what the loosest level of operators derives.** -/
theorem row_iff : Row ws ↔ ∃ e, Derives .logical ws e := by
  refine ⟨fun h => ?_, fun ⟨e, h⟩ => h.row (by decide) (by decide)⟩
  induction h with
  | one h => exact ⟨_, h.loosen (by decide)⟩
  | more h hl _ ih =>
    obtain ⟨e, hrow⟩ := ih
    exact h.insert hl hrow (by decide) (by decide) le_rfl (bond_operator hl).1

/-! ## The first operand -/

/-- Whether tokens go on with a value, if there are any. -/
def GoesOn (ws : List Token) : Prop := ∀ w ∈ ws.head?, w.1 ∈ valueTerminals

theorem GoesOn.append (h : GoesOn ws) (h' : GoesOn vs) : GoesOn (ws ++ vs) := by
  cases ws with
  | nil => exact h'
  | cons w ws => exact h

theorem goesOn_cons (hτ : τ ∈ valueTerminals) : GoesOn ((τ, a) :: ws) :=
  fun _ h => Option.some.inj h ▸ hτ

/-- **An operand is accesses and calls** of a primary, and any other operand may stand in its place. -/
theorem Derives.exists_primary (h : Derives l ws e) (hl : 7 ≤ l.bond) : ∃ ps vs e', ws = ps ++ vs ∧
    Derives .primary ps e' ∧ GoesOn vs ∧
      ∀ us e', Derives .operand us e' → ∃ e'', Derives .operand (us ++ vs) e'' := by
  have whole {ps : List Token} {e : Tree} (h : Derives .primary ps e) : ∃ ps' vs e', ps = ps' ++ vs ∧
      Derives .primary ps' e' ∧ GoesOn vs ∧
        ∀ us e', Derives .operand us e' → ∃ e'', Derives .operand (us ++ vs) e'' :=
    ⟨ps, [], e, (List.append_nil _).symm, h, (fun _ h => nomatch h), fun us e' h => ⟨e', by simpa using h⟩⟩
  have hmarks : ∀ c ∈ ['.', '[', '('], Terminal.mark c ∈ valueTerminals := by simp [valueTerminals]
  induction h with
  | @tighter l _ _ h ih =>
    by_cases hl' : l = .operand
    · subst hl'
      exact whole h
    · exact ih (by revert hl hl'; cases l <;> decide)
  | @member ws _ n h ih =>
    obtain ⟨ps, vs, e', rfl, hp, hvs, hput⟩ := ih (by decide)
    refine ⟨ps, vs ++ [markToken '.', (.name, n)], e', by simp, hp, hvs.append (goesOn_cons (hmarks _ (by simp))),
      fun us e' hus => ?_⟩
    obtain ⟨e'', h⟩ := hput us e' hus
    exact ⟨_, List.append_assoc us .. ▸ h.member⟩
  | @index ws ks _ _ h key ih =>
    obtain ⟨ps, vs, e', rfl, hp, hvs, hput⟩ := ih (by decide)
    refine ⟨ps, vs ++ markToken '[' :: (ks ++ [markToken ']']), e', by simp, hp,
      hvs.append (goesOn_cons (hmarks _ (by simp))), fun us e' hus => ?_⟩
    obtain ⟨e'', h⟩ := hput us e' hus
    exact ⟨_, List.append_assoc us .. ▸ h.index key⟩
  | @callNone ws _ h ih =>
    obtain ⟨ps, vs, e', rfl, hp, hvs, hput⟩ := ih (by decide)
    refine ⟨ps, vs ++ [markToken '(', markToken ')'], e', by simp, hp,
      hvs.append (goesOn_cons (hmarks _ (by simp))), fun us e' hus => ?_⟩
    obtain ⟨e'', h⟩ := hput us e' hus
    exact ⟨_, List.append_assoc us .. ▸ h.callNone⟩
  | @call ws as _ _ more trailing h hfirst hsep hmore ih =>
    obtain ⟨ps, vs, e', rfl, hp, hvs, hput⟩ := ih (by decide)
    refine ⟨ps, vs ++ markToken '(' :: (as ++ (itemTokens more ++ (trailingComma trailing ++ [markToken ')']))),
      e', by simp, hp, hvs.append (goesOn_cons (hmarks _ (by simp))), fun us e' hus => ?_⟩
    obtain ⟨e'', h⟩ := hput us e' hus
    exact ⟨_, List.append_assoc us .. ▸ h.call hfirst hsep hmore⟩
  | string hq => exact whole (.string hq)
  | plainTemplate => exact whole .plainTemplate
  | template hfirst hsep hmore => exact whole (.template hfirst hsep hmore)
  | number => exact whole .number
  | name => exact whole .name
  | group h => exact whole (.group h)
  | between hl' =>
    have := (bond_operator hl').2.2
    omega
  | choice | unary => exact absurd hl (by decide)

/-- **A primary** is one token, a template, or an expression in parentheses. -/
theorem Derives.primary_cases (h : Derives l ws e) (hl : l = .primary) :
    (∃ τ a, ws = [(τ, a)] ∧ τ ≠ .unary ∧ τ ≠ .mark '(') ∨ (∃ a vs, ws = (.templateHead, a) :: vs) ∨
      ∃ vs e', ws = markToken '(' :: (vs ++ [markToken ')']) ∧ Derives .conditional vs e' := by
  induction h with
  | @tighter l _ _ h ih =>
    subst hl
    exact ih rfl
  | string hq => exact .inl ⟨_, _, rfl, by simp, by simp⟩
  | plainTemplate | number | name => exact .inl ⟨_, _, rfl, by simp, by simp⟩
  | template => exact .inr (.inl ⟨_, _, rfl⟩)
  | group h => exact .inr (.inr ⟨_, _, rfl, h⟩)
  | between hl' =>
    subst hl
    cases hl'
  | _ => cases hl

/-- **A row starts with operators and a primary**; without operators any other operand may stand in the
place of the primary. -/
theorem Row.exists_primary (h : Row ((τ, a) :: ws)) (hτ : τ ≠ .unary) : ∃ ps vs e,
    (τ, a) :: ws = ps ++ vs ∧ Derives .primary ps e ∧ GoesOn vs ∧
      ∀ us e', Derives .operand us e' → Row (us ++ vs) := by
  have operand {us : List Token} {e : Tree} (h : Derives .prefixed us e) (hus : ∀ w ∈ us.head?, w.1 ≠ .unary) :
      Derives .operand us e := by
    cases h with
    | tighter h => exact h
    | between hl => cases hl
    | unary => exact absurd rfl (hus _ rfl)
  generalize hws : (τ, a) :: ws = us at h
  cases h with
  | @one _ e h =>
    obtain ⟨ps, vs, e', rfl, hp, hvs, hput⟩ := (operand h (hws ▸ fun w hw => Option.some.inj hw ▸ hτ)).exists_primary
      (by decide)
    refine ⟨ps, vs, e', rfl, hp, hvs, fun us e' hus => ?_⟩
    obtain ⟨e'', h⟩ := hput us e' hus
    exact .one (.tighter h)
  | @more us₁ us₂ e l σ make op h hl row =>
    have hhead : ∀ w ∈ us₁.head?, w.1 ≠ .unary := by
      obtain ⟨σ', b, vs', rfl, -⟩ := h.exists_head
      obtain ⟨he, -⟩ := List.cons.inj hws
      exact fun w hw => Option.some.inj hw ▸ he ▸ hτ
    obtain ⟨ps, vs, e', rfl, hp, hvs, hput⟩ := (operand h hhead).exists_primary (by decide)
    have hσ : σ ∈ valueTerminals := by
      cases l with
      | logical | relational | additive | multiplicative =>
        obtain ⟨rfl, -⟩ := Prod.mk.inj (Option.some.inj hl)
        decide
      | _ => cases hl
    refine ⟨ps, vs ++ (σ, op) :: us₂, e', by simp, hp, hvs.append (goesOn_cons hσ), fun us e' hus => ?_⟩
    obtain ⟨e'', h⟩ := hput us e' hus
    rw [← List.append_assoc]
    exact .more (.tighter h) hl row

/-- A name may stand in the place of a name or a number. -/
theorem Row.name (h : Row ((τ, a) :: ws)) (hτ : τ = .name ∨ τ = .number) :
    Row ((.name, n) :: ws) ∧ GoesOn ws := by
  obtain ⟨ps, vs, e, hws, hp, hvs, hput⟩ := h.exists_primary (by rcases hτ with rfl | rfl <;> simp)
  rcases hp.primary_cases rfl with ⟨σ, b, rfl, -, -⟩ | ⟨b, us, rfl⟩ | ⟨us, e', rfl, -⟩
  · obtain ⟨-, rfl⟩ := List.cons.inj hws
    exact ⟨hput [(.name, n)] _ (.tighter .name), hvs⟩
  · obtain ⟨he, -⟩ := List.cons.inj hws
    obtain ⟨rfl, -⟩ := Prod.mk.inj he
    simp at hτ
  · obtain ⟨he, -⟩ := List.cons.inj hws
    obtain ⟨rfl, -⟩ := Prod.mk.inj he
    simp at hτ

/-- **A name before parentheses** calls it. -/
theorem Row.called (h : Row (markToken '(' :: ws)) : Row ((.name, n) :: markToken '(' :: ws) := by
  obtain ⟨ps, vs, e, hws, hp, -, hput⟩ := Row.exists_primary h (by simp)
  rcases hp.primary_cases rfl with ⟨σ, b, rfl, -, hne⟩ | ⟨b, us, rfl⟩ | ⟨us, e', rfl, he'⟩
  · exact absurd (congrArg Prod.fst (List.cons.inj hws).1).symm hne
  · cases congrArg Prod.fst (List.cons.inj hws).1
  · have hname : Derives .operand [(.name, n)] (.name n) := .tighter .name
    have hcall := @Derives.call _ _ _ _ [] false hname he' (by simp) (by simp)
    show Row ((.name, n) :: ((.mark '(', ['(']) :: ws))
    rw [hws]
    exact hput _ _ hcall

/-- An operator before a row. -/
theorem Row.unary (h : Row ws) : Row ((.unary, w) :: ws) := by
  cases h with
  | one h => exact .one (.unary h)
  | more h hl row => exact .more (.unary h) hl row

/-- **Behind an operator** stands a row. -/
theorem Row.of_unary (h : Row ((.unary, w) :: ws)) : Row ws := by
  have behind {us : List Token} {e : Tree} (h : Derives .prefixed ((.unary, w) :: us) e) :
      ∃ e', Derives .prefixed us e' := by
    generalize hts : (Terminal.unary, w) :: us = ts at h
    cases h with
    | tighter h =>
      obtain ⟨ps, vs, e', rfl, hp, -⟩ := Derives.exists_primary h (by decide)
      rcases hp.primary_cases rfl with ⟨σ, b, rfl, hne, -⟩ | ⟨b, us, rfl⟩ | ⟨us, e', rfl, -⟩
      · exact absurd (congrArg Prod.fst (List.cons.inj hts).1).symm hne
      all_goals cases congrArg Prod.fst (List.cons.inj hts).1
    | between hl => cases hl
    | unary h => exact ⟨_, (List.cons.inj hts).2 ▸ h⟩
  generalize hus : (Terminal.unary, w) :: ws = us at h
  cases h with
  | one h =>
    subst hus
    exact .one (behind h).choose_spec
  | @more us₁ us₂ e l σ make op h hl row =>
    obtain ⟨σ', b, vs', rfl, -⟩ := h.exists_head
    obtain ⟨he, rfl⟩ := List.cons.inj hus
    exact .more (behind (he ▸ h)).choose_spec hl row

end VariableImport.Script
