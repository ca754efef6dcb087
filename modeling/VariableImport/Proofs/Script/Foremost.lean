import VariableImport.Proofs.Script.Ahead

/-!
# Proofs/Script/Foremost — results that everything before them is held behind

A reader finds results in an order, and the first that goes on to the end of the text is what is parsed.
Results are foremost if everything before them leaves a text that what comes next cannot go on from
(`Foremost`); this is kept by what a reader does with its results one after the other.  A text that no
reader goes on from is `Held` by the token that stands there, and a reader that ends on it is left by all
levels above (`Held.found_steps`).
-/

namespace VariableImport.Script

open Reader

variable {α β γ : Type} {Q R : Text → Prop} {k m n : List (α × Text)} {p q : Reader α} {a : α}
  {s t u r : Text} {l : Level}

/-! ## Results in a row -/

/-- Whether results stand in a row among others, and those before them leave texts of a kind. -/
def Foremost (Q : Text → Prop) (k m : List (α × Text)) : Prop :=
  ∃ before after, m = before ++ (k ++ after) ∧ ∀ x ∈ before, Q x.2

theorem foremost_append (k m : List (α × Text)) : Foremost Q k (k ++ m) :=
  ⟨[], m, rfl, fun _ h => absurd h List.not_mem_nil⟩

theorem foremost_self (k : List (α × Text)) : Foremost Q k k := by
  simpa using foremost_append (Q := Q) k []

theorem Foremost.mono (h : Foremost Q k m) (hQR : ∀ t, Q t → R t) : Foremost R k m := by
  obtain ⟨before, after, e, hb⟩ := h
  exact ⟨before, after, e, fun x hx => hQR _ (hb x hx)⟩

theorem Foremost.trans (h : Foremost Q k m) (h' : Foremost Q m n) : Foremost Q k n := by
  obtain ⟨before, after, rfl, hb⟩ := h
  obtain ⟨before', after', rfl, hb'⟩ := h'
  refine ⟨before' ++ before, after ++ after', by simp, fun x hx => ?_⟩
  exact (List.mem_append.mp hx).elim (hb' x) (hb x)

theorem Foremost.append (h : Foremost Q k m) (n : List (α × Text)) : Foremost Q k (m ++ n) :=
  h.trans (foremost_append m n)

theorem Foremost.behind (h : Foremost Q k m) (hn : ∀ x ∈ n, Q x.2) : Foremost Q k (n ++ m) :=
  h.trans ⟨n, [], by simp, hn⟩

theorem Foremost.filter (h : Foremost Q k m) {P : α × Text → Bool} (hk : ∀ x ∈ k, P x = true) :
    Foremost Q k (m.filter P) := by
  obtain ⟨before, after, rfl, hb⟩ := h
  refine ⟨before.filter P, after.filter P, ?_, fun x hx => hb x (List.mem_filter.mp hx).1⟩
  rw [List.filter_append, List.filter_append, List.filter_eq_self.mpr hk]

/-- **Going on** after results in a row. -/
theorem Foremost.flatMap (h : Foremost Q k m) {F : α × Text → List (β × Text)}
    (hF : ∀ x, Q x.2 → ∀ y ∈ F x, R y.2) : Foremost R (k.flatMap F) (m.flatMap F) := by
  obtain ⟨before, after, rfl, hb⟩ := h
  refine ⟨before.flatMap F, after.flatMap F, ?_, fun y hy => ?_⟩
  · rw [List.flatMap_append, List.flatMap_append]
  · obtain ⟨x, hx, hy⟩ := List.mem_flatMap.mp hy
    exact hF x (hb x hx) y hy

theorem Foremost.bind {f : α → Reader β} (h : Foremost Q k (p s).found)
    (hf : ∀ a t, Q t → ∀ y ∈ (f a t).found, R y.2) :
    Foremost R (k.flatMap fun x => (f x.1 x.2).found) ((p >>= f) s).found := by
  rw [found_bind]
  exact h.flatMap fun x => hf x.1 x.2

/-- Reading on after one result, where nothing is read on after those before it. -/
theorem Foremost.next {f : α → Reader β} {m : List (β × Text)} (h : Foremost Q [(a, t)] (p s).found)
    (hf : ∀ a t, Q t → (f a t).found = []) (h' : Foremost R m (f a t).found) :
    Foremost R m ((p >>= f) s).found := by
  have := h.bind (R := R) fun b u hu y hy => absurd (hf b u hu ▸ hy) List.not_mem_nil
  rw [List.flatMap_singleton] at this
  exact h'.trans this

theorem Foremost.map {f : α → β} (h : Foremost Q [(a, t)] (p s).found) :
    Foremost Q [(f a, t)] ((p >>= fun a => pure (f a)) s).found := by
  have := h.bind (f := fun a => pure (f a)) (R := Q) fun b u hu y hy => (mem_pure.mp hy).2 ▸ hu
  rwa [List.flatMap_singleton] at this

theorem foremost_of_eq (h : (p s).found = [(a, t)]) : Foremost Q [(a, t)] (p s).found := h ▸ foremost_self _

/-- Steps are none, or one and further steps. -/
theorem found_steps {step : α → Reader α} (h : ∀ a, Takes 1 (step a)) (a : α) (s : Text) :
    (steps step a s).found = (a, s) :: (step a s).found.flatMap fun x => (steps step x.1 x.2).found := by
  rw [← found_stepsWithin h (Nat.le_succ s.length)]
  show (a, s) :: ((step a >>= stepsWithin step s.length) s).found = _
  rw [found_bind]
  refine congrArg _ (List.flatMap_congr fun x hx => found_stepsWithin h ?_ x.1)
  have := h a s x hx
  omega

theorem found_steps_nil {step : α → Reader α} (h : ∀ a, Takes 1 (step a)) (hs : (step a s).found = []) :
    (steps step a s).found = [(a, s)] := by
  rw [found_steps h, hs, List.flatMap_nil]

/-! ## The levels as readers -/

/-- The reader of a level. -/
def Level.reader : Level → Reader Tree
  | .conditional => Script.conditional expression
  | .logical => condition expression
  | .relational => comparison expression
  | .additive => sum expression
  | .multiplicative => product expression
  | .prefixed => Script.prefixed expression
  | .operand => Script.operand expression
  | .primary => Script.primary expression

/-- What goes on with an operand of a level on its right. -/
def Level.step (l : Level) (e : Tree) : Reader Tree :=
  match l.operator with
  | some (τ, make) => token τ >>= fun op => l.next.reader >>= fun right => pure (make op e right)
  | none => if l = .operand then postfixStep expression e else fail

theorem takes_expression : Takes 1 expression := fun s => takes_expressionWithin (s.length + 1) s

/-- **An expression is a conditional of expressions.** -/
theorem found_expression (s : Text) : (expression s).found = (Level.conditional.reader s).found := by
  have hnested : Cuts [] [] s.length 1 (expressionWithin s.length) expression :=
    ⟨fun u hu _ => cut_nil_iff.mpr (by rw [List.append_nil, List.nil_append, found_expressionWithin hu]),
      takes_expressionWithin _, takes_expression⟩
  have := (cuts_conditional blanks_nil boundary_nil hnested).cut s (Nat.lt_succ_self _) (.inl rfl)
  rw [List.append_nil, List.nil_append] at this
  exact cut_nil_iff.mp this

theorem Level.takes_reader (l : Level) : Takes 1 l.reader := by
  have hoperand : Takes 1 (Script.operand expression) :=
    (cuts_operand (n := 0) blanks_nil boundary_nil (cuts_self takes_expression)).takes
  have hproduct : Takes 1 (leftToRight .multiplicative .binary (Script.prefixed expression)) :=
    takes_leftToRight (takes_prefixed takes_expression)
  have hsum : Takes 1 (leftToRight .additive .binary _) := takes_leftToRight hproduct
  have hcomparison : Takes 1 (leftToRight .relational .binary _) := takes_leftToRight hsum
  cases l with
  | conditional =>
    exact (cuts_conditional (n := 0) blanks_nil boundary_nil (cuts_self takes_expression)).takes
  | logical => exact takes_leftToRight hcomparison
  | relational => exact hcomparison
  | additive => exact hsum
  | multiplicative => exact hproduct
  | prefixed => exact takes_prefixed takes_expression
  | operand => exact hoperand
  | primary => exact (cuts_primary (n := 0) blanks_nil boundary_nil (cuts_self takes_expression)).takes

theorem step_of_operator {τ : Terminal} {make : Text → Tree → Tree → Tree}
    (hl : l.operator = some (τ, make)) (e : Tree) :
    l.step e = token τ >>= fun op => l.next.reader >>= fun right => pure (make op e right) := by
  rw [Level.step, hl]

theorem step_of_ne (hl : l.operator = none) (hne : l ≠ .operand) (e : Tree) : l.step e = fail := by
  rw [Level.step, hl]
  exact if_neg hne

theorem Level.takes_step (l : Level) (e : Tree) : Takes 1 (l.step e) := by
  cases hl : l.operator with
  | some x =>
    rw [step_of_operator hl]
    exact (Takes.token _).bind fun _ => (l.next.takes_reader.bind fun _ => .pure _).of_le (Nat.zero_le 1)
  | none =>
    by_cases hoperand : l = .operand
    · subst hoperand
      exact (cuts_postfixStep (n := 0) boundary_nil (cuts_self takes_expression) e).takes
    · exact step_of_ne hl hoperand e ▸ takes_fail 1

/-- Where no operand starts nothing is read. -/
theorem Barren.found_reader (h : Barren s) (l : Level) : (l.reader s).found = [] := by
  have hprefixed : (Script.prefixed expression s).found = [] := found_prefixed_nil fun _ => h.found_token
  have hprimary : (Script.primary expression s).found = [] := found_primary_nil fun _ => h.found_token
  have hsum : (Script.sum expression s).found = [] := found_bind_nil (found_bind_nil hprefixed _) _
  have hcondition : (Script.condition expression s).found = [] :=
    found_bind_nil (found_bind_nil hsum _) _
  cases l with
  | conditional => exact found_bind_nil hcondition _
  | logical => exact hcondition
  | relational => exact found_bind_nil hsum _
  | additive => exact hsum
  | multiplicative => exact found_bind_nil hprefixed _
  | prefixed => exact hprefixed
  | operand => exact found_bind_nil hprimary _
  | primary => exact hprimary

theorem Barren.found_expression (h : Barren s) : (expression s).found = [] :=
  (Script.found_expression s).trans (h.found_reader _)

theorem bond_le_next (l : Level) : l.bond ≤ l.next.bond := by cases l <;> decide

theorem bond_of_operator {τ : Terminal} {make : Text → Tree → Tree → Tree}
    (hl : l.operator = some (τ, make)) : τ ∈ valueTerminals ∧ τ ≠ .mark '.' ∧ τ.bond = l.bond ∧
      l.bond < l.next.bond := by
  cases l with
  | logical | relational | additive | multiplicative =>
    obtain ⟨rfl, -⟩ := Prod.mk.inj (Option.some.inj hl)
    decide
  | _ => cases hl

/-- **A value that is held goes on with no step** of a looser level. -/
theorem Held.found_step {l : Level} (h : Held l.next.bond t) (e : Tree) : (l.step e t).found = [] := by
  cases hl : l.operator with
  | some x =>
    obtain ⟨hmem, -, hbond, hlt⟩ := bond_of_operator hl
    rw [step_of_operator hl, found_bind]
    exact List.flatMap_eq_nil_iff.mpr fun op hop =>
      found_bind_nil ((h.token x.1 hmem (hbond ▸ hlt) op hop).2.found_reader _) _
  | none =>
    by_cases hoperand : l = .operand
    · subst hoperand
      refine List.append_eq_nil_iff.mpr
        ⟨found_bind_nil (h.found_mark (by decide) (by decide) (by decide)) _, List.append_eq_nil_iff.mpr
          ⟨found_bind_nil (h.found_mark (by decide) (by decide) (by decide)) _,
            found_bind_nil (h.found_mark (by decide) (by decide) (by decide)) _⟩⟩
    · rw [step_of_ne hl hoperand]
      rfl

theorem Held.found_steps {l : Level} (h : Held l.next.bond t) (e : Tree) :
    (steps l.step e t).found = [(e, t)] := found_steps_nil l.takes_step (h.found_step e)

end VariableImport.Script
