import VariableImport.Proofs.Script.Steady

/-!
# Proofs/Script/SteadyGrammar — alike texts are read alike

Every reader of the grammar is steady: what a comment begins with is no division that goes on.  So alike texts
are parsed as the same expression (`parse_alike`), whatever the room for nesting and steps that the longer one
allows.
-/

namespace VariableImport.Script

open Reader

variable {s t u : Text} {τ : Terminal} {nested : Reader Tree}

/-! ## Lists and operands -/

theorem steady_mark {c : Char} (hc : isPlain c = true) : Steady (mark c) :=
  (steady_token (τ := .mark c) hc (by simp)).map fun _ => ()

theorem takes_mark (c : Char) : Takes 1 (mark c) := (Takes.token _).bind fun _ => .pure ()

theorem boundary_nil : Boundary [] := fun _ h => nomatch h

theorem steady_optionalComma : Steady optionalComma := (steady_pure ()).orElse (steady_mark (by decide))

theorem Steady.commaSeparated (h : Steady nested) (hn : Takes 1 nested) (begun : List Tree) :
    Steady (commaSeparated nested begun) := by
  refine (Steady.steps (fun items => ?_) (fun items => ?_) begun).map _
  · exact (steady_mark (by decide)).bind fun _ => h.map (· :: items)
  · exact (takes_mark ',').bind fun _ => (hn.bind fun _ => .pure _).of_le (Nat.zero_le 1)

theorem Steady.arguments (h : Steady nested) (hn : Takes 1 nested) : Steady (arguments nested) := by
  have hclose : Steady (mark ')') := steady_mark (by decide)
  refine (hclose.map fun _ => []).orElse (h.bind fun first => ?_)
  refine (h.commaSeparated hn [first]).bind fun items => ?_
  exact steady_optionalComma.bind fun _ => hclose.map fun _ => items

theorem Steady.templateWithHoles (h : Steady nested) (hn : Takes 1 nested) :
    Steady (templateWithHoles nested) := by
  refine (steady_token rfl (by simp)).bind fun head => h.bind fun first => ?_
  refine (Steady.steps (fun (quasis, holes) => ?_) (fun (quasis, holes) => ?_) _).bind
    fun (quasis, holes) => ?_
  · exact (steady_token rfl (by simp)).map fun tail => Tree.template (tail :: quasis).reverse holes.reverse
  · exact (steady_token rfl (by simp)).bind fun quasi => h.map fun hole => (quasi :: quasis, hole :: holes)
  · exact (Takes.token _).bind fun _ => (hn.bind fun _ => .pure _).of_le (Nat.zero_le 1)

theorem Steady.primary (h : Steady nested) (hn : Takes 1 nested) : Steady (primary nested) := by
  have htoken {τ : Terminal} (hτ : τ.isToken = true) (hne : τ ≠ .multiplicative) : Steady (token τ) :=
    steady_token hτ hne
  refine ((htoken rfl (by simp)).map _).orElse (((htoken rfl (by simp)).map _).orElse
    (((htoken rfl (by simp)).map _).orElse ((h.templateWithHoles hn).orElse
      (((htoken rfl (by simp)).map _).orElse (((htoken rfl (by simp)).map _).orElse ?_)))))
  exact (steady_mark (by decide)).bind fun _ => h.bind fun e => (steady_mark (by decide)).map fun _ => e

theorem Steady.postfixStep (h : Steady nested) (hn : Takes 1 nested) (e : Tree) :
    Steady (postfixStep nested e) := by
  refine ((steady_mark (by decide)).bind fun _ => (steady_token rfl (by simp)).map _).orElse (.orElse ?_ ?_)
  · exact (steady_mark (by decide)).bind fun _ => h.bind fun key => (steady_mark (by decide)).map fun _ => _
  · exact (steady_mark (by decide)).bind fun _ => (h.arguments hn).map _

theorem Steady.operand (h : Steady nested) (hn : Takes 1 nested) : Steady (operand nested) := by
  refine (h.primary hn).bind fun e => Steady.steps (h.postfixStep hn) (fun e => ?_) e
  exact (cuts_postfixStep boundary_nil (cuts_self (n := 0) hn) e).takes

theorem Steady.prefixedWithin (h : Steady nested) (hn : Takes 1 nested) (n : ℕ) :
    Steady (prefixedWithin nested n) := by
  induction n with
  | zero => exact steady_fail
  | succ n ih =>
    exact (h.operand hn).orWhereNot ((steady_token rfl (by simp)).bind fun _ => ih.map _)

/-- More operators before an operand than a text has characters are no more. -/
theorem found_prefixedWithin (hn : Takes 1 nested) {n : ℕ} (hs : s.length < n) :
    (prefixedWithin nested n s).found = (prefixed nested s).found := by
  have := (cuts_prefixedWithin (g := []) (k := []) (n := s.length + 1) blanks_nil boundary_nil
    (fun hg => cuts_operand hg boundary_nil (cuts_self hn)) le_rfl hs le_rfl).cut s (Nat.lt_succ_self _)
      (.inl rfl)
  rw [List.append_nil, List.nil_append] at this
  exact cut_nil_iff.mp this

/-- **Operators before an operand**, as many as there is room for in either text. -/
theorem Steady.prefixed (h : Steady nested) (hn : Takes 1 nested) : Steady (prefixed nested) := by
  intro c s t hst
  have := h.prefixedWithin hn (max s.length t.length + 1) c s t hst
  rwa [found_prefixedWithin hn (Nat.lt_succ_of_le (le_max_left ..)),
    found_prefixedWithin hn (Nat.lt_succ_of_le (le_max_right ..))] at this

theorem Steady.leftToRight {operator : Terminal} (hop : operator.isToken = true)
    (hne : operator ≠ .multiplicative) (make : Text → Tree → Tree → Tree) {item : Reader Tree}
    (h : Steady item) (hn : Takes 1 item) : Steady (leftToRight operator make item) := by
  refine h.bind fun left => Steady.steps (fun left => ?_) (fun left => ?_) left
  · exact (steady_token hop hne).bind fun op => h.map (make op left)
  · exact (Takes.token _).bind fun _ => (hn.bind fun _ => .pure _).of_le (Nat.zero_le 1)

/-! ## Products -/

/-- At a stub begins no operand. -/
theorem found_token_stub (hs : IsStub s) (hτ : τ.isToken = true) (hstarts : τ.starts '/' = false ∧ τ.starts '*' = false) :
    (token τ s).found = [] := by
  obtain ⟨hgap, c, hc, hslash⟩ := hs
  obtain ⟨u, rfl⟩ := List.head?_eq_some_iff.mp hc
  have hnone : τ.scan (c :: u) = none := scan_eq_none (by rcases hslash with rfl | rfl; exacts [hstarts.1, hstarts.2]) u
  obtain ⟨l, hl, hstub⟩ := found_token_skips hτ (.here hgap)
  have hne : τ ≠ .multiplicative := by
    rintro rfl
    exact absurd hstarts.1 (by decide)
  rw [hl, hnone, List.eq_nil_iff_forall_not_mem.mpr fun x hx => hne (hstub x hx).1]
  rfl

/-- The terminals that an operand may start with. -/
def operandTerminals : List Terminal :=
  [.quoted '\'', .quoted '"', .plainTemplate, .templateHead, .number, .name, .mark '(', .unary]

section Nothing

variable (h : ∀ τ ∈ operandTerminals, (token τ s).found = [])

include h

theorem found_primary_nil : (primary nested s).found = [] := by
  have htoken {τ : Terminal} (hτ : τ ∈ operandTerminals) {β : Type} (f : Text → Reader β) :
      ((token τ >>= f) s).found = [] := found_bind_nil (h τ hτ) f
  have hor {p q : Reader Tree} (hp : (p s).found = []) (hq : (q s).found = []) : ((p <|> q) s).found = [] :=
    List.append_eq_nil_iff.mpr ⟨hp, hq⟩
  exact hor (htoken (by decide) _) <| hor (htoken (by decide) _) <| hor (htoken (by decide) _) <|
    hor (htoken (by decide) _) <| hor (htoken (by decide) _) <| hor (htoken (by decide) _) <|
      found_bind_nil (htoken (by decide) _) _

/-- Where no operand starts none is read. -/
theorem found_prefixed_nil : (prefixed nested s).found = [] := by
  show (prefixedWithin nested (s.length + 1) s).found = []
  rw [prefixedWithin]
  refine List.append_eq_nil_iff.mpr ⟨found_bind_nil (found_primary_nil h) _, ?_⟩
  rw [found_bind_nil (h .unary (by decide))]
  rfl

end Nothing

theorem found_prefixed_stub (hs : IsStub s) : (prefixed nested s).found = [] := by
  have hstarts : ∀ τ ∈ operandTerminals, τ.isToken = true ∧ τ.starts '/' = false ∧ τ.starts '*' = false := by
    decide
  exact found_prefixed_nil fun τ hτ => found_token_stub hs (hstarts τ hτ).1 (hstarts τ hτ).2

theorem takes_leftToRight {operator : Terminal} {make : Text → Tree → Tree → Tree} {item : Reader Tree}
    (h : Takes 1 item) : Takes 1 (leftToRight operator make item) := by
  have hstep (left : Tree) : Takes 1 (token operator >>= fun op => item >>= fun right =>
      pure (make op left right)) :=
    (Takes.token _).bind fun _ => (h.bind fun _ => .pure _).of_le (Nat.zero_le 1)
  exact h.bind fun left s => Takes.stepsWithin hstep s.length left s

theorem takes_prefixed (hn : Takes 1 nested) : Takes 1 (prefixed nested) :=
  (cuts_prefixed (n := 0) blanks_nil boundary_nil (cuts_self hn)).takes

theorem Steady.product (h : Steady nested) (hn : Takes 1 nested) : Steady (Script.product nested) := by
  have hprefixed := h.prefixed hn
  have hstep (left : Tree) : Steady (token .multiplicative >>= fun op =>
      Script.prefixed nested >>= fun right => pure (Tree.binary op left right)) :=
    steady_multiplicative (fun op => hprefixed.map (Tree.binary op left))
      fun _ _ hu => found_bind_nil (found_prefixed_stub hu) _
  have htakes (left : Tree) : Takes 1 (token .multiplicative >>= fun op =>
      Script.prefixed nested >>= fun right => pure (Tree.binary op left right)) :=
    (Takes.token _).bind fun _ => ((takes_prefixed hn).bind fun _ => .pure _).of_le (Nat.zero_le 1)
  exact hprefixed.bind fun left => Steady.steps hstep htakes left

/-! ## Expressions -/

theorem Steady.condition (h : Steady nested) (hn : Takes 1 nested) : Steady (Script.condition nested) := by
  have hproduct : Takes 1 (Script.product nested) := takes_leftToRight (takes_prefixed hn)
  have hsum : Takes 1 (Script.sum nested) := takes_leftToRight hproduct
  have hcomparison : Takes 1 (Script.comparison nested) := takes_leftToRight hsum
  exact (((h.product hn).leftToRight rfl (by simp) _ hproduct).leftToRight rfl (by simp) _ hsum).leftToRight
    rfl (by simp) _ hcomparison

theorem Steady.conditional (h : Steady nested) (hn : Takes 1 nested) :
    Steady (Script.conditional nested) := by
  refine (h.condition hn).bind fun test => (steady_pure test).orElse ?_
  refine (steady_mark (by decide)).bind fun _ => h.bind fun consequent => ?_
  exact (steady_mark (by decide)).bind fun _ => h.map (Tree.conditional test consequent)

theorem steady_expressionWithin (n : ℕ) : Steady (expressionWithin n) := by
  induction n with
  | zero => exact steady_fail
  | succ n ih => exact ih.conditional (takes_expressionWithin n)

/-- More room for nesting than a text has characters is no more room. -/
theorem found_expressionWithin {n : ℕ} (hs : s.length < n) :
    (expressionWithin n s).found = (expression s).found := by
  have := (cuts_expressionWithin (n := s.length + 1) blanks_nil boundary_nil hs le_rfl).cut s
    (Nat.lt_succ_self _) (.inl rfl)
  rw [List.append_nil, List.nil_append] at this
  exact cut_nil_iff.mp this

/-- **Expressions are read alike** in alike texts, with the room for nesting that either gives. -/
theorem steady_expression : Steady expression := by
  intro c s t h
  have := steady_expressionWithin (max s.length t.length + 1) c s t h
  rwa [found_expressionWithin (Nat.lt_succ_of_le (le_max_left ..)),
    found_expressionWithin (Nat.lt_succ_of_le (le_max_right ..))] at this

theorem steady_importCall : Steady importCall := by
  refine (steady_token rfl (by simp)).bind fun _ => (steady_mark (by decide)).bind fun _ =>
    steady_expression.bind fun argument => ?_
  refine ((steady_pure none).orElse ((steady_mark (by decide)).bind fun _ =>
    steady_expression.map some)).bind fun options => ?_
  exact steady_optionalComma.bind fun _ => (steady_mark (by decide)).map fun _ => _

/-- The end of alike texts. -/
theorem found_toEnd_alike {c : Option Char} (h : Alike c s t) (x : Source) :
    List.Forall₂ (fun x y => x.1 = y.1) (toEnd x s).found (toEnd x t).found := by
  show List.Forall₂ _ ((finish >>= fun _ => pure x) s).found ((finish >>= fun _ => pure x) t).found
  rw [found_bind, found_bind]
  cases h with
  | done hs ht =>
    rw [found_finish_skips hs, found_finish_skips ht]
    exact .cons rfl .nil
  | piece hw hs ht _ _ _ =>
    rw [found_finish_skips hs, found_finish_skips ht, if_neg (by simp [hw.ne_nil]),
      if_neg (by simp [hw.ne_nil])]
    exact .nil

/-- **Alike sources have the same readings.** -/
theorem found_source_alike {c : Option Char} (h : Alike c s t) :
    List.Forall₂ (fun x y => x.1 = y.1) (source s).found (source t).found := by
  have hfirst := steady_importCall.orElse (steady_expression.map Source.expression)
  rw [source_eq, found_bind, found_bind]
  refine List.rel_flatMap (hfirst c s t h) fun x y ⟨ha, hxy⟩ => ?_
  obtain ⟨d, h'⟩ := h.later hxy
  rw [ha]
  exact found_toEnd_alike h' y.1

/-- **Alike texts are parsed as the same expression.** -/
theorem parse_alike {c : Option Char} (h : Alike c (Text.trim s) (Text.trim t)) {e : Expression} :
    parse s = .ok e ↔ parse t = .ok e := by
  rw [parse_eq_ok, parse_eq_ok]
  have hfound := found_source_alike h
  generalize (source (Text.trim s)).found = l at hfound ⊢
  generalize (source (Text.trim t)).found = m at hfound ⊢
  cases hfound with
  | nil => simp
  | @cons x y _ _ hxy =>
    obtain ⟨tree, r⟩ := x
    obtain ⟨tree', r'⟩ := y
    obtain rfl : tree = tree' := hxy
    simp

end VariableImport.Script
