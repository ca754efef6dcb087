import VariableImport.Proofs.Script.Context
import VariableImport.Proofs.Script.Language

/-!
# Proofs/Script/Embedding — an expression is read in front of a context as it is read alone

Every reader of the grammar cuts itself from a context: from the readers nested in it, level by level
(`cuts_conditional`), and so for expressions by induction on how much text there is
(`cuts_expressionWithin`).  Neither the room for nesting nor the number of steps that the longer text
allows makes a difference (`cuts_expression`).
-/

namespace VariableImport.Script

open Reader

variable {g k : Text} {n : ℕ} {nested nested' : Reader Tree}

/-! ## Marks and tokens -/

/-- A mode that admits a terminal, if any does. -/
def Mode.admitting : Terminal → Mode
  | .mark c => ⟨[c], false⟩
  | _ => ⟨['`'], false⟩

theorem cuts_admitted (hg : Blanks g) (hk : Boundary k) {τ : Terminal}
    (hτ : ((Mode.admitting τ).follow τ).isSome = true) (n : ℕ) : Cuts g k n 1 (token τ) (token τ) := by
  obtain ⟨m', hf⟩ := Option.isSome_iff_exists.mp hτ
  exact cuts_token hg hk hf n

theorem cuts_mark (hg : Blanks g) (hk : Boundary k) {c : Char}
    (hc : ((Mode.admitting (.mark c)).follow (.mark c)).isSome = true) (n : ℕ) :
    Cuts g k n 1 (mark c) (mark c) :=
  (cuts_admitted hg hk hc n).map fun _ => ()

theorem blanks_nil : Blanks [] := fun _ hc => absurd hc List.not_mem_nil

theorem cuts_optionalComma (hk : Boundary k) (n : ℕ) : Cuts [] k n 0 optionalComma optionalComma :=
  (cuts_pure n ()).orElse ((cuts_mark blanks_nil hk rfl n).of_takes (Nat.zero_le 1))

/-! ## Lists and templates -/

theorem cuts_commaSeparated (hk : Boundary k) (h : Cuts [] k n 1 nested nested') (begun : List Tree) :
    Cuts [] k n 0 (commaSeparated nested begun) (commaSeparated nested' begun) := by
  refine (cuts_steps (fun items => ?_) begun).map _
  exact (cuts_mark blanks_nil hk rfl n).bind fun _ => h.map (· :: items)

theorem cuts_arguments (hk : Boundary k) (h : Cuts [] k n 1 nested nested') :
    Cuts [] k n 1 (arguments nested) (arguments nested') := by
  have hclose : Cuts [] k n 1 (mark ')') (mark ')') := cuts_mark blanks_nil hk rfl n
  refine (hclose.map fun _ => []).orElse (h.bind (e := 0) fun first => ?_)
  refine (cuts_commaSeparated hk h [first]).bind (e := 0) fun items => ?_
  exact (cuts_optionalComma hk n).bind fun _ => hclose.map fun _ => items

theorem cuts_templateWithHoles (hg : Blanks g) (hk : Boundary k) (h : Cuts [] k n 1 nested nested') :
    Cuts g k (n + 1) 1 (templateWithHoles nested) (templateWithHoles nested') := by
  have htoken {τ : Terminal} (hτ : ((Mode.admitting τ).follow τ).isSome = true) :
      Cuts [] k n 1 (token τ) (token τ) := cuts_admitted blanks_nil hk hτ n
  refine (cuts_admitted hg hk rfl _).next fun head => h.bind (e := 0) fun first => ?_
  refine (cuts_steps (fun (quasis, holes) => ?_) _).bind (e := 1) fun (quasis, holes) => ?_
  · exact (htoken rfl).map fun tail => Tree.template (tail :: quasis).reverse holes.reverse
  · exact (htoken rfl).bind fun quasi => h.map fun hole => (quasi :: quasis, hole :: holes)

/-! ## Operands -/

theorem cuts_primary (hg : Blanks g) (hk : Boundary k) (h : Cuts [] k n 1 nested nested') :
    Cuts g k (n + 1) 1 (primary nested) (primary nested') := by
  have htoken {τ : Terminal} (hτ : ((Mode.admitting τ).follow τ).isSome = true) :
      Cuts g k (n + 1) 1 (token τ) (token τ) := cuts_admitted hg hk hτ _
  refine ((htoken rfl).map _).orElse (((htoken rfl).map _).orElse (((htoken rfl).map _).orElse
    ((cuts_templateWithHoles hg hk h).orElse (((htoken rfl).map _).orElse
      (((htoken rfl).map _).orElse ?_)))))
  exact (cuts_mark hg hk rfl _).next fun _ => h.bind fun e =>
    (cuts_mark blanks_nil hk rfl n).map fun _ => e

theorem cuts_postfixStep (hk : Boundary k) (h : Cuts [] k n 1 nested nested') (e : Tree) :
    Cuts [] k (n + 1) 1 (postfixStep nested e) (postfixStep nested' e) := by
  have hmark {c : Char} (hc : ((Mode.admitting (.mark c)).follow (.mark c)).isSome = true) (n : ℕ) :
      Cuts [] k n 1 (mark c) (mark c) := cuts_mark blanks_nil hk hc n
  refine ((hmark rfl _).next fun _ => (cuts_admitted blanks_nil hk rfl n).map _).orElse (.orElse ?_ ?_)
  · exact (hmark rfl _).next fun _ => h.bind fun key => (hmark rfl n).map fun _ => _
  · exact (hmark rfl _).next fun _ => (cuts_arguments hk h).map _

theorem cuts_operand (hg : Blanks g) (hk : Boundary k) (h : Cuts [] k n 1 nested nested') :
    Cuts g k (n + 1) 1 (operand nested) (operand nested') :=
  (cuts_primary hg hk h).bind fun e => cuts_steps (cuts_postfixStep hk h) e

/-! ## Operators before an operand -/

theorem Takes.prefixedWithin (h : Takes 1 (operand nested)) (j : ℕ) :
    Takes 1 (prefixedWithin nested j) := by
  induction j with
  | zero => exact takes_fail 1
  | succ j ih => exact h.orWhereNot ((Takes.token _).bind fun _ => ih.bind fun _ => .pure _)

/-- However many operators the longer text may hold. -/
theorem cuts_prefixedWithin (hg : Blanks g) (hk : Boundary k)
    (h : ∀ {g}, Blanks g → Cuts g k n 1 (operand nested) (operand nested')) {j j' l : ℕ} (hl : l ≤ n)
    (hj : l ≤ j) (hj' : l ≤ j') :
    Cuts g k l 1 (prefixedWithin nested j) (prefixedWithin nested' j') := by
  induction l generalizing g j j' with
  | zero =>
    exact ⟨fun u hu => absurd hu (Nat.not_lt_zero _), .prefixedWithin (h hg).takes j,
      .prefixedWithin (h hg).takes' j'⟩
  | succ l ih =>
    cases j with
    | zero => simp at hj
    | succ j =>
      cases j' with
      | zero => simp at hj'
      | succ j' =>
        refine ((h hg).of_le hl).orWhereNot ((cuts_admitted hg hk rfl _).next (e := 1) fun operator => ?_)
        exact (ih blanks_nil (by omega) (by omega) (by omega)).map _

theorem cuts_prefixed (hg : Blanks g) (hk : Boundary k) (h : Cuts [] k n 1 nested nested') :
    Cuts g k (n + 1) 1 (prefixed nested) (prefixed nested') := by
  have hoperand {g : Text} (hg : Blanks g) : Cuts g k (n + 1) 1 (operand nested) (operand nested') :=
    cuts_operand hg hk h
  refine ⟨fun u hu hgu => ?_, fun s => Takes.prefixedWithin (hoperand hg).takes _ s,
    fun s => Takes.prefixedWithin (hoperand hg).takes' _ s⟩
  have hlen : u.length + 1 ≤ (g ++ (u ++ k)).length + 1 := by
    rw [List.length_append, List.length_append]
    omega
  exact (cuts_prefixedWithin hg hk hoperand hu hlen le_rfl).cut u (Nat.lt_succ_self _) hgu

/-! ## Expressions -/

theorem cuts_leftToRight (hk : Boundary k) {operator : Terminal}
    (hop : ((Mode.admitting operator).follow operator).isSome = true)
    (make : Text → Tree → Tree → Tree) {item item' : Reader Tree} (hg : Cuts g k n 1 item item')
    (h : Cuts [] k n 1 item item') :
    Cuts g k n 1 (leftToRight operator make item) (leftToRight operator make item') := by
  refine hg.bind fun left => cuts_steps (fun left => ?_) left
  exact (cuts_admitted blanks_nil hk hop n).bind fun op => h.map (make op left)

theorem cuts_condition (hg : Blanks g) (hk : Boundary k) (h : Cuts [] k n 1 nested nested') :
    Cuts g k (n + 1) 1 (condition nested) (condition nested') := by
  have hproduct {g : Text} (hg : Blanks g) : Cuts g k (n + 1) 1 (product nested) (product nested') :=
    cuts_leftToRight hk rfl _ (cuts_prefixed hg hk h) (cuts_prefixed blanks_nil hk h)
  have hsum {g : Text} (hg : Blanks g) : Cuts g k (n + 1) 1 (sum nested) (sum nested') :=
    cuts_leftToRight hk rfl _ (hproduct hg) (hproduct blanks_nil)
  have hcomparison {g : Text} (hg : Blanks g) :
      Cuts g k (n + 1) 1 (comparison nested) (comparison nested') :=
    cuts_leftToRight hk rfl _ (hsum hg) (hsum blanks_nil)
  exact cuts_leftToRight hk rfl _ (hcomparison hg) (hcomparison blanks_nil)

/-- **A level more of nesting** is cut from the context with a character more of text. -/
theorem cuts_conditional (hg : Blanks g) (hk : Boundary k) (h : Cuts [] k n 1 nested nested') :
    Cuts g k (n + 1) 1 (conditional nested) (conditional nested') := by
  refine (cuts_condition hg hk h).bind fun test =>
    (cuts_pure _ test).orElse (Cuts.of_takes ?_ (Nat.zero_le 1))
  refine (cuts_mark blanks_nil hk rfl _).next fun _ => h.bind (e := 1) fun consequent => ?_
  exact (cuts_mark blanks_nil hk rfl n).bind fun _ => h.map (Tree.conditional test consequent)

theorem takes_expressionWithin (j : ℕ) : Takes 1 (expressionWithin j) := by
  rintro s ⟨e, t⟩ hx
  obtain ⟨ws, hws, h⟩ := (recognizes_expressionWithin j s t).mp ⟨e, hx⟩
  have := h.length_le Gap.suffix
  have := List.length_pos_of_ne_nil (ne_nil_of_mem_expressions (Language.mem_iSup.mpr ⟨j, hws⟩))
  dsimp only
  omega

/-- However deep expressions nest in the longer text. -/
theorem cuts_expressionWithin (hg : Blanks g) (hk : Boundary k) {j j' : ℕ} (hj : n ≤ j) (hj' : n ≤ j') :
    Cuts g k n 1 (expressionWithin j) (expressionWithin j') := by
  induction n generalizing g j j' with
  | zero =>
    exact ⟨fun u hu => absurd hu (Nat.not_lt_zero _), takes_expressionWithin j, takes_expressionWithin j'⟩
  | succ n ih =>
    cases j with
    | zero => simp at hj
    | succ j =>
      cases j' with
      | zero => simp at hj'
      | succ j' =>
        exact cuts_conditional hg hk (ih blanks_nil (by omega) (by omega))

/-- **Reading an expression in front of a context**, behind blanks, is reading it alone. -/
theorem cut_expression (hg : Blanks g) (hk : Boundary k) {u : Text} (hu : Behind g u) :
    Cut k (expression (g ++ (u ++ k))).found (expression u).found := by
  have hlen : u.length + 1 ≤ (g ++ (u ++ k)).length + 1 := by
    rw [List.length_append, List.length_append]
    omega
  exact (cuts_expressionWithin hg hk hlen le_rfl).cut u (Nat.lt_succ_self _) hu

end VariableImport.Script
