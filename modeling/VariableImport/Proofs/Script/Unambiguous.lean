import VariableImport.Proofs.Script.Derivation

/-!
# Proofs/Script/Unambiguous — tokens derive one tree

A stack of what waits for the value under way reads tokens one by one (`Stack.feed`).  An operator
first folds everything that binds at least as tight (`reduce`), so the stack never looks ahead and
never tries twice: what tokens derive is what the stack has read once they are over (`Derives.run`),
and they derive one tree at most (`Derives.unique`, `DerivesSource.unique`).
-/

namespace VariableImport.Script

/-! ## The stack -/

/-- The rank below which what waits may stay while an operand of a level is read: a level with its
operand on the right may wait for one of its own. -/
def Level.guard : Level → ℕ
  | .conditional => 1
  | .prefixed => 6
  | l => l.rank

/-- What waits for a value. -/
inductive Frame where
  | unary (op : Text)
  /-- An operand on the left of an operator of a level. -/
  | left (l : Level) (op : Text) (e : Tree)
  /-- The test of a choice. -/
  | test (e : Tree)
  /-- The test and the first branch of a choice. -/
  | choice (e e' : Tree)
  | group
  | index (e : Tree)
  /-- A call and its arguments so far, in reverse. -/
  | call (e : Tree) (begun : List Tree)
  /-- A template with its fragments and expressions so far, in reverse. -/
  | template (quasis : List Text) (holes : List Tree)

/-- The rank of a frame that needs nothing but the value, and what it makes of it. -/
def Frame.fold : Frame → Option (ℕ × (Tree → Tree))
  | .unary op => some (Level.prefixed.rank, .unary op)
  | .left l op e => l.operator.map fun x => (l.rank, x.2 op e)
  | .choice e e' => some (Level.conditional.rank, .conditional e e')
  | .test _ | .group | .index _ | .call _ _ | .template _ _ => none

/-- The stack and the value after folding the frames of a rank and tighter ones. -/
def reduce (k : ℕ) : List Frame → Tree → List Frame × Tree
  | [], e => ([], e)
  | f :: F, e =>
    match f.fold with
    | some (j, g) => if k ≤ j then reduce k F (g e) else (f :: F, e)
    | none => (f :: F, e)

/-- Where reading stands: before an operand, behind a value, or behind a value and a dot. -/
inductive Stack where
  | operand (F : List Frame)
  | value (F : List Frame) (e : Tree)
  | member (F : List Frame) (e : Tree)

namespace Stack

/-- Behind an operator of a level. -/
def behind (l : Level) (op : Text) (F : List Frame) (e : Tree) : Stack :=
  let (F, e) := reduce l.rank F e
  .operand (.left l op e :: F)

/-- **One token.** -/
def feed : Stack → Token → Option Stack
  | .operand F, (.quoted '\'', body) => some (.value F (.string body))
  | .operand F, (.quoted '"', body) => some (.value F (.string body))
  | .operand F, (.plainTemplate, quasi) => some (.value F (.template [quasi] []))
  | .operand F, (.templateHead, quasi) => some (.operand (.template [quasi] [] :: F))
  | .operand F, (.number, digits) => some (.value F (.number digits))
  | .operand F, (.name, n) => some (.value F (.name n))
  | .operand F, (.unary, op) => some (.operand (.unary op :: F))
  | .operand F, (.mark '(', _) => some (.operand (.group :: F))
  | .operand (.call e begun :: F), (.mark ')', _) => some (.value F (.call e begun.reverse))
  | .member F e, (.name, n) => some (.value F (.member e n))
  | .value F e, (.logical, op) => some (behind .logical op F e)
  | .value F e, (.relational, op) => some (behind .relational op F e)
  | .value F e, (.additive, op) => some (behind .additive op F e)
  | .value F e, (.multiplicative, op) => some (behind .multiplicative op F e)
  | .value F e, (.mark '.', _) => some (.member F e)
  | .value F e, (.mark '[', _) => some (.operand (.index e :: F))
  | .value F e, (.mark '(', _) => some (.operand (.call e [] :: F))
  | .value F e, (.mark '?', _) =>
    let (F, e) := reduce Level.logical.rank F e
    some (.operand (.test e :: F))
  | .value F e, (.mark ':', _) =>
    match reduce Level.conditional.rank F e with
    | (.test test :: F, e) => some (.operand (.choice test e :: F))
    | _ => none
  | .value F e, (.mark ')', _) =>
    match reduce Level.conditional.rank F e with
    | (.group :: F, e) => some (.value F e)
    | (.call callee begun :: F, e) => some (.value F (.call callee (e :: begun).reverse))
    | _ => none
  | .value F e, (.mark ']', _) =>
    match reduce Level.conditional.rank F e with
    | (.index receiver :: F, e) => some (.value F (.index receiver e))
    | _ => none
  | .value F e, (.mark ',', _) =>
    match reduce Level.conditional.rank F e with
    | (.call callee begun :: F, e) => some (.operand (.call callee (e :: begun) :: F))
    | _ => none
  | .value F e, (.templateMiddle, quasi) =>
    match reduce Level.conditional.rank F e with
    | (.template quasis holes :: F, e) => some (.operand (.template (quasi :: quasis) (e :: holes) :: F))
    | _ => none
  | .value F e, (.templateTail, quasi) =>
    match reduce Level.conditional.rank F e with
    | (.template quasis holes :: F, e) =>
      some (.value F (.template (quasi :: quasis).reverse (e :: holes).reverse))
    | _ => none
  | _, _ => none

/-- Tokens one after another. -/
def run (st : Stack) (ws : List Token) : Option Stack := ws.foldlM feed st

theorem run_append {st : Stack} {ws vs : List Token} :
    st.run (ws ++ vs) = (st.run ws).bind fun st' => st'.run vs := List.foldlM_append

theorem run_cons {st : Stack} {w : Token} {ws : List Token} :
    st.run (w :: ws) = (st.feed w).bind fun st' => st'.run ws := List.foldlM_cons

@[simp] theorem run_nil {st : Stack} : st.run [] = some st := rfl

end Stack

/-! ## Folding -/

variable {k j : ℕ} {l : Level} {F F' : List Frame} {e e' v : Tree} {ws vs : List Token}

/-- Whether no frame on top is of a rank or tighter. -/
def Holds (k : ℕ) (F : List Frame) : Prop := ∀ f ∈ F.head?, ∀ x ∈ f.fold, x.1 < k

theorem Holds.mono (h : Holds k F) (hkj : k ≤ j) : Holds j F :=
  fun f hf x hx => (h f hf x hx).trans_le hkj

theorem holds_nil : Holds k [] := fun _ h => nomatch h

/-- A frame that waits for more than the value is never folded. -/
theorem holds_cons {f : Frame} (hf : f.fold = none) : Holds k (f :: F) := by
  intro g hg x hx
  obtain rfl : f = g := Option.some.inj hg
  cases hf.symm.trans hx

theorem rank_fold_lt (f : Frame) : ∀ x ∈ f.fold, x.1 < 6 := by
  intro x hx
  cases f with
  | unary op => exact Option.some.inj hx ▸ Nat.lt_succ_self 5
  | left l op e =>
    obtain ⟨y, hy, rfl⟩ := Option.map_eq_some_iff.mp hx
    cases l with
    | logical | relational | additive | multiplicative =>
      dsimp only
      decide
    | _ => cases hy
  | choice e e' => exact Option.some.inj hx ▸ Nat.zero_lt_succ 5
  | _ => cases hx

theorem holds_of_le (hk : 6 ≤ k) (F : List Frame) : Holds k F :=
  fun f _ x hx => (rank_fold_lt f x hx).trans_le hk

/-- Where nothing is tight enough nothing is folded. -/
theorem Holds.reduce_eq (h : Holds k F) (e : Tree) : reduce k F e = (F, e) := by
  cases F with
  | nil => rfl
  | cons f F =>
    rw [reduce]
    split
    · next j g hf => rw [if_neg (Nat.not_le.mpr (h f rfl (j, g) hf))]
    · rfl

/-- **Folding the tighter frames first** changes nothing. -/
theorem reduce_reduce (hkj : k ≤ j) (F : List Frame) (e : Tree) :
    reduce k (reduce j F e).1 (reduce j F e).2 = reduce k F e := by
  induction F generalizing e with
  | nil => rfl
  | cons f F ih =>
    cases hf : f.fold with
    | none =>
      have : reduce j (f :: F) e = (f :: F, e) := by rw [reduce, hf]
      rw [this]
    | some x =>
      obtain ⟨i, g⟩ := x
      by_cases hi : j ≤ i
      · have hj : reduce j (f :: F) e = reduce j F (g e) := by
          rw [reduce, hf]
          exact if_pos hi
        have hk : reduce k (f :: F) e = reduce k F (g e) := by
          rw [reduce, hf]
          exact if_pos (hkj.trans hi)
        rw [hj, hk, ih]
      · have hj : reduce j (f :: F) e = (f :: F, e) := by
          rw [reduce, hf]
          exact if_neg hi
        rw [hj]

theorem rank_le_next (l : Level) : l.rank ≤ l.next.rank := by cases l <;> decide

theorem guard_le_next (l : Level) : l.guard ≤ l.next.guard := by cases l <;> decide

theorem rank_lt_of_operator {x : Terminal × (Text → Tree → Tree → Tree)} (hl : l.operator = some x) :
    l.guard = l.rank ∧ l.rank < l.next.guard ∧ l.rank < l.next.rank := by
  cases l with
  | logical | relational | additive | multiplicative => decide
  | _ => cases hl

/-! ## Tokens and the stack -/

/-- **Whether tokens are read as a tree** at a level, from any stack that holds there: what is left
to fold is folded into the tree. -/
def ReadsAs (l : Level) (ws : List Token) (e : Tree) : Prop :=
  ∀ F, Holds l.guard F → ∃ F' v, (Stack.operand F).run ws = some (.value F' v) ∧
    reduce l.rank F' v = reduce l.rank F e

theorem ReadsAs.tighter (h : ReadsAs l.next ws e) : ReadsAs l ws e := by
  intro F hF
  obtain ⟨F', v, hrun, hred⟩ := h F (hF.mono (guard_le_next l))
  refine ⟨F', v, hrun, ?_⟩
  rw [← reduce_reduce (rank_le_next l), hred, reduce_reduce (rank_le_next l)]

/-- An operator of a level behind an operand of it. -/
theorem feed_operator {τ : Terminal} {make : Text → Tree → Tree → Tree}
    (hl : l.operator = some (τ, make)) (op : Text) :
    (Stack.value F e).feed (τ, op) = some (Stack.behind l op F e) := by
  cases l with
  | logical | relational | additive | multiplicative =>
    obtain ⟨rfl, -⟩ := Prod.mk.inj (Option.some.inj hl)
    rfl
  | _ => cases hl

theorem ReadsAs.between {τ : Terminal} {make : Text → Tree → Tree → Tree}
    (hl : l.operator = some (τ, make)) {op : Text} (left : ReadsAs l ws e)
    (right : ReadsAs l.next vs e') : ReadsAs l (ws ++ (τ, op) :: vs) (make op e e') := by
  intro F hF
  obtain ⟨hguard, hlt, hnext⟩ := rank_lt_of_operator hl
  obtain ⟨F₁, v₁, hrun₁, hred₁⟩ := left F hF
  have hF : Holds l.rank F := hguard ▸ hF
  rw [hF.reduce_eq] at hred₁
  have hfold : (Frame.left l op e).fold = some (l.rank, make op e) := by simp [Frame.fold, hl]
  have hstop {j : ℕ} (hj : l.rank < j) : Holds j (.left l op e :: F) := by
    intro f hf x hx
    obtain rfl : Frame.left l op e = f := Option.some.inj hf
    obtain rfl : (l.rank, make op e) = x := Option.some.inj (hfold.symm.trans hx)
    exact hj
  obtain ⟨F₂, v₂, hrun₂, hred₂⟩ := right (.left l op e :: F) (hstop hlt)
  rw [(hstop hnext).reduce_eq] at hred₂
  refine ⟨F₂, v₂, ?_, ?_⟩
  · rw [Stack.run_append, hrun₁, Option.bind_some, Stack.run_cons, feed_operator hl, Stack.behind, hred₁]
    exact hrun₂
  · rw [← reduce_reduce hnext.le, hred₂, reduce, hfold]
    exact if_pos le_rfl

theorem ReadsAs.choice {us : List Token} {e'' : Tree} (test : ReadsAs .logical ws e)
    (consequent : ReadsAs .conditional vs e') (alternate : ReadsAs .conditional us e'') :
    ReadsAs .conditional (ws ++ markToken '?' :: (vs ++ markToken ':' :: us)) (.conditional e e' e'') := by
  intro F hF
  obtain ⟨F₁, v₁, hrun₁, hred₁⟩ := test F hF
  have hF : Holds Level.logical.rank F := hF
  rw [hF.reduce_eq] at hred₁
  obtain ⟨F₂, v₂, hrun₂, hred₂⟩ := consequent (.test e :: F) (holds_cons rfl)
  rw [(holds_cons rfl).reduce_eq] at hred₂
  obtain ⟨F₃, v₃, hrun₃, hred₃⟩ := alternate (.choice e e' :: F) fun f hf x hx => by
    obtain rfl : Frame.choice e e' = f := Option.some.inj hf
    exact Option.some.inj hx ▸ Nat.zero_lt_one
  have htest : (Stack.value F₁ v₁).feed (markToken '?') = some (.operand (.test e :: F)) := by
    show some (Stack.operand (.test (reduce 1 F₁ v₁).2 :: (reduce 1 F₁ v₁).1)) = _
    rw [show reduce 1 F₁ v₁ = (F, e) from hred₁]
  have hbranch : (Stack.value F₂ v₂).feed (markToken ':') = some (.operand (.choice e e' :: F)) := by
    simp only [markToken, Stack.feed, hred₂]
  refine ⟨F₃, v₃, ?_, hred₃⟩
  rw [Stack.run_append, hrun₁, Option.bind_some, Stack.run_cons, htest, Option.bind_some,
    Stack.run_append, hrun₂, Option.bind_some, Stack.run_cons, hbranch, Option.bind_some, hrun₃]

theorem ReadsAs.unary {op : Text} (h : ReadsAs .prefixed ws e) :
    ReadsAs .prefixed ((.unary, op) :: ws) (.unary op e) := by
  intro F _
  obtain ⟨F', v, hrun, hred⟩ := h (.unary op :: F) (holds_of_le le_rfl _)
  exact ⟨F', v, hrun, hred⟩

/-- What is read as an operand stands on the stack as it is. -/
theorem ReadsAs.run (h : ReadsAs .operand ws e) (F : List Frame) :
    (Stack.operand F).run ws = some (.value F e) := by
  obtain ⟨F', v, hrun, hred⟩ := h F (holds_of_le le_rfl F)
  have hle : 6 ≤ Level.operand.rank := le_rfl
  rw [(holds_of_le hle F').reduce_eq, (holds_of_le hle F).reduce_eq] at hred
  obtain ⟨rfl, rfl⟩ := Prod.mk.inj hred
  exact hrun

/-- What is read from one stack to the next by itself. -/
theorem readsAs_of_run (h : ∀ F, (Stack.operand F).run ws = some (.value F e)) : ReadsAs l ws e :=
  fun F _ => ⟨F, e, h F, rfl⟩

/-- An expression before what closes it. -/
theorem ReadsAs.run_closed {f : Frame} (h : ReadsAs .conditional ws e) (hf : f.fold = none) :
    ∃ F' v, (Stack.operand (f :: F)).run ws = some (.value F' v) ∧ reduce 0 F' v = (f :: F, e) := by
  obtain ⟨F', v, hrun, hred⟩ := h (f :: F) (holds_cons hf)
  exact ⟨F', v, hrun, hred.trans ((holds_cons hf).reduce_eq e)⟩

theorem ReadsAs.index {k : Tree} (h : ReadsAs .operand ws e) (key : ReadsAs .conditional vs k) :
    ReadsAs .operand (ws ++ markToken '[' :: (vs ++ [markToken ']'])) (.index e k) := by
  refine readsAs_of_run fun F => ?_
  obtain ⟨F', v, hrun, hred⟩ := key.run_closed (f := .index e) (F := F) rfl
  have hclose : (Stack.value F' v).feed (markToken ']') = some (.value F (.index e k)) := by
    simp only [markToken, Stack.feed, Level.rank, hred]
  rw [Stack.run_append, h.run, Option.bind_some, Stack.run_cons]
  show ((Stack.operand (.index e :: F)).run (vs ++ [markToken ']'])) = _
  rw [Stack.run_append, hrun, Option.bind_some, Stack.run_cons, hclose]
  rfl

theorem ReadsAs.group (h : ReadsAs .conditional ws e) :
    ReadsAs l (markToken '(' :: (ws ++ [markToken ')'])) e := by
  refine readsAs_of_run fun F => ?_
  obtain ⟨F', v, hrun, hred⟩ := h.run_closed (f := .group) (F := F) rfl
  have hclose : (Stack.value F' v).feed (markToken ')') = some (.value F e) := by
    simp only [markToken, Stack.feed, Level.rank, hred]
  show ((Stack.operand (.group :: F)).run (ws ++ [markToken ')'])) = _
  rw [Stack.run_append, hrun, Option.bind_some, Stack.run_cons, hclose]
  rfl

/-! ## Items -/

/-- **Items** are gathered by the frame that waits for them. -/
theorem run_items {σ : Terminal} (frame : List Text → List Tree → Frame)
    (hframe : ∀ qs es, (frame qs es).fold = none)
    (hfeed : ∀ {F' v F qs es e q}, reduce 0 F' v = (frame qs es :: F, e) →
      (Stack.value F' v).feed (σ, q) = some (.operand (frame (q :: qs) (e :: es) :: F)))
    {more : List Item} (hsep : ∀ m ∈ more, m.separator.1 = σ)
    (hmore : ∀ m ∈ more, ReadsAs .conditional m.tokens m.tree) (qs : List Text) {es : List Tree}
    (hred : reduce 0 F' v = (frame qs es :: F, e)) :
    ∃ F'' v' es' e', (Stack.value F' v).run (itemTokens more) = some (.value F'' v') ∧
      reduce 0 F'' v' = (frame ((more.map (·.separator.2)).reverse ++ qs) es' :: F, e') ∧
      (e' :: es').reverse = (e :: es).reverse ++ more.map Item.tree := by
  induction more generalizing F' v qs es e with
  | nil => exact ⟨F', v, es, e, rfl, hred, (List.append_nil _).symm⟩
  | cons m more ih =>
    have hm : m.separator = (σ, m.separator.2) := Prod.ext (hsep m (List.mem_cons_self ..)) rfl
    obtain ⟨F₁, v₁, hrun₁, hred₁⟩ := (hmore m (List.mem_cons_self ..)).run_closed (F := F)
      (hframe (m.separator.2 :: qs) (e :: es))
    obtain ⟨F₂, v₂, es', e', hrun₂, hred₂, hes⟩ := ih (fun n hn => hsep n (List.mem_cons_of_mem _ hn))
      (fun n hn => hmore n (List.mem_cons_of_mem _ hn)) _ hred₁
    refine ⟨F₂, v₂, es', e', ?_, by simpa using hred₂, by simpa using hes⟩
    show (Stack.value F' v).run (m.separator :: m.tokens ++ itemTokens more) = _
    rw [List.cons_append, Stack.run_cons, hm, hfeed hred, Option.bind_some, Stack.run_append, hrun₁,
      Option.bind_some, hrun₂]

/-- **A call of a value** with its arguments. -/
theorem run_call {first : Tree} {more : List Item} (trailing : Bool)
    (hfirst : ReadsAs .conditional vs first) (hsep : ∀ m ∈ more, m.separator = markToken ',')
    (hmore : ∀ m ∈ more, ReadsAs .conditional m.tokens m.tree) :
    (Stack.value F e).run (markToken '(' ::
      (vs ++ (itemTokens more ++ (trailingComma trailing ++ [markToken ')'])))) =
        some (.value F (.call e (first :: more.map Item.tree))) := by
  obtain ⟨F₁, v₁, hrun₁, hred₁⟩ := hfirst.run_closed (f := .call e []) (F := F) rfl
  have hcomma {F' F v es e'} (hred : reduce 0 F' v = (.call e es :: F, e')) (q : Text) :
      (Stack.value F' v).feed (.mark ',', q) = some (.operand (.call e (e' :: es) :: F)) := by
    simp only [Stack.feed, Level.rank, hred]
  obtain ⟨F₂, v₂, es, e', hrun₂, hred₂, hes⟩ := run_items (fun _ es => .call e es)
    (fun _ _ => rfl) (fun hred => hcomma hred _) (fun m hm => congrArg Prod.fst (hsep m hm)) hmore [] hred₁
  have hend : (Stack.value F₂ v₂).run (trailingComma trailing ++ [markToken ')']) =
      some (.value F (.call e (e' :: es).reverse)) := by
    cases trailing with
    | false =>
      have hclose : (Stack.value F₂ v₂).feed (markToken ')') =
          some (.value F (.call e (e' :: es).reverse)) := by
        simp only [markToken, Stack.feed, Level.rank, hred₂]
      show (Stack.value F₂ v₂).run [markToken ')'] = _
      rw [Stack.run_cons, hclose]
      rfl
    | true =>
      show (Stack.value F₂ v₂).run [markToken ',', markToken ')'] = _
      rw [Stack.run_cons, markToken, hcomma hred₂]
      rfl
  show (Stack.operand (.call e [] :: F)).run _ = _
  rw [Stack.run_append, hrun₁, Option.bind_some, Stack.run_append, hrun₂, Option.bind_some, hend, hes]
  rfl

theorem ReadsAs.template {head tail : Text} {first : Tree} {more : List Item}
    (hfirst : ReadsAs .conditional vs first) (hsep : ∀ m ∈ more, m.separator.1 = .templateMiddle)
    (hmore : ∀ m ∈ more, ReadsAs .conditional m.tokens m.tree) :
    ReadsAs l ((.templateHead, head) :: (vs ++ (itemTokens more ++ [(.templateTail, tail)])))
      (.template (head :: (more.map (·.separator.2) ++ [tail])) (first :: more.map Item.tree)) := by
  refine readsAs_of_run fun F => ?_
  obtain ⟨F₁, v₁, hrun₁, hred₁⟩ := hfirst.run_closed (f := .template [head] []) (F := F) rfl
  obtain ⟨F₂, v₂, es, e', hrun₂, hred₂, hes⟩ := run_items (σ := .templateMiddle) .template
    (fun _ _ => rfl) (fun hred => by simp only [Stack.feed, Level.rank, hred]) hsep hmore _ hred₁
  have hclose : (Stack.value F₂ v₂).feed (.templateTail, tail) = some (.value F
      (.template (head :: (more.map (·.separator.2) ++ [tail])) (first :: more.map Item.tree))) := by
    have hquasis : (tail :: ((more.map (·.separator.2)).reverse ++ [head])).reverse =
        head :: (more.map (·.separator.2) ++ [tail]) := by simp
    simp only [Stack.feed, Level.rank, hred₂, hquasis, hes]
    rfl
  show (Stack.operand (.template [head] [] :: F)).run _ = _
  rw [Stack.run_append, hrun₁, Option.bind_some, Stack.run_append, hrun₂, Option.bind_some,
    Stack.run_cons, hclose]
  rfl

/-! ## One tree -/

/-- **What tokens derive is what the stack has read** once they are over. -/
theorem Derives.readsAs (h : Derives l ws e) : ReadsAs l ws e := by
  induction h with
  | tighter _ ih => exact ih.tighter
  | between hl _ _ ihl ihr => exact ihl.between hl ihr
  | choice _ _ _ iht ihc iha => exact iht.choice ihc iha
  | unary _ ih => exact ih.unary
  | member _ ih =>
    refine readsAs_of_run fun F => ?_
    rw [Stack.run_append, ih.run]
    rfl
  | index _ _ ih ihk => exact ih.index ihk
  | callNone _ ih =>
    refine readsAs_of_run fun F => ?_
    rw [Stack.run_append, ih.run]
    rfl
  | call _ _ hsep _ ih ihf ihm =>
    refine readsAs_of_run fun F => ?_
    rw [Stack.run_append, ih.run, Option.bind_some, run_call _ ihf hsep ihm]
  | string hq =>
    refine readsAs_of_run fun _ => ?_
    rcases hq with rfl | rfl <;> rfl
  | plainTemplate | number | name => exact readsAs_of_run fun _ => rfl
  | template _ hsep _ ihf ihm => exact ihf.template hsep ihm
  | group _ ih => exact ih.group

/-- An expression is read from an empty stack to one where folding leaves its tree. -/
theorem Derives.run (h : Derives .conditional ws e) : ∃ F v,
    (Stack.operand []).run ws = some (.value F v) ∧ reduce 0 F v = ([], e) :=
  h.readsAs [] holds_nil

/-- **Tokens derive one expression at most.** -/
theorem Derives.unique (h : Derives .conditional ws e) (h' : Derives .conditional ws e') : e = e' := by
  obtain ⟨F, v, hrun, hred⟩ := h.run
  obtain ⟨F', v', hrun', hred'⟩ := h'.run
  obtain ⟨rfl, rfl⟩ := Stack.value.inj (Option.some.inj (hrun.symm.trans hrun'))
  exact (Prod.mk.inj (hred.symm.trans hred')).2

/-- The arguments of an import call are read as those of a call of anything. -/
theorem DerivesSource.run_call {a : Text} {x : Source}
    (h : DerivesSource ((.importWord, a) :: ws) x) (c : Tree) : ∃ e o, x = .importCall e o ∧
      (Stack.value [] c).run ws = some (.value [] (.call c (e :: o.toList))) := by
  cases h with
  | expression h =>
    obtain ⟨F, v, hrun, -⟩ := h.run
    cases hrun
  | @importCall ws e trailing h =>
    refine ⟨e, none, rfl, ?_⟩
    have hnone {P : Item → Prop} : ∀ m ∈ ([] : List Item), P m := fun m hm => absurd hm List.not_mem_nil
    exact Script.run_call trailing h.readsAs hnone hnone
  | @importOptions ws vs e o trailing h ho =>
    refine ⟨e, some o, rfl, ?_⟩
    have hitem : ∀ m ∈ [Item.mk (markToken ',') vs o], m.separator = markToken ',' ∧
        ReadsAs .conditional m.tokens m.tree := by
      simpa using ho.readsAs
    have := Script.run_call (F := []) (e := c) trailing h.readsAs (fun m hm => (hitem m hm).1)
      fun m hm => (hitem m hm).2
    simpa [itemTokens] using this

/-- **Tokens derive one source at most.** -/
theorem DerivesSource.unique {x y : Source} (h : DerivesSource ws x) (h' : DerivesSource ws y) :
    x = y := by
  by_cases hword : ∃ a vs, ws = (.importWord, a) :: vs
  · obtain ⟨a, vs, rfl⟩ := hword
    obtain ⟨e, o, rfl, hrun⟩ := h.run_call (.name [])
    obtain ⟨e', o', rfl, hrun'⟩ := h'.run_call (.name [])
    have hargs := (Stack.value.inj (Option.some.inj (hrun.symm.trans hrun'))).2
    obtain ⟨rfl, ho⟩ := List.cons.inj (Tree.call.inj hargs).2
    have ho : o = o' := by simpa using congrArg List.head? ho
    rw [ho]
  · cases h with
    | expression h =>
      cases h' with
      | expression h' => rw [h.unique h']
      | importCall | importOptions => exact absurd ⟨_, _, rfl⟩ hword
    | importCall | importOptions => exact absurd ⟨_, _, rfl⟩ hword

end VariableImport.Script
