import VariableImport.Proofs.Script.Language

/-!
# Proofs/Script/Balance — expressions close what they open

A `Mode` holds the marks that are to come and whether a product waits for its operand; `follow` says
where a terminal leads, if anywhere, and `Follows` which terminals lead somewhere.  An expression leads
back to the marks that were to come before it, and never meets a comma where none is to come
(`leads_expressions`).
-/

namespace VariableImport.Script

open Computability

/-- Where a scan of terminals stands. -/
structure Mode where
  /-- The marks that are to come, a backtick for a template whose expression is under way. -/
  stack : List Char := []
  /-- Whether the last terminal was an operator of products. -/
  operand : Bool := false
deriving DecidableEq

namespace Mode

/-- The mode after a mark that was to come. -/
def close (m : Mode) (c : Char) : Option Mode :=
  match m.stack with
  | top :: rest => if top = c then some ⟨rest, false⟩ else none
  | [] => none

/-- The mode after a punctuation mark; a comma stands only where marks are to come. -/
def followMark (m : Mode) (c : Char) : Option Mode :=
  if c = '(' then some ⟨')' :: m.stack, false⟩
  else if c = '[' then some ⟨']' :: m.stack, false⟩
  else if c = ')' ∨ c = ']' then m.close c
  else if c = ',' then if m.stack = [] then none else some ⟨m.stack, false⟩
  else if c = '.' ∨ c = '?' ∨ c = ':' then some ⟨m.stack, false⟩
  else none

/-- **Where a terminal leads**, if it may stand here. -/
def follow (m : Mode) : Terminal → Option Mode
  | .mark c => m.followMark c
  | .quoted quote => if quote = '\'' ∨ quote = '"' then some ⟨m.stack, false⟩ else none
  | .templateHead => some ⟨'`' :: m.stack, false⟩
  | .templateMiddle => (m.close '`').map fun m => ⟨'`' :: m.stack, false⟩
  | .templateTail => m.close '`'
  | .multiplicative => if m.operand then none else some ⟨m.stack, true⟩
  | .unary => some m
  | .importWord => none
  | .plainTemplate | .number | .name | .logical | .relational | .additive => some ⟨m.stack, false⟩

/-- Where terminals lead one after another. -/
def followAll (m : Mode) (ws : List Terminal) : Option Mode := ws.foldlM follow m

/-- **The terminals that may stand in a mode**, and where each of them leads. -/
inductive Follows : Mode → Terminal → Mode → Prop
  | opens {S : List Char} {b : Bool} {c d : Char} (h : c = '(' ∧ d = ')' ∨ c = '[' ∧ d = ']') :
      Follows ⟨S, b⟩ (.mark c) ⟨d :: S, false⟩
  | closes {S : List Char} {b : Bool} {c : Char} (hc : c = ')' ∨ c = ']') :
      Follows ⟨c :: S, b⟩ (.mark c) ⟨S, false⟩
  | comma {S : List Char} {b : Bool} (hS : S ≠ []) : Follows ⟨S, b⟩ (.mark ',') ⟨S, false⟩
  | between {S : List Char} {b : Bool} {c : Char} (hc : c = '.' ∨ c = '?' ∨ c = ':') :
      Follows ⟨S, b⟩ (.mark c) ⟨S, false⟩
  | quoted {S : List Char} {b : Bool} {q : Char} (hq : q = '\'' ∨ q = '"') :
      Follows ⟨S, b⟩ (.quoted q) ⟨S, false⟩
  | templateHead {S : List Char} {b : Bool} : Follows ⟨S, b⟩ .templateHead ⟨'`' :: S, false⟩
  | templateMiddle {S : List Char} {b : Bool} : Follows ⟨'`' :: S, b⟩ .templateMiddle ⟨'`' :: S, false⟩
  | templateTail {S : List Char} {b : Bool} : Follows ⟨'`' :: S, b⟩ .templateTail ⟨S, false⟩
  | multiplicative {S : List Char} : Follows ⟨S, false⟩ .multiplicative ⟨S, true⟩
  | unary {S : List Char} {b : Bool} : Follows ⟨S, b⟩ .unary ⟨S, b⟩
  | value {S : List Char} {b : Bool} {τ : Terminal}
      (hτ : τ ∈ [.plainTemplate, .number, .name, .logical, .relational, .additive]) :
      Follows ⟨S, b⟩ τ ⟨S, false⟩

theorem close_eq_some {m m' : Mode} {c : Char} (h : m.close c = some m') :
    ∃ S b, m = ⟨c :: S, b⟩ ∧ m' = ⟨S, false⟩ := by
  obtain ⟨S, b⟩ := m
  cases S with
  | nil => simp [close] at h
  | cons top S =>
    simp only [close, Option.ite_none_right_eq_some, Option.some.injEq] at h
    obtain ⟨rfl, rfl⟩ := h
    exact ⟨S, b, rfl, rfl⟩

theorem follows_of_followMark {m m' : Mode} {c : Char} (h : m.followMark c = some m') :
    Follows m (.mark c) m' := by
  unfold followMark at h
  split at h
  · next hc =>
    obtain rfl := Option.some.inj h
    exact .opens (.inl ⟨hc, rfl⟩)
  split at h
  · next hc =>
    obtain rfl := Option.some.inj h
    exact .opens (.inr ⟨hc, rfl⟩)
  split at h
  · next hc =>
    obtain ⟨S, b, rfl, rfl⟩ := close_eq_some h
    exact .closes hc
  split at h
  · next hc =>
    obtain ⟨hS, e⟩ := Option.ite_none_left_eq_some.mp h
    obtain rfl := Option.some.inj e
    exact hc ▸ .comma hS
  split at h
  · next hc =>
    obtain rfl := Option.some.inj h
    exact .between hc
  · simp at h

/-- **What may stand in a mode** is one of these terminals. -/
theorem follows_of_follow {m m' : Mode} {τ : Terminal} (h : m.follow τ = some m') : Follows m τ m' := by
  obtain ⟨S, b⟩ := m
  cases τ with
  | importWord => simp [follow] at h
  | mark c => exact follows_of_followMark h
  | quoted q =>
    obtain ⟨hq, e⟩ := Option.ite_none_right_eq_some.mp h
    obtain rfl := Option.some.inj e
    exact .quoted hq
  | templateHead =>
    obtain rfl := Option.some.inj h
    exact .templateHead
  | templateMiddle =>
    obtain ⟨m₁, hm₁, rfl⟩ := Option.map_eq_some_iff.mp h
    obtain ⟨S, b, hm, rfl⟩ := close_eq_some hm₁
    exact hm ▸ .templateMiddle
  | templateTail =>
    obtain ⟨S, b, hm, rfl⟩ := close_eq_some h
    exact hm ▸ .templateTail
  | multiplicative =>
    obtain ⟨hb, e⟩ := Option.ite_none_left_eq_some.mp h
    obtain rfl : b = false := Bool.eq_false_iff.mpr hb
    obtain rfl := Option.some.inj e
    exact .multiplicative
  | unary =>
    obtain rfl := Option.some.inj h
    exact .unary
  | plainTemplate | number | name | logical | relational | additive =>
    obtain rfl := Option.some.inj h
    exact .value (by decide)

theorem Follows.isQuote {m m' : Mode} {q : Char} (h : Follows m (.quoted q) m') : q = '\'' ∨ q = '"' := by
  cases h with
  | quoted hq => exact hq
  | value hτ => exact absurd hτ (by simp)

/-- The marks that may stand in an expression. -/
def punctuation : List Char := ['(', '[', ')', ']', ',', '.', '?', ':']

theorem Follows.mem_punctuation {m m' : Mode} {c : Char} (h : Follows m (.mark c) m') : c ∈ punctuation := by
  cases h with
  | opens h => rcases h with ⟨rfl, -⟩ | ⟨rfl, -⟩ <;> decide
  | closes hc => rcases hc with rfl | rfl <;> decide
  | comma => decide
  | between hc => rcases hc with rfl | rfl | rfl <;> decide
  | value hτ => exact absurd hτ (by simp)

theorem followAll_append {m : Mode} {ws vs : List Terminal} :
    m.followAll (ws ++ vs) = (m.followAll ws).bind fun m' => m'.followAll vs :=
  List.foldlM_append

end Mode

/-- **Whether a language leads from one mode to another**, by every word. -/
def Leads (L : Language Terminal) (m m' : Mode) : Prop := ∀ ws ∈ L, m.followAll ws = some m'

variable {L M N : Language Terminal} {m m₁ m₂ : Mode} {τ : Terminal}

theorem leads_only (h : m.follow τ = some m₁) : Leads (only τ) m m₁ := by
  rintro _ rfl
  simp [Mode.followAll, h]

theorem leads_one (m : Mode) : Leads 1 m m := by
  rintro _ rfl
  rfl

theorem Leads.add (hL : Leads L m m₁) (hM : Leads M m m₁) : Leads (L + M) m m₁ := by
  rintro ws (h | h)
  exacts [hL ws h, hM ws h]

theorem Leads.mul (hL : Leads L m m₁) (hM : Leads M m₁ m₂) : Leads (L * M) m m₂ := by
  rintro _ ⟨ws, hws, vs, hvs, rfl⟩
  rw [Mode.followAll_append, hL ws hws]
  exact hM vs hvs

theorem Leads.kstar (h : Leads L m m) : Leads L∗ m m := by
  intro _ hws
  obtain ⟨words, rfl, hwords⟩ := Language.mem_kstar.mp hws
  induction words with
  | nil => rfl
  | cons ws words ih =>
    have hrest : ∀ vs ∈ words, vs ∈ L := fun vs hvs => hwords vs (List.mem_cons_of_mem _ hvs)
    rw [List.flatten_cons, Mode.followAll_append, h ws (hwords ws (List.mem_cons_self ..))]
    exact ih hrest (Language.join_mem_kstar hrest)

/-- A terminal before a language. -/
theorem Leads.only_mul (h : Leads L m₁ m₂) (hτ : m.follow τ = some m₁) :
    Leads (only τ * L) m m₂ :=
  (leads_only hτ).mul h

/-- **Whether a language is closed**: from any mode it leads back to the marks that were to come. -/
def Closed (L : Language Terminal) : Prop := ∀ S b, Leads L ⟨S, b⟩ ⟨S, false⟩

theorem Closed.argumentLists (h : Closed N) (S : List Char) :
    Leads (argumentLists N) ⟨')' :: S, false⟩ ⟨S, false⟩ := by
  have hclose : Leads (only (.mark ')')) ⟨')' :: S, false⟩ ⟨S, false⟩ := leads_only rfl
  have hcomma : Leads (only (.mark ',')) ⟨')' :: S, false⟩ ⟨')' :: S, false⟩ := leads_only rfl
  exact hclose.add ((h _ _).mul ((hcomma.mul (h _ _)).kstar.mul
    (((leads_one _).add hcomma).mul hclose)))

theorem Closed.templatesWithHoles (h : Closed N) : Closed (templatesWithHoles N) := by
  intro S b
  have hmiddle : Leads (only .templateMiddle) ⟨'`' :: S, false⟩ ⟨'`' :: S, false⟩ := leads_only rfl
  have htail : Leads (only .templateTail) ⟨'`' :: S, false⟩ ⟨S, false⟩ := leads_only rfl
  exact ((h _ _).mul ((hmiddle.mul (h _ _)).kstar.mul htail)).only_mul rfl

theorem Closed.primaries (h : Closed N) : Closed (primaries N) := by
  intro S b
  have hclose : Leads (only (.mark ')')) ⟨')' :: S, false⟩ ⟨S, false⟩ := leads_only rfl
  exact (leads_only rfl).add ((leads_only rfl).add ((leads_only rfl).add
    ((h.templatesWithHoles S b).add ((leads_only rfl).add ((leads_only rfl).add
      (((h _ _).mul hclose).only_mul rfl))))))

theorem Closed.postfixes (h : Closed N) (S : List Char) :
    Leads (postfixes N) ⟨S, false⟩ ⟨S, false⟩ := by
  have hclose : Leads (only (.mark ']')) ⟨']' :: S, false⟩ ⟨S, false⟩ := leads_only rfl
  have hname : Leads (only .name) ⟨S, false⟩ ⟨S, false⟩ := leads_only rfl
  exact (hname.only_mul rfl).add ((((h _ _).mul hclose).only_mul rfl).add
    ((h.argumentLists S).only_mul rfl))

theorem Closed.prefixedOperands (h : Closed N) : Closed (prefixedOperands N) := by
  intro S b
  have hunary : Leads (only .unary) ⟨S, b⟩ ⟨S, b⟩ := leads_only rfl
  exact hunary.kstar.mul ((h.primaries S b).mul (h.postfixes S).kstar)

/-- Operators of a level need not be operators of products for what stands between them. -/
theorem Closed.chains (h : Closed L) {operator : Terminal}
    (hop : ∀ S, ∃ b, (⟨S, false⟩ : Mode).follow operator = some ⟨S, b⟩) :
    Closed (chains operator L) := by
  intro S b
  obtain ⟨b', hb⟩ := hop S
  exact (h S b).mul (Leads.kstar ((h S b').only_mul hb))

theorem Closed.conditionals (h : Closed N) : Closed (conditionals N) := by
  intro S b
  have hchains : Closed (conditions N) := by
    refine Closed.chains (.chains (.chains (.chains h.prefixedOperands ?_) ?_) ?_) ?_
    exacts [fun S => ⟨true, rfl⟩, fun S => ⟨false, rfl⟩, fun S => ⟨false, rfl⟩, fun S => ⟨false, rfl⟩]
  refine (hchains S b).mul ((leads_one _).add (Leads.only_mul ?_ rfl))
  exact (h S false).mul ((h S false).only_mul rfl)

/-- **An expression closes what it opens**, and no comma stands outside of its marks. -/
theorem leads_expressions : Closed expressions := by
  intro S b ws hws
  obtain ⟨n, hn⟩ := Language.mem_iSup.mp hws
  have hclosed : Closed (expressionsWithin n) := by
    clear hws hn
    induction n with
    | zero => exact fun _ _ ws h => absurd h (Language.notMem_zero ws)
    | succ n ih => exact ih.conditionals
  exact hclosed S b ws hn

end VariableImport.Script
