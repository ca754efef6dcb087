import VariableImport.Proofs.Script.ImportCall

/-!
# Proofs/Script/Derivation — derivations of sources from tokens

A text splits into tokens (`Splits`), and tokens derive a tree (`Derives`): one constructor for each
production of the grammar, the operators of a level between an operand of the same level on the left
and one of the next level on the right.  What tokens derive is a word of the grammar's language
(`Derives.mem_language`), so a reader gets to the end of what they derive (`exists_found_of_splits`).
The tree stands for an expression exactly if every string among the tokens spells a text
(`DerivesSource.isSome_toExpression`).
-/

namespace VariableImport.Script

open Computability Reader

/-! ## Tokens -/

/-- A terminal and the text of its token. -/
abbrev Token := Terminal × Text

/-- The token of a punctuation mark. -/
def markToken (c : Char) : Token := (.mark c, [c])

/-- **A text splits into tokens** and leaves another, each token as far as it goes; `ok` says where
behind a text a token of a terminal may start. -/
inductive Splits (ok : Terminal → Text → Text → Prop) : List Token → Text → Text → Prop
  | nil (s : Text) : Splits ok [] s s
  | cons {τ : Terminal} {a : Text} {ws : List Token} {s u t r : Text} (hok : ok τ s u)
      (hscan : τ.scan u = some (a, t)) (h : Splits ok ws t r) : Splits ok ((τ, a) :: ws) s r

/-- Any gaps may stand before a token. -/
def AnyGap (_ : Terminal) (s u : Text) : Prop := Gap s u

variable {ok ok' : Terminal → Text → Text → Prop} {ws vs us : List Token} {s t r : Text}

theorem Splits.mono (hok : ∀ τ s u, ok τ s u → ok' τ s u) (h : Splits ok ws s r) :
    Splits ok' ws s r := by
  induction h with
  | nil => exact .nil _
  | cons h hscan _ ih => exact .cons (hok _ _ _ h) hscan ih

theorem Splits.append (h : Splits ok ws s t) (h' : Splits ok vs t r) : Splits ok (ws ++ vs) s r := by
  induction h with
  | nil => exact h'
  | cons h hscan _ ih => exact .cons h hscan (ih h')

/-- The terminals of the tokens are spelled. -/
theorem Splits.spells (h : Splits AnyGap ws s r) : Spells Gap (ws.map Prod.fst) s r := by
  induction h with
  | nil => exact .nil _
  | cons hgap hscan _ ih => exact .cons hgap hscan ih

/-! ## The grammar -/

/-- The levels of the grammar, from the loosest to the tightest. -/
inductive Level where
  | conditional
  | logical
  | relational
  | additive
  | multiplicative
  | prefixed
  | operand
  | primary
deriving DecidableEq

/-- The next tighter level. -/
def Level.next : Level → Level
  | .conditional => .logical
  | .logical => .relational
  | .relational => .additive
  | .additive => .multiplicative
  | .multiplicative => .prefixed
  | .prefixed => .operand
  | .operand | .primary => .primary

/-- How tight a level binds. -/
def Level.rank : Level → ℕ
  | .conditional => 0
  | .logical => 1
  | .relational => 2
  | .additive => 3
  | .multiplicative => 4
  | .prefixed => 5
  | .operand => 6
  | .primary => 7

/-- The operators between the operands of a level, and the tree that they make. -/
def Level.operator : Level → Option (Terminal × (Text → Tree → Tree → Tree))
  | .logical => some (.logical, .logical)
  | .relational => some (.relational, .binary)
  | .additive => some (.additive, .binary)
  | .multiplicative => some (.multiplicative, .binary)
  | .conditional | .prefixed | .operand | .primary => none

/-- An expression behind the token that parts it from the one before. -/
structure Item where
  separator : Token
  tokens : List Token
  tree : Tree

/-- The tokens of items one after another. -/
def itemTokens (more : List Item) : List Token := more.flatMap fun m => m.separator :: m.tokens

/-- A trailing comma, or none. -/
def trailingComma (trailing : Bool) : List Token := if trailing then [markToken ','] else []

/-- **Tokens derive a tree** at a level of the grammar. -/
inductive Derives : Level → List Token → Tree → Prop
  | tighter {l : Level} {ws : List Token} {e : Tree} (h : Derives l.next ws e) : Derives l ws e
  | between {l : Level} {τ : Terminal} {make : Text → Tree → Tree → Tree} {ws vs : List Token}
      {op : Text} {e e' : Tree} (hl : l.operator = some (τ, make)) (left : Derives l ws e)
      (right : Derives l.next vs e') : Derives l (ws ++ (τ, op) :: vs) (make op e e')
  | choice {ws vs us : List Token} {e e' e'' : Tree} (test : Derives .logical ws e)
      (consequent : Derives .conditional vs e') (alternate : Derives .conditional us e'') :
      Derives .conditional (ws ++ markToken '?' :: (vs ++ markToken ':' :: us))
        (.conditional e e' e'')
  | unary {op : Text} {ws : List Token} {e : Tree} (h : Derives .prefixed ws e) :
      Derives .prefixed ((.unary, op) :: ws) (.unary op e)
  | member {ws : List Token} {e : Tree} {n : Text} (h : Derives .operand ws e) :
      Derives .operand (ws ++ [markToken '.', (.name, n)]) (.member e n)
  | index {ws vs : List Token} {e k : Tree} (h : Derives .operand ws e)
      (key : Derives .conditional vs k) :
      Derives .operand (ws ++ markToken '[' :: (vs ++ [markToken ']'])) (.index e k)
  | callNone {ws : List Token} {e : Tree} (h : Derives .operand ws e) :
      Derives .operand (ws ++ [markToken '(', markToken ')']) (.call e [])
  | call {ws vs : List Token} {e first : Tree} {more : List Item} {trailing : Bool}
      (h : Derives .operand ws e) (hfirst : Derives .conditional vs first)
      (hsep : ∀ m ∈ more, m.separator = markToken ',')
      (hmore : ∀ m ∈ more, Derives .conditional m.tokens m.tree) :
      Derives .operand
        (ws ++ markToken '(' :: (vs ++ (itemTokens more ++ (trailingComma trailing ++ [markToken ')']))))
        (.call e (first :: more.map Item.tree))
  | string {q : Char} {body : Text} (hq : q = '\'' ∨ q = '"') :
      Derives .primary [(.quoted q, body)] (.string body)
  | plainTemplate {quasi : Text} : Derives .primary [(.plainTemplate, quasi)] (.template [quasi] [])
  | template {head tail : Text} {vs : List Token} {first : Tree} {more : List Item}
      (hfirst : Derives .conditional vs first)
      (hsep : ∀ m ∈ more, m.separator.1 = .templateMiddle)
      (hmore : ∀ m ∈ more, Derives .conditional m.tokens m.tree) :
      Derives .primary
        ((.templateHead, head) :: (vs ++ (itemTokens more ++ [(.templateTail, tail)])))
        (.template (head :: (more.map (·.separator.2) ++ [tail])) (first :: more.map Item.tree))
  | number {digits : Text} : Derives .primary [(.number, digits)] (.number digits)
  | name {n : Text} : Derives .primary [(.name, n)] (.name n)
  | group {ws : List Token} {e : Tree} (h : Derives .conditional ws e) :
      Derives .primary (markToken '(' :: (ws ++ [markToken ')'])) e

/-- **Tokens derive a source**: an expression alone, or an import call. -/
inductive DerivesSource : List Token → Source → Prop
  | expression {ws : List Token} {e : Tree} (h : Derives .conditional ws e) :
      DerivesSource ws (.expression e)
  | importCall {ws : List Token} {e : Tree} {trailing : Bool} (h : Derives .conditional ws e) :
      DerivesSource
        ((.importWord, importText) :: markToken '(' :: (ws ++ (trailingComma trailing ++ [markToken ')'])))
        (.importCall e none)
  | importOptions {ws vs : List Token} {e o : Tree} {trailing : Bool} (h : Derives .conditional ws e)
      (options : Derives .conditional vs o) :
      DerivesSource
        ((.importWord, importText) :: markToken '(' ::
          (ws ++ markToken ',' :: (vs ++ (trailingComma trailing ++ [markToken ')']))))
        (.importCall e (some o))

/-! ## The language of a level -/

variable {L : Language Terminal}

/-- Whether the text of a token spells a text, if it is a string: no escape stands for a code point
beyond Unicode. -/
def EscapesInRange (w : Token) : Prop := ∀ q, w.1 = .quoted q → ∃ t, unescape w.2 = .ok t

/-- Whether every string among tokens spells a text. -/
def AllInRange (ws : List Token) : Prop := ∀ w ∈ ws, EscapesInRange w

@[simp] theorem allInRange_nil : AllInRange [] := fun _ h => absurd h List.not_mem_nil

@[simp] theorem allInRange_cons {w : Token} :
    AllInRange (w :: ws) ↔ EscapesInRange w ∧ AllInRange ws := List.forall_mem_cons

@[simp] theorem allInRange_append : AllInRange (ws ++ vs) ↔ AllInRange ws ∧ AllInRange vs :=
  List.forall_mem_append

theorem escapesInRange_of_ne {w : Token} (h : ∀ q, w.1 ≠ .quoted q) : EscapesInRange w :=
  fun q hq => absurd hq (h q)

@[simp] theorem escapesInRange_mark (c : Char) : EscapesInRange (markToken c) :=
  escapesInRange_of_ne fun _ h => by cases h

@[simp] theorem allInRange_trailingComma (trailing : Bool) : AllInRange (trailingComma trailing) := by
  cases trailing <;> simp [trailingComma]

theorem allInRange_itemTokens (more : List Item) (hsep : ∀ m ∈ more, EscapesInRange m.separator) :
    AllInRange (itemTokens more) ↔ ∀ m ∈ more, AllInRange m.tokens := by
  induction more with
  | nil => simp [itemTokens]
  | cons m more ih =>
    have ih := ih fun n hn => hsep n (List.mem_cons_of_mem _ hn)
    have hm := hsep m (List.mem_cons_self ..)
    rw [itemTokens] at ih ⊢
    simp [hm, ih]

theorem isSome_toExpressions {es : List Tree} :
    (toExpressions es).isSome = true ↔ ∀ e ∈ es, e.toExpression.isSome = true := by
  induction es with
  | nil => simp [toExpressions]
  | cons e es ih =>
    rw [toExpressions, List.forall_mem_cons, ← ih]
    cases e.toExpression <;> cases toExpressions es <;> simp

/-- An operator spells nothing, and its tree stands for an expression if its operands do. -/
theorem isSome_operator {l : Level} {τ : Terminal} {make : Text → Tree → Tree → Tree}
    (hl : l.operator = some (τ, make)) (op : Text) (e e' : Tree) : EscapesInRange (τ, op) ∧
      ((make op e e').toExpression.isSome = true ↔
        e.toExpression.isSome = true ∧ e'.toExpression.isSome = true) := by
  cases l with
  | logical | relational | additive | multiplicative =>
    obtain ⟨rfl, rfl⟩ := Prod.mk.inj (Option.some.inj hl)
    refine ⟨escapesInRange_of_ne fun _ h => (by cases h), ?_⟩
    simp only [Tree.toExpression]
    cases e.toExpression <;> cases e'.toExpression <;> simp
  | _ => cases hl

/-- Expressions one after another stand for expressions if their strings spell texts. -/
theorem isSome_items {first : Tree} {more : List Item} (hsep : ∀ m ∈ more, EscapesInRange m.separator)
    (hfirst : first.toExpression.isSome = true ↔ AllInRange vs)
    (hmore : ∀ m ∈ more, (m.tree.toExpression.isSome = true ↔ AllInRange m.tokens)) :
    (toExpressions (first :: more.map Item.tree)).isSome = true ↔
      AllInRange vs ∧ AllInRange (itemTokens more) := by
  rw [isSome_toExpressions, List.forall_mem_cons, List.forall_mem_map, hfirst, allInRange_itemTokens more hsep]
  exact and_congr_right fun _ => forall₂_congr hmore

/-- **The tree stands for an expression** exactly if every string among the tokens spells a text. -/
theorem Derives.isSome_toExpression {l : Level} {e : Tree} (h : Derives l ws e) :
    e.toExpression.isSome = true ↔ AllInRange ws := by
  induction h with
  | tighter _ ih => exact ih
  | @between l τ make ws vs op e e' hl _ _ ihl ihr =>
    obtain ⟨hop, hsome⟩ := isSome_operator hl op e e'
    simp [hsome, ihl, ihr, hop]
  | @choice ws vs us e e' e'' _ _ _ iht ihc iha =>
    simp only [allInRange_append, allInRange_cons, escapesInRange_mark, true_and, ← iht, ← ihc, ← iha,
      Tree.toExpression]
    cases e.toExpression <;> cases e'.toExpression <;> cases e''.toExpression <;> simp
  | @unary op ws e _ ih =>
    have hop : EscapesInRange (.unary, op) := escapesInRange_of_ne fun _ h => by cases h
    simp only [allInRange_cons, hop, true_and, ← ih, Tree.toExpression]
    cases e.toExpression <;> simp
  | @member ws e n _ ih =>
    have hn : EscapesInRange (.name, n) := escapesInRange_of_ne fun _ h => by cases h
    simp only [allInRange_append, allInRange_cons, allInRange_nil, escapesInRange_mark, hn, and_true,
      ← ih, Tree.toExpression]
    cases e.toExpression <;> simp
  | @index ws vs e k _ _ ih ihk =>
    simp only [allInRange_append, allInRange_cons, allInRange_nil, escapesInRange_mark, true_and,
      and_true, ← ih, ← ihk, Tree.toExpression]
    cases e.toExpression <;> cases k.toExpression <;> simp
  | @callNone ws e _ ih =>
    simp only [allInRange_append, allInRange_cons, allInRange_nil, escapesInRange_mark, and_true, ← ih,
      Tree.toExpression, toExpressions]
    cases e.toExpression <;> simp
  | @call ws vs e first more trailing _ _ hsep _ ih ihf ihm =>
    have hargs := isSome_items (fun m hm => hsep m hm ▸ escapesInRange_mark ',') ihf ihm
    simp only [allInRange_append, allInRange_cons, allInRange_nil, escapesInRange_mark,
      allInRange_trailingComma, true_and, and_true, ← ih, ← hargs, Tree.toExpression]
    cases e.toExpression <;> cases toExpressions (first :: more.map Item.tree) <;> simp
  | @string q body hq =>
    simp only [Tree.toExpression, allInRange_cons, allInRange_nil, and_true, EscapesInRange]
    cases unescape body <;> simp [Except.toOption]
  | plainTemplate =>
    have h {quasi : Text} : EscapesInRange (.plainTemplate, quasi) := escapesInRange_of_ne fun _ h => by cases h
    simp [Tree.toExpression, toExpressions, h]
  | @template head tail vs first more _ hsep _ ihf ihm =>
    have hseparator : ∀ m ∈ more, EscapesInRange m.separator := fun m hm =>
      escapesInRange_of_ne fun q hq => by cases (hsep m hm).symm.trans hq
    have hholes := isSome_items hseparator ihf ihm
    have hhead : EscapesInRange (.templateHead, head) := escapesInRange_of_ne fun _ h => by cases h
    have htail : EscapesInRange (.templateTail, tail) := escapesInRange_of_ne fun _ h => by cases h
    simp only [allInRange_append, allInRange_cons, allInRange_nil, hhead, htail, true_and, and_true,
      ← hholes, Tree.toExpression]
    cases toExpressions (first :: more.map Item.tree) <;> simp
  | number | name =>
    simp [Tree.toExpression, EscapesInRange]
  | group _ ih => simpa using ih

/-- **The expression of a source** is there exactly if every string among its tokens spells a text. -/
theorem DerivesSource.isSome_toExpression {x : Source} (h : DerivesSource ws x) :
    x.toExpression.isSome = true ↔ AllInRange ws := by
  have hword : EscapesInRange (.importWord, importText) := escapesInRange_of_ne fun _ h => by cases h
  cases h with
  | expression h => exact h.isSome_toExpression
  | @importCall ws e trailing h =>
    have hcall : (Source.importCall e none).toExpression = e.toExpression := rfl
    rw [hcall, h.isSome_toExpression]
    simp [hword]
  | @importOptions ws vs e o trailing h ho =>
    have hcall : (Source.importCall e (some o)).toExpression =
        o.toExpression.bind fun _ => e.toExpression := rfl
    simp only [allInRange_append, allInRange_cons, allInRange_nil, hword, escapesInRange_mark,
      allInRange_trailingComma, true_and, and_true, ← h.isSome_toExpression, ← ho.isSome_toExpression,
      hcall]
    cases e.toExpression <;> cases o.toExpression <;> simp

end VariableImport.Script
