import VariableImport.Proofs.Script.Derivation

/-!
# Proofs/Script/Followed — readings follow derivations

Whatever a reader finds was read from tokens that derive it (`Follows`).  Combinators of readers put the
tokens one after another, one lemma for each; so an expression that is found is one that the tokens in
front of what is left derive (`follows_expression`), and a source as well (`exists_derivesSource`).
-/

namespace VariableImport.Script

open Reader

variable {α β : Type} {p q : Reader α} {f : α → Reader β} {τ : Terminal} {s t r : Text}
  {ws vs us : List Token}

/-- **Whether what a reader finds follows tokens** that are related to it. -/
def Follows (p : Reader α) (D : List Token → α → Prop) : Prop :=
  ∀ s a t, (a, t) ∈ (p s).found → ∃ ws, Splits AnyGap ws s t ∧ D ws a

/-! ## Combinators -/

variable {D E : List Token → α → Prop} {a : α}

theorem Follows.mono (h : Follows p D) (hDE : ∀ ws a, D ws a → E ws a) : Follows p E := by
  intro s a t ha
  obtain ⟨ws, hws, hd⟩ := h s a t ha
  exact ⟨ws, hws, hDE ws a hd⟩

theorem follows_fail : Follows (fail : Reader α) D := fun _ _ _ h => absurd h List.not_mem_nil

theorem follows_pure (h : D [] a) : Follows (pure a) D := by
  intro s b t hb
  obtain ⟨rfl, rfl⟩ := mem_pure.mp hb
  exact ⟨[], .nil _, h⟩

theorem Follows.orElse (hp : Follows p D) (hq : Follows q D) : Follows (p <|> q) D :=
  fun s a t ha => (mem_orElse.mp ha).elim (hp s a t) (hq s a t)

theorem Follows.orWhereNot (hp : Follows p D) (hq : Follows q D) : Follows (p.orWhereNot q) D :=
  fun s a t ha => (List.mem_append.mp ha).elim (hp s a t) fun h => hq s a t (List.mem_filter.mp h).1

/-- **Reading one after another** puts the tokens one after another. -/
theorem Follows.bind {E : α → List Token → β → Prop} (hp : Follows p D)
    (hf : ∀ a, Follows (f a) (E a)) :
    Follows (p >>= f) fun us b => ∃ ws vs a, us = ws ++ vs ∧ D ws a ∧ E a vs b := by
  intro s b r hb
  obtain ⟨a, t, ha, hb⟩ := mem_bind.mp hb
  obtain ⟨ws, hws, hd⟩ := hp s a t ha
  obtain ⟨vs, hvs, he⟩ := hf a t b r hb
  exact ⟨ws ++ vs, hws.append hvs, ws, vs, a, rfl, hd, he⟩

/-- Results may be changed. -/
theorem Follows.map {E : List Token → β → Prop} {g : α → β} (hp : Follows p D)
    (hDE : ∀ ws a, D ws a → E ws (g a)) : Follows (p >>= fun a => pure (g a)) E := by
  intro s b r hb
  obtain ⟨a, t, ha, hb⟩ := mem_bind.mp hb
  obtain ⟨rfl, rfl⟩ := mem_pure.mp hb
  obtain ⟨ws, hws, hd⟩ := hp s a r ha
  exact ⟨ws, hws, hDE ws a hd⟩

theorem follows_token (τ : Terminal) : Follows (token τ) fun ws a => ws = [(τ, a)] := by
  intro s a t ha
  obtain ⟨u, hu, hscan⟩ := mem_token.mp ha
  exact ⟨_, .cons hu hscan (.nil t), rfl⟩

/-- A token that is all of a result. -/
theorem follows_leaf {g : Text → β} {E : List Token → β → Prop} (h : ∀ a, E [(τ, a)] (g a)) :
    Follows (token τ >>= fun a => pure (g a)) E :=
  (follows_token τ).map fun _ a hws => hws ▸ h a

theorem follows_mark (c : Char) : Follows (mark c) fun ws _ => ws = [markToken c] := by
  intro s x t h
  obtain ⟨w, t', hw, hx⟩ := mem_bind.mp h
  obtain ⟨-, rfl⟩ := mem_pure.mp hx
  obtain ⟨u, hu, hscan⟩ := mem_token.mp hw
  obtain rfl : w = [c] := List.mem_singleton.mp (oneOf_eq hscan).1
  exact ⟨_, .cons hu hscan (.nil t), rfl⟩

/-- A mark behind which a result stands. -/
theorem follows_closed (c : Char) (b : β) :
    Follows (mark c >>= fun _ => pure b) fun ws b' => ws = [markToken c] ∧ b' = b :=
  (follows_mark c).map fun _ _ hws => ⟨hws, rfl⟩

/-- **Steps** follow what is related by one step after another. -/
theorem follows_steps (step : α → Reader α) {R Q : α → List Token → α → Prop}
    (hstep : ∀ a, Follows (step a) (R a)) (hnil : ∀ a, Q a [] a)
    (hcons : ∀ {a b c ws vs}, R a ws b → Q b vs c → Q a (ws ++ vs) c) (a : α) :
    Follows (steps step a) (Q a) := by
  have within (n : ℕ) (a : α) : Follows (stepsWithin step n a) (Q a) := by
    induction n generalizing a with
    | zero => exact follows_pure (hnil a)
    | succ n ih =>
      refine (follows_pure (hnil a)).orElse (((hstep a).bind ih).mono ?_)
      rintro _ c ⟨ws, vs, b, rfl, hr, hq⟩
      exact hcons hr hq
  exact fun s => within s.length a s

/-! ## Operands -/

variable {nested : Reader Tree}

/-- Whether items are expressions behind separators of a kind. -/
def Separated (ok : Token → Prop) (more : List Item) : Prop :=
  ∀ m ∈ more, ok m.separator ∧ Derives .conditional m.tokens m.tree

theorem separated_nil {ok : Token → Prop} : Separated ok [] := fun _ h => absurd h List.not_mem_nil

theorem Separated.cons {ok : Token → Prop} {m : Item} {more : List Item} (hm : ok m.separator)
    (hd : Derives .conditional m.tokens m.tree) (h : Separated ok more) : Separated ok (m :: more) :=
  List.forall_mem_cons.mpr ⟨⟨hm, hd⟩, h⟩

theorem follows_commaSeparated (h : Follows nested (Derives .conditional)) (first : Tree) :
    Follows (commaSeparated nested [first]) fun ws es => ∃ more,
      Separated (· = markToken ',') more ∧ ws = itemTokens more ∧ es = first :: more.map Item.tree := by
  have hsteps := follows_steps (fun items : List Tree => mark ',' >>= fun _ => nested >>= fun e =>
      pure (e :: items))
    (Q := fun items ws items' => ∃ more, Separated (· = markToken ',') more ∧ ws = itemTokens more ∧
      items' = (more.map Item.tree).reverse ++ items)
    (fun items => (follows_mark ',').bind fun _ => h.map (E := fun vs items' => ∃ e,
      Derives .conditional vs e ∧ items' = e :: items) fun vs e he => ⟨e, he, rfl⟩)
    (fun items => ⟨[], separated_nil, rfl, rfl⟩) ?_ [first]
  · refine hsteps.map fun ws items hq => ?_
    obtain ⟨more, hmore, rfl, rfl⟩ := hq
    exact ⟨more, hmore, rfl, by simp⟩
  · rintro items _ _ _ _ ⟨_, vs, _, rfl, rfl, e, he, rfl⟩ ⟨more, hmore, rfl, rfl⟩
    exact ⟨⟨markToken ',', vs, e⟩ :: more, hmore.cons rfl he, rfl, by simp⟩

theorem follows_optionalComma :
    Follows optionalComma fun ws _ => ∃ trailing, ws = trailingComma trailing :=
  (follows_pure ⟨false, rfl⟩).orElse ((follows_mark ',').mono fun _ _ h => ⟨true, h⟩)

/-- The arguments of a call and the closing parenthesis as tokens. -/
def ArgumentTokens (ws : List Token) (es : List Tree) : Prop :=
  ws = [markToken ')'] ∧ es = [] ∨ ∃ vs first more trailing, Derives .conditional vs first ∧
    Separated (· = markToken ',') more ∧
    ws = vs ++ (itemTokens more ++ (trailingComma trailing ++ [markToken ')'])) ∧
    es = first :: more.map Item.tree

theorem follows_arguments (h : Follows nested (Derives .conditional)) :
    Follows (arguments nested) ArgumentTokens := by
  refine ((follows_closed ')' []).mono fun ws es => .inl).orElse ((h.bind fun first =>
    (follows_commaSeparated h first).bind fun items => follows_optionalComma.bind fun _ =>
      follows_closed ')' items).mono ?_)
  rintro _ _ ⟨vs, _, first, rfl, hfirst, _, _, es, rfl, ⟨more, hmore, rfl, rfl⟩, _, _, _, rfl,
    ⟨trailing, rfl⟩, rfl, rfl⟩
  exact .inr ⟨vs, first, more, trailing, hfirst, hmore, rfl, rfl⟩

theorem follows_templateWithHoles (h : Follows nested (Derives .conditional)) :
    Follows (templateWithHoles nested) (Derives .primary) := by
  have hsteps := follows_steps (fun x : List Text × List Tree => token .templateMiddle >>= fun quasi =>
      nested >>= fun hole => pure (quasi :: x.1, hole :: x.2))
    (Q := fun x ws y => ∃ more, Separated (·.1 = .templateMiddle) more ∧ ws = itemTokens more ∧
      y = ((more.map (·.separator.2)).reverse ++ x.1, (more.map Item.tree).reverse ++ x.2))
    (fun x => (follows_token .templateMiddle).bind fun quasi => h.map (E := fun vs y => ∃ hole,
      Derives .conditional vs hole ∧ y = (quasi :: x.1, hole :: x.2)) fun vs e he => ⟨e, he, rfl⟩)
    (fun x => ⟨[], separated_nil, rfl, rfl⟩) ?_
  · refine ((follows_token .templateHead).bind fun head => h.bind fun first =>
      (hsteps ([head], [first])).bind fun x => follows_leaf (τ := .templateTail) (E := fun ws e => ∃ tail,
        ws = [(.templateTail, tail)] ∧ e = Tree.template (tail :: x.1).reverse x.2.reverse)
          fun tail => ⟨tail, rfl, rfl⟩).mono ?_
    rintro _ _ ⟨_, _, head, rfl, rfl, vs, _, first, rfl, hfirst, _, _, _, rfl, ⟨more, hmore, rfl, rfl⟩,
      tail, rfl, rfl⟩
    have : Derives .primary ((.templateHead, head) :: (vs ++ (itemTokens more ++ [(.templateTail, tail)]))) _ :=
      .template hfirst (fun m hm => (hmore m hm).1) fun m hm => (hmore m hm).2
    simpa using this
  · rintro x _ _ _ _ ⟨_, vs, quasi, rfl, rfl, hole, hhole, rfl⟩ ⟨more, hmore, rfl, rfl⟩
    exact ⟨⟨(.templateMiddle, quasi), vs, hole⟩ :: more, hmore.cons rfl hhole, rfl, by simp⟩

theorem follows_primary (h : Follows nested (Derives .conditional)) :
    Follows (primary nested) (Derives .primary) := by
  refine (follows_leaf fun _ => .string (.inl rfl)).orElse ((follows_leaf fun _ => .string (.inr rfl)).orElse
    ((follows_leaf fun _ => .plainTemplate).orElse ((follows_templateWithHoles h).orElse
      ((follows_leaf fun _ => .number).orElse ((follows_leaf fun _ => .name).orElse ?_)))))
  refine ((follows_mark '(').bind fun _ => h.bind fun e => follows_closed ')' e).mono ?_
  rintro _ _ ⟨_, _, _, rfl, rfl, ws, _, e, rfl, he, rfl, rfl⟩
  exact he.group

/-- Whether tokens behind those of an operand of a level make another of it. -/
def Continues (l : Level) (e : Tree) (ws : List Token) (e' : Tree) : Prop :=
  ∀ us, Derives l us e → Derives l (us ++ ws) e'

theorem continues_nil (l : Level) (e : Tree) : Continues l e [] e :=
  fun us hus => (List.append_nil us).symm ▸ hus

theorem Continues.append {l : Level} {e e' e'' : Tree} (h : Continues l e ws e')
    (h' : Continues l e' vs e'') : Continues l e (ws ++ vs) e'' :=
  fun us hus => List.append_assoc us ws vs ▸ h' _ (h us hus)

/-- **An item and steps from it** derive what the level of the steps derives. -/
theorem follows_chain {l : Level} {item : Reader Tree} {step : Tree → Reader Tree}
    (h : Follows item (Derives l.next)) (hstep : ∀ e, Follows (step e) (Continues l e)) :
    Follows (item >>= steps step) (Derives l) := by
  refine (h.bind (follows_steps step hstep (continues_nil l) Continues.append)).mono ?_
  rintro _ e ⟨ws, vs, a, rfl, ha, hae⟩
  exact hae ws (.tighter ha)

theorem follows_postfixStep (h : Follows nested (Derives .conditional)) (e : Tree) :
    Follows (postfixStep nested e) (Continues .operand e) := by
  refine Follows.orElse ?_ (Follows.orElse ?_ ?_)
  · refine ((follows_mark '.').bind fun _ => follows_leaf (τ := .name) (E := fun ws e' => ∃ n,
      ws = [(.name, n)] ∧ e' = Tree.member e n) fun n => ⟨n, rfl, rfl⟩).mono ?_
    rintro _ _ ⟨_, _, _, rfl, rfl, n, rfl, rfl⟩ us hus
    exact hus.member
  · refine ((follows_mark '[').bind fun _ => h.bind fun k => follows_closed ']' (Tree.index e k)).mono ?_
    rintro _ _ ⟨_, _, _, rfl, rfl, vs, _, k, rfl, hk, rfl, rfl⟩ us hus
    exact hus.index hk
  · refine ((follows_mark '(').bind fun _ => (follows_arguments h).map (g := Tree.call e)
      (E := fun ws e' => ∃ es, ArgumentTokens ws es ∧ e' = .call e es) fun ws es hes => ⟨es, hes, rfl⟩).mono ?_
    rintro _ _ ⟨_, _, _, rfl, rfl, _, ⟨rfl, rfl⟩ | ⟨vs, first, more, trailing, hfirst, hmore, rfl, rfl⟩,
      rfl⟩ us hus
    · exact hus.callNone
    · exact hus.call hfirst (fun m hm => (hmore m hm).1) fun m hm => (hmore m hm).2

/-! ## Expressions -/

theorem follows_prefixedWithin (h : Follows nested (Derives .conditional)) (n : ℕ) :
    Follows (prefixedWithin nested n) (Derives .prefixed) := by
  induction n with
  | zero => exact follows_fail
  | succ n ih =>
    have hoperand := follows_chain (l := .operand) (follows_primary h) (follows_postfixStep h)
    refine (hoperand.mono fun _ _ h => Derives.tighter (l := .prefixed) h).orWhereNot (((follows_token .unary).bind fun op =>
      ih.map (E := fun ws e => ∃ a, Derives .prefixed ws a ∧ e = .unary op a)
        fun ws a ha => ⟨a, ha, rfl⟩).mono ?_)
    rintro _ _ ⟨_, ws, op, rfl, rfl, a, ha, rfl⟩
    exact ha.unary

theorem follows_leftToRight {l : Level} {op : Terminal} {make : Text → Tree → Tree → Tree}
    (hl : l.operator = some (op, make)) {item : Reader Tree} (h : Follows item (Derives l.next)) :
    Follows (leftToRight op make item) (Derives l) := by
  refine follows_chain h fun left => ((follows_token op).bind fun w => h.map (E := fun vs e => ∃ right,
    Derives l.next vs right ∧ e = make w left right) fun vs right hr => ⟨right, hr, rfl⟩).mono ?_
  rintro _ _ ⟨_, vs, w, rfl, rfl, right, hr, rfl⟩ us hus
  exact .between hl hus hr

theorem follows_condition (h : Follows nested (Derives .conditional)) :
    Follows (condition nested) (Derives .logical) := by
  have hprefixed : Follows (prefixed nested) (Derives .prefixed) :=
    fun s => follows_prefixedWithin h (s.length + 1) s
  have hproduct := follows_leftToRight (l := .multiplicative) rfl hprefixed
  have hsum := follows_leftToRight (l := .additive) rfl hproduct
  have hcomparison := follows_leftToRight (l := .relational) rfl hsum
  exact follows_leftToRight (l := .logical) rfl hcomparison

theorem follows_conditional (h : Follows nested (Derives .conditional)) :
    Follows (conditional nested) (Derives .conditional) := by
  have hbranch (test e : Tree) : Follows (mark ':' >>= fun _ => nested >>= fun e' =>
      pure (Tree.conditional test e e')) fun ws x => ∃ us, ws = markToken ':' :: us ∧ ∃ e',
        Derives .conditional us e' ∧ x = .conditional test e e' := by
    refine ((follows_mark ':').bind fun _ => h.map (E := fun us x => ∃ e', Derives .conditional us e' ∧
      x = Tree.conditional test e e') fun us e' he' => ⟨e', he', rfl⟩).mono ?_
    rintro _ _ ⟨_, us, _, rfl, rfl, he'⟩
    exact ⟨us, rfl, he'⟩
  refine ((follows_condition h).bind fun test =>
    (follows_pure (D := fun ws x => ∀ us, Derives .logical us test → Derives .conditional (us ++ ws) x)
      ?_).orElse (((follows_mark '?').bind fun _ => h.bind (hbranch test)).mono ?_)).mono ?_
  · exact fun us hus => (List.append_nil us).symm ▸ .tighter hus
  · rintro _ _ ⟨_, _, _, rfl, rfl, vs, _, e, rfl, he, us', rfl, e', he', rfl⟩ us hus
    exact hus.choice he he'
  · rintro _ e ⟨ws, vs, test, rfl, htest, he⟩
    exact he ws htest

/-- **What is read as an expression** follows tokens that derive it. -/
theorem follows_expression : Follows expression (Derives .conditional) := by
  have within (n : ℕ) : Follows (expressionWithin n) (Derives .conditional) := by
    induction n with
    | zero => exact follows_fail
    | succ n ih => exact follows_conditional ih
  exact fun s => within (s.length + 1) s

/-! ## Sources -/

theorem follows_callEnd (x : Source) : Follows (callEnd x) fun ws y =>
    ∃ trailing, ws = trailingComma trailing ++ [markToken ')'] ∧ y = x := by
  refine (follows_optionalComma.bind fun _ => follows_closed ')' x).mono ?_
  rintro _ _ ⟨_, _, _, rfl, ⟨trailing, rfl⟩, rfl, rfl⟩
  exact ⟨trailing, rfl, rfl⟩

/-- Whether tokens are those of a second argument with the comma before it, or none. -/
def OptionTokens (ws : List Token) (o : Option Tree) : Prop :=
  ws = [] ∧ o = none ∨ ∃ vs e, ws = markToken ',' :: vs ∧ Derives .conditional vs e ∧ o = some e

theorem follows_options (h : Follows nested (Derives .conditional)) :
    Follows (pure none <|> (mark ',' >>= fun _ => nested >>= fun e => pure (some e))) OptionTokens := by
  refine (follows_pure (.inl ⟨rfl, rfl⟩)).orElse (((follows_mark ',').bind fun _ =>
    h.map (E := fun vs o => ∃ e, Derives .conditional vs e ∧ o = some e) fun vs e he => ⟨e, he, rfl⟩).mono ?_)
  rintro _ _ ⟨_, vs, _, rfl, rfl, e, he, rfl⟩
  exact .inr ⟨vs, e, rfl, he, rfl⟩

/-- What stands behind the word of an import call. -/
theorem follows_callArguments (h : Follows nested (Derives .conditional)) {options : Reader (Option Tree)}
    (ho : Follows options OptionTokens) :
    Follows (mark '(' >>= fun _ => nested >>= fun argument => options >>= fun o =>
      callEnd (.importCall argument o)) fun ws x => DerivesSource ((.importWord, importText) :: ws) x := by
  refine ((follows_mark '(').bind fun _ => h.bind fun argument => ho.bind fun o =>
    follows_callEnd (.importCall argument o)).mono ?_
  rintro _ _ ⟨_, _, _, rfl, rfl, ws, _, e, rfl, he, _, _, o, rfl, ⟨rfl, rfl⟩ | ⟨vs, e', rfl, he', rfl⟩,
    trailing, rfl, rfl⟩
  · exact .importCall he
  · have : DerivesSource ((.importWord, importText) :: markToken '(' ::
        (ws ++ markToken ',' :: (vs ++ (trailingComma trailing ++ [markToken ')'])))) _ := .importOptions he he'
    simpa using this

/-- **What is read as an import call** follows tokens that derive it. -/
theorem follows_importCall : Follows importCall DerivesSource := by
  have hcall := follows_callArguments follows_expression (follows_options follows_expression)
  intro s x r hx
  rw [importCall_eq] at hx
  obtain ⟨a, t, ha, hx⟩ := mem_bind.mp hx
  obtain ⟨u, hu, hscan⟩ := mem_token.mp ha
  obtain rfl : a = importText := List.mem_singleton.mp (oneOf_eq hscan).1
  obtain ⟨ws, hws, hd⟩ := hcall t x r hx
  exact ⟨_, .cons hu hscan hws, hd⟩

/-- **What is read as a source** follows tokens that derive it, up to the end of the text. -/
theorem exists_derivesSource {x : Source} (h : (x, t) ∈ (source s).found) :
    ∃ ws r, Splits AnyGap ws s r ∧ Gap r [] ∧ DerivesSource ws x := by
  rw [source_eq] at h
  obtain ⟨y, r, hy, hend⟩ := mem_bind.mp h
  obtain ⟨_, t', hfinish, hpure⟩ := mem_bind.mp hend
  obtain ⟨rfl, rfl⟩ := mem_pure.mp hpure
  obtain ⟨rfl, hgap⟩ := mem_finish.mp hfinish
  obtain ⟨ws, hws, hd⟩ := (follows_importCall.orElse
    (follows_expression.map fun _ _ he => .expression he)) s x r hy
  exact ⟨ws, r, hws, hgap, hd⟩

end VariableImport.Script
