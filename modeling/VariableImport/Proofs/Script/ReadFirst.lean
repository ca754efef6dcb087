import VariableImport.Proofs.Script.Foremost

/-!
# Proofs/Script/ReadFirst — operators are read with the first operands

The readers try the longest reading first: one more step before none.  Where a plain split goes on, each step
it takes is the first that the rest of the text lets through.  So the tree of some tokens is read first with
all steps that may go on with it (`ReadFirst`), and what two such trees are operands of is read first as well
(`ReadFirst.between`, `ReadFirst.choice`).
-/

namespace VariableImport.Script

open Reader

variable {Q R : Text → Prop} {s t u r : Text} {l : Level} {τ : Terminal}
  {c : Char} {e e' e'' : Tree} {ws vs us : List Token} {x : Text × Text} {w : Text}

/-! ## Tokens of a plain split -/

theorem Plain.next (h : Plain τ s u) (hscan : τ.scan u = some x) (hτ : τ ∈ valueTerminals)
    (hs : Settled s) : Next τ s := ⟨hτ, hs, u, x, h.gap, h.gap?_eq, hscan⟩

theorem Plain.mayFollow (h : Plain τ s u) (hscan : τ.scan u = some x) (hτ : τ ∈ valueTerminals)
    (hne : τ ≠ .mark '.') (hop : τ ∈ operators → ¬ Barren x.2) : MayFollow s :=
  .inr ⟨τ, hτ, u, h.gap, x, hscan, fun e => absurd e hne, hop⟩

theorem Plain.found_token (h : Plain τ s u) (hscan : τ.scan u = some x) (hτ : τ.isToken = true)
    (hne : τ ≠ .multiplicative) : (token τ s).found = [x] := by
  rw [found_token_of_ne h.gap h.gap?_eq hτ hne, hscan]
  rfl

/-- A mark is read in one way. -/
theorem Splits.found_mark (h : Splits Plain (markToken c :: ws) s r) (hc : isPlain c = true) :
    ∃ t, (mark c s).found = [((), t)] ∧ Splits Plain ws t r := by
  obtain ⟨u, t, hok, hscan, h⟩ := h.of_cons
  refine ⟨t, ?_, h⟩
  show ((token (.mark c) >>= fun _ => pure ()) s).found = _
  rw [found_bind_of_eq (hok.found_token hscan hc (by simp))]
  rfl

/-- Another mark is not found. -/
theorem Splits.found_mark_of_ne {d : Char} (h : Splits Plain (markToken c :: ws) s r) (hne : d ≠ c)
    (hd : isPlain d = true) : (mark d s).found = [] := by
  obtain ⟨u, t, hok, hscan, -⟩ := h.of_cons
  refine found_bind_nil ?_ _
  rw [found_token_of_ne (τ := .mark d) hok.gap hok.gap?_eq hd (by simp)]
  obtain rfl := mark_eq hscan
  rw [scan_eq_none (τ := .mark d) (beq_eq_false_iff_ne.mpr hne.symm)]
  rfl

theorem Splits.next (h : Splits Plain ((τ, w) :: ws) s r) (hτ : τ ∈ valueTerminals) (hs : Settled s) :
    Next τ s := by
  obtain ⟨u, t, hok, hscan, -⟩ := h.of_cons
  exact hok.next hscan hτ hs

theorem Splits.mayFollow (h : Splits Plain ((τ, w) :: ws) s r) (hτ : τ ∈ valueTerminals)
    (hne : τ ≠ .mark '.') (hop : τ ∉ operators) : MayFollow s := by
  obtain ⟨u, t, hok, hscan, -⟩ := h.of_cons
  exact hok.mayFollow hscan hτ hne fun h => absurd h hop

/-! ## What is read first -/

/-- **Whether the tree of tokens is read first** at a level: in a plain split that something may follow,
it stands among the results with all steps that may go on with it, and what stands before is held. -/
def ReadFirst (l : Level) (ws : List Token) (e : Tree) : Prop :=
  ∀ s t, Splits Plain ws s t → MayFollow t →
    Foremost (Held l.bond) (steps l.step e t).found (l.reader s).found

theorem ReadFirst.foremost (h : ReadFirst l ws e) (hs : Splits Plain ws s t) (ht : MayFollow t) :
    Foremost (Held l.bond) [(e, t)] (l.reader s).found := by
  have := h s t hs ht
  rw [found_steps l.takes_step] at this
  exact (foremost_append [(e, t)] _).trans this

/-- Nothing is read on with a tree where its level has no steps. -/
theorem readFirst_of_foremost (hl : l.operator = none) (hne : l ≠ .operand)
    (h : ∀ s t, Splits Plain ws s t → MayFollow t → Foremost (Held l.bond) [(e, t)] (l.reader s).found) :
    ReadFirst l ws e := by
  intro s t hs ht
  rw [found_steps_nil l.takes_step (by rw [step_of_ne hl hne]; rfl)]
  exact h s t hs ht

theorem ReadFirst.nested (h : ReadFirst .conditional ws e) (hs : Splits Plain ws s t)
    (ht : MayFollow t) : Foremost (Held 1) [(e, t)] (expression s).found := by
  rw [found_expression]
  exact h.foremost hs ht

/-- **One step more**: what a level reads in steps is read on by the first result of a step. -/
theorem ReadFirst.step (h : Foremost (Held l.bond) (steps l.step e s).found (l.reader r).found)
    (hheld : Held l.bond s) (hstep : Foremost Q [(e', t)] (l.step e s).found)
    (hQ : ∀ u, Q u → Held l.next.bond u) :
    Foremost (Held l.bond) (steps l.step e' t).found (l.reader r).found := by
  have hsteps : Foremost (Held l.bond) (steps l.step e' t).found
      ((l.step e s).found.flatMap fun x => (steps l.step x.1 x.2).found) := by
    have := hstep.flatMap (R := Held l.bond) (F := fun x => (steps l.step x.1 x.2).found) fun x hx y hy => by
      rw [(hQ _ hx).found_steps] at hy
      exact List.mem_singleton.mp hy ▸ (hQ _ hx).mono (bond_le_next l)
    rwa [List.flatMap_singleton] at this
  refine Foremost.trans ?_ h
  rw [found_steps l.takes_step e s]
  exact hsteps.behind (n := [(e, s)]) fun x hx => List.mem_singleton.mp hx ▸ hheld

/-! ## Operators -/

/-- A level that associates to the left reads an item of the next level and steps. -/
def Level.IsChain (l : Level) : Prop := l.reader = l.next.reader >>= steps l.step

theorem isChain_or (l : Level) : l.IsChain ∨ l = .conditional ∨ l = .prefixed ∨ l = .primary := by
  cases l with
  | logical | relational | additive | multiplicative | operand => exact .inl rfl
  | _ => simp

theorem found_prefixed (s : Text) : (Level.prefixed.reader s).found = (operand expression s).found ++
    ((token .unary >>= fun op => Level.prefixed.reader >>= fun e => pure (Tree.unary op e)) s).found.filter
      fun x => (operand expression s).found.all (·.2.length != x.2.length) := by
  have hrest : ((token .unary >>= fun op => prefixedWithin expression s.length >>= fun e =>
      pure (Tree.unary op e)) s).found = ((token .unary >>= fun op => Level.prefixed.reader >>= fun e =>
        pure (Tree.unary op e)) s).found := by
    rw [found_bind, found_bind]
    refine List.flatMap_congr fun x hx => ?_
    have hlt : x.2.length < s.length := Takes.token .unary s x hx
    rw [found_bind, found_bind, found_prefixedWithin takes_expression hlt]
    rfl
  rw [← hrest]
  rfl

/-- A choice behind a test. -/
def branches (test : Tree) : Reader Tree := do
  mark '?'
  let consequent ← expression
  mark ':'
  return .conditional test consequent (← expression)

theorem conditional_eq : Level.conditional.reader =
    Level.logical.reader >>= fun test => pure test <|> branches test := rfl

theorem Held.found_branches (h : Held 2 t) (test : Tree) : (branches test t).found = [] := by
  show ((mark '?' >>= _) t).found = []
  rw [found_bind]
  refine List.flatMap_eq_nil_iff.mpr fun x hx => ?_
  obtain ⟨w, u, hw, hx⟩ := mem_bind.mp (show (x.1, x.2) ∈ (mark '?' t).found from hx)
  obtain ⟨-, hx⟩ := mem_pure.mp hx
  rw [hx]
  exact found_bind_nil (h.token _ (by decide) (by decide) (w, u) hw).2.found_expression _

/-- **Tests** are read first, alone or with their branches. -/
theorem Foremost.branches {test : Tree}
    (h : Foremost (Held 2) [(test, t)] (Level.logical.reader s).found) :
    Foremost (Held 1) ((test, t) :: (Script.branches test t).found) (Level.conditional.reader s).found := by
  rw [conditional_eq]
  have := h.bind (R := Held 1) (f := fun test => pure test <|> Script.branches test) fun b u hu y hy => by
    rcases mem_orElse.mp (show (y.1, y.2) ∈ _ from hy) with hy | hy
    · exact (mem_pure.mp hy).2 ▸ hu.mono (by decide)
    · rw [hu.found_branches] at hy
      exact absurd hy List.not_mem_nil
  rwa [List.flatMap_singleton] at this

theorem ReadFirst.tighter (h : ReadFirst l.next ws e) : ReadFirst l ws e := by
  rcases isChain_or l with hchain | rfl | rfl | rfl
  · intro s t hs ht
    rw [hchain]
    have := (h.foremost hs ht).bind (f := steps l.step) (R := Held l.bond) fun b u hu y hy => by
      rw [hu.found_steps] at hy
      exact List.mem_singleton.mp hy ▸ hu.mono (bond_le_next l)
    rwa [List.flatMap_singleton] at this
  · refine readFirst_of_foremost rfl (by simp) fun s t hs ht => ?_
    exact (foremost_append [(e, t)] _).trans (h.foremost hs ht).branches
  · refine readFirst_of_foremost rfl (by simp) fun s t hs ht => ?_
    rw [found_prefixed]
    exact ((h.foremost hs ht).append _).mono fun u hu => hu.mono (by decide)
  · exact h

theorem ReadFirst.between {make : Text → Tree → Tree → Tree} {op : Text} (hl : l.operator = some (τ, make))
    (hd : Derives l ws e) (hd' : Derives l.next vs e') (left : ReadFirst l ws e)
    (right : ReadFirst l.next vs e') : ReadFirst l (ws ++ (τ, op) :: vs) (make op e e') := by
  intro s r hs hr
  obtain ⟨hmem, hpoint, hbond, -⟩ := bond_of_operator hl
  obtain ⟨t, hws, hs⟩ := hs.of_append
  have hnext := hs.next hmem (hd.settled hws)
  obtain ⟨u, t', hok, hscan, hvs⟩ := hs.of_cons
  have hfollow : MayFollow t := hok.mayFollow hscan hmem hpoint fun _ => hd'.not_barren hvs
  refine ReadFirst.step (left s t hws hfollow) (hbond ▸ hnext.held) (Q := Held l.next.bond) ?_ fun _ h => h
  rw [step_of_operator hl]
  -- before the operator stand divisions alone that nothing is read behind
  have hop : Foremost Barren [(op, t')] (token τ t).found := by
    obtain ⟨k, hk, hstart⟩ := found_token_gap hok.gap hok.gap?_eq τ
    refine ⟨k, [], by rw [hk, hscan]; rfl, fun x hx => ?_⟩
    obtain ⟨v, hv, hgap, hscanv⟩ := hstart x hx
    exact (hnext.settled.barren hmem hv hgap hscanv).2
  exact hop.next (fun op u hu => found_bind_nil (hu.found_reader _) _) (right.foremost hvs hr).map

theorem ReadFirst.choice (hd : Derives .logical ws e) (hd' : Derives .conditional vs e')
    (test : ReadFirst .logical ws e) (consequent : ReadFirst .conditional vs e') (alternate : ReadFirst .conditional us e'') :
    ReadFirst .conditional (ws ++ markToken '?' :: (vs ++ markToken ':' :: us)) (.conditional e e' e'') := by
  refine readFirst_of_foremost rfl (by simp) fun s r hs hr => ?_
  obtain ⟨t, hws, hs⟩ := hs.of_append
  have hnext : Next (.mark '?') t := hs.next (by decide) (hd.settled hws)
  have hfollow : MayFollow t := by
    obtain ⟨u, t', hok, hscan, hs⟩ := hs.of_cons
    obtain ⟨v, hvs, -⟩ := hs.of_append
    exact hok.mayFollow hscan (by decide) (by simp) fun _ => hd'.not_barren hvs
  have htest := (test.foremost hws hfollow).branches
  obtain ⟨u, hmark, hs⟩ := hs.found_mark (by decide)
  obtain ⟨v, hvs, hs⟩ := hs.of_append
  have hcolon := hs.mayFollow (by decide) (by simp) (by decide)
  obtain ⟨v', hmark', hus⟩ := hs.found_mark (by decide)
  have hbranches : Foremost (Held 1) [(Tree.conditional e e' e'', r)] (branches e t).found := by
    show Foremost _ _ ((mark '?' >>= _) t).found
    rw [found_bind_of_eq hmark]
    refine (consequent.nested hvs hcolon).next
      (fun a u hu => found_bind_nil (hu.found_mark (by decide) (by decide) (by decide)) _) ?_
    rw [found_bind_of_eq hmark']
    exact (alternate.nested hus hr).map
  exact (hbranches.behind (n := [(e, t)]) fun x hx => List.mem_singleton.mp hx ▸ hnext.held).trans htest

end VariableImport.Script
