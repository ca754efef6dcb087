import VariableImport.Proofs.Script.ReadFirst

/-!
# Proofs/Script/FirstOperand — an operand is read first by its first token

The first token of an operand says what is read behind it (`found_primary_of_scan`), so that the operand is
read first if what follows the token is (`readFirst_of_operandTail`).  Where an operator stands before an
operand, a name may be read in its place, but nothing may follow that (`Plain.of_operand`).
-/

namespace VariableImport.Script

open Reader

variable {α β γ : Type} {k : List (α × Text)} {a : α} {s t u r : Text} {l : Level} {τ : Terminal} {c : Char}
  {e : Tree} {ws : List Token} {x : Text × Text} {w : Text}

/-! ## Operators before an operand -/

/-- Where nothing may follow a value no step is taken. -/
theorem found_postfixStep_nil (h : ¬ MayFollow t) (e : Tree) : (postfixStep expression e t).found = [] := by
  have hmark {c : Char} (hc : Terminal.mark c ∈ valueTerminals) (hne : Terminal.mark c ≠ .mark '.')
      (hop : Terminal.mark c ∉ operators) : (mark c t).found = [] := by
    refine found_bind_nil (List.eq_nil_iff_forall_not_mem.mpr fun x hx => ?_) _
    obtain ⟨u, hu, hscan⟩ := mem_token.mp (show (x.1, x.2) ∈ _ from hx)
    exact h (.inr ⟨_, hc, u, hu, x, hscan, fun e => absurd e hne, fun h => absurd h hop⟩)
  refine List.append_eq_nil_iff.mpr ⟨?_, List.append_eq_nil_iff.mpr
    ⟨found_bind_nil (hmark (by decide) (by simp) (by decide)) _,
      found_bind_nil (hmark (by decide) (by simp) (by decide)) _⟩⟩
  refine List.eq_nil_iff_forall_not_mem.mpr fun x hx => ?_
  obtain ⟨w, r, hw, hx⟩ := mem_bind.mp (show (x.1, x.2) ∈ _ from hx)
  obtain ⟨p, r', hp, hr⟩ := mem_bind.mp hw
  obtain ⟨-, rfl⟩ := mem_pure.mp hr
  obtain ⟨n, v, hn, -⟩ := mem_bind.mp hx
  obtain ⟨u, hu, hscan⟩ := mem_token.mp hp
  obtain ⟨u', hu', hscan'⟩ := mem_token.mp hn
  refine h (.inr ⟨.mark '.', by decide, u, hu, (p, r), hscan, fun _ => ⟨u', hu', ?_⟩, fun h => absurd h (by decide)⟩)
  exact Option.isSome_iff_exists.mpr ⟨_, hscan'⟩

/-- What an operand reads behind its first token. -/
def operandTail : Terminal → Text → Reader Tree
  | .quoted _, body => pure (.string body)
  | .plainTemplate, quasi => pure (.template [quasi] [])
  | .templateHead, head => do
    let first ← expression
    let (quasis, holes) ← steps (fun (quasis, holes) => do
      let quasi ← token .templateMiddle
      let hole ← expression
      return (quasi :: quasis, hole :: holes)) ([head], [first])
    let tail ← token .templateTail
    return .template (tail :: quasis).reverse holes.reverse
  | .number, digits => pure (.number digits)
  | .name, name => pure (.name name)
  | .mark _, _ => do let e ← expression; mark ')'; return e
  | _, _ => fail

theorem found_map_bind (p : Reader α) (f : α → β) (g : β → Reader γ) (s : Text) :
    (((p >>= fun a => pure (f a)) >>= g) s).found = ((p >>= fun a => g (f a)) s).found := by
  rw [found_assoc, found_bind, found_bind]
  exact List.flatMap_congr fun x _ => found_bind_of_eq rfl g

theorem found_mark_bind (c : Char) (f : Unit → Reader β) (s : Text) :
    ((mark c >>= f) s).found = ((token (.mark c) >>= fun _ => f ()) s).found := found_map_bind _ _ f s

theorem found_orElse (p q : Reader α) (s : Text) : ((p <|> q) s).found = (p s).found ++ (q s).found := rfl

/-- **An operand** starts with one of few terminals. -/
theorem found_primary (s : Text) : (Level.primary.reader s).found =
    operandTerminals.flatMap fun τ => ((token τ >>= operandTail τ) s).found := by
  have hunary : ((token .unary >>= operandTail .unary) s).found = [] := by
    rw [found_bind]
    exact List.flatMap_eq_nil_iff.mpr fun _ _ => rfl
  simp only [operandTerminals, List.flatMap_cons, List.flatMap_nil, hunary, List.append_nil]
  simp only [Level.reader, primary, found_orElse, found_mark_bind]
  rfl

/-- **What an operand reads where an operator stands** nothing may follow: it is a name that the operator
starts. -/
theorem Plain.of_operand (h : Plain .unary s u) (hscan : Terminal.unary.scan u = some x)
    {y : Tree × Text} (hy : y ∈ (operand expression s).found) : ¬ MayFollow y.2 ∧ y.2 <:+ s := by
  obtain ⟨e, t, he, hy⟩ := mem_bind.mp (show (y.1, y.2) ∈ _ from hy)
  rw [show (primary expression s).found = _ from found_primary s] at he
  obtain ⟨τ, hτ, he⟩ := List.mem_flatMap.mp he
  obtain ⟨a, v, ha, he⟩ := mem_bind.mp he
  have hplain : ∀ τ ∈ operandTerminals, τ.isToken = true ∧ τ ≠ .multiplicative := by decide
  rw [found_token_of_ne h.gap h.gap?_eq (hplain τ hτ).1 (hplain τ hτ).2] at ha
  have hname := Option.mem_toList.mp ha
  rcases eq_of_operand (by decide) hτ hscan hname with rfl | ⟨h', -⟩ | ⟨-, rfl⟩
  · exact absurd he List.not_mem_nil
  · cases h'
  obtain ⟨rfl, rfl⟩ := mem_pure.mp he
  have hnot : ¬ MayFollow t := h.unary rfl (a, t) hname
  have hsteps := found_steps_nil Level.operand.takes_step (found_postfixStep_nil hnot (.name a))
  rw [show (steps (postfixStep expression) (.name a) t).found = _ from hsteps] at hy
  obtain ⟨-, hyt⟩ := Prod.mk.inj (List.mem_singleton.mp hy)
  obtain ⟨w, -, hu⟩ := exists_of_scan hname
  exact hyt ▸ ⟨hnot, (hu ▸ List.suffix_append w t).trans (Gap.suffix h.gap)⟩

theorem ReadFirst.unary (h : ReadFirst .prefixed ws e) :
    ReadFirst .prefixed ((.unary, w) :: ws) (.unary w e) := by
  refine readFirst_of_foremost rfl (by simp) fun s r hs hr => ?_
  obtain ⟨u, t, hok, hscan, hws⟩ := hs.of_cons
  rw [found_prefixed]
  have hread : Foremost (Held 6) [(Tree.unary w e, r)]
      ((token .unary >>= fun op => Level.prefixed.reader >>= fun e => pure (Tree.unary op e)) s).found := by
    rw [found_bind_of_eq (hok.found_token hscan rfl (by simp))]
    exact (h.foremost hws hr).map
  -- the operands there end where nothing may follow, so none ends where this one does
  refine (hread.filter fun y hy => ?_).behind fun y hy => held_of_not_mayFollow (hok.of_operand hscan hy).1 |>.mono
    (by decide)
  obtain rfl := List.mem_singleton.mp hy
  refine List.all_eq_true.mpr fun z hz => ?_
  obtain ⟨hnot, hsuffix⟩ := hok.of_operand hscan hz
  refine bne_iff_ne.mpr fun hlength => hnot ?_
  rwa [(List.suffix_of_suffix_length_le hsuffix hs.suffix hlength.le).eq_of_length hlength]

/-! ## Operands -/

/-- **The token of an operand** says what is read behind it. -/
theorem found_primary_of_scan (hgap : Gap s u) (hu : gap? u = none) (hτ : τ ∈ operandTerminals)
    (hne : τ ≠ .unary) (hscan : τ.scan u = some (w, t)) :
    (Level.primary.reader s).found = (operandTail τ w t).found := by
  have hplain : ∀ τ ∈ operandTerminals, τ.isToken = true ∧ τ ≠ .multiplicative := by decide
  have htoken (σ : Terminal) (hσ : σ ∈ operandTerminals) : (token σ s).found = (σ.scan u).toList :=
    found_token_of_ne hgap hu (hplain σ hσ).1 (hplain σ hσ).2
  have hother : ∀ σ ∈ operandTerminals, σ ≠ τ → ((token σ >>= operandTail σ) s).found = [] := by
    intro σ hσ hστ
    rw [found_bind, htoken σ hσ]
    refine List.flatMap_eq_nil_iff.mpr fun x hx => ?_
    rcases eq_of_operand hτ hσ hscan (Option.mem_toList.mp hx) with h' | ⟨-, rfl⟩ | ⟨h', -⟩
    exacts [absurd h'.symm hστ, rfl, absurd h' hne]
  obtain ⟨before, after, hlist⟩ := List.append_of_mem hτ
  have hnodup : (before ++ τ :: after).Nodup := hlist ▸ (by decide : operandTerminals.Nodup)
  obtain ⟨hbefore, hafter⟩ := not_or.mp
    (mt List.mem_append.mpr (List.nodup_cons.mp (List.nodup_middle.mp hnodup)).1)
  have hnil {σs : List Terminal} (hsub : ∀ σ ∈ σs, σ ∈ operandTerminals) (hmem : τ ∉ σs) :
      σs.flatMap (fun σ => ((token σ >>= operandTail σ) s).found) = [] :=
    List.flatMap_eq_nil_iff.mpr fun σ hσ => hother σ (hsub σ hσ) fun e => hmem (e ▸ hσ)
  have hfound : (token τ s).found = [(w, t)] := by
    rw [htoken τ hτ, hscan]
    rfl
  rw [found_primary, hlist, List.flatMap_append, List.flatMap_cons,
    hnil (fun σ hσ => hlist ▸ List.mem_append_left _ hσ) hbefore,
    hnil (fun σ hσ => hlist ▸ List.mem_append_right _ (List.mem_cons_of_mem _ hσ)) hafter,
    found_bind_of_eq hfound, List.nil_append, List.append_nil]

/-- **What a tighter level reads first** is read first. -/
theorem Level.head?_reader (l : Level) {y : Tree × Text} (h : (l.next.reader s).found.head? = some y) :
    (l.reader s).found.head? = some y := by
  obtain ⟨k, hk⟩ := List.head?_eq_some_iff.mp h
  rcases isChain_or l with hchain | rfl | rfl | rfl
  · rw [hchain, found_bind, hk, List.flatMap_cons, found_steps l.takes_step]
    rfl
  · rw [conditional_eq, found_bind]
    show (((Level.logical.reader s).found.flatMap _)).head? = _
    rw [show (Level.logical.reader s).found = _ from hk]
    rfl
  · rw [found_prefixed, show (Script.operand expression s).found = _ from hk]
    rfl
  · exact h

/-- An operand without accesses or calls that is read first is the expression that is read first. -/
theorem head?_expression {y : Tree × Text} (h : (Level.primary.reader s).found.head? = some y) :
    (expression s).found.head? = some y := by
  rw [found_expression]
  have hoperand := Level.head?_reader .operand h
  have hproduct := Level.head?_reader .multiplicative (Level.head?_reader .prefixed hoperand)
  have hcomparison := Level.head?_reader .relational (Level.head?_reader .additive hproduct)
  exact Level.head?_reader .conditional (Level.head?_reader .logical hcomparison)

/-- **An operand is read first** by its first terminal. -/
theorem readFirst_of_operandTail (hτ : τ ∈ operandTerminals) (hne : τ ≠ .unary)
    (h : ∀ t r, Splits Plain ws t r → MayFollow r → Foremost (Held 8) [(e, r)] (operandTail τ w t).found) :
    ReadFirst .primary ((τ, w) :: ws) e := by
  refine readFirst_of_foremost rfl (by simp) fun s r hs hr => ?_
  obtain ⟨u, t, hok, hscan, hws⟩ := hs.of_cons
  rw [found_primary_of_scan hok.gap hok.gap?_eq hτ hne hscan]
  exact h t r hws hr

theorem readFirst_leaf (hτ : τ ∈ operandTerminals) (hne : τ ≠ .unary) (h : operandTail τ w = pure e) :
    ReadFirst .primary [(τ, w)] e := by
  refine readFirst_of_operandTail hτ hne fun t r ht _ => ?_
  cases ht
  rw [h]
  exact foremost_self _

theorem ReadFirst.group (h : ReadFirst .conditional ws e) :
    ReadFirst .primary (markToken '(' :: (ws ++ [markToken ')'])) e := by
  refine readFirst_of_operandTail (by decide) (by simp) fun s r hs hr => ?_
  obtain ⟨t, hws, hs⟩ := hs.of_append
  obtain ⟨u, hmark, hend⟩ := hs.found_mark (by decide)
  cases hend
  refine (h.nested hws (hs.mayFollow (by decide) (by simp) (by decide))).next
    (fun a u hu => found_bind_nil (hu.found_mark (by decide) (by decide) (by decide)) _) ?_
  rw [found_bind_of_eq hmark]
  exact foremost_self _

end VariableImport.Script
