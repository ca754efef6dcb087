import VariableImport.Proofs.Script.Row

/-!
# Proofs/Script/WholeName — an operator word that starts a name

A name may start with an operator word, as `typeofx` does.  Where something may follow the name, it may
stand in the place of the operator and of what the operator is read before (`exists_plain_name`): as a value, or
as what is called.
-/

namespace VariableImport.Script

variable {τ σ : Terminal} {c d : Char} {s t u v r : Text} {a w n : Text} {x y : Text × Text} {l : Level}
  {e : Tree} {ws vs us : List Token}

/-! ## Where a name ends -/

/-- What is left behind the characters of a name. -/
def nameEnd (s : Text) : Text := s.dropWhile inName

/-- No name goes on at a text. -/
def Free (s : Text) : Prop := ∀ c ∈ s.head?, inName c = false

theorem Free.nameEnd_eq (h : Free s) : nameEnd s = s := by
  cases s with
  | nil => rfl
  | cons c s => exact List.dropWhile_cons_of_neg (by simp [h c rfl])

theorem nameEnd_append (hw : ∀ c ∈ w, inName c = true) (s : Text) : nameEnd (w ++ s) = nameEnd s :=
  List.dropWhile_append_of_pos hw

theorem nameEnd_of_scanName (h : scanName s = some x) : x.2 = nameEnd s := by
  obtain ⟨c, u, rfl, hc, -, -, hx⟩ := scanName_eq (show scanName s = some (x.1, x.2) from h)
  rw [hx, nameEnd, List.dropWhile_cons_of_pos (inName_of_startsName hc)]

theorem eq_of_gap_inName (hc : inName c = true) (h : Gap (c :: s) u) : u = c :: s :=
  eq_of_gap (gap?_of_isPlain (isPlain_of_inName hc) s) h

theorem free_of_gap (h : Gap s u) (hu : Free u) : Free s := by
  intro c hc
  obtain ⟨s, rfl⟩ : ∃ t, s = c :: t := by
    cases s with
    | nil => cases hc
    | cons d s => exact ⟨s, by rw [Option.some.inj hc]⟩
  by_contra hname
  rw [eq_of_gap_inName (Bool.not_eq_false _ ▸ hname) h] at hu
  exact hname (hu c rfl)

theorem isWord_of_isDecimal (h : Text.isDecimal c = true) : Text.isWord c = true := by
  have hranges : (Text.decimalRanges.all fun a =>
      Text.wordRanges.any fun b => Nat.ble b.1 a.1 && Nat.ble a.2 b.2) = true := by decide +kernel
  unfold Text.isDecimal at h
  unfold Text.isWord
  split at h
  · next hlt => rw [if_pos hlt, Char.isAlphanum, h, Bool.or_true, Bool.true_or]
  · next hlt =>
    rw [if_neg hlt]
    obtain ⟨a, ha, hin⟩ := List.any_eq_true.mp h
    obtain ⟨b, hb, hle⟩ := List.any_eq_true.mp (List.all_eq_true.mp hranges a ha)
    simp only [Bool.and_eq_true, decide_eq_true_eq, Nat.ble_eq] at hin hle
    refine List.any_eq_true.mpr ⟨b, hb, ?_⟩
    simp only [Bool.and_eq_true, decide_eq_true_eq]
    omega

theorem inName_of_isWord (h : Text.isWord c = true) : inName c = true := by simp [inName, h]

/-- No name goes on where a value does. -/
theorem free_of_value (hτ : τ ∈ valueTerminals) (hu : Gap s u) (hscan : τ.scan u = some x) : Free s := by
  have hheads : ∀ τ ∈ valueTerminals, τ ≠ .number ∧ τ ≠ .name ∧ τ.heads.all (fun c => !inName c) = true := by
    decide
  obtain ⟨hnumber, hname, hall⟩ := hheads τ hτ
  obtain ⟨c, v, rfl, hc⟩ := exists_cons_of_scan hscan
  refine free_of_gap hu fun d hd => ?_
  obtain rfl := Option.some.inj hd
  rcases mem_heads hc with hc | ⟨h, -⟩ | ⟨h, -⟩
  · simpa using List.all_eq_true.mp hall _ hc
  · exact absurd h hnumber
  · exact absurd h hname

theorem GoesOn.free (h : GoesOn ws) (hs : Splits AnyGap ws s r) (hr : Free r) : Free s := by
  cases hs with
  | nil => exact hr
  | cons hgap hscan => exact free_of_value (h _ rfl) hgap hscan

/-- A point and a digit do not follow a value. -/
theorem not_mayFollow_fraction (hd : Text.isDecimal d = true) : ¬ MayFollow ('.' :: d :: t) := by
  have hpoint : gap? ('.' :: d :: t) = none := gap?_of_isPlain (by decide) _
  rintro (hend | ⟨σ, hσ, u, hu, x, hscan, hname, -⟩)
  · cases eq_of_gap hpoint hend
  · obtain rfl := eq_of_gap hpoint hu
    have hmark : ∀ σ ∈ valueTerminals, σ.starts '.' = true → σ = .mark '.' := by decide
    obtain rfl := hmark σ hσ (starts_of_scan (t := x.2) hscan)
    obtain ⟨v, hv, hsome⟩ := hname rfl
    rw [← (List.cons.inj (mark_eq hscan)).2] at hv
    rw [eq_of_gap_inName (inName_of_isWord (isWord_of_isDecimal hd)) hv] at hsome
    obtain ⟨y, hy⟩ := Option.isSome_iff_exists.mp hsome
    obtain ⟨d', t', e, hstarts, -⟩ := scanName_eq (show scanName (d :: t) = some (y.1, y.2) from hy)
    obtain ⟨rfl, -⟩ := List.cons.inj e
    cases (isDecimal_of_startsName hstarts).symm.trans hd

/-- **A number ends where the name** that it is the end of does. -/
theorem nameEnd_of_scanNumber (h : scanNumber s = some x) (hfollow : MayFollow (nameEnd s)) (hfree : Free x.2) :
    x.2 = nameEnd s := by
  have hdigits {v : Text} : nameEnd (v.takeWhile Text.isDecimal ++ v.dropWhile Text.isDecimal) =
      nameEnd (v.dropWhile Text.isDecimal) :=
    nameEnd_append (fun c hc => inName_of_isWord (isWord_of_isDecimal (List.mem_takeWhile_imp hc))) _
  have hs : nameEnd s = nameEnd (s.dropWhile Text.isDecimal) := by
    rw [← hdigits, List.takeWhile_append_dropWhile]
  rw [hs] at hfollow ⊢
  unfold scanNumber at h
  dsimp only at h
  split at h
  · cases h
  · split at h
    · next t ht =>
      rw [ht, nameEnd, List.dropWhile_cons_of_neg (by decide)] at hfollow ⊢
      split at h
      · exact (congrArg Prod.snd (Option.some.inj h)).symm
      · next hfraction =>
        obtain ⟨d, f, hdf⟩ := List.exists_cons_of_ne_nil hfraction
        have hd : Text.isDecimal d = true := List.mem_takeWhile_imp (hdf ▸ List.mem_cons_self ..)
        rw [← List.takeWhile_append_dropWhile (p := Text.isDecimal) (l := t), hdf] at hfollow
        exact absurd hfollow (not_mayFollow_fraction hd)
    · rw [← show _ = x.2 from congrArg Prod.snd (Option.some.inj h)] at hfree ⊢
      exact hfree.nameEnd_eq.symm

/-! ## Operator words -/

/-- A text that starts with a reserved word, and no word goes on there. -/
theorem startsReserved_iff : startsReserved s = true ↔
    ∃ w ∈ reservedWords, ∃ v, s = w ++ v ∧ ∀ c ∈ v.head?, Text.isWord c = false := by
  rw [startsReserved, List.any_eq_true]
  refine exists_congr fun w => and_congr_right fun _ => ?_
  cases h : w.isPrefixOf? s with
  | none =>
    refine iff_of_false (by simp) ?_
    rintro ⟨v, rfl, -⟩
    cases h.symm.trans (Text.isPrefixOf?_eq_some.mpr rfl)
  | some v =>
    obtain rfl := Text.isPrefixOf?_eq_some.mp h
    simp only [List.append_right_inj, exists_eq_left']
    cases v <;> simp

/-- **An operator word that a name could go on with** is a reserved word. -/
theorem word_of_unary (h : Terminal.unary.scan (c :: s) = some (w, t)) (hc : inName c = true) :
    c :: s = w ++ t ∧ w ∈ reservedWords ∧ (∀ d ∈ w, inName d = true) ∧ startsName c = true := by
  have hwords : ∀ w ∈ unaryWords, w ≠ [] ∧ (w ∈ reservedWords ∧ w.all inName = true ∧
      w.head?.all startsName = true ∨ w.head?.any inName = false) := by decide
  obtain ⟨hmem, happend⟩ := oneOf_eq h
  obtain ⟨hne, hword⟩ := hwords w hmem
  obtain ⟨d, w, rfl⟩ := List.exists_cons_of_ne_nil hne
  obtain ⟨rfl, -⟩ := List.cons.inj happend
  rcases hword with ⟨hreserved, hall, hstarts⟩ | hsign
  · exact ⟨happend, hreserved, List.all_eq_true.mp hall, hstarts⟩
  · exact absurd hc (by simpa using hsign)

/-- Words none of which starts another are told by the text. -/
theorem eq_of_words {p q : Text} (h : p ++ s = q ++ t) (hwords : p <+: q ∨ q <+: p → p = q) : p = q ∧ s = t := by
  obtain rfl := hwords (List.prefix_or_prefix_of_prefix (List.prefix_append p s) (h ▸ List.prefix_append q t))
  exact ⟨rfl, List.append_cancel_left h⟩

/-- **A terminal of an operand and one behind a value** that start alike. -/
theorem operand_or_value (hτ : τ ∈ operandTerminals) (hσ : σ ∈ valueTerminals) (h : τ.scan u = some x)
    (h' : σ.scan u = some y) : τ = .mark '(' ∨ τ = .unary ∧ (σ = .additive ∨ σ = .relational) := by
  have hall : ∀ τ ∈ operandTerminals, ∀ σ ∈ valueTerminals, σ ≠ .number ∧ σ ≠ .name ∧
      σ.heads.all fun c => !τ.starts c || decide (τ = .mark '(' ∨ τ = .unary ∧ (σ = .additive ∨ σ = .relational)) := by
    decide +kernel
  obtain ⟨hnumber, hname, hall⟩ := hall τ hτ σ hσ
  obtain ⟨c, hc, hc'⟩ := starts_both h h'
  rcases mem_heads hc' with hmem | ⟨h, -⟩ | ⟨h, -⟩
  · simpa [hc] using List.all_eq_true.mp hall c hmem
  · exact absurd h hnumber
  · exact absurd h hname

/-- **A sign before an operand** may stand behind a value as well. -/
theorem additive_of_unary (h : Terminal.unary.scan u = some x) (h' : Terminal.additive.scan u = some y) : x = y := by
  have hwords : ∀ p ∈ unaryWords, ∀ q ∈ additiveWords, p <+: q ∨ q <+: p → p = q := by decide
  obtain ⟨hx, hu⟩ := oneOf_eq (a := x.1) (t := x.2) h
  obtain ⟨hy, hu'⟩ := oneOf_eq (a := y.1) (t := y.2) h'
  obtain ⟨h₁, h₂⟩ := eq_of_words (hu.symm.trans hu') (hwords _ hx _ hy)
  exact Prod.ext h₁ h₂

/-- Behind an operator that starts a comparison no operand stands. -/
theorem barren_of_relational (h : Terminal.unary.scan u = some x) (h' : Terminal.relational.scan u = some y) :
    Barren x.2 := by
  have hwords : ∀ p ∈ unaryWords, ∀ q ∈ relationalWords, p <+: q ∨ q <+: p →
      q = p ++ '=' :: q.drop 2 := by decide
  obtain ⟨hx, hu⟩ := oneOf_eq (a := x.1) (t := x.2) h
  obtain ⟨hy, hu'⟩ := oneOf_eq (a := y.1) (t := y.2) h'
  have hq := hwords _ hx _ hy (List.prefix_or_prefix_of_prefix (hu ▸ List.prefix_append ..)
    (hu' ▸ List.prefix_append ..))
  rw [hu, hq, List.append_assoc] at hu'
  rw [List.append_cancel_left hu']
  have hstarts : ∀ τ ∈ operandTerminals, τ.starts '=' = false := by decide
  intro τ hτ v hv
  rw [eq_of_gap (gap?_of_isPlain (by decide) _) hv]
  exact scan_eq_none (hstarts τ hτ) _

/-! ## The name in the place of the operator -/

/-- What starts an operand and could go on a name. -/
theorem operand_of_inName (hτ : τ ∈ operandTerminals) (h : τ.starts c = true) (hc : inName c = true) :
    τ = .number ∨ τ = .name ∨ τ = .unary := by
  have hall : ∀ τ ∈ operandTerminals, τ ≠ .unary → τ.heads.all (fun c => !inName c) = true := by decide
  rcases mem_heads h with hmem | ⟨rfl, -⟩ | ⟨rfl, -⟩
  · by_contra hne
    have := List.all_eq_true.mp (hall τ hτ fun h => hne (.inr (.inr h))) c hmem
    simp [hc] at this
  · exact .inl rfl
  · exact .inr (.inl rfl)

/-- **What follows an operator word** that a name ends with is read behind the name as well, if anything
may follow there. -/
theorem exists_plain_follow (hfollow : MayFollow t) (hsettled : Settled t) (hvs : Splits Plain vs t r)
    (hrow : Row vs) : ∃ us, Row ((.name, n) :: us) ∧ Splits Plain us t r ∧ (AllInRange us ↔ AllInRange vs) := by
  obtain ⟨e, hlogical⟩ := row_iff.mp hrow
  obtain ⟨τ, a, vt, rfl, hτ⟩ := hlogical.exists_head
  obtain ⟨u, t', hok, hscan, hvt⟩ := hvs.of_cons
  -- a value goes on where the operand starts
  have hvalue : ∃ σ ∈ valueTerminals, ∃ x, σ.scan u = some x := by
    rcases hfollow with hend | ⟨σ, hσ, u', hu', x, hscan', -, hop⟩
    · obtain ⟨c, v, rfl, -⟩ := exists_cons_of_scan hscan
      cases hok.gap.unique hok.gap?_eq hend rfl
    · by_cases hgap : gap? u' = none
      · exact ⟨σ, hσ, x, hok.gap.unique hok.gap?_eq hu' hgap ▸ hscan'⟩
      · obtain ⟨rfl, hbarren⟩ := hsettled.barren hσ hu' hgap hscan'
        exact absurd hbarren (hop (by decide))
  obtain ⟨σ, hσ, x, hscan'⟩ := hvalue
  rcases operand_or_value hτ hσ hscan hscan' with rfl | ⟨rfl, rfl | rfl⟩
  · obtain ⟨hmem, -⟩ := oneOf_eq (show oneOf [['(']] u = some (a, t') from hscan)
    obtain rfl := List.mem_singleton.mp hmem
    exact ⟨_, hrow.called, .cons hok hscan hvt, Iff.rfl⟩
  · obtain rfl := additive_of_unary hscan hscan'
    refine ⟨(.additive, a) :: vt, (Row.one (.tighter (.tighter .name))).append (l := .additive) rfl hrow.of_unary,
      .cons ⟨⟨hok.gap, hok.gap?_eq, fun h => absurd h (by decide), nofun⟩, nofun⟩ hscan' hvt, ?_⟩
    simp [escapesInRange_of_ne]
  · obtain ⟨e', hbehind⟩ := row_iff.mp hrow.of_unary
    exact absurd (barren_of_relational hscan hscan') (hbehind.not_barren hvt)

/-- **A name that goes on over one more operator word** takes the whole word, or the name behind it. -/
theorem exists_plain_over (hd : inName d = true) (hscan : Terminal.unary.scan (d :: t) = some (w, u))
    (hshort : startsName d = true ∧ startsReserved (d :: t) = false → ¬ MayFollow (t.dropWhile inName))
    (hfollow : MayFollow (nameEnd (d :: t))) (hsettled : Settled (nameEnd (d :: t)))
    (hvs : Splits Plain vs u r) (hrow : Row vs) : ∃ us, Row ((.name, n) :: us) ∧
      Splits Plain us (nameEnd (d :: t)) r ∧ (AllInRange us ↔ AllInRange vs) := by
  obtain ⟨happend, hw, hname, hstarts⟩ := word_of_unary hscan hd
  have hreserved : startsReserved (d :: t) = true := by
    by_contra hnot
    refine hshort ⟨hstarts, Bool.not_eq_true _ ▸ hnot⟩ ?_
    rwa [nameEnd, List.dropWhile_cons_of_pos hd] at hfollow
  have hnonword : ∀ c ∈ u.head?, Text.isWord c = false := by
    have hwords : ∀ p ∈ reservedWords, ∀ q ∈ reservedWords, p <+: q ∨ q <+: p → p = q := by decide
    obtain ⟨w', hw', u', happend', hnonword⟩ := startsReserved_iff.mp hreserved
    rwa [(eq_of_words (happend.symm.trans happend') (hwords _ hw _ hw')).2]
  have hend : nameEnd (d :: t) = nameEnd u := by rw [happend, nameEnd_append hname]
  rw [hend] at hfollow hsettled ⊢
  by_cases hfree : Free u
  · rw [hfree.nameEnd_eq] at hfollow hsettled ⊢
    exact exists_plain_follow hfollow hsettled hvs hrow
  · obtain ⟨c, v, rfl, hc⟩ : ∃ c v, u = c :: v ∧ inName c = true := by
      cases u with
      | nil => exact absurd (fun _ h => nomatch h) hfree
      | cons c v =>
        refine ⟨c, v, rfl, ?_⟩
        by_contra hc
        exact hfree fun d hd => Option.some.inj hd ▸ Bool.not_eq_true _ ▸ hc
    obtain ⟨e, hlogical⟩ := row_iff.mp hrow
    obtain ⟨τ, a, vt, rfl, hτ⟩ := hlogical.exists_head
    obtain ⟨v', t', hok, hscan', hvt⟩ := hvs.of_cons
    obtain rfl := eq_of_gap_inName hc hok.gap
    -- a dollar sign goes on no word and starts a name
    obtain rfl : τ = .name := by
      have hdollar : ∀ τ ∈ operandTerminals, τ.starts '$' = true → τ = .name := by decide
      have hc : c = '$' := by simpa [inName, hnonword c rfl] using hc
      exact hdollar τ hτ (hc ▸ starts_of_scan hscan')
    obtain rfl : t' = _ := nameEnd_of_scanName (show scanName (c :: v) = some (a, t') from hscan')
    exact ⟨_, (hrow.name (n := n) (.inl rfl)).1, hvt, by simp [escapesInRange_of_ne]⟩

/-- **A name that something may follow** may stand in the place of the operator word that starts it. -/
theorem exists_plain_name (hu : Clear .unary s u) (hscan : Terminal.unary.scan u = some (w, t))
    (hy : scanName u = some y) (hfollow : MayFollow y.2) (hvs : Splits Plain vs t r) (hrow : Row vs)
    (hr : Free r) : ∃ us, Row us ∧ Splits Plain us s r ∧ (AllInRange us ↔ AllInRange vs) := by
  have hend : y.2 = nameEnd t ∧ ∃ d t', t = d :: t' ∧ Text.isWord d = true := by
    obtain ⟨c, u', rfl, hc, hreserved, -⟩ := scanName_eq (show scanName u = some (y.1, y.2) from hy)
    obtain ⟨happend, hw, hname, -⟩ := word_of_unary hscan (inName_of_startsName hc)
    refine ⟨by rw [nameEnd_of_scanName hy, happend, nameEnd_append hname], ?_⟩
    by_contra hnot
    refine Bool.false_ne_true (hreserved.symm.trans (startsReserved_iff.mpr ⟨w, hw, t, happend, fun d hd => ?_⟩))
    cases t with
    | nil => cases hd
    | cons d' t' => exact Bool.eq_false_iff.mpr fun h => hnot ⟨d', t', rfl, Option.some.inj hd ▸ h⟩
  obtain ⟨hyt, d, t', rfl, hd⟩ := hend
  have hsettled : Settled (nameEnd (d :: t')) := hyt ▸ hu.settled_name rfl y hy
  rw [hyt] at hfollow
  have hread {us : List Token} (hus : Splits Plain us (nameEnd (d :: t')) r) :
      Splits Plain ((.name, y.1) :: us) s r :=
    .cons ⟨⟨hu.gap, hu.gap?_eq, fun _ x hx => (Option.some.inj (hy.symm.trans hx) ▸ hyt ▸ hsettled), nofun⟩, nofun⟩
      (show scanName u = some (y.1, nameEnd (d :: t')) from hyt ▸ hy) hus
  obtain ⟨e, hlogical⟩ := row_iff.mp hrow
  obtain ⟨τ, a, vt, rfl, hτ⟩ := hlogical.exists_head
  obtain ⟨v, t₁, hok, hscan₁, hvt⟩ := hvs.of_cons
  have hdname := inName_of_isWord hd
  obtain rfl := eq_of_gap_inName hdname hok.gap
  rcases operand_of_inName hτ (starts_of_scan hscan₁) hdname with rfl | rfl | rfl
  · obtain ⟨hname, hgoes⟩ := hrow.name (n := y.1) (.inr rfl)
    have hfree : Free t₁ := hgoes.free (hvt.mono fun _ _ _ h => h.gap) hr
    obtain rfl : t₁ = _ := nameEnd_of_scanNumber hscan₁ hfollow hfree
    exact ⟨_, hname, hread hvt, by simp [escapesInRange_of_ne]⟩
  · obtain rfl : t₁ = _ := nameEnd_of_scanName (show scanName (d :: t') = some (a, t₁) from hscan₁)
    exact ⟨_, (hrow.name (n := y.1) (.inl rfl)).1, hread hvt, by simp [escapesInRange_of_ne]⟩
  · obtain ⟨us, hus, hsplit, hrange⟩ := exists_plain_over (n := y.1) hdname hscan₁
      (fun hreserved => hok.unary rfl _ (if_pos hreserved)) hfollow hsettled hvt hrow.of_unary
    exact ⟨_, hus, hread hsplit, by simp [escapesInRange_of_ne, hrange]⟩

end VariableImport.Script
