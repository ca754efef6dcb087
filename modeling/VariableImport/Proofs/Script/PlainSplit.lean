import VariableImport.Proofs.Script.WholeName

/-!
# Proofs/Script/PlainSplit — a clear split of a text leaves a plain one

A split in which no slash of a comment could divide (`Clear`) leaves a plain one, with the same strings
(`Derives.exists_plain`): by induction on the derivation, with one lemma for each production, and a whole name
in the place of an operator word that starts one.
-/

namespace VariableImport.Script

variable {τ : Terminal} {s t u v r : Text} {a w n : Text} {x y : Text × Text} {l : Level} {e : Tree}
  {ws vs us : List Token}

/-- The level at which another split of the same text may derive: of operators, the loosest. -/
def Level.outer : Level → Level
  | .conditional => .conditional
  | .logical | .relational | .additive | .multiplicative | .prefixed => .logical
  | .operand => .operand
  | .primary => .primary

/-- **Whether what splits clearly splits plainly**: where a clear split into tokens has a plain one, with the
same strings. -/
def HasPlain (l : Level) (ws : List Token) : Prop := ∀ s r, Splits Clear ws s r → Free r →
  ∃ vs e, Derives l.outer vs e ∧ Splits Plain vs s r ∧ (AllInRange vs ↔ AllInRange ws)

theorem Splits.plain_cons (h : Splits Clear ((τ, a) :: ws) s r) (hne : τ ≠ .unary) : ∃ t, Splits Clear ws t r ∧
    ∀ {us q}, Splits Plain us t q → Splits Plain ((τ, a) :: us) s q := by
  obtain ⟨u, t, hok, hscan, h⟩ := h.of_cons
  exact ⟨t, h, fun hus => .cons (⟨hok, fun h => absurd h hne⟩) hscan hus⟩

theorem Splits.free (h : Splits Clear ((τ, a) :: ws) s r) (hτ : τ ∈ valueTerminals) : Free s := by
  obtain ⟨u, t, hok, hscan, -⟩ := h.of_cons
  exact free_of_value hτ hok.gap hscan

theorem HasPlain.tighter (h : HasPlain l.next ws) : HasPlain l ws := by
  intro s r hs hr
  obtain ⟨vs, e, hd, hvs, hrange⟩ := h s r hs hr
  refine ⟨vs, e, hd.loosen ?_, hvs, hrange⟩
  cases l <;> decide

theorem operator_mem {make : Text → Tree → Tree → Tree} (hl : l.operator = some (τ, make)) :
    τ ∈ valueTerminals ∧ τ ≠ .unary ∧ (∀ q, τ ≠ .quoted q) ∧ l.outer = .logical ∧ l.next.outer = .logical := by
  cases l with
  | logical | relational | additive | multiplicative =>
    obtain ⟨rfl, -⟩ := Prod.mk.inj (Option.some.inj hl)
    exact ⟨by decide, by simp, by simp, rfl, rfl⟩
  | _ => cases hl

theorem HasPlain.between {make : Text → Tree → Tree → Tree} (hl : l.operator = some (τ, make))
    (left : HasPlain l ws) (right : HasPlain l.next vs) : HasPlain l (ws ++ (τ, a) :: vs) := by
  obtain ⟨hτ, hne, hquoted, hlogical, hnext⟩ := operator_mem hl
  intro s r hs hr
  obtain ⟨t, hws, hs⟩ := hs.of_append
  have hfree := hs.free hτ
  obtain ⟨u, hvs, hput⟩ := hs.plain_cons hne
  obtain ⟨ws', e, hd, hws', hrange⟩ := left s t hws hfree
  obtain ⟨vs', e', hd', hvs', hrange'⟩ := right u r hvs hr
  have hrow : Row (ws' ++ (τ, a) :: vs') :=
    (row_iff.mpr ⟨e, hlogical ▸ hd⟩).append hl (row_iff.mpr ⟨e', hnext ▸ hd'⟩)
  obtain ⟨e'', h⟩ := row_iff.mp hrow
  refine ⟨_, e'', hlogical ▸ h, hws'.append (hput hvs'), ?_⟩
  have hop : EscapesInRange (τ, a) := escapesInRange_of_ne hquoted
  simp [hrange, hrange', hop]

theorem HasPlain.choice (test : HasPlain .logical ws) (consequent : HasPlain .conditional vs)
    (alternate : HasPlain .conditional us) :
    HasPlain .conditional (ws ++ markToken '?' :: (vs ++ markToken ':' :: us)) := by
  intro s r hs hr
  obtain ⟨t, hws, hs⟩ := hs.of_append
  have hquestion := hs.free (by decide)
  obtain ⟨t, hs, hput⟩ := hs.plain_cons (by simp)
  obtain ⟨u, hvs, hs⟩ := hs.of_append
  have hcolon := hs.free (by decide)
  obtain ⟨u, hus, hput'⟩ := hs.plain_cons (by simp)
  obtain ⟨ws', e, hd, hws', hrange⟩ := test _ _ hws hquestion
  obtain ⟨vs', e', hd', hvs', hrange'⟩ := consequent _ _ hvs hcolon
  obtain ⟨us', e'', hd'', hus', hrange''⟩ := alternate _ _ hus hr
  refine ⟨_, _, .choice hd hd' hd'', hws'.append (hput (hvs'.append (hput' hus'))), ?_⟩
  simp [hrange, hrange', hrange'']

theorem HasPlain.unary (h : HasPlain .prefixed ws) : HasPlain .prefixed ((.unary, w) :: ws) := by
  intro s r hs hr
  obtain ⟨u, t, hok, hscan, hws⟩ := hs.of_cons
  obtain ⟨vs, e, hd, hvs, hrange⟩ := h t r hws hr
  have hrow := row_iff.mpr ⟨e, hd⟩
  by_cases hname : ∃ y ∈ scanName u, MayFollow y.2
  · obtain ⟨y, hy, hfollow⟩ := hname
    obtain ⟨us, hus, hsplit, hrange'⟩ := exists_plain_name hok hscan hy hfollow hvs hrow hr
    obtain ⟨e', h⟩ := row_iff.mp hus
    exact ⟨us, e', h, hsplit, by simp [hrange', hrange, escapesInRange_of_ne]⟩
  · obtain ⟨e', h⟩ := row_iff.mp (hrow.unary (w := w))
    exact ⟨_, e', h, .cons ⟨hok, fun _ y hy hfollow => hname ⟨y, hy, hfollow⟩⟩ hscan hvs, by simp [hrange]⟩

/-- Tokens without operators before an operand. -/
theorem Splits.plain (h : Splits Clear ws s r) (hws : ∀ w ∈ ws, w.1 ≠ .unary) : Splits Plain ws s r := by
  induction h with
  | nil => exact .nil _
  | cons hok hscan _ ih =>
    obtain ⟨hne, hws⟩ := List.forall_mem_cons.mp hws
    exact .cons (⟨hok, fun h => absurd h hne⟩) hscan (ih hws)

theorem HasPlain.member (h : HasPlain .operand ws) : HasPlain .operand (ws ++ [markToken '.', (.name, n)]) := by
  intro s r hs _
  obtain ⟨t, hws, hs⟩ := hs.of_append
  obtain ⟨vs, e, hd, hvs, hrange⟩ := h s t hws (hs.free (by decide))
  exact ⟨_, _, hd.member, hvs.append (hs.plain (by simp [markToken])), by simp [hrange]⟩

theorem HasPlain.index (h : HasPlain .operand ws) (key : HasPlain .conditional vs) :
    HasPlain .operand (ws ++ markToken '[' :: (vs ++ [markToken ']'])) := by
  intro s r hs _
  obtain ⟨t, hws, hs⟩ := hs.of_append
  obtain ⟨ws', e, hd, hws', hrange⟩ := h s t hws (hs.free (by decide))
  obtain ⟨t, hs, hput⟩ := hs.plain_cons (by simp)
  obtain ⟨u, hvs, hs⟩ := hs.of_append
  obtain ⟨vs', k, hk, hvs', hrange'⟩ := key t u hvs (hs.free (by decide))
  exact ⟨_, _, hd.index hk, hws'.append (hput (hvs'.append (hs.plain (by simp [markToken])))), by simp [hrange, hrange']⟩

theorem HasPlain.callNone (h : HasPlain .operand ws) :
    HasPlain .operand (ws ++ [markToken '(', markToken ')']) := by
  intro s r hs _
  obtain ⟨t, hws, hs⟩ := hs.of_append
  obtain ⟨vs, e, hd, hvs, hrange⟩ := h s t hws (hs.free (by decide))
  exact ⟨_, _, hd.callNone, hvs.append (hs.plain (by simp [markToken])), by simp [hrange]⟩

theorem HasPlain.group (h : HasPlain .conditional ws) :
    HasPlain .primary (markToken '(' :: (ws ++ [markToken ')'])) := by
  intro s r hs _
  obtain ⟨t, hs, hput⟩ := hs.plain_cons (by simp)
  obtain ⟨u, hws, hs⟩ := hs.of_append
  obtain ⟨vs, e, hd, hvs, hrange⟩ := h t u hws (hs.free (by decide))
  exact ⟨_, _, hd.group, hput (hvs.append (hs.plain (by simp [markToken]))), by simp [hrange]⟩

/-- **Items** that split clearly split plainly, behind the same separators. -/
theorem exists_plain_items {more : List Item} (hsep : ∀ m ∈ more, m.separator.1 ∈ valueTerminals)
    (hmore : ∀ m ∈ more, HasPlain .conditional m.tokens) (hs : Splits Clear (itemTokens more) s r)
    (hr : Free r) : Free s ∧ ∃ more', Splits Plain (itemTokens more') s r ∧
      (∀ m ∈ more', Derives .conditional m.tokens m.tree ∧ ∃ n ∈ more, m.separator = n.separator) ∧
      (AllInRange (itemTokens more') ↔ AllInRange (itemTokens more)) := by
  have hunary : ∀ τ ∈ valueTerminals, τ ≠ .unary := by decide
  induction more generalizing s with
  | nil =>
    cases hs
    exact ⟨hr, [], .nil _, by simp, Iff.rfl⟩
  | cons m more ih =>
    obtain ⟨hτ, hsep⟩ := List.forall_mem_cons.mp hsep
    obtain ⟨hm, hmore⟩ := List.forall_mem_cons.mp hmore
    have hs : Splits Clear ((m.separator.1, m.separator.2) :: (m.tokens ++ itemTokens more)) s r := hs
    obtain ⟨t, hs', hput⟩ := hs.plain_cons (hunary _ hτ)
    obtain ⟨u, htokens, hitems⟩ := hs'.of_append
    obtain ⟨hfree, more', hsplit, hmem, hrange⟩ := ih hsep hmore hitems
    obtain ⟨vs, e, hd, hvs, hrange'⟩ := hm t u htokens hfree
    refine ⟨hs.free hτ, ⟨m.separator, vs, e⟩ :: more', hput (hvs.append hsplit), ?_, ?_⟩
    · refine List.forall_mem_cons.mpr ⟨⟨hd, m, List.mem_cons_self .., rfl⟩, fun m' hm' => ?_⟩
      obtain ⟨hd', n, hn, he⟩ := hmem m' hm'
      exact ⟨hd', n, List.mem_cons_of_mem _ hn, he⟩
    · show AllInRange (m.separator :: (vs ++ itemTokens more')) ↔
        AllInRange (m.separator :: (m.tokens ++ itemTokens more))
      simp [hrange, hrange']

theorem trailingComma_ne (trailing : Bool) :
    ∀ w ∈ trailingComma trailing ++ [markToken ')'], w.1 ≠ .unary := by
  cases trailing <;> simp [trailingComma, markToken]

theorem Splits.free_close {trailing : Bool} (h : Splits Clear (trailingComma trailing ++ [markToken ')']) s r) :
    Free s := by
  cases trailing with
  | false =>
    have h : Splits Clear (markToken ')' :: []) s r := h
    exact h.free (by decide)
  | true =>
    have h : Splits Clear (markToken ',' :: [markToken ')']) s r := h
    exact h.free (by decide)

theorem HasPlain.call {more : List Item} {trailing : Bool} (h : HasPlain .operand ws)
    (hfirst : HasPlain .conditional vs) (hsep : ∀ m ∈ more, m.separator = markToken ',')
    (hmore : ∀ m ∈ more, HasPlain .conditional m.tokens) : HasPlain .operand
      (ws ++ markToken '(' :: (vs ++ (itemTokens more ++ (trailingComma trailing ++ [markToken ')'])))) := by
  intro s r hs _
  obtain ⟨t, hws, hs⟩ := hs.of_append
  obtain ⟨ws', e, hd, hws', hrange⟩ := h s t hws (hs.free (by decide))
  obtain ⟨t, hs, hput⟩ := hs.plain_cons (by simp)
  obtain ⟨u, hvs, hs⟩ := hs.of_append
  obtain ⟨v, hitems, hend⟩ := hs.of_append
  obtain ⟨hfree, more', hitems', hmem, hrange'⟩ :=
    exists_plain_items (fun m hm => by rw [hsep m hm]; decide) hmore hitems hend.free_close
  obtain ⟨vs', e', hd', hvs', hrange''⟩ := hfirst t u hvs hfree
  have hcomma : ∀ m ∈ more', m.separator = markToken ',' := fun m hm => by
    obtain ⟨-, n, hn, he⟩ := hmem m hm
    exact he.trans (hsep n hn)
  refine ⟨_, _, hd.call hd' hcomma fun m hm => (hmem m hm).1,
    hws'.append (hput (hvs'.append (hitems'.append (hend.plain (trailingComma_ne trailing))))), ?_⟩
  simp [hrange, hrange', hrange'']

theorem HasPlain.template {head tail : Text} {more : List Item} (hfirst : HasPlain .conditional vs)
    (hsep : ∀ m ∈ more, m.separator.1 = .templateMiddle)
    (hmore : ∀ m ∈ more, HasPlain .conditional m.tokens) : HasPlain .primary
      ((.templateHead, head) :: (vs ++ (itemTokens more ++ [(.templateTail, tail)]))) := by
  intro s r hs _
  obtain ⟨t, hs, hput⟩ := hs.plain_cons (by simp)
  obtain ⟨u, hvs, hs⟩ := hs.of_append
  obtain ⟨v, hitems, hend⟩ := hs.of_append
  obtain ⟨hfree, more', hitems', hmem, hrange'⟩ :=
    exists_plain_items (fun m hm => by rw [hsep m hm]; decide) hmore hitems (hend.free (by decide))
  obtain ⟨vs', e', hd', hvs', hrange''⟩ := hfirst t u hvs hfree
  have hmiddle : ∀ m ∈ more', m.separator.1 = .templateMiddle := fun m hm => by
    obtain ⟨-, n, hn, he⟩ := hmem m hm
    exact (congrArg Prod.fst he).trans (hsep n hn)
  refine ⟨_, _, .template hd' hmiddle fun m hm => (hmem m hm).1,
    hput (hvs'.append (hitems'.append (hend.plain (by simp)))), ?_⟩
  simp [hrange', hrange'', escapesInRange_of_ne]

end VariableImport.Script
