import VariableImport.Proofs.Script.Gapped

/-!
# Proofs/Script/Spaced — arguments and calls with gaps

The tokens of an expression may stand with gaps between, before and behind them (`Spaced`), and so may those of
an import call (`callText`, `IsTail`).  Such a call is alike to one without comments (`exists_isCall`), and alike
texts are read in the same ways (`Alike.readings_eq`), so that **a call with comments is parsed as its first
argument** if its second one is sound as well (`parse_callText`).
-/

namespace VariableImport.Script

open Computability Scan

variable {A Q g g₁ lead q r s t x source : Text} {p : Option Char} {ts ws : List Terminal}

/-! ## Texts behind gaps -/

/-- A text that is alike to itself is so behind anything. -/
theorem Alike.self (h : Alike none t t) : Alike p t t := by
  cases h with
  | done hs => exact .done hs hs
  | piece hw hs ht _ _ h =>
    have e := hs.unique ht
    exact .piece hw hs ht (fun _ he => he.trans e) (fun _ he => he.trans e.symm) h

/-- Gaps before alike texts, before both of them or before none. -/
theorem Alike.gaps (hg : Ended g) (hg₁ : Ended g₁) (hgg : g = [] ↔ g₁ = []) (h : ∀ p, Alike p s t) :
    Alike p (g ++ s) (g₁ ++ t) := by
  by_cases hne : g = []
  · obtain rfl := hgg.mp hne
    subst hne
    exact h p
  · have hlonger {g u v : Text} (hne : g ≠ []) (hu : Skips u v) : g ++ u ≠ v := by
      rintro rfl
      have := hu.suffix.length_le
      have := List.length_pos_of_ne_nil hne
      simp only [List.length_append] at *
      omega
    cases h none with
    | done hs ht => exact .done (hg.skips hs) (hg₁.skips ht)
    | piece hw hs ht _ _ h =>
      exact .piece hw (hg.skips hs) (hg₁.skips ht) (fun _ e => absurd e (hlonger hne hs))
        (fun _ e => absurd e (hlonger (mt hgg.mpr hne) ht)) h

/-- Tokens before a text that is alike to itself. -/
theorem Spells.alike_self (hws : ∀ τ ∈ ws, τ.isToken = true) (h : Spells CommentGap ws (x ++ t) t)
    (ht : Alike none t t) : Alike none (x ++ t) (x ++ t) :=
  h.alike hws (fun _ h => h) (fun _ h => h) ht.self

/-- More gaps may stand before tokens. -/
theorem Spells.behind_gap (hg : Ended g) (hne : ws ≠ []) (h : Spells CommentGap ws s r) :
    Spells CommentGap ws (g ++ s) r := by
  cases h with
  | nil => exact absurd rfl hne
  | cons hgap hscan h =>
    obtain ⟨hcomment, g', hg', rfl⟩ := hgap
    exact .cons ⟨hcomment, g ++ g', hg.append hg', (List.append_assoc ..).symm⟩ hscan h

/-- Tokens take a text. -/
theorem Spells.ne_nil (hne : ws ≠ []) (h : Spells CommentGap ws (x ++ t) t) : x ≠ [] := by
  rintro rfl
  have := h.length_le CommentGap.suffix
  have := List.length_pos_of_ne_nil hne
  simp only [List.nil_append] at *
  omega

theorem startsComment_slash (h : s.head? = t.head?) :
    startsComment ('/' :: s) = startsComment ('/' :: t) := by
  cases s with
  | nil => rw [List.head?_eq_none_iff.mp h.symm]
  | cons c s =>
    obtain ⟨u, rfl⟩ := List.head?_eq_some_iff.mp h.symm
    rfl

/-- Alike texts behind the word of imports. -/
theorem alike_word (hlead : Ended lead) (hg : Ended g) (h : Alike (some 't') s t) :
    Alike none (lead ++ (importText ++ s)) (g ++ (importText ++ t)) := by
  have hrest : Alike (some 'i') (['m', 'p', 'o', 'r', 't'] ++ s) (['m', 'p', 'o', 'r', 't'] ++ t) :=
    Alike.chars (List.all_eq_true.mp (by decide)) h
  exact .piece (w := ['i']) (.char (by decide)) (hlead.skips (.here rfl)) (hg.skips (.here rfl))
    (fun h => absurd h Bool.false_ne_true) (fun h => absurd h Bool.false_ne_true) hrest

/-- Alike texts behind the opening parenthesis. -/
theorem alike_open (hg : Ended g) (hg₁ : Ended g₁) (hgg : g = [] ↔ g₁ = []) (h : Alike (some '(') s t) :
    Alike p (g ++ '(' :: s) (g₁ ++ '(' :: t) :=
  .behind_gaps (w := ['(']) (.char (by decide)) hg hg₁ hgg (gap?_of_isPlain (by decide) _)
    (gap?_of_isPlain (by decide) _) h

/-- Tokens with blanks alone between them stand behind gaps that end. -/
theorem spells_commentGap {m m' : Mode} (hf : m.followAll ws = some m') (hop : m'.operand = false)
    (h : Spells BlankGap ws s r) : Spells CommentGap ws s r := by
  induction h generalizing m with
  | nil => exact .nil _
  | cons hgap hscan h ih =>
    obtain ⟨m₁, hτ, hws⟩ := Mode.exists_follow hf
    obtain ⟨g, hg, rfl⟩ := hgap
    exact .cons ⟨Scan.startsComment_of_scan hτ hws hop hscan h, g, hg.ended, rfl⟩ hscan (ih hws)

/-! ## Arguments with gaps -/

/-- **Tokens with gaps** between, before and behind them, in front of a text. -/
def Spaced (ws : List Terminal) (A Q : Text) : Prop :=
  ∃ x q, A = x ++ q ∧ Ended q ∧ Spells CommentGap ws (x ++ (q ++ Q)) (q ++ Q)

theorem Spaced.trim_alike (hws : ws ∈ expressions) (h : Spaced ws A Q) : Alike none (Text.trim A) A := by
  obtain ⟨x, q, rfl, hq, h⟩ := h
  exact h.trim_alike (leads_expressions [] false ws hws) (ne_nil_of_mem_expressions hws) hq
    fun _ => startsComment_prefix

/-- **An argument in front of alike texts** that begin with the same character. -/
theorem Spaced.alike_append (hws : ws ∈ expressions) (h : Spaced ws A Q) {Q' : Text}
    (hQ : ∀ p, Alike p Q Q') (hhead : Q.head? = Q'.head?) : Alike p (A ++ Q) (A ++ Q') := by
  obtain ⟨x, q, rfl, hq, h⟩ := h
  simp only [List.append_assoc]
  refine h.alike (fun _ => isToken_of_mem (leads_expressions [] false _ hws)) (fun _ h => h) (fun _ h => ?_)
    (.gaps hq hq Iff.rfl hQ)
  rwa [← startsComment_slash (s := q ++ Q) (by rw [List.head?_append, List.head?_append, hhead])]

/-! ## Calls with gaps -/

/-- What may stand behind the first argument of an import call. -/
def callTails : Language Terminal :=
  (1 + only (.mark ',') * expressions) * ((1 + only (.mark ',')) * only (.mark ')'))

/-- **The end of a call** behind its first argument, from a comma or the closing parenthesis on, and
gaps behind it. -/
def IsTail (Q : Text) : Prop :=
  (∀ c ∈ Q.head?, c = ',' ∨ c = ')') ∧ ∃ ts ∈ callTails, ∃ r, Spells CommentGap ts Q r ∧ Skips r []

/-- A call with a gap behind the word of imports: `A` stands between the parenthesis and what ends the
first argument. -/
def callText (lead g A Q : Text) : Text := lead ++ (importText ++ (g ++ '(' :: (A ++ Q)))

theorem leads_callTails : Leads callTails ⟨[')'], false⟩ ⟨[], false⟩ := by
  have hcomma : Leads (only (.mark ',')) ⟨[')'], false⟩ ⟨[')'], false⟩ := leads_only rfl
  have hclose : Leads (only (.mark ')')) ⟨[')'], false⟩ ⟨[], false⟩ := leads_only rfl
  exact ((leads_one _).add (hcomma.mul (leads_expressions _ _))).mul (((leads_one _).add hcomma).mul hclose)

theorem ne_nil_of_mem_callTails (hts : ts ∈ callTails) : ts ≠ [] := by
  rintro rfl
  exact absurd (leads_callTails [] hts) (by decide)

theorem alike_of_skips (hr : Skips r []) : Alike none r r := .done hr hr

theorem tail_alike (hts : ts ∈ callTails) (h : Spells CommentGap ts Q r) (hr : Skips r []) :
    Alike none Q Q := by
  obtain ⟨x, rfl⟩ := h.suffix CommentGap.suffix
  exact h.alike_self (fun _ => isToken_of_mem (leads_callTails _ hts)) (alike_of_skips hr)

theorem IsTail.ne_nil (hQ : IsTail Q) : Q ≠ [] := by
  obtain ⟨-, ts, hts, r, hspells, -⟩ := hQ
  obtain ⟨z, rfl⟩ := hspells.suffix CommentGap.suffix
  exact fun e => hspells.ne_nil (ne_nil_of_mem_callTails hts) (List.append_eq_nil_iff.mp e).1

theorem isTail_close : IsTail [')'] :=
  ⟨fun _ hc => .inr (Option.some.inj hc).symm, [.mark ')'], ⟨[], .inl rfl, _, ⟨[], .inl rfl, _, rfl, rfl⟩, rfl⟩,
    [], .cons ⟨rfl, [], .nil, rfl⟩ (scan_mark ')' []) (.nil _), .here rfl⟩

/-- A text that spells an expression may have gaps in front of it. -/
theorem exists_spaced {k : Text} (hk : Ended k) (hg : Blanks g) (hA : IsExpression A) (hQ : IsTail Q) :
    ∃ ws ∈ expressions, Spaced ws (k ++ (g ++ A)) Q := by
  have hboundary : Boundary Q := fun c hc => .inr ((hQ.1 c hc).imp_right .inl)
  obtain ⟨ws, hws, hspells⟩ := hA.exists_spells hg hboundary
  have hbehind := spells_commentGap (leads_expressions [] false ws hws) rfl hspells
  have hfront := hbehind.behind_gap hk (ne_nil_of_mem_expressions hws)
  exact ⟨ws, hws, k ++ (g ++ A), [], (List.append_nil _).symm, .nil, by simpa using hfront⟩

/-! ## Parsing calls with comments -/

/-- What a text is read as, in every way. -/
def readings (s : Text) : List Source := (Script.source s).found.map Prod.fst

theorem Alike.readings_eq (h : Alike p s t) : readings s = readings t := by
  have hfound := found_source_alike h
  rw [readings, readings, ← List.forall₂_eq_eq_eq, List.forall₂_map_left_iff, List.forall₂_map_right_iff]
  exact hfound

/-- What is read in the same ways is parsed as the same expression. -/
theorem parse_of_readings {e : Expression} (h : readings (Text.trim s) = readings (Text.trim t)) :
    parse s = .ok e ↔ parse t = .ok e := by
  have hhead (u : Text) : parse u = .ok e ↔
      ∃ x ∈ (readings (Text.trim u)).head?, x.toExpression = some e := by
    rw [parse_eq_ok, readings, List.head?_map]
    simp
  rw [hhead, hhead, h]

theorem parse_trim {e : Expression} : parse (Text.trim s) = .ok e ↔ parse s = .ok e :=
  parse_of_readings (by rw [Text.trim_trim])

theorem IsExpression.gap?_eq (hA : IsExpression A) : gap? A = none := by
  obtain ⟨c, u, e, -, -, -, hcomment⟩ := hA.exists_cons (t := []) (fun _ h => absurd h (by simp))
  rw [List.append_nil] at e
  subst e
  exact gap?_eq_none hcomment hA.head

/-- Gaps before a text are none of its pieces. -/
theorem Alike.of_gap (hg : Ended g) (ht : gap? t = none) (h : Alike none s (g ++ t)) : Alike none s t := by
  have hskips : Skips (g ++ t) t := hg.skips (.here ht)
  cases h with
  | done hs ht' =>
    obtain rfl := hskips.unique ht'
    exact .done hs (.here ht)
  | piece hw hs ht' _ _ h =>
    obtain rfl := hskips.unique ht'
    exact .piece hw hs (.here ht) (fun h => absurd h Bool.false_ne_true)
      (fun h => absurd h Bool.false_ne_true) h

/-- **A call without comments** that is alike to one with comments, and its first argument. -/
theorem exists_isCall (hlead : Ended lead) (hg : Ended g) (hws : ws ∈ expressions) (hA : Spaced ws A Q)
    (hQ : IsTail Q) :
    ∃ s A₀ B, IsCall s A₀ B ∧ Alike none (callText lead g A Q) s ∧ Alike none A A₀ := by
  obtain ⟨x, q, rfl, hq, hA⟩ := hA
  obtain ⟨-, ts, hts, r, hspells, hr⟩ := hQ
  obtain ⟨z, rfl⟩ := hspells.suffix CommentGap.suffix
  have hhere : gap? [] = none := rfl
  obtain ⟨Q₀, htail, hQ₀, -⟩ := hspells.exists_blanks (leads_callTails ts hts) rfl
    (fun _ => .done hr (.here hhere)) (show Skips [] [] from .here hhere) fun _ _ => rfl
  rw [List.append_nil] at htail
  simp only [List.append_nil] at hQ₀
  have hblanks := blanks_blankFor q
  obtain ⟨x₀, hspells₀, hcall, hargument⟩ := hA.exists_blanks (leads_expressions [] false ws hws) rfl
    (fun _ => .gaps hq hblanks.ended blankFor_eq_nil.symm hQ₀)
    (by simpa using hq.skips (.here hhere)) fun _ => startsComment_prefix
  obtain ⟨B, htail₀⟩ := exists_callTail hts (htail.behind hblanks (ne_nil_of_mem_callTails hts))
  obtain ⟨g₀, A₀, hg₀, hA₀, e⟩ := exists_isExpression hws hspells₀ htail₀.ends.boundary
  obtain rfl : x₀ = g₀ ++ A₀ := (List.append_left_inj (blankFor q ++ Q₀)).mp (by simpa using e)
  refine ⟨importText ++ (blankFor g ++ '(' :: (g₀ ++ (A₀ ++ (blankFor q ++ Q₀)))), A₀, B,
    .mk (blanks_blankFor g) hg₀ hA₀ htail₀, ?_, (hargument none).of_gap hg₀.ended hA₀.gap?_eq⟩
  have := alike_word hlead .nil
    (alike_open hg (blanks_blankFor g).ended blankFor_eq_nil.symm (hcall (some '(')))
  simpa [callText] using this

/-- **A call with comments is parsed as its first argument**, if its second one is sound as well. -/
theorem parse_callText (hS : Text.trim source = callText lead g A Q) (hlead : Ended lead) (hg : Ended g)
    (hws : ws ∈ expressions) (hA : Spaced ws A Q) (hQ : IsTail Q) :
    ∃ B : Option Text, ∀ e, parse source = .ok e ↔
      parse (Text.trim A) = .ok e ∧ ∀ b ∈ B, ∃ e', parse b = .ok e' := by
  obtain ⟨s, A₀, B, hcall, halike, hargument⟩ := exists_isCall hlead hg hws hA hQ
  have hs : Text.trim s = s := by
    obtain ⟨g, x, -, -, -, -, -, rfl, -⟩ := hcall.exists_text
    refine Text.Solid.trim_eq ⟨⟨'i', rfl, by decide⟩, ⟨')', ?_, by decide⟩⟩
    have e : importText ++ (g ++ '(' :: (x ++ [')'])) = importText ++ (g ++ '(' :: x) ++ [')'] := by simp
    rw [e, List.getLast?_concat]
    rfl
  refine ⟨B, fun e => ?_⟩
  have hwhole : parse source = .ok e ↔ parse s = .ok e := parse_alike (c := none) (by rwa [hS, hs])
  have hfirst : parse (Text.trim A) = .ok e ↔ parse A₀ = .ok e := by
    refine parse_of_readings ?_
    rw [Text.trim_trim, hcall.first.solid.trim_eq, (hA.trim_alike hws).readings_eq, hargument.readings_eq]
  rw [hwhole, IsCall.parse_eq_ok (hs.symm ▸ hcall), hfirst]

end VariableImport.Script
