import VariableImport.Proofs.Script.FirstReading
import VariableImport.Proofs.Script.ImportArgument

/-!
# Proofs/Script/StringLiteral — imports of a text between quotes

A text that passes between quotes is the body of a string, and an import of it is parsed as the literal
that it spells (`parse_quote`).  A text without quotes, backslashes and newlines passes and spells itself
(`parse_quoted`).  With a newline in it the quotes hold no string, and the import is not parsed at all
(`parse_newline`).
-/

namespace VariableImport.Script

open Reader Scan

variable {q : Char} {s t w : Text}

/-! ## Text between quotes -/

/-- Whether a text stands between quotes as it is. -/
def Verbatim (q : Char) (w : Text) : Prop := ∀ c ∈ w, c ≠ q ∧ c ≠ '\\' ∧ c ≠ '\n'

instance (q : Char) (w : Text) : Decidable (Verbatim q w) :=
  List.decidableBAll (fun c => c ≠ q ∧ c ≠ '\\' ∧ c ≠ '\n') w

/-- Whether a text passes between quotes: behind it a string goes on as it does at its start. -/
def Passes (q : Char) (w : Text) : Prop :=
  ∀ t, quotedBody q (w ++ t) = (quotedBody q t).map fun (body, rest) => (w ++ body, rest)

theorem passes_nil (q : Char) : Passes q [] := fun t => by simp

theorem Passes.append {v : Text} (hw : Passes q w) (hv : Passes q v) : Passes q (w ++ v) := by
  intro t
  rw [List.append_assoc, hw, hv, Option.map_map]
  simp only [Function.comp_def, List.append_assoc]

/-- A character passes behind a backslash. -/
theorem passes_escape (q c : Char) : Passes q ['\\', c] := fun _ => rfl

/-- **Verbatim text passes.** -/
theorem Verbatim.passes (hw : Verbatim q w) : Passes q w := by
  intro t
  induction w with
  | nil => simp
  | cons c w ih =>
    obtain ⟨hcq, hback, hline⟩ := hw c (List.mem_cons_self ..)
    rw [List.cons_append, quotedBody_cons hback, if_neg hcq, if_neg hline,
      ih fun d hd => hw d (List.mem_cons_of_mem _ hd), Option.map_map]
    rfl

/-- Text that passes lasts up to the quote. -/
theorem Passes.closed (hq : q ≠ '\\') (hw : Passes q w) (t : Text) :
    quotedBody q (w ++ q :: t) = some (w, t) := by
  rw [hw, quotedBody_cons hq, if_pos rfl]
  simp

/-- **No string holds a newline.** -/
theorem Passes.newline (hq : q ≠ '\n') (hw : Passes q w) (t : Text) :
    quotedBody q (w ++ '\n' :: t) = none := by
  rw [hw, quotedBody_cons (by decide), if_neg hq.symm, if_pos rfl, Option.map_none]

/-- **A text without backslashes spells itself.** -/
theorem unescape_eq_self (hw : ∀ c ∈ w, c ≠ '\\') : unescape w = .ok w := by
  unfold unescape
  induction w with
  | nil => rfl
  | cons c w ih =>
    have hc := hw c (List.mem_cons_self ..)
    have ih := ih fun d hd => hw d (List.mem_cons_of_mem _ hd)
    cases w with
    | nil => simp [unescapeFrom, Except.map]
    | cons d w =>
      rw [unescapeFrom, ih]
      · rfl
      · rintro d' s' rfl
        exact absurd rfl hc

/-! ## A string alone -/

/-- A text between double quotes. -/
def quote (w : Text) : Text := '"' :: (w ++ ['"'])

/-- A quote is no gap. -/
theorem gap?_quote (hq : q = '\'' ∨ q = '"') (s : Text) : gap? (q :: s) = none := by
  rcases hq with rfl | rfl <;> rfl

/-- **A string is read** as what stands between its quotes. -/
theorem firstReading_quoted (hq : q = '\'' ∨ q = '"') (hw : Passes q w) :
    firstReading (q :: (w ++ [q])) = some (.string w) := by
  have hback : q ≠ '\\' := by rcases hq with rfl | rfl <;> decide
  have hmem : Terminal.quoted q ∈ operandTerminals := by rcases hq with rfl | rfl <;> decide
  have hscan : (Terminal.quoted q).scan (q :: (w ++ [q])) = some (w, []) :=
    (if_pos rfl).trans (hw.closed hback [])
  have hprimary : (Level.primary.reader (q :: (w ++ [q]))).found = [(.string w, [])] :=
    found_primary_of_scan (self_mem_places _) (gap?_quote hq _) hmem (by simp) hscan
  obtain ⟨k, hk⟩ := List.head?_eq_some_iff.mp (head?_expression (y := (.string w, [])) (by rw [hprimary]; rfl))
  rw [firstReading, hk, List.find?_cons_of_pos (by simp)]
  rfl

/-- A string is an expression. -/
theorem isExpression_quoted (hq : q = '\'' ∨ q = '"') (hw : Passes q w) :
    IsExpression (q :: (w ++ [q])) := by
  have hback : q ≠ '\\' := by rcases hq with rfl | rfl <;> decide
  have hbody : Runs (inCode []) (q :: (w ++ [q])) (inCode []) [] :=
    (runs_quote (hq.imp_right .inl) _).trans (runs_quotedBody hq (hw.closed hback []))
  refine isExpression_iff.mpr ⟨?_, hbody.clean.mpr trivial, by rw [firstReading_quoted hq hw]; rfl⟩
  rcases hq with rfl | rfl <;> rfl

/-- **A string is parsed** as the literal of what it spells. -/
theorem parse_string (hq : q = '\'' ∨ q = '"') (hw : Passes q w) (hs : unescape w = .ok s) :
    parse (q :: (w ++ [q])) = .ok (.literal s) := by
  rw [(isExpression_quoted hq hw).parse_eq_ok, firstReading_quoted hq hw]
  show (unescape w).toOption.map Expression.literal = _
  rw [hs]
  rfl

/-- A string has no blanks around it. -/
theorem solid_quoted (hq : q = '\'' ∨ q = '"') (w : Text) : Text.Solid (q :: (w ++ [q])) := by
  have hblank : Text.isBlank q = false := by rcases hq with rfl | rfl <;> decide
  refine ⟨⟨q, rfl, hblank⟩, ⟨q, ?_, hblank⟩⟩
  rw [← List.cons_append, List.getLast?_concat]
  rfl

/-! ## No string -/

/-- A source that begins with a quote is no import call. -/
theorem found_importCall_quote (hq : q = '\'' ∨ q = '"') (t : Text) : (importCall (q :: t)).found = [] := by
  have hword : (token .importWord (q :: t)).found = [] := by
    rw [found_token_of_ne (self_mem_places _) (gap?_quote hq t) rfl (by simp),
      scan_eq_none (τ := .importWord) (by rcases hq with rfl | rfl <;> decide)]
    rfl
  rw [importCall_eq, found_bind_nil hword]

/-- No expression begins where no terminal does. -/
theorem found_expression_eq_nil {s : Text} (hs : gap? s = none)
    (hno : ∀ (m m' : Mode) (τ : Terminal), m.follow τ = some m' → τ.scan s = none) :
    (expression s).found = [] := by
  refine List.eq_nil_iff_forall_not_mem.mpr fun ⟨e, r⟩ hx => ?_
  obtain ⟨ws, hws, hspells⟩ := (recognizes_expression _ r).mp ⟨e, hx⟩
  have hf := leads_expressions [] false ws hws
  cases hspells with
  | nil => exact absurd rfl (ne_nil_of_mem_expressions hws)
  | cons hgap hscan =>
    obtain rfl := eq_of_gap hs hgap
    obtain ⟨m', hτ, -⟩ := Mode.exists_follow hf
    exact nomatch (hno _ _ _ hτ).symm.trans hscan

/-- An expression does not begin with a quote behind which no string ends. -/
theorem found_expression_nil (hq : q = '\'' ∨ q = '"') (h : quotedBody q t = none) :
    (expression (q :: t)).found = [] := by
  refine found_expression_eq_nil (gap?_quote hq t) fun m m' τ hτ => ?_
  refine Option.eq_none_iff_forall_ne_some.mpr fun ⟨a, v⟩ hscan => ?_
  have hstarts := starts_of_scan hscan
  cases τ with
  | quoted c =>
    obtain rfl : q = c := beq_iff_eq.mp hstarts
    rw [Terminal.scan, if_pos rfl, h] at hscan
    simp at hscan
  | mark c =>
    obtain rfl : q = c := beq_iff_eq.mp hstarts
    rcases hq with rfl | rfl <;> exact absurd (Mode.follows_of_follow hτ).mem_punctuation (by decide)
  | _ => rcases hq with rfl | rfl <;> exact absurd hstarts (by decide)

/-- A solid source with neither an import call nor an expression is not parsed. -/
theorem parse_ne_ok (hs : Text.Solid s) (hcall : (importCall s).found = []) (hexpr : (expression s).found = [])
    (e : Expression) : parse s ≠ .ok e := by
  intro h
  obtain ⟨tree, r, hfound, -⟩ := Script.parse_eq_ok.mp h
  rw [hs.trim_eq, source_eq, found_orElse_bind, found_bind_nil hcall,
    found_bind_nil (found_bind_nil hexpr _)] at hfound
  simp at hfound

/-! ## Imports -/

/-- An import of a text between double quotes. -/
theorem solid_import (w : Text) : Text.Solid (importText ++ '(' :: (quote w ++ [')'])) := by
  refine ⟨⟨'i', rfl, by decide⟩, ⟨')', ?_, by decide⟩⟩
  rw [← List.cons_append, ← List.append_assoc, List.getLast?_concat]
  rfl

/-- **An import of a text between quotes** is parsed as the literal of what the text spells. -/
theorem parse_quote (hw : Passes '"' w) (hs : unescape w = .ok s) :
    parse (importText ++ '(' :: (quote w ++ [')'])) = .ok (.literal s) := by
  have hcall : IsCall (importText ++ ([] ++ '(' :: ([] ++ (quote w ++ ([] ++ [')']))))) (quote w) none :=
    .mk blanks_nil blanks_nil (isExpression_quoted (.inr rfl) hw) (.last (.close blanks_nil))
  have hcall := (solid_import w).trim_eq.symm ▸ hcall
  exact hcall.parse_eq_ok.mpr ⟨parse_string (.inr rfl) hw hs, fun _ h => nomatch h⟩

/-- An import of verbatim text is parsed as the literal. -/
theorem parse_quoted (hw : Verbatim '"' w) :
    parse (importText ++ '(' :: (quote w ++ [')'])) = .ok (.literal w) :=
  parse_quote hw.passes (unescape_eq_self fun c hc => (hw c hc).2.1)

/-- No expression begins with the word of imports and a parenthesis. -/
theorem found_expression_import (t : Text) : (expression (importText ++ '(' :: t)).found = [] := by
  refine found_expression_eq_nil rfl fun m m' τ hτ => ?_
  refine Option.eq_none_iff_forall_ne_some.mpr fun ⟨a, u⟩ hscan => ?_
  obtain ⟨c, v, e, hc⟩ := exists_isWord_of_scan hτ hscan
  obtain rfl := (List.cons.inj e).1
  exact absurd hc (by decide)

/-- An import call does not go on where no expression begins. -/
theorem found_importCall_nil (h : (expression t).found = []) :
    (importCall (importText ++ '(' :: t)).found = [] := by
  have hmark : (mark '(' ('(' :: t)).found = [((), t)] := found_mark_self (by decide) blanks_nil t
  rw [importCall_eq, found_bind_of_eq (found_importWord _), found_bind_of_eq hmark, found_bind_nil h]

/-- **An import of text with a newline** is not parsed. -/
theorem parse_newline (hw : Verbatim '"' w) (v : Text) (e : Expression) :
    parse (importText ++ '(' :: (quote (w ++ '\n' :: v) ++ [')'])) ≠ .ok e := by
  have hnone : (expression (quote (w ++ '\n' :: v) ++ [')'])).found = [] := by
    have hbody := hw.passes.newline (by decide) (v ++ ['"'] ++ [')'])
    have htext : quote (w ++ '\n' :: v) ++ [')'] = '"' :: (w ++ '\n' :: (v ++ ['"'] ++ [')'])) := by
      simp [quote]
    exact htext ▸ found_expression_nil (.inr rfl) hbody
  exact parse_ne_ok (solid_import _) (found_importCall_nil hnone) (found_expression_import _) e

end VariableImport.Script
