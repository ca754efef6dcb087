import VariableImport.Proofs.Script.Escape

/-!
# Proofs/Script/LineEnd — line ends of two characters in strings

Two readers decide where an escape ends.  For the one that decodes it may go on behind the character after
the backslash, with digits or with the second character of a line end (`IsLong`); for the one that looks for the
closing quote it never does.  What they disagree on is the line end alone, since digits stand between quotes
as they are (`IsLong.passes`): **text of raw characters and escapes passes between quotes exactly if there is
no such line end in it** (`IsEscaped.passes_or_breaks`).  So a string is always decoded, and it is parsed as what it
is decoded to, or rejected (`parse_escaped`).
-/

namespace VariableImport.Script

variable {q c e : Char} {n : ℕ} {t u w : Text}

/-! ## Escapes -/

/-- **The escapes of several characters**, as they stand behind a backslash. -/
inductive IsLong : Text → Prop
  | braces {w : Text} (hne : w ≠ []) (hhex : w.all Text.isHex = true) : IsLong ('u' :: '\x7b' :: (w ++ ['\x7d']))
  | fourDigits {w : Text} (hlength : w.length = 4) (hhex : w.all Text.isHex = true) : IsLong ('u' :: w)
  | twoDigits {w : Text} (hlength : w.length = 2) (hhex : w.all Text.isHex = true) : IsLong ('x' :: w)
  | lineEnd : IsLong ['\r', '\n']

/-- Whether an escape names no number beyond the code points. -/
def IsBounded (u : Text) : Prop := ∀ w, u = 'u' :: '\x7b' :: (w ++ ['\x7d']) → Text.ofHex w < 0x110000

/-- **Text of raw characters and escapes.**  Raw are all characters but the backslash, the quote and the newline,
and a character behind a backslash is an escape of its own where it does not begin a longer one. -/
inductive IsEscaped (q : Char) : Text → Prop
  | nil : IsEscaped q []
  | raw {c : Char} {t : Text} (hback : c ≠ '\\') (hquote : c ≠ q) (hline : c ≠ '\n') (h : IsEscaped q t) :
      IsEscaped q (c :: t)
  | long {u t : Text} (hu : IsLong u) (hbounded : IsBounded u) (h : IsEscaped q t) : IsEscaped q ('\\' :: (u ++ t))
  | single {c : Char} {t : Text} (hc : ∀ u v, IsLong u → c :: t ≠ u ++ v) (h : IsEscaped q t) :
      IsEscaped q ('\\' :: c :: t)

theorem isBounded_braces (h : Text.ofHex w < 0x110000) : IsBounded ('u' :: '\x7b' :: (w ++ ['\x7d'])) := by
  intro v e
  obtain rfl : w = v := by simpa using e
  exact h

/-- Verbatim text is raw. -/
theorem Verbatim.isEscaped_append (hw : Verbatim q w) (h : IsEscaped q t) : IsEscaped q (w ++ t) := by
  induction w with
  | nil => exact h
  | cons c w ih =>
    obtain ⟨⟨hquote, hback, hline⟩, hw⟩ := List.forall_mem_cons.mp hw
    exact .raw hback hquote hline (ih hw)

/-! ## Decoding -/

theorem exists_codePoint (h : n < 0x110000) : ∃ s, codePoint n = .ok s := by
  rw [codePoint, if_pos h]
  split <;> exact ⟨_, rfl⟩

theorem exists_codePoint_ofHex (hlength : w.length ≤ 4) (hhex : w.all Text.isHex = true) :
    ∃ s, codePoint (Text.ofHex w) = .ok s :=
  exists_codePoint <| calc
    Text.ofHex w < 16 ^ w.length := Text.ofHex_lt hhex
    _ ≤ 16 ^ 4 := Nat.pow_le_pow_right (by decide) hlength
    _ < 0x110000 := by decide

/-- **A longer escape is decoded up to its end.** -/
theorem IsLong.exists_escape (hu : IsLong (e :: u)) (t : Text) :
    ∃ spelled, escape e (u ++ t) = (spelled, u.length) ∧ (IsBounded (e :: u) → ∃ s, spelled = .ok s) := by
  cases hu with
  | @braces w hne hhex =>
    refine ⟨_, ?_, fun hbounded => exists_codePoint (hbounded w rfl)⟩
    rw [escape, if_pos rfl, List.cons_append, List.append_assoc, List.singleton_append, braced?_braces hne hhex]
    simp
  | fourDigits hlength hhex =>
    refine ⟨_, ?_, fun _ => exists_codePoint_ofHex hlength.le hhex⟩
    rw [escape, if_pos rfl, braced?_digits hlength hhex, hexDigits?_append hlength hhex, hlength]
  | twoDigits hlength hhex =>
    refine ⟨_, ?_, fun _ => exists_codePoint_ofHex (hlength.trans_le (by decide)) hhex⟩
    rw [escape, if_neg (by decide), if_pos rfl, hexDigits?_append hlength hhex, hlength]
  | lineEnd => exact ⟨_, rfl, fun _ => ⟨[], rfl⟩⟩

theorem hexDigits?_eq_some (h : hexDigits? n t = some w) :
    (∃ v, t = w ++ v) ∧ w.length = n ∧ w.all Text.isHex = true := by
  rw [hexDigits?] at h
  split at h
  · next hdigits =>
    obtain rfl := Option.some.inj h
    exact ⟨⟨t.drop n, (List.take_append_drop n t).symm⟩, hdigits⟩
  · simp at h

theorem braced?_eq_some (h : braced? t = some w) :
    (∃ v, t = '\x7b' :: (w ++ '\x7d' :: v)) ∧ w ≠ [] ∧ w.all Text.isHex = true := by
  unfold braced? at h
  split at h
  · next t =>
    dsimp only at h
    split at h
    · next hdigits =>
      obtain rfl := Option.some.inj h
      obtain ⟨v, hv⟩ := List.head?_eq_some_iff.mp hdigits.2
      refine ⟨⟨v, ?_⟩, hdigits.1, List.all_takeWhile⟩
      rw [← hv, List.takeWhile_append_dropWhile]
    · simp at h
  · simp at h

/-- A character that begins no longer escape is decoded alone. -/
theorem exists_escape_single (hc : ∀ u v, IsLong u → c :: t ≠ u ++ v) : ∃ s, escape c t = (.ok s, 0) := by
  unfold escape
  split
  · next hu =>
    have hbraced : braced? t = none := by
      refine Option.eq_none_iff_forall_ne_some.mpr fun w hw => ?_
      obtain ⟨⟨v, rfl⟩, hne, hhex⟩ := braced?_eq_some hw
      exact hc _ v (.braces hne hhex) (by simp [hu])
    have hdigits : hexDigits? 4 t = none := by
      refine Option.eq_none_iff_forall_ne_some.mpr fun w hw => ?_
      obtain ⟨⟨v, rfl⟩, hlength, hhex⟩ := hexDigits?_eq_some hw
      exact hc _ v (.fourDigits hlength hhex) (by simp [hu])
    rw [hbraced, hdigits]
    exact ⟨_, rfl⟩
  · split
    · next hx =>
      have hdigits : hexDigits? 2 t = none := by
        refine Option.eq_none_iff_forall_ne_some.mpr fun w hw => ?_
        obtain ⟨⟨v, rfl⟩, hlength, hhex⟩ := hexDigits?_eq_some hw
        exact hc _ v (.twoDigits hlength hhex) (by simp [hx])
      rw [hdigits]
      exact ⟨_, rfl⟩
    · split
      · next hr =>
        have hline : t.head? ≠ some '\n' := by
          intro hn
          obtain ⟨v, rfl⟩ := List.head?_eq_some_iff.mp hn
          exact hc _ v .lineEnd (by simp [hr])
        rw [if_neg hline]
        exact ⟨_, rfl⟩
      · split <;> exact ⟨_, rfl⟩

/-- **A character begins no longer escape** exactly if nothing behind it is decoded with it. -/
theorem forall_isLong_ne_iff : (∀ u v, IsLong u → c :: t ≠ u ++ v) ↔ (escape c t).2 = 0 := by
  constructor
  · intro hc
    obtain ⟨s, hs⟩ := exists_escape_single hc
    rw [hs]
  · intro h u v hu e
    obtain ⟨d, u, rfl⟩ : ∃ d u', u = d :: u' := by cases hu <;> exact ⟨_, _, rfl⟩
    obtain ⟨rfl, ht⟩ := List.cons.inj e
    obtain ⟨spelled, hs, -⟩ := hu.exists_escape v
    rw [show t = u ++ v from ht, hs] at h
    obtain rfl := List.length_eq_zero_iff.mp h
    cases hu with
    | fourDigits hlength => simp at hlength
    | twoDigits hlength => simp at hlength

/-- **Text of raw characters and escapes is decoded.** -/
theorem IsEscaped.exists_unescape (h : IsEscaped q w) : ∃ s, unescape w = .ok s := by
  have hstep {u v s t : Text} (hu : unescape (u ++ t) = (unescape t).map (s ++ ·)) (ht : unescape t = .ok v) :
      ∃ s, unescape (u ++ t) = .ok s := ⟨s ++ v, by rw [hu, ht]; rfl⟩
  induction h with
  | nil => exact ⟨[], rfl⟩
  | @raw c t hback _ _ _ ih =>
    obtain ⟨v, hv⟩ := ih
    exact hstep (u := [c]) (s := [c]) (unescape_raw hback t) hv
  | @long u t hu hbounded _ ih =>
    obtain ⟨v, hv⟩ := ih
    obtain ⟨e, u, rfl⟩ : ∃ e u', u = e :: u' := by cases hu <;> exact ⟨_, _, rfl⟩
    obtain ⟨_, hs, hbound⟩ := hu.exists_escape t
    obtain ⟨s, rfl⟩ := hbound hbounded
    exact hstep (u := '\\' :: e :: u) (unescape_escape hs) hv
  | @single c t hc _ ih =>
    obtain ⟨v, hv⟩ := ih
    obtain ⟨s, hs⟩ := exists_escape_single hc
    exact hstep (u := ['\\', c]) (unescape_escape (u := []) hs) hv

/-! ## Line ends -/

/-- The line end of two characters. -/
def crlf : Text := ['\r', '\n']

/-- Without the first of its characters a line end lies behind. -/
theorem crlf_infix_cons (h : c = '\r' → t.head? ≠ some '\n') : crlf <:+: c :: t ↔ crlf <:+: t := by
  rw [List.infix_cons_iff, or_iff_right]
  intro hprefix
  obtain ⟨rfl, v, rfl⟩ := List.cons_prefix_cons.mp hprefix
  exact h rfl rfl

theorem crlf_infix_append (h : '\r' ∉ u) : crlf <:+: u ++ t ↔ crlf <:+: t := by
  induction u with
  | nil => rfl
  | cons c u ih =>
    obtain ⟨hc, hu⟩ := not_or.mp (List.mem_cons.not.mp h)
    rw [List.cons_append, crlf_infix_cons fun e => absurd e.symm hc, ih hu]

theorem IsEscaped.head?_ne (h : IsEscaped q w) : w.head? ≠ some '\n' := by
  cases h with
  | raw hback hquote hline h => simpa using hline
  | _ => simp

/-- **A longer escape passes between quotes**, unless it is a line end. -/
theorem IsLong.passes (hq : q = '\'' ∨ q = '"') (hu : IsLong u) :
    u = crlf ∨ Passes q ('\\' :: u) ∧ '\r' ∉ '\\' :: u := by
  have hreturn {w : Text} (hhex : w.all Text.isHex = true) : '\r' ∉ w := fun hmem =>
    absurd (List.all_eq_true.mp hhex '\r' hmem) (by decide)
  cases hu with
  | @braces w hne hhex =>
    have hbrace : Verbatim q ['\x7b'] ∧ Verbatim q ['\x7d'] := by rcases hq with rfl | rfl <;> decide
    have hdigits := (hbrace.1.passes.append (verbatim_digits hq hhex).passes).append hbrace.2.passes
    exact .inr ⟨(passes_escape q 'u').append hdigits, by simp [hreturn hhex]⟩
  | fourDigits hlength hhex =>
    exact .inr ⟨(passes_escape q 'u').append (verbatim_digits hq hhex).passes, by simp [hreturn hhex]⟩
  | twoDigits hlength hhex =>
    exact .inr ⟨(passes_escape q 'x').append (verbatim_digits hq hhex).passes, by simp [hreturn hhex]⟩
  | lineEnd => exact .inl rfl

/-- Whether text passes between quotes, or a line end in it ends the search for the closing quote. -/
def PassesOrBreaks (q : Char) (w : Text) : Prop :=
  Passes q w ∧ ¬ crlf <:+: w ∨ (∀ t, quotedBody q (w ++ t) = none) ∧ crlf <:+: w

theorem PassesOrBreaks.append (ht : PassesOrBreaks q t) (hu : Passes q u) (hline : crlf <:+: u ++ t ↔ crlf <:+: t) :
    PassesOrBreaks q (u ++ t) := by
  rcases ht with ⟨ht, hno⟩ | ⟨ht, hcrlf⟩
  · exact .inl ⟨hu.append ht, hline.not.mpr hno⟩
  · exact .inr ⟨fun r => by rw [List.append_assoc, hu, ht, Option.map_none], hline.mpr hcrlf⟩

/-- **Raw characters and escapes pass between quotes** exactly if there is no line end among them. -/
theorem IsEscaped.passes_or_breaks (hq : q = '\'' ∨ q = '"') (h : IsEscaped q w) : PassesOrBreaks q w := by
  induction h with
  | nil => exact .inl ⟨passes_nil q, by simp [crlf]⟩
  | @raw c t hback hquote hline h ih =>
    have hc : Verbatim q [c] := List.forall_mem_singleton.mpr ⟨hquote, hback, hline⟩
    exact ih.append hc.passes (crlf_infix_cons fun _ => h.head?_ne)
  | @long u t hu _ h ih =>
    rcases hu.passes hq with rfl | ⟨hpasses, hreturn⟩
    · have hq' : '\n' ≠ q := by rcases hq with rfl | rfl <;> decide
      refine .inr ⟨fun r => ?_, ⟨['\\'], t, rfl⟩⟩
      show quotedBody q (['\\', '\r'] ++ '\n' :: (t ++ r)) = none
      exact (passes_escape q '\r').newline hq'.symm _
    · exact ih.append (u := '\\' :: u) hpasses (crlf_infix_append hreturn)
  | @single c t hc h ih =>
    refine ih.append (passes_escape q c) ?_
    rw [List.cons_append, crlf_infix_cons fun e => absurd e (by decide)]
    refine crlf_infix_cons fun hr hn => ?_
    obtain ⟨v, rfl⟩ := List.head?_eq_some_iff.mp hn
    exact hc _ v .lineEnd (by simp [hr])

/-! ## Parsing -/

/-- **The closing quote is found where the decoder finds it**, but for line ends.  Text of raw characters and
escapes between quotes is decoded; it is parsed as the literal of what it is decoded to if there is no line
end of two characters in it, and else it is rejected. -/
theorem parse_escaped (hq : q = '\'' ∨ q = '"') (h : IsEscaped q w) :
    (∃ s, decode (q :: (w ++ [q])) = .ok s ∧ (¬ crlf <:+: w → parse (q :: (w ++ [q])) = .ok (.literal s))) ∧
      (crlf <:+: w → ∃ error, parse (q :: (w ++ [q])) = .error error) := by
  obtain ⟨s, hs⟩ := h.exists_unescape
  refine ⟨⟨s, (decode_quotes q w).trans hs, fun hno => ?_⟩, fun hcrlf => ?_⟩
  · have hpasses := (h.passes_or_breaks hq).resolve_right fun hsome => hno hsome.2
    exact parse_string hq hpasses.1 hs
  · have hnone := (h.passes_or_breaks hq).resolve_left fun hpasses => hpasses.2 hcrlf
    have hparse := parse_ne_ok (solid_quoted hq w) (found_importCall_quote hq _) (found_expression_nil hq (hnone.1 [q]))
    cases hresult : parse (q :: (w ++ [q])) with
    | error error => exact ⟨error, rfl⟩
    | ok e => exact absurd hresult (hparse e)

/-- Escapes of every kind, and characters that begin no longer escape. -/
def mixedEscapes : Text := "a\\x62\\u\x7b1f600\x7d\\u00e9\\u12\\xg\\\"\\\n\\\rc\\q".toList

theorem isEscaped_mixedEscapes : IsEscaped '"' mixedEscapes :=
  have hraw {w t : Text} (hw : Verbatim '"' w) (h : IsEscaped '"' t) := hw.isEscaped_append h
  hraw (w := ['a']) (by decide) <|
  .long (u := ['x', '6', '2']) (.twoDigits rfl rfl) (fun _ h => by simp at h) <|
  .long (.braces (w := ['1', 'f', '6', '0', '0']) (by decide) rfl) (isBounded_braces (by decide)) <|
  .long (u := ['u', '0', '0', 'e', '9']) (.fourDigits rfl rfl) (fun _ h => by simp at h) <|
  .single (c := 'u') (forall_isLong_ne_iff.mpr rfl) <|
  hraw (w := ['1', '2']) (by decide) <|
  .single (c := 'x') (forall_isLong_ne_iff.mpr rfl) <|
  hraw (w := ['g']) (by decide) <|
  .single (c := '"') (forall_isLong_ne_iff.mpr rfl) <|
  .single (c := '\n') (forall_isLong_ne_iff.mpr rfl) <|
  .single (c := '\r') (forall_isLong_ne_iff.mpr rfl) <|
  hraw (w := ['c']) (by decide) <|
  .single (c := 'q') (forall_isLong_ne_iff.mpr rfl) .nil

/-- Digits where no escape is complete, and line ends of one character. -/
theorem parse_escaped_mixed :
    IsEscaped '"' mixedEscapes ∧ ¬ crlf <:+: mixedEscapes ∧
      parse ('"' :: (mixedEscapes ++ ['"'])) = .ok (.literal "ab😀éu12xg\"cq".toList) := by
  obtain ⟨⟨s, hs, hparse⟩, -⟩ := parse_escaped (.inr rfl) isEscaped_mixedEscapes
  have hdecode : decode ('"' :: (mixedEscapes ++ ['"'])) = .ok "ab😀éu12xg\"cq".toList := by rfl
  have hno : ¬ crlf <:+: mixedEscapes := by decide +kernel
  obtain rfl := Except.ok.inj (hs.symm.trans hdecode)
  exact ⟨isEscaped_mixedEscapes, hno, hparse hno⟩

/-- **A continued line may end a string.**  A backslash before a line end of two characters is an escape, which
is decoded, but no string is found between the quotes. -/
theorem continued_line_rejected :
    IsEscaped '\'' "./a\\\r\nb.js".toList ∧
      decode "'./a\\\r\nb.js'".toList = .ok "./ab.js".toList ∧
        ∀ e, parse "'./a\\\r\nb.js'".toList ≠ .ok e := by
  have hbehind : IsEscaped '\'' ("b.js".toList ++ []) :=
    Verbatim.isEscaped_append (by decide) .nil
  have hescaped : IsEscaped '\'' ("./a".toList ++ '\\' :: (crlf ++ "b.js".toList)) :=
    Verbatim.isEscaped_append (by decide) (.long .lineEnd (fun _ h => by simp [crlf] at h) hbehind)
  have htext : "'./a\\\r\nb.js'".toList = '\'' :: ("./a\\\r\nb.js".toList ++ ['\'']) := rfl
  rw [htext]
  exact ⟨hescaped, rfl, parse_ne_ok (solid_quoted (.inl rfl) _) (found_importCall_quote (.inl rfl) _)
    (found_expression_nil (.inl rfl) rfl)⟩

end VariableImport.Script
