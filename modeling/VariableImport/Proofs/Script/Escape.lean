import VariableImport.Proofs.Json.Literal
import VariableImport.Proofs.Script.StringLiteral

/-!
# Proofs/Script/Escape — the spellings of a text and what they are decoded to

A character may be spelled in six ways (`SpelledAs`), and lines may be continued between characters
(`IsSpelling`).  **Every spelling is decoded to the text that it spells**, whatever its escapes are followed
by.  What JSON writes spells the text as long as one unit is enough for every character (`isSpelling_json`),
and passes between quotes in any case (`passes_json`).
-/

namespace VariableImport.Script

variable {c e : Char} {n : ℕ} {s t u v w : Text}

/-! ## Spellings -/

/-- The letters that name a character, each before the character. -/
def namedEscapes : List (Char × Char) :=
  [('n', '\n'), ('t', '\t'), ('r', '\r'), ('b', '\x08'), ('f', '\x0c'), ('v', '\x0b'), ('0', '\x00')]

/-- The characters that mean something else behind a backslash. -/
def reserved : List Char := ['u', 'x', '\n', '\r'] ++ namedEscapes.map Prod.fst

/-- **The ways to spell a character.** -/
inductive SpelledAs (c : Char) : Text → Prop
  | raw (hback : c ≠ '\\') (hline : c ≠ '\n') : SpelledAs c [c]
  | twoDigits {w : Text} (hlength : w.length = 2) (hhex : w.all Text.isHex = true)
      (hvalue : Text.ofHex w = c.toNat) : SpelledAs c ('\\' :: 'x' :: w)
  | fourDigits {w : Text} (hlength : w.length = 4) (hhex : w.all Text.isHex = true)
      (hvalue : Text.ofHex w = c.toNat) : SpelledAs c ('\\' :: 'u' :: w)
  | braces {w : Text} (hne : w ≠ []) (hhex : w.all Text.isHex = true)
      (hvalue : Text.ofHex w = c.toNat) : SpelledAs c ('\\' :: 'u' :: '\x7b' :: (w ++ ['\x7d']))
  | named {e : Char} (h : (e, c) ∈ namedEscapes) : SpelledAs c ['\\', e]
  | itself (h : c ∉ reserved) : SpelledAs c ['\\', c]

/-- The line ends that a backslash may have behind it. -/
def lineEnds : List Text := [['\n'], ['\r', '\n'], ['\r']]

/-- **The spellings of a text**: one of every character, and continued lines anywhere between them. -/
inductive IsSpelling : Text → Text → Prop
  | nil : IsSpelling [] []
  | char {c : Char} {u w s : Text} (hu : SpelledAs c u) (h : IsSpelling w s) : IsSpelling (u ++ w) (c :: s)
  | continued {v w s : Text} (hv : v ∈ lineEnds) (h : IsSpelling w s) : IsSpelling ('\\' :: (v ++ w)) s

/-- No spelling begins with a line end. -/
theorem IsSpelling.head?_ne (h : IsSpelling w s) : w.head? ≠ some '\n' := by
  cases h with
  | nil => simp
  | char hu h =>
    cases hu with
    | raw hback hline => simpa using hline
    | _ => simp
  | continued hv h => simp

/-! ## Escapes -/

theorem codePoint_toNat (c : Char) : codePoint c.toNat = .ok [c] := by
  rw [codePoint, if_pos (Json.toNat_bounds c), Char.ofNat_toNat]

theorem hexDigits?_append (hlength : w.length = n) (hhex : w.all Text.isHex = true) (t : Text) :
    hexDigits? n (w ++ t) = some w := by
  have htake : (w ++ t).take n = w := List.take_left' hlength
  rw [hexDigits?, htake, if_pos ⟨hlength, hhex⟩]

/-- Digits are no brace. -/
theorem braced?_digits (hlength : w.length = n + 1) (hhex : w.all Text.isHex = true) (t : Text) :
    braced? (w ++ t) = none := by
  obtain ⟨d, w, rfl⟩ := List.exists_cons_of_length_eq_add_one hlength
  have hd : Text.isHex d = true := List.all_eq_true.mp hhex d (List.mem_cons_self ..)
  have hbrace : d ≠ '\x7b' := by
    rintro rfl
    exact absurd hd (by decide)
  rw [List.cons_append]
  unfold braced?
  split
  · next h => exact absurd (List.cons.inj h).1 hbrace
  · rfl

theorem braced?_braces (hne : w ≠ []) (hhex : w.all Text.isHex = true) (t : Text) :
    braced? ('\x7b' :: (w ++ '\x7d' :: t)) = some w := by
  have hall : ∀ d ∈ w, Text.isHex d = true := List.all_eq_true.mp hhex
  have hend : Text.isHex '\x7d' = false := by decide
  have htake : (w ++ '\x7d' :: t).takeWhile Text.isHex = w := by
    rw [List.takeWhile_append_of_pos hall, List.takeWhile_cons_of_neg (by simp [hend]), List.append_nil]
  have hdrop : (w ++ '\x7d' :: t).dropWhile Text.isHex = '\x7d' :: t := by
    rw [List.dropWhile_append_of_pos hall, List.dropWhile_cons_of_neg (by simp [hend])]
  simp only [braced?, htake, hdrop]
  exact if_pos ⟨hne, rfl⟩

theorem unescapeFrom_skip (w t : Text) : unescapeFrom w.length (w ++ t) = unescape t := by
  induction w with
  | nil => rfl
  | cons c w ih => exact ih

/-- An escape that is `e` and `u` spells what it spells, and the text goes on behind it. -/
theorem unescape_escape (h : escape e (u ++ t) = (.ok s, u.length)) :
    unescape ('\\' :: e :: (u ++ t)) = (unescape t).map (s ++ ·) := by
  rw [unescape, unescapeFrom, h]
  exact congrArg (Except.map (s ++ ·)) (unescapeFrom_skip u t)

theorem unescape_raw (hback : c ≠ '\\') (t : Text) :
    unescape (c :: t) = (unescape t).map (c :: ·) := by
  rw [unescape, unescapeFrom]
  · rfl
  · rintro d t' rfl
    exact absurd rfl hback

/-- An escape of one character. -/
theorem escape_letter (hu : e ≠ 'u') (hx : e ≠ 'x') (hcr : e ≠ '\r') (hlf : e ≠ '\n') (t : Text) :
    escape e t = (.ok [Script.named e], 0) := by
  rw [escape, if_neg hu, if_neg hx, if_neg hcr, if_neg hlf]

theorem named_eq_self (h : c ∉ reserved) : Script.named c = c := by
  unfold Script.named
  split
  case h_8 => rfl
  all_goals exact absurd (by decide) h

/-! ## Decoding -/

/-- **A spelled character is decoded** to the character, whatever follows it. -/
theorem unescape_spelledAs (h : SpelledAs c u) (t : Text) :
    unescape (u ++ t) = (unescape t).map (c :: ·) := by
  cases h with
  | raw hback hline => exact unescape_raw hback t
  | @twoDigits w hlength hhex hvalue =>
    refine unescape_escape (s := [c]) (e := 'x') ?_
    rw [escape, if_neg (by decide), if_pos rfl, hexDigits?_append hlength hhex]
    simp only [hvalue, codePoint_toNat, hlength]
  | @fourDigits w hlength hhex hvalue =>
    refine unescape_escape (s := [c]) (e := 'u') ?_
    rw [escape, if_pos rfl, braced?_digits hlength hhex, hexDigits?_append hlength hhex]
    simp only [hvalue, codePoint_toNat, hlength]
  | @braces w hne hhex hvalue =>
    refine unescape_escape (s := [c]) (e := 'u') ?_
    rw [escape, if_pos rfl, List.cons_append, List.append_assoc, List.singleton_append,
      braced?_braces hne hhex]
    simp [hvalue, codePoint_toNat]
  | @named e h =>
    have hnames : ∀ p ∈ namedEscapes, p.1 ∉ ['u', 'x', '\n', '\r'] ∧ Script.named p.1 = p.2 := by decide
    obtain ⟨he, hc⟩ := hnames _ h
    simp only [List.mem_cons, List.not_mem_nil, or_false, not_or] at he hc
    have hletter := escape_letter he.1 he.2.1 he.2.2.2 he.2.2.1 t
    exact unescape_escape (u := []) (hc ▸ hletter)
  | itself h =>
    have hother : ∀ d ∈ ['u', 'x', '\n', '\r'], c ≠ d := fun d hd hc =>
      h (hc ▸ List.mem_append_left _ hd)
    have hletter := escape_letter (hother _ (by decide)) (hother _ (by decide)) (hother _ (by decide))
      (hother _ (by decide)) t
    exact unescape_escape (u := []) (named_eq_self h ▸ hletter)

/-- **A continued line spells nothing**, where no second line end follows. -/
theorem unescape_continued (hv : v ∈ lineEnds) (ht : t.head? ≠ some '\n') :
    unescape ('\\' :: (v ++ t)) = unescape t := by
  have hempty : unescape t = (unescape t).map ([] ++ ·) := by cases unescape t <;> rfl
  rw [hempty]
  simp only [lineEnds, List.mem_cons, List.not_mem_nil, or_false] at hv
  rcases hv with rfl | rfl | rfl
  · exact unescape_escape (e := '\n') (u := []) rfl
  · exact unescape_escape (e := '\r') (u := ['\n']) rfl
  · refine unescape_escape (e := '\r') (u := []) ?_
    show (Except.ok [], if t.head? = some '\n' then 1 else 0) = _
    rw [if_neg ht]
    rfl

/-- **A spelling is decoded to what it spells.** -/
theorem IsSpelling.unescape_eq (h : IsSpelling w s) : unescape w = .ok s := by
  induction h with
  | nil => rfl
  | char hu _ ih =>
    rw [unescape_spelledAs hu, ih]
    rfl
  | continued hv h ih => rw [unescape_continued hv h.head?_ne, ih]

theorem decode_quotes (q : Char) (w : Text) : decode (q :: (w ++ [q])) = unescape w := by
  rw [decode, List.tail_cons, List.dropLast_concat]

/-! ## What JSON writes -/

/-- A character that takes one unit is spelled as JSON writes it. -/
theorem spelledAs_of_writtenAs (hc : c.toNat < 0x10000) (h : Json.WrittenAs c w) : SpelledAs c w := by
  cases h with
  | plain hquote hback hlow hhigh =>
    refine .raw hback ?_
    rintro rfl
    exact absurd hlow (by decide)
  | @letter e h =>
    have hletters : ∀ p ∈ Json.letterEscapes, p ∈ namedEscapes ∨ p.1 = p.2 ∧ p.2 ∉ reserved := by decide
    rcases hletters _ h with h | ⟨he, h⟩
    · exact .named h
    · obtain rfl : e = c := he
      exact .itself h
  | unit h =>
    exact .fourDigits (Text.length_toHex 4 _) (Text.all_isHex_toHex 4 _) (Text.ofHex_toHex h)
  | pair h => omega

theorem isSpelling_json (hs : ∀ c ∈ s, c.toNat < 0x10000) : IsSpelling (s.flatMap Json.encodeChar) s := by
  induction s with
  | nil => exact .nil
  | cons c s ih =>
    have hc := hs c (List.mem_cons_self ..)
    have ih := ih fun d hd => hs d (List.mem_cons_of_mem _ hd)
    rw [List.flatMap_cons]
    exact .char (spelledAs_of_writtenAs hc (Json.writtenAs_encodeChar c)) ih

/-- Digits stand between quotes as they are. -/
theorem verbatim_digits {q : Char} (hq : q = '\'' ∨ q = '"') (hhex : w.all Text.isHex = true) : Verbatim q w := by
  intro d hd
  have hd := List.all_eq_true.mp hhex d hd
  refine ⟨?_, ?_, ?_⟩ <;> rintro rfl
  · rcases hq with rfl | rfl <;> exact absurd hd (by decide)
  · exact absurd hd (by decide)
  · exact absurd hd (by decide)

theorem passes_escapeUnit (n : ℕ) : Passes '"' (Json.escapeUnit n) :=
  (passes_escape '"' 'u').append (verbatim_digits (.inr rfl) (Text.all_isHex_toHex 4 n)).passes

theorem passes_writtenAs (h : Json.WrittenAs c w) : Passes '"' w := by
  cases h with
  | plain hquote hback hlow hhigh =>
    refine Verbatim.passes fun d hd => ?_
    obtain rfl := List.mem_singleton.mp hd
    refine ⟨hquote, hback, ?_⟩
    rintro rfl
    exact absurd hlow (by decide)
  | letter h => exact passes_escape '"' _
  | unit h => exact passes_escapeUnit _
  | pair h => exact (passes_escapeUnit _).append (passes_escapeUnit _)

/-- **What JSON writes passes between quotes.** -/
theorem passes_json (s : Text) : Passes '"' (s.flatMap Json.encodeChar) := by
  induction s with
  | nil => exact passes_nil '"'
  | cons c s ih =>
    rw [List.flatMap_cons]
    exact (passes_writtenAs (Json.writtenAs_encodeChar c)).append ih

/-- **Literals are decoded to what they spell.**  A spelling between quotes is decoded to the text that
it spells; the literal that JSON writes for a text of characters of one unit is decoded to that text, and
an import of it is parsed as the literal. -/
theorem decode_spelling :
    (∀ w s, IsSpelling w s → ∀ q, decode (q :: (w ++ [q])) = .ok s) ∧
      ∀ s : Text, (∀ c ∈ s, c.toNat < 0x10000) →
        decode (Json.encodeText s) = .ok s ∧
          parse (importText ++ '(' :: (Json.encodeText s ++ [')'])) = .ok (.literal s) := by
  refine ⟨fun w s h q => ?_, fun s hs => ⟨?_, ?_⟩⟩
  · rw [decode_quotes, h.unescape_eq]
  · have hquote : Json.encodeText s = '"' :: (s.flatMap Json.encodeChar ++ ['"']) := rfl
    rw [hquote, decode_quotes, (isSpelling_json hs).unescape_eq]
  · exact parse_quote (passes_json s) (isSpelling_json hs).unescape_eq

/-- A text spelled in every way and over several lines. -/
def mixedSpelling : Text := "a\\x62\\\nc\\u0064\\\r\ne\\u\x7b00066\x7d\\\r0\\n\\q\\'".toList

/-- Digits behind an escape and behind a continued line, and characters at the ends of the range. -/
theorem decode_spelling_mixed :
    IsSpelling mixedSpelling "abcdef0\nq'".toList ∧
      decode ('\'' :: (mixedSpelling ++ ['\''])) = .ok "abcdef0\nq'".toList ∧
        parse (importText ++ '(' :: (Json.encodeText "\x00\"\\é\uffff".toList ++ [')'])) =
          .ok (.literal "\x00\"\\é\uffff".toList) := by
  have hspelling : IsSpelling mixedSpelling "abcdef0\nq'".toList :=
    .char (.raw (c := 'a') (by decide) (by decide)) <|
    .char (.twoDigits (c := 'b') (w := ['6', '2']) rfl rfl rfl) <|
    .continued (v := ['\n']) (by decide) <|
    .char (.raw (c := 'c') (by decide) (by decide)) <|
    .char (.fourDigits (c := 'd') (w := ['0', '0', '6', '4']) rfl rfl rfl) <|
    .continued (v := ['\r', '\n']) (by decide) <|
    .char (.raw (c := 'e') (by decide) (by decide)) <|
    .char (.braces (c := 'f') (w := ['0', '0', '0', '6', '6']) (by decide) rfl rfl) <|
    .continued (v := ['\r']) (by decide) <|
    .char (.raw (c := '0') (by decide) (by decide)) <|
    .char (.named (c := '\n') (e := 'n') (by decide)) <|
    .char (.itself (c := 'q') (by decide)) <|
    .char (.itself (c := '\'') (by decide)) .nil
  exact ⟨hspelling, decode_spelling.1 _ _ hspelling '\'', (decode_spelling.2 _ (by simp)).2⟩

end VariableImport.Script
