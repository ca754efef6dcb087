import Mathlib.Data.List.Infix
import Mathlib.Data.List.TakeWhile
import VariableImport.Proofs.Path.Trail
import VariableImport.Script.Token

/-!
# Proofs/Script/Lexeme — the texts of tokens

What stands between quotes and what a template holds are judgments on their own text (`IsQuoted`,
`IsRaw`), which say what is read whatever follows (`quotedBody_eq_some_iff`, `templateBody_eq_some_iff`).
What a terminal finds is the text of a token (`Lexeme`), which takes at least one character.
-/

namespace VariableImport.Script

/-! ## Strings and templates -/

/-- A way in which a part of a template may end. -/
def closing (opens : Bool) : Text := if opens then ['$', '\x7b'] else ['`']

/-- **Text between quotes**: no quote, backslash or newline, but for the characters behind backslashes. -/
inductive IsQuoted (quote : Char) : Text → Prop
  | nil : IsQuoted quote []
  | escape (c : Char) {q : Text} (h : IsQuoted quote q) : IsQuoted quote ('\\' :: c :: q)
  | char {c : Char} {q : Text} (hback : c ≠ '\\') (hend : c ≠ quote) (hline : c ≠ '\n')
      (h : IsQuoted quote q) : IsQuoted quote (c :: q)

/-- **Raw text of a template**: no backtick, opening of an expression or backslash, but for the characters
behind backslashes. -/
inductive IsRaw : Text → Prop
  | nil : IsRaw []
  | escape (c : Char) {q : Text} (h : IsRaw q) : IsRaw ('\\' :: c :: q)
  | char {c : Char} {q : Text} (hback : c ≠ '\\') (hend : c ≠ '`')
      (hopen : c = '$' → q.head? ≠ some '\x7b') (h : IsRaw q) : IsRaw (c :: q)

section Bodies

variable {quote : Char} {s q rest : Text} {opens : Bool}

/-- A quoted body at anything but a backslash. -/
theorem quotedBody_cons {c : Char} (hc : c ≠ '\\') (s : Text) :
    quotedBody quote (c :: s) = if c = quote then some ([], s) else if c = '\n' then none
      else (quotedBody quote s).map fun (body, rest) => (c :: body, rest) := by
  rw [quotedBody.eq_3 quote c s fun _ _ h => absurd h hc]
  simp only [hc, false_or]

/-- What is read between quotes is text between quotes. -/
theorem isQuoted_of_quotedBody (h : quotedBody quote s = some (q, rest)) :
    IsQuoted quote q ∧ s = q ++ quote :: rest := by
  fun_induction quotedBody quote s generalizing q with
  | case1 => simp at h
  | case2 c s ih =>
    obtain ⟨⟨b, r⟩, hb, e⟩ := Option.map_eq_some_iff.mp h
    obtain ⟨rfl, rfl⟩ := Prod.mk.inj e
    obtain ⟨hquoted, rfl⟩ := ih hb
    exact ⟨.escape c hquoted, rfl⟩
  | case3 s =>
    obtain ⟨rfl, rfl⟩ := Prod.mk.inj (Option.some.inj h)
    exact ⟨.nil, rfl⟩
  | case4 => simp at h
  | case5 c s _ hend hc ih =>
    obtain ⟨⟨b, r⟩, hb, e⟩ := Option.map_eq_some_iff.mp h
    obtain ⟨rfl, rfl⟩ := Prod.mk.inj e
    obtain ⟨hquoted, rfl⟩ := ih hb
    obtain ⟨hback, hline⟩ := not_or.mp hc
    exact ⟨.char hback hend hline hquoted, rfl⟩

/-- **A quoted body** is the text up to a quote. -/
theorem quotedBody_eq_some_iff (hquote : quote ≠ '\\') :
    quotedBody quote s = some (q, rest) ↔ IsQuoted quote q ∧ s = q ++ quote :: rest := by
  refine ⟨isQuoted_of_quotedBody, ?_⟩
  rintro ⟨h, rfl⟩
  induction h with
  | nil => rw [List.nil_append, quotedBody_cons hquote, if_pos rfl]
  | escape c _ ih =>
    rw [List.cons_append, List.cons_append, quotedBody, ih]
    rfl
  | char hback hend hline _ ih =>
    rw [List.cons_append, quotedBody_cons hback, if_neg hend, if_neg hline, ih]
    rfl

/-- A part of a template at anything but a backslash or an opening expression. -/
theorem templateBody_cons {c : Char} (hc : c ≠ '\\') (hs : c = '$' → s.head? ≠ some '\x7b') :
    templateBody (c :: s) = if c = '`' then some ([], false, s)
      else (templateBody s).map fun (body, opens, rest) => (c :: body, opens, rest) := by
  rw [templateBody.eq_4 c s (fun _ _ h => absurd h hc) fun t hd e => hs hd (e ▸ rfl)]
  simp only [hc, if_false]

/-- No brace opens an expression behind raw text. -/
theorem head?_append_closing (hopen : q.head? ≠ some '\x7b') (opens : Bool) (rest : Text) :
    (q ++ (closing opens ++ rest)).head? ≠ some '\x7b' := by
  cases q with
  | nil => cases opens <;> simp [closing]
  | cons d q => exact hopen

/-- What a template holds up to its end or the start of an expression is raw text. -/
theorem isRaw_of_templateBody (h : templateBody s = some (q, opens, rest)) :
    IsRaw q ∧ s = q ++ (closing opens ++ rest) := by
  fun_induction templateBody s generalizing q with
  | case1 => simp at h
  | case2 c s ih =>
    obtain ⟨⟨b, o, r⟩, hb, e⟩ := Option.map_eq_some_iff.mp h
    obtain ⟨rfl, rfl, rfl⟩ : '\\' :: c :: b = q ∧ o = opens ∧ r = rest := by simpa using e
    obtain ⟨hraw, rfl⟩ := ih hb
    exact ⟨.escape c hraw, rfl⟩
  | case3 s =>
    obtain ⟨rfl, rfl, rfl⟩ : [] = q ∧ true = opens ∧ s = rest := by simpa using h
    exact ⟨.nil, rfl⟩
  | case4 s =>
    obtain ⟨rfl, rfl, rfl⟩ : [] = q ∧ false = opens ∧ s = rest := by simpa using h
    exact ⟨.nil, rfl⟩
  | case5 => simp at h
  | case6 c s _ hopen hend hback ih =>
    obtain ⟨⟨b, o, r⟩, hb, e⟩ := Option.map_eq_some_iff.mp h
    obtain ⟨rfl, rfl, rfl⟩ : c :: b = q ∧ o = opens ∧ r = rest := by simpa using e
    obtain ⟨hraw, rfl⟩ := ih hb
    refine ⟨.char hback hend (fun hd hhead => ?_) hraw, rfl⟩
    obtain ⟨u, rfl⟩ := List.head?_eq_some_iff.mp hhead
    exact hopen _ hd rfl

/-- **A part of a template** is raw text up to its end or the start of an expression. -/
theorem templateBody_eq_some_iff :
    templateBody s = some (q, opens, rest) ↔ IsRaw q ∧ s = q ++ (closing opens ++ rest) := by
  refine ⟨isRaw_of_templateBody, ?_⟩
  rintro ⟨h, rfl⟩
  induction h with
  | nil => cases opens <;> rfl
  | escape c _ ih =>
    rw [List.cons_append, List.cons_append, templateBody, ih]
    rfl
  | char hback hend hopen _ ih =>
    rw [List.cons_append, templateBody_cons hback fun hd => head?_append_closing (hopen hd) opens rest,
      if_neg hend, ih]
    rfl

end Bodies

theorem templatePart_eq {opening : Char} {opens : Bool} {s body rest : Text}
    (h : templatePart opening opens s = some (body, rest)) :
    ∃ t, s = opening :: t ∧ templateBody t = some (body, opens, rest) := by
  unfold templatePart at h
  split at h
  · next c t =>
    split at h
    · next hc =>
      split at h
      · next b o r hb =>
        split at h
        · next ho =>
          obtain ⟨rfl, rfl⟩ := Prod.mk.inj (Option.some.inj h)
          exact ⟨t, by rw [hc], ho ▸ hb⟩
        · simp at h
      · simp at h
    · simp at h
  · simp at h

/-- One of some words stands at the start. -/
theorem oneOf_eq {words : List Text} {s a t : Text} (h : oneOf words s = some (a, t)) :
    a ∈ words ∧ s = a ++ t := by
  obtain ⟨w, hw, hs⟩ := List.exists_of_findSome?_eq_some h
  obtain ⟨rest, hrest, e⟩ := Option.map_eq_some_iff.mp hs
  obtain ⟨rfl, rfl⟩ := Prod.mk.inj e
  exact ⟨hw, Text.isPrefixOf?_eq_some.mp hrest⟩

theorem scanNumber_eq {s a t : Text} (h : scanNumber s = some (a, t)) : a ≠ [] ∧ s = a ++ t := by
  unfold scanNumber at h
  dsimp only at h
  have hs : s = s.takeWhile Text.isDecimal ++ s.dropWhile Text.isDecimal :=
    List.takeWhile_append_dropWhile.symm
  split at h
  · simp at h
  · next hne =>
    split at h
    · next u hu =>
      split at h
      · obtain ⟨rfl, rfl⟩ := Prod.mk.inj (Option.some.inj h)
        exact ⟨hne, hu ▸ hs⟩
      · obtain ⟨rfl, rfl⟩ := Prod.mk.inj (Option.some.inj h)
        refine ⟨by simp, ?_⟩
        rw [hu] at hs
        rw [List.append_assoc, List.cons_append, List.takeWhile_append_dropWhile]
        exact hs
    · obtain ⟨rfl, rfl⟩ := Prod.mk.inj (Option.some.inj h)
      exact ⟨hne, hs⟩

/-- A number is digits and at most a point among them. -/
theorem digit_of_scanNumber {s a t : Text} (h : scanNumber s = some (a, t)) :
    ∀ c ∈ a, Text.isDecimal c = true ∨ c = '.' := by
  unfold scanNumber at h
  dsimp only at h
  split at h
  · simp at h
  · split at h
    · split at h
      · obtain ⟨rfl, -⟩ := Prod.mk.inj (Option.some.inj h)
        exact fun c hc => .inl (List.mem_takeWhile_imp hc)
      · obtain ⟨rfl, -⟩ := Prod.mk.inj (Option.some.inj h)
        intro c hc
        rcases List.mem_append.mp hc with hc | hc
        · exact .inl (List.mem_takeWhile_imp hc)
        · rcases List.mem_cons.mp hc with rfl | hc
          · exact .inr rfl
          · exact .inl (List.mem_takeWhile_imp hc)
    · obtain ⟨rfl, -⟩ := Prod.mk.inj (Option.some.inj h)
      exact fun c hc => .inl (List.mem_takeWhile_imp hc)

theorem scanName_eq {s a t : Text} (h : scanName s = some (a, t)) :
    ∃ c u, s = c :: u ∧ startsName c = true ∧ startsReserved s = false ∧
      a = c :: u.takeWhile inName ∧ t = u.dropWhile inName := by
  unfold scanName at h
  split at h
  · simp at h
  · next c u =>
    split at h
    · next hc =>
      obtain ⟨rfl, rfl⟩ := Prod.mk.inj (Option.some.inj h)
      exact ⟨c, u, rfl, hc.1, hc.2, rfl, rfl⟩
    · simp at h

/-! ## Lexemes -/

/-- The words that a terminal stands for, if it stands for some. -/
def Terminal.words : Terminal → List Text
  | .importWord => [importText]
  | .mark c => [[c]]
  | .logical => logicalWords
  | .relational => relationalWords
  | .additive => additiveWords
  | .multiplicative => multiplicativeWords
  | .unary => unaryWords
  | _ => []

/-- The character in front of a part of a template, and whether an expression opens behind it. -/
def Terminal.part? : Terminal → Option (Char × Bool)
  | .plainTemplate => some ('`', false)
  | .templateHead => some ('`', true)
  | .templateMiddle => some ('\x7d', true)
  | .templateTail => some ('\x7d', false)
  | _ => none

/-- **The text of a token**, and what is found of it. -/
inductive Lexeme : Terminal → Text → Text → Prop
  | word {τ : Terminal} {w : Text} (hw : w ∈ τ.words) : Lexeme τ w w
  | quoted {q : Char} {a : Text} (ha : IsQuoted q a) : Lexeme (.quoted q) (q :: (a ++ [q])) a
  | part {τ : Terminal} {o : Char} {opens : Bool} {a : Text} (hτ : τ.part? = some (o, opens))
      (ha : IsRaw a) : Lexeme τ (o :: (a ++ closing opens)) a
  | number {c : Char} {u : Text} (hc : Text.isDecimal c = true)
      (hu : ∀ d ∈ u, Text.isDecimal d = true ∨ d = '.') : Lexeme .number (c :: u) (c :: u)
  | name {c : Char} {u : Text} (hc : startsName c = true) (hu : ∀ d ∈ u, inName d = true) :
      Lexeme .name (c :: u) (c :: u)

/-- **What a terminal finds** is the text of a token at the start. -/
theorem exists_lexeme_of_scan {τ : Terminal} {s a t : Text} (h : τ.scan s = some (a, t)) :
    ∃ w, Lexeme τ w a ∧ s = w ++ t := by
  have word (h : oneOf τ.words s = some (a, t)) : ∃ w, Lexeme τ w a ∧ s = w ++ t :=
    ⟨a, .word (oneOf_eq h).1, (oneOf_eq h).2⟩
  have part {o : Char} {opens : Bool} (hτ : τ.part? = some (o, opens))
      (h : templatePart o opens s = some (a, t)) : ∃ w, Lexeme τ w a ∧ s = w ++ t := by
    obtain ⟨u, rfl, hu⟩ := templatePart_eq h
    obtain ⟨ha, rfl⟩ := isRaw_of_templateBody hu
    exact ⟨_, .part hτ ha, by simp⟩
  cases τ with
  | importWord => exact word h
  | mark c => exact word h
  | quoted q =>
    cases s with
    | nil => simp [Terminal.scan] at h
    | cons c u =>
      simp only [Terminal.scan] at h
      split at h
      · next hc =>
        obtain ⟨ha, rfl⟩ := isQuoted_of_quotedBody h
        exact ⟨_, .quoted ha, by simp [hc]⟩
      · simp at h
  | plainTemplate => exact part rfl h
  | templateHead => exact part rfl h
  | templateMiddle => exact part rfl h
  | templateTail => exact part rfl h
  | number =>
    have hdigits := digit_of_scanNumber h
    obtain ⟨hne, rfl⟩ := scanNumber_eq h
    obtain ⟨c, u, rfl⟩ := List.exists_cons_of_ne_nil hne
    have hc : Text.isDecimal c = true := by
      by_contra hc
      simp [Terminal.scan, scanNumber, hc] at h
    exact ⟨_, .number hc fun d hd => hdigits d (List.mem_cons_of_mem _ hd), rfl⟩
  | name =>
    obtain ⟨c, u, rfl, hc, -, rfl, rfl⟩ := scanName_eq h
    exact ⟨_, .name hc fun d hd => List.mem_takeWhile_imp hd, by simp⟩
  | logical => exact word h
  | relational => exact word h
  | additive => exact word h
  | multiplicative => exact word h
  | unary => exact word h

theorem ne_nil_of_mem_words {τ : Terminal} {w : Text} (hw : w ∈ τ.words) : w ≠ [] := by
  rintro rfl
  cases τ with
  | mark c => exact List.cons_ne_nil c [] (List.mem_singleton.mp hw).symm
  | quoted q => exact List.not_mem_nil hw
  | _ => exact absurd hw (by decide)

theorem Lexeme.ne_nil {τ : Terminal} {w a : Text} (h : Lexeme τ w a) : w ≠ [] := by
  cases h with
  | word hw => exact ne_nil_of_mem_words hw
  | _ => exact List.cons_ne_nil _ _

/-- **A token takes at least one character off a text.** -/
theorem exists_of_scan {τ : Terminal} {s a t : Text} (h : τ.scan s = some (a, t)) :
    ∃ w, w ≠ [] ∧ s = w ++ t := by
  obtain ⟨w, hw, hs⟩ := exists_lexeme_of_scan h
  exact ⟨w, hw.ne_nil, hs⟩

theorem length_lt_of_scan {τ : Terminal} {s a t : Text} (h : τ.scan s = some (a, t)) :
    t.length < s.length := by
  obtain ⟨w, hw, rfl⟩ := exists_of_scan h
  have := List.length_pos_of_ne_nil hw
  rw [List.length_append]
  omega

end VariableImport.Script
