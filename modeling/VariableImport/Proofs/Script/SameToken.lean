import VariableImport.Proofs.Script.Alike

/-!
# Proofs/Script/SameToken — tokens of alike texts

What a terminal finds at the start of a piece of a text it finds in an alike text (`scan_alike`): words of the
grammar, names and numbers go on from character to character, strings and parts of templates are pieces.
-/

namespace VariableImport.Script

variable {c d : Char} {s t u v w : Text}

/-! ## Words, names and numbers -/

/-- **Whether what is found at the start of two texts is the same**, and what is left of them goes
together. -/
abbrev Matched (s t : Text) : Option (Text × Text) → Option (Text × Text) → Prop :=
  Option.Rel fun x y => x.1 = y.1 ∧ Later (s, t) (x.2, y.2)

theorem longWords_spec : ∀ w ∈ longWords, w ≠ [] ∧ List.IsChain (fun c d => adjacent c d = true) w ∧
    ∀ d ∈ w, isPlain d = true := by
  have h : ∀ w ∈ longWords, w ≠ [] ∧ List.IsChain (fun c d => adjacent c d = true) w ∧
      w.all isPlain = true := by
    decide
  intro w hw
  obtain ⟨hne, hchain, hplain⟩ := h w hw
  exact ⟨hne, hchain, List.all_eq_true.mp hplain⟩

/-- **A word of the grammar** at the start of a piece. -/
theorem word_alike (hw : w ∈ longWords ∨ ∃ d, w = [d]) (h : Alike (some c) s t) :
    Option.Rel (fun r r' => Later (s, t) (r, r') ∧ Alike w.getLast? r r') (w.isPrefixOf? (c :: s))
      (w.isPrefixOf? (c :: t)) := by
  obtain ⟨d, v, rfl, hchain, hplain⟩ : ∃ d v, w = d :: v ∧
      List.IsChain (fun c d => adjacent c d = true) (d :: v) ∧ ∀ e ∈ v, isPlain e = true := by
    rcases hw with hw | ⟨d, rfl⟩
    · obtain ⟨hne, hchain, hplain⟩ := longWords_spec w hw
      obtain ⟨d, v, rfl⟩ := List.exists_cons_of_ne_nil hne
      exact ⟨d, v, rfl, hchain, fun e he => hplain e (List.mem_cons_of_mem _ he)⟩
    · exact ⟨d, [], rfl, .singleton d, fun e he => absurd he List.not_mem_nil⟩
  by_cases hd : d = c
  · subst hd
    simpa only [Text.cons_isPrefixOf?_cons, beq_self_eq_true, if_true] using prefix_alike h hplain hchain
  · have hnone (u : Text) : (d :: v).isPrefixOf? (c :: u) = none :=
      isPrefixOf?_eq_none fun hc => hd (Option.some.inj hc).symm
    rw [hnone, hnone]
    exact .none

/-- **One of several words** of the grammar at the start of a piece. -/
theorem oneOf_alike {words : List Text}
    (hwords : (words.all fun w => longWords.contains w || w.length == 1) = true)
    (h : Alike (some c) s t) : Matched s t (oneOf words (c :: s)) (oneOf words (c :: t)) := by
  unfold oneOf
  induction words with
  | nil => exact .none
  | cons w words ih =>
    rw [List.all_cons, Bool.and_eq_true] at hwords
    have ih := ih hwords.2
    have hmem : w ∈ longWords ∨ ∃ d, w = [d] := by
      simpa [List.length_eq_one_iff] using hwords.1
    have hw := word_alike hmem h
    rw [List.findSome?_cons, List.findSome?_cons]
    generalize w.isPrefixOf? (c :: s) = x at hw ⊢
    generalize w.isPrefixOf? (c :: t) = y at hw ⊢
    cases hw with
    | some hr => exact .some ⟨rfl, hr.1⟩
    | none => exact ih

theorem isPlain_of_inName (hc : inName c = true) : isPlain c = true := isPlain_of_class (by decide) hc

theorem isPlain_of_isDecimal (hc : Text.isDecimal c = true) : isPlain c = true :=
  isPlain_of_class (by decide) hc

theorem startsReserved_alike (h : Alike (some c) s t) :
    startsReserved (c :: s) = startsReserved (c :: t) := by
  have hwords : ∀ w ∈ reservedWords, w ∈ longWords ∧ w.getLast?.any inName = true := by decide
  unfold startsReserved
  rw [Bool.eq_iff_iff, List.any_eq_true, List.any_eq_true]
  refine exists_congr fun w => and_congr_right fun hmem => ?_
  obtain ⟨hlong, hlast⟩ := hwords w hmem
  obtain ⟨d, hd, hname⟩ := (Option.any_eq_true _ _).mp hlast
  have hw := word_alike (.inl hlong) h
  rw [hd] at hw
  generalize w.isPrefixOf? (c :: s) = x at hw ⊢
  generalize w.isPrefixOf? (c :: t) = y at hw ⊢
  cases hw with
  | none => rfl
  | @some r r' hr =>
    have hword {e : Char} (he : Text.isWord e = true) : inName e = true := by simp [inName, he]
    rcases hr.2.next_or (P := Text.isWord) (fun e he => isPlain_of_inName (hword he))
      (fun e u he => by simp [joins, hname, hword he]) with ⟨e, v, v', he, rfl, rfl, -⟩ | ⟨hr, hr'⟩
    · rfl
    · refine iff_of_true ?_ ?_
      · cases r with
        | nil => rfl
        | cons e u => simp [hr e rfl]
      · cases r' with
        | nil => rfl
        | cons e u => simp [hr' e rfl]

theorem inName_of_startsName (hc : startsName c = true) : inName c = true := by
  simp only [startsName, inName, Text.isWord, Char.isAlphanum, Bool.or_eq_true, beq_iff_eq] at hc ⊢
  rcases hc with (hc | rfl) | rfl
  · have hlt : c.toNat < 128 := by
      delta Char.isAlpha Char.isUpper Char.isLower at hc
      simp only [Bool.or_eq_true, Bool.and_eq_true, decide_eq_true_eq, UInt32.le_iff_toNat_le,
        ge_iff_le] at hc
      show c.val.toNat < 128
      rcases hc with ⟨-, hc⟩ | ⟨-, hc⟩ <;> exact lt_of_le_of_lt hc (by decide)
    rw [if_pos hlt, hc]
    exact .inl rfl
  · decide
  · decide

/-- **A name** at the start of a piece. -/
theorem scanName_alike (h : Alike (some c) s t) : Matched s t (scanName (c :: s)) (scanName (c :: t)) := by
  unfold scanName
  dsimp only
  rw [startsReserved_alike h]
  split
  · next hc =>
    obtain ⟨htake, hlater, -⟩ := run_alike (P := inName) (fun _ => isPlain_of_inName)
      (fun _ _ _ hc hd => by simp [joins, hc, hd]) h (inName_of_startsName hc.1)
    rw [htake]
    exact .some ⟨rfl, hlater⟩
  · exact .none

/-- Digits with the fraction that follows them, if one does, and what is left. -/
def withFraction (whole : Text) : Text → Text × Text
  | '.' :: r =>
    if r.takeWhile Text.isDecimal = [] then (whole, '.' :: r)
    else (whole ++ '.' :: r.takeWhile Text.isDecimal, r.dropWhile Text.isDecimal)
  | r => (whole, r)

theorem scanNumber_eq_withFraction (s : Text) : scanNumber s =
    if s.takeWhile Text.isDecimal = [] then none
    else some (withFraction (s.takeWhile Text.isDecimal) (s.dropWhile Text.isDecimal)) := by
  unfold scanNumber
  dsimp only
  generalize s.dropWhile Text.isDecimal = u
  split
  · rfl
  · unfold withFraction
    split
    · exact (apply_ite some _ _ _).symm
    · next hr =>
      split
      · exact absurd rfl (hr _)
      · rfl

/-- Without a digit behind a point there is no fraction. -/
theorem withFraction_eq {whole : Text} (h : ∀ r, u = '.' :: r → r.takeWhile Text.isDecimal = []) :
    withFraction whole u = (whole, u) := by
  unfold withFraction
  split
  · next r => rw [if_pos (h r rfl)]
  · rfl

/-- **A fraction** follows digits in both texts or in none. -/
theorem withFraction_alike {w : Text} (hd : Text.isDecimal d = true) (h : Alike (some d) u v) :
    (withFraction w u).1 = (withFraction w v).1 ∧
      Later (u, v) ((withFraction w u).2, (withFraction w v).2) := by
  have first {u v : Text} (h : Alike (some d) u v) (hu : ∃ e r, u = '.' :: e :: r ∧ Text.isDecimal e = true) :
      ∃ e r r', u = '.' :: e :: r ∧ v = '.' :: e :: r' ∧ Text.isDecimal e = true ∧
        Alike (some e) r r' ∧ Later (u, v) (r, r') := by
    obtain ⟨e, r, rfl, he⟩ := hu
    obtain ⟨v', rfl, h₁, hstep₁⟩ := h.next (by decide) (by simp [joins, hd, he])
    obtain ⟨r', rfl, h₂, hstep₂⟩ := h₁.next (isPlain_of_isDecimal he) (by simp [joins, he])
    exact ⟨e, r, r', rfl, rfl, he, h₂, .head hstep₁ (.single hstep₂)⟩
  have point {u : Text} (hu : ¬ ∃ e r, u = '.' :: e :: r ∧ Text.isDecimal e = true) :
      withFraction w u = (w, u) := by
    refine withFraction_eq fun r hr => ?_
    cases r with
    | nil => rfl
    | cons e r => rw [List.takeWhile_cons_of_neg fun he => hu ⟨e, r, hr, he⟩]
  by_cases hu : ∃ e r, u = '.' :: e :: r ∧ Text.isDecimal e = true
  · obtain ⟨e, r, r', rfl, rfl, he, h', hlater⟩ := first h hu
    obtain ⟨htake, hlater', -⟩ := run_alike (P := Text.isDecimal) (fun _ => isPlain_of_isDecimal)
      (fun _ _ _ hc hd => by simp [joins, hc, hd]) h' he
    simp only [withFraction, List.takeWhile_cons_of_pos he, List.dropWhile_cons_of_pos he, htake,
      reduceCtorEq, if_false]
    exact ⟨trivial, hlater.trans hlater'⟩
  · have hv : ¬ ∃ e r, v = '.' :: e :: r ∧ Text.isDecimal e = true := by
      intro hv
      obtain ⟨e, r, r', -, rfl, he, -⟩ := first h.symm hv
      exact hu ⟨e, r', rfl, he⟩
    rw [point hu, point hv]
    exact ⟨rfl, .refl⟩

/-- **A number** at the start of a piece. -/
theorem scanNumber_alike (h : Alike (some c) s t) :
    Matched s t (scanNumber (c :: s)) (scanNumber (c :: t)) := by
  rw [scanNumber_eq_withFraction, scanNumber_eq_withFraction]
  by_cases hc : Text.isDecimal c = true
  · rw [List.takeWhile_cons_of_pos hc, List.takeWhile_cons_of_pos hc, List.dropWhile_cons_of_pos hc,
      List.dropWhile_cons_of_pos hc]
    obtain ⟨htake, hlater, d, hd, h'⟩ := run_alike (P := Text.isDecimal) (fun _ => isPlain_of_isDecimal)
      (fun _ _ _ hc hd => by simp [joins, hc, hd]) h hc
    obtain ⟨hfound, hlater'⟩ := withFraction_alike (w := c :: t.takeWhile Text.isDecimal) hd h'
    rw [htake, if_neg (List.cons_ne_nil _ _), if_neg (List.cons_ne_nil _ _)]
    exact .some ⟨hfound, hlater.trans hlater'⟩
  · rw [List.takeWhile_cons_of_neg hc, List.takeWhile_cons_of_neg hc, if_pos rfl, if_pos rfl]
    exact .none

/-! ## Tokens -/

/-- Whether a terminal is a token that starts no gap: marks are plain, quotes are quotes. -/
def Terminal.isToken : Terminal → Bool
  | .mark c => isPlain c
  | .quoted q => q == '\'' || q == '"'
  | _ => true

theorem scan_eq_none {τ : Terminal} (h : τ.starts c = false) (s : Text) : τ.scan (c :: s) = none := by
  cases hs : τ.scan (c :: s) with
  | none => rfl
  | some x => cases (starts_of_scan hs).symm.trans h

section Pieces

variable {τ : Terminal} (hτ : τ.isToken = true)

/-- Where no terminal starts none is found in either text. -/
theorem scan_alike_of_starts (hc : τ.starts c = false) :
    Matched s t (τ.scan (c :: v ++ s)) (τ.scan (c :: v ++ t)) := by
  rw [List.cons_append, List.cons_append, scan_eq_none hc, scan_eq_none hc]
  exact .none

include hτ

/-- A terminal at a character that begins no quotes. -/
theorem scan_alike_char (hc : c ∉ openings) (h : Alike (some c) s t) :
    Matched s t (τ.scan (c :: s)) (τ.scan (c :: t)) := by
  have hne : ∀ o ∈ openings, (c == o) = false := fun o ho => beq_eq_false_iff_ne.mpr fun e => hc (e ▸ ho)
  have other (hc : τ.starts c = false) : Matched s t (τ.scan (c :: s)) (τ.scan (c :: t)) :=
    scan_alike_of_starts (v := []) hc
  cases τ with
  | importWord => exact oneOf_alike (by decide) h
  | mark d => exact oneOf_alike (by simp) h
  | quoted q =>
    have hq : q = '\'' ∨ q = '"' := by simpa [Terminal.isToken] using hτ
    exact other (hne q (by rcases hq with rfl | rfl <;> decide))
  | plainTemplate => exact other (hne _ (by decide))
  | templateHead => exact other (hne _ (by decide))
  | templateMiddle => exact other (hne _ (by decide))
  | templateTail => exact other (hne _ (by decide))
  | number => exact scanNumber_alike h
  | name => exact scanName_alike h
  | logical => exact oneOf_alike (by decide) h
  | relational => exact oneOf_alike (by decide) h
  | additive => exact oneOf_alike (by decide) h
  | multiplicative => exact oneOf_alike (by decide) h
  | unary => exact oneOf_alike (by decide) h

/-- A terminal at a string. -/
theorem scan_alike_string {q : Char} {x body : Text} (hq : q = '\'' ∨ q = '"')
    (hb : quotedBody q x = some (body, [])) : Matched s t (τ.scan (q :: x ++ s)) (τ.scan (q :: x ++ t)) := by
  by_cases hstarts : τ.starts q = false
  · exact scan_alike_of_starts hstarts
  have hquote : τ = .quoted q := by
    cases τ with
    | mark d =>
      obtain rfl : q = d := by simpa [Terminal.starts] using hstarts
      exact absurd hτ (by rcases hq with rfl | rfl <;> decide)
    | quoted d =>
      have e : q = d := by simpa [Terminal.starts] using hstarts
      rw [e]
    | _ => exact absurd (by rcases hq with rfl | rfl <;> decide) hstarts
  have hscan (k : Text) : τ.scan (q :: x ++ k) = some (body, k) := by
    rw [hquote, List.cons_append, Terminal.scan, if_pos rfl]
    exact quotedBody_rest hq hb k
  rw [hscan, hscan]
  exact .some ⟨rfl, .refl⟩

/-- A terminal at a part of a template. -/
theorem scan_alike_template {o : Char} {x body : Text} {opens : Bool} (ho : o = '`' ∨ o = '\x7d')
    (hb : templateBody x = some (body, opens, [])) :
    Matched s t (τ.scan (o :: x ++ s)) (τ.scan (o :: x ++ t)) := by
  have part (o' : Char) (opens' : Bool) : Matched s t (templatePart o' opens' (o :: x ++ s))
      (templatePart o' opens' (o :: x ++ t)) := by
    rw [List.cons_append, List.cons_append, templatePart, templatePart, templateBody_rest hb,
      templateBody_rest hb]
    dsimp only
    split
    · split
      · exact .some ⟨rfl, .refl⟩
      · exact .none
    · exact .none
  have other {d : Char} (hd : d ≠ '`' ∧ d ≠ '\x7d') : (o == d) = false := by
    rcases ho with rfl | rfl
    exacts [beq_eq_false_iff_ne.mpr hd.1.symm, beq_eq_false_iff_ne.mpr hd.2.symm]
  cases τ with
  | mark d => exact scan_alike_of_starts (other (by constructor <;> rintro rfl <;> exact absurd hτ (by decide)))
  | quoted d => exact scan_alike_of_starts (other (by constructor <;> rintro rfl <;> exact absurd hτ (by decide)))
  | plainTemplate => exact part _ _
  | templateHead => exact part _ _
  | templateMiddle => exact part _ _
  | templateTail => exact part _ _
  | _ => exact scan_alike_of_starts (by rcases ho with rfl | rfl <;> decide)

/-- **A terminal at the start of a piece** finds the same in both texts, and what is left goes together. -/
theorem scan_alike (hw : Piece w) (h : Alike w.getLast? s t) :
    Matched s t (τ.scan (w ++ s)) (τ.scan (w ++ t)) := by
  cases hw with
  | char hc => exact scan_alike_char hτ hc h
  | string hq hb => exact scan_alike_string hτ hq hb
  | template ho hb => exact scan_alike_template hτ ho hb

end Pieces

end VariableImport.Script
