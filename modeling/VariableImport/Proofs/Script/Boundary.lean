import VariableImport.Proofs.Script.Solid

/-!
# Proofs/Script/Boundary — a token ends at a boundary whatever follows

A text ends at a `Boundary` if what follows starts with a blank, a comma, a closing parenthesis or a
closing brace.
Such a context decides nothing about the tokens before it: a scan that ends in front of it finds
there what it finds without it (`scan_append`).
-/

namespace VariableImport.Script

variable {α β : Type}

/-! ## Results in a context -/

/-- Whether a result leaves the context whole. -/
def leaves (k : Text) (x : α × Text) : Bool := k.length ≤ x.2.length

/-- A result with the context behind what it leaves. -/
def before (k : Text) (x : α × Text) : α × Text := (x.1, x.2 ++ k)

@[simp] theorem leaves_before (k : Text) (x : α × Text) : leaves k (before k x) = true := by
  simp [leaves, before]

/-- Whether a context cannot go on with a token. -/
def Boundary (k : Text) : Prop := ∀ c ∈ k.head?, isGapBlank c = true ∨ c = ',' ∨ c = ')' ∨ c = '\x7d'

/-- The characters that contexts start with. -/
def boundaries : List Char := [' ', '\t', '\x0c', '\r', '\n', ',', ')', '\x7d']

variable {k : Text}

theorem Boundary.mem (hk : Boundary k) {c : Char} (hc : c ∈ k.head?) : c ∈ boundaries := by
  rcases hk c hc with h | rfl | rfl | rfl
  · simp only [isGapBlank, Bool.or_eq_true, beq_iff_eq] at h
    rcases h with (((rfl | rfl) | rfl) | rfl) | rfl
    all_goals decide
  · decide
  · decide
  · decide

/-- Whether a class of characters is without those of boundaries. -/
def boundaryFree (p : Char → Bool) : Bool := boundaries.all fun c => !p c

theorem Boundary.not_of_mem (hk : Boundary k) {p : Char → Bool} (hp : boundaryFree p = true)
    {c : Char} (hc : c ∈ k.head?) : p c = false := by
  simpa using List.all_eq_true.mp hp c (hk.mem hc)

/-- A class of characters without those of boundaries ends where the context starts. -/
theorem takeWhile_boundary (hk : Boundary k) {p : Char → Bool} (hp : boundaryFree p = true)
    (u : Text) : (u ++ k).takeWhile p = u.takeWhile p ∧ (u ++ k).dropWhile p = u.dropWhile p ++ k := by
  induction u with
  | nil =>
    cases k with
    | nil => exact ⟨rfl, rfl⟩
    | cons c k =>
      have hc : p c = false := hk.not_of_mem hp rfl
      simp [hc]
  | cons c u ih =>
    by_cases hc : p c = true
    · simp [hc, ih.1, ih.2]
    · simp [hc]

/-! ## Words -/

/-- Whether no character of a boundary stands in a word. -/
def unbroken (w : Text) : Bool := w.all (· ∉ boundaries)

/-- A word without characters of boundaries stands before the context or not at all. -/
theorem isPrefixOf?_append (hk : Boundary k) {w : Text} (hw : unbroken w = true) (u : Text) :
    w.isPrefixOf? (u ++ k) = (w.isPrefixOf? u).map (· ++ k) := by
  induction w generalizing u with
  | nil => simp
  | cons c w ih =>
    obtain ⟨hc, hrest⟩ : c ∉ boundaries ∧ unbroken w = true := by simpa [unbroken] using hw
    cases u with
    | nil =>
      cases k with
      | nil => rfl
      | cons d k =>
        have hd : c ≠ d := fun e => hc (e ▸ hk.mem rfl)
        simp [hd]
    | cons d u =>
      rw [List.cons_append, Text.cons_isPrefixOf?_cons, Text.cons_isPrefixOf?_cons, ih hrest]
      split <;> rfl

theorem oneOf_append (hk : Boundary k) {words : List Text} (hw : ∀ w ∈ words, unbroken w = true)
    (u : Text) : oneOf words (u ++ k) = (oneOf words u).map (before k) := by
  unfold oneOf
  induction words with
  | nil => rfl
  | cons w words ih =>
    rw [List.findSome?_cons, List.findSome?_cons, isPrefixOf?_append hk (hw w (List.mem_cons_self ..)),
      ih fun v hv => hw v (List.mem_cons_of_mem _ hv)]
    cases w.isPrefixOf? u <;> rfl

/-- What holds of whole results holds of those that leave the context. -/
theorem filter_of_eq {x y : Option (α × Text)} (h : x = y.map (before k)) :
    x.filter (leaves k) = y.map (before k) := by
  subst h
  cases y with
  | none => rfl
  | some y => simp

/-- **What the text of a token alone decides** is found in front of any context. -/
theorem filter_append_of_iff {f : Text → Option (α × Text)} {P : α → Prop} {text : α → Text}
    (h : ∀ s a t, f s = some (a, t) ↔ P a ∧ s = text a ++ t) (u : Text) :
    (f (u ++ k)).filter (leaves k) = (f u).map (before k) := by
  refine Option.ext fun ⟨a, t⟩ => ?_
  rw [Option.filter_eq_some_iff, Option.map_eq_some_iff]
  constructor
  · rintro ⟨hf, hleaves⟩
    obtain ⟨ha, e⟩ := (h _ _ _).mp hf
    obtain ⟨v, rfl⟩ : k <:+ t := List.suffix_of_suffix_length_le (List.suffix_append u k)
      (e ▸ List.suffix_append (text a) t) (of_decide_eq_true hleaves)
    have hu : u = text a ++ v := List.append_cancel_right (e.trans (List.append_assoc ..).symm)
    exact ⟨(a, v), (h _ _ _).mpr ⟨ha, hu⟩, rfl⟩
  · rintro ⟨⟨b, v⟩, hf, e⟩
    obtain ⟨rfl, rfl⟩ : b = a ∧ v ++ k = t := Prod.mk.inj e
    obtain ⟨hb, rfl⟩ := (h _ _ _).mp hf
    exact ⟨(h _ _ _).mpr ⟨hb, List.append_assoc ..⟩, by simp [leaves]⟩

theorem oneOf_mark_eq_some_iff (c : Char) (s a t : Text) :
    oneOf [[c]] s = some (a, t) ↔ a = [c] ∧ s = a ++ t := by
  constructor
  · intro h
    obtain ⟨ha, e⟩ := oneOf_eq h
    exact ⟨List.mem_singleton.mp ha, e⟩
  · rintro ⟨rfl, rfl⟩
    simp [oneOf]

/-! ## Numbers and names -/

theorem scanNumber_append (hk : Boundary k) (u : Text) :
    scanNumber (u ++ k) = (scanNumber u).map (before k) := by
  have hdecimal : boundaryFree Text.isDecimal = true := by decide
  have hdot : ∀ v, k ≠ '.' :: v := by
    rintro v rfl
    exact absurd (hk.mem rfl) (by decide)
  obtain ⟨htake, hdrop⟩ := takeWhile_boundary hk hdecimal u
  unfold scanNumber
  dsimp only
  rw [htake, hdrop]
  split
  · rfl
  · cases hu : u.dropWhile Text.isDecimal with
    | nil =>
      rw [List.nil_append]
      split
      · next v => exact absurd rfl (hdot v)
      · rfl
    | cons c v =>
      rw [List.cons_append]
      by_cases hc : c = '.'
      · obtain ⟨htake, hdrop⟩ := takeWhile_boundary hk hdecimal v
        subst hc
        simp only [htake, hdrop]
        split <;> rfl
      · split
        · next e => exact absurd (List.cons.inj e).1 hc
        · split
          · next e => exact absurd (List.cons.inj e).1 hc
          · rfl

theorem startsReserved_append (hk : Boundary k) (u : Text) :
    startsReserved (u ++ k) = startsReserved u := by
  have hwords : ∀ w ∈ reservedWords, unbroken w = true := by decide
  have hword : boundaryFree Text.isWord = true := by decide
  unfold startsReserved
  rw [Bool.eq_iff_iff, List.any_eq_true, List.any_eq_true]
  refine exists_congr fun w => and_congr_right fun hw => ?_
  rw [isPrefixOf?_append hk (hwords w hw)]
  cases w.isPrefixOf? u with
  | none => rfl
  | some v =>
    cases v with
    | nil =>
      cases k with
      | nil => rfl
      | cons c k => simp [hk.not_of_mem hword rfl]
    | cons c v => rfl

theorem scanName_append (hk : Boundary k) (u : Text) :
    scanName (u ++ k) = (scanName u).map (before k) := by
  cases u with
  | nil =>
    cases k with
    | nil => rfl
    | cons c k =>
      have hstart : boundaryFree startsName = true := by decide
      simp [scanName, hk.not_of_mem hstart rfl]
  | cons c u =>
    have hname : boundaryFree inName = true := by decide
    obtain ⟨htake, hdrop⟩ := takeWhile_boundary hk hname u
    unfold scanName
    rw [List.cons_append]
    dsimp only
    rw [← List.cons_append, startsReserved_append hk, htake, hdrop]
    split <;> rfl

/-! ## Quotes -/

theorem scan_quoted_eq_some_iff {q : Char} (hq : q ≠ '\\') (s a t : Text) :
    (Terminal.quoted q).scan s = some (a, t) ↔ IsQuoted q a ∧ s = q :: (a ++ [q]) ++ t := by
  cases s with
  | nil => simp [Terminal.scan]
  | cons c s =>
    by_cases hc : c = q
    · simp [Terminal.scan, hc, quotedBody_eq_some_iff hq]
    · simp [Terminal.scan, hc]

theorem templatePart_eq_some_iff (opening : Char) (opens : Bool) (s a t : Text) :
    templatePart opening opens s = some (a, t) ↔ IsRaw a ∧ s = opening :: (a ++ closing opens) ++ t := by
  constructor
  · intro h
    obtain ⟨u, rfl, hu⟩ := templatePart_eq h
    obtain ⟨ha, rfl⟩ := isRaw_of_templateBody hu
    exact ⟨ha, by simp⟩
  · rintro ⟨ha, rfl⟩
    have hbody : templateBody (a ++ (closing opens ++ t)) = some (a, opens, t) :=
      templateBody_eq_some_iff.mpr ⟨ha, rfl⟩
    simp [templatePart, hbody]

/-! ## Tokens -/

/-- **A context decides nothing about a token in front of it.** -/
theorem scan_append (hk : Boundary k) {m m' : Mode} {τ : Terminal} (hf : m.follow τ = some m')
    (u : Text) : (τ.scan (u ++ k)).filter (leaves k) = (τ.scan u).map (before k) := by
  cases τ with
  | importWord | logical | relational | additive | multiplicative | unary =>
    exact filter_of_eq (oneOf_append hk (by decide) u)
  | mark c => exact filter_append_of_iff (oneOf_mark_eq_some_iff c) u
  | quoted q =>
    have hq : q ≠ '\\' := by rcases (Mode.follows_of_follow hf).isQuote with rfl | rfl <;> decide
    exact filter_append_of_iff (scan_quoted_eq_some_iff hq) u
  | plainTemplate | templateHead | templateMiddle | templateTail =>
    exact filter_append_of_iff (templatePart_eq_some_iff _ _) u
  | number => exact filter_of_eq (scanNumber_append hk u)
  | name => exact filter_of_eq (scanName_append hk u)

/-- A token is found in front of a context as well. -/
theorem scan_of_scan (hk : Boundary k) {m m' : Mode} {τ : Terminal} (hf : m.follow τ = some m')
    {u a t : Text} (h : τ.scan u = some (a, t)) : τ.scan (u ++ k) = some (a, t ++ k) := by
  have := scan_append hk hf u
  rw [h, Option.map_some, Option.filter_eq_some_iff] at this
  exact this.1

/-- **What a text spells it spells in front of a context.** -/
theorem Spells.append (hk : Boundary k) {m m' : Mode} {ws : List Terminal} {s r : Text}
    (hf : m.followAll ws = some m') (h : Spells BlankGap ws s r) :
    Spells BlankGap ws (s ++ k) (r ++ k) := by
  induction h generalizing m with
  | nil => exact .nil _
  | cons hgap hscan _ ih =>
    obtain ⟨m₁, hτ, hws⟩ := Mode.exists_follow hf
    obtain ⟨g, hg, rfl⟩ := hgap
    exact .cons ⟨g, hg, List.append_assoc ..⟩ (scan_of_scan hk hτ hscan) (ih hws)

/-- A token that leaves the context whole is found without it. -/
theorem scan_of_append (hk : Boundary k) {m m' : Mode} {τ : Terminal} (hf : m.follow τ = some m')
    {u a t : Text} (h : τ.scan (u ++ k) = some (a, t ++ k)) : τ.scan u = some (a, t) := by
  have hleaves : leaves k (a, t ++ k) = true := leaves_before k (a, t)
  have := scan_append hk hf u
  rw [h, Option.filter_some_pos hleaves] at this
  obtain ⟨⟨b, v⟩, hb, e⟩ := Option.map_eq_some_iff.mp this.symm
  obtain ⟨ha, hv⟩ : b = a ∧ v ++ k = t ++ k := Prod.mk.inj e
  rw [hb, ha, List.append_cancel_right hv]

/-- **What a text spells in front of a context it spells without it.** -/
theorem Spells.of_append (hk : Boundary k) {m m' : Mode} {ws : List Terminal} {s r u t : Text}
    (hf : m.followAll ws = some m') (h : Spells BlankGap ws s r) (hs : s = u ++ k) (hr : r = t ++ k) :
    Spells BlankGap ws u t := by
  have hkr : k <:+ r := hr ▸ List.suffix_append t k
  induction h generalizing m u with
  | nil => exact spells_nil.mpr (List.append_cancel_right (hr.symm.trans hs))
  | @cons τ ws s v a t' r hgap hscan h ih =>
    obtain ⟨m₁, hτ, hws⟩ := Mode.exists_follow hf
    obtain ⟨g, hg, rfl⟩ := hgap
    obtain ⟨w, -, rfl⟩ := exists_of_scan hscan
    obtain ⟨x, rfl⟩ := hkr.trans (h.suffix BlankGap.suffix)
    have hu : u = g ++ (w ++ x) := List.append_cancel_right (hs.symm.trans (by simp))
    have hscan' : τ.scan ((w ++ x) ++ k) = some (a, x ++ k) := by rwa [List.append_assoc]
    exact .cons ⟨g, hg, hu⟩ (scan_of_append hk hτ hscan') (ih hws rfl hr hkr)

end VariableImport.Script
