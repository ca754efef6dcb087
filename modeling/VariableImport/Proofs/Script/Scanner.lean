import VariableImport.Proofs.Script.Scanning

/-!
# Proofs/Script/Scanner — the scan of characters keeps in step with the terminals

Over a text that spells terminals the scan stands where the terminals lead: with blanks between them
(`runs_of_spells`), and with any gaps in a text that is `Clean` of comments (`runs_of_spells_clean`).
-/

namespace VariableImport.Script

namespace Scan

variable {s : Text}

/-! ## Tokens -/

/-- Characters with a property that no mark of a scan has are passed over. -/
theorem plain_of_pred {p : Char → Bool} (hp : (('/' :: marks).all fun d => !p d) = true) {c : Char}
    (hc : p c = true) : c ∉ marks ∧ c ≠ '/' := by
  have hne {d : Char} (hd : d ∈ '/' :: marks) : c ≠ d := by
    rintro rfl
    have := List.all_eq_true.mp hp c hd
    simp [hc] at this
  exact ⟨fun hm => hne (List.mem_cons_of_mem _ hm) rfl, hne (List.mem_cons_self ..)⟩

theorem runs_word {S : List Char} (hS : IsStack S) {words : List Text} {s a t : Text}
    (hwords : (words.all (·.all fun c => c ∉ marks ∧ c ≠ '/')) = true)
    (h : oneOf words s = some (a, t)) : Runs (inCode S) s (inCode S) t := by
  obtain ⟨ha, rfl⟩ := oneOf_eq h
  refine runs_chars hS (fun c hc => ?_) t
  exact of_decide_eq_true (List.all_eq_true.mp (List.all_eq_true.mp hwords a ha) c hc)

theorem runs_number {S : List Char} (hS : IsStack S) {s a t : Text}
    (h : scanNumber s = some (a, t)) : Runs (inCode S) s (inCode S) t := by
  have ha : ∀ c ∈ a, c ∉ marks ∧ c ≠ '/' := by
    intro c hc
    rcases digit_of_scanNumber h c hc with hc | rfl
    · exact plain_of_pred (by decide) hc
    · decide
  obtain ⟨-, rfl⟩ := scanNumber_eq h
  exact runs_chars hS ha t

theorem runs_name {S : List Char} (hS : IsStack S) {s a t : Text}
    (h : scanName s = some (a, t)) : Runs (inCode S) s (inCode S) t := by
  obtain ⟨c, u, rfl, hc, -, -, rfl⟩ := scanName_eq h
  have hw : ∀ d ∈ c :: u.takeWhile inName, d ∉ marks ∧ d ≠ '/' := by
    intro d hd
    rcases List.mem_cons.mp hd with rfl | hd
    · exact plain_of_pred (by decide) hc
    · exact plain_of_pred (by decide) (List.mem_takeWhile_imp hd)
  have := runs_chars hS hw (u.dropWhile inName)
  rwa [List.cons_append, List.takeWhile_append_dropWhile] at this

theorem mark_eq {c : Char} {s a t : Text} (h : oneOf [[c]] s = some (a, t)) : s = c :: t := by
  obtain ⟨ha, rfl⟩ := oneOf_eq h
  rw [List.mem_singleton.mp ha]
  rfl

/-- A mark that opens something. -/
theorem runs_open {S : List Char} {c d : Char} (hc : c = '(' ∧ d = ')' ∨ c = '[' ∧ d = ']')
    (t : Text) : Runs (inCode S) (c :: t) (inCode (d :: S)) t := by
  rcases hc with ⟨rfl, rfl⟩ | ⟨rfl, rfl⟩
  all_goals exact .step (fun _ => by decide) (fun _ _ => rfl) (.refl _ _)

/-- A mark that closes something. -/
theorem runs_close {S : List Char} {c : Char} (hc : c = ')' ∨ c = ']') (t : Text) :
    Runs (inCode (c :: S)) (c :: t) (inCode S) t := by
  rcases hc with rfl | rfl
  all_goals exact .step (fun ho => by simp [isOutside] at ho) (fun _ _ => rfl) (.refl _ _)

/-- A comma where marks are to come. -/
theorem runs_comma {S : List Char} (hS : IsStack S) (hne : S ≠ []) (t : Text) :
    Runs (inCode S) (',' :: t) (inCode S) t := by
  obtain ⟨top, rest, rfl⟩ := List.exists_cons_of_ne_nil hne
  rcases hS top (List.mem_cons_self ..) with rfl | rfl | rfl
  all_goals exact .step (fun ho => by simp [isOutside] at ho) (fun _ _ => rfl) (.refl _ _)

/-- A string. -/
theorem runs_string {S : List Char} {q : Char} (hq : q = '\'' ∨ q = '"') {s a t : Text}
    (h : (Terminal.quoted q).scan s = some (a, t)) : Runs (inCode S) s (inCode S) t := by
  cases s with
  | nil => simp [Terminal.scan] at h
  | cons c u =>
    obtain ⟨rfl, h⟩ := Option.ite_none_right_eq_some.mp h
    exact (runs_quote (hq.imp_right .inl) u).trans (runs_quotedBody hq h)

/-- A template up to its end or its first expression. -/
theorem runs_template {S : List Char} {opens : Bool} {s a t : Text}
    (h : templatePart '`' opens s = some (a, t)) :
    Runs (inCode S) s (inCode (if opens then '`' :: S else S)) t := by
  obtain ⟨u, rfl, hu⟩ := templatePart_eq h
  exact (runs_quote (.inr (.inr rfl)) u).trans (runs_templateBody hu)

/-- A template after an expression. -/
theorem runs_templateRest {S : List Char} {opens : Bool} {s a t : Text}
    (h : templatePart '\x7d' opens s = some (a, t)) :
    Runs (inCode ('`' :: S)) s (inCode (if opens then '`' :: S else S)) t := by
  obtain ⟨u, rfl, hu⟩ := templatePart_eq h
  exact .step (fun ho => by simp [isOutside] at ho) (fun _ _ => rfl) (runs_templateBody hu)

/-- An operator of products that begins no comment. -/
theorem runs_product {S : List Char} (hS : IsStack S) {s a t : Text}
    (h : oneOf multiplicativeWords s = some (a, t)) (hcomment : startsComment s = false) :
    Runs (inCode S) s (inCode S) t := by
  obtain ⟨ha, rfl⟩ := oneOf_eq h
  simp only [multiplicativeWords, List.mem_cons, List.not_mem_nil, or_false] at ha
  rcases ha with rfl | rfl | rfl
  all_goals exact runs_char hS (by decide) hcomment

/-- **The scan over a token** stands where its terminal leads. -/
theorem runs_of_scan {m m' : Mode} (hS : IsStack m.stack) {τ : Terminal} (hf : m.Follows τ m')
    {s a t : Text} (h : τ.scan s = some (a, t)) (hcomment : startsComment s = false) :
    Runs (inCode m.stack) s (inCode m'.stack) t := by
  cases hf with
  | opens hc => exact mark_eq h ▸ runs_open hc t
  | closes hc => exact mark_eq h ▸ runs_close hc t
  | comma hne => exact mark_eq h ▸ runs_comma hS hne t
  | between hc =>
    rw [mark_eq h]
    refine runs_char hS ?_ (startsComment_of_ne ?_ t)
    all_goals rcases hc with rfl | rfl | rfl <;> decide
  | quoted hq => exact runs_string hq h
  | templateHead => exact runs_template h
  | templateMiddle => exact runs_templateRest h
  | templateTail => exact runs_templateRest h
  | multiplicative => exact runs_product hS h hcomment
  | unary => exact runs_word hS (by decide) h
  | value hτ =>
    simp only [List.mem_cons, List.not_mem_nil, or_false] at hτ
    rcases hτ with rfl | rfl | rfl | rfl | rfl | rfl
    · exact runs_template h
    · exact runs_number hS h
    · exact runs_name hS h
    all_goals exact runs_word hS (by decide) h

/-! ## Spellings -/

variable {m m₁ m' : Mode} {τ : Terminal} {ws : List Terminal} {u a t r : Text}

theorem IsStack.cons {S : List Char} (hS : IsStack S) {d : Char} (hd : d = ')' ∨ d = ']' ∨ d = '`') :
    IsStack (d :: S) := by
  intro e he
  rcases List.mem_cons.mp he with rfl | he
  exacts [hd, hS e he]

theorem IsStack.tail {S : List Char} {d : Char} (hS : IsStack (d :: S)) : IsStack S :=
  fun e he => hS e (List.mem_cons_of_mem _ he)

theorem isStack_follow (hS : IsStack m.stack) (hf : m.Follows τ m') : IsStack m'.stack := by
  cases hf with
  | opens h => rcases h with ⟨-, rfl⟩ | ⟨-, rfl⟩ <;> exact hS.cons (by decide)
  | closes | templateTail => exact hS.tail
  | templateHead => exact hS.cons (by decide)
  | _ => exact hS

/-- Where a product waits for its operand no comment can be made of its operator. -/
theorem head_ne_of_operand (hop : m.operand = true) (hf : m.followAll ws = some m')
    (hop' : m'.operand = false) (h : Spells BlankGap ws t r) {c : Char} (hc : c ∈ t.head?) :
    ¬ (c = '/' ∨ c = '*') := by
  intro hslash
  cases h with
  | nil =>
    obtain rfl : m = m' := Option.some.inj hf
    rw [hop] at hop'
    simp at hop'
  | @cons τ ws _ u a t' _ hgap hscan h =>
    obtain ⟨g, hg, rfl⟩ := hgap
    cases g with
    | nil =>
      obtain ⟨v, rfl⟩ := List.head?_eq_some_iff.mp hc
      obtain ⟨m₁, hτ, -⟩ := Mode.exists_follow hf
      obtain rfl := multiplicative_of_scan hτ hscan hslash
      simp [Mode.follow, hop] at hτ
    | cons d g =>
      obtain rfl := Option.some.inj hc
      have := hg d (List.mem_cons_self ..)
      rcases hslash with rfl | rfl <;> exact absurd this (by decide)

/-- The operator of a product begins no comment. -/
theorem startsComment_of_scan (hτ : m.follow τ = some m₁) (hf : m₁.followAll ws = some m')
    (hop : m'.operand = false) (hscan : τ.scan s = some (a, t)) (h : Spells BlankGap ws t r) :
    startsComment s = false := by
  by_contra hs
  unfold startsComment at hs
  split at hs
  · next c v =>
    obtain rfl := multiplicative_of_scan hτ hscan (.inl rfl)
    obtain ⟨hmem, e⟩ := oneOf_eq hscan
    have ht : t = c :: v := by
      simp only [multiplicativeWords, List.mem_cons, List.not_mem_nil, or_false] at hmem
      rcases hmem with rfl | rfl | rfl <;> simp_all
    have hop₁ : m₁.operand = true := by
      simp only [Mode.follow] at hτ
      split at hτ
      · simp at hτ
      · rw [← Option.some.inj hτ]
    refine head_ne_of_operand hop₁ hf hop h (ht ▸ rfl : c ∈ t.head?) ?_
    simpa [or_iff_not_imp_left] using hs
  · simp at hs

/-- **The scan over a spelling** with blanks between its tokens stands where the terminals lead. -/
theorem runs_of_spells (hS : IsStack m.stack) (hf : m.followAll ws = some m')
    (hop : m'.operand = false) (h : Spells BlankGap ws s r) :
    Runs (inCode m.stack) s (inCode m'.stack) r := by
  induction h generalizing m with
  | nil =>
    obtain rfl : m = m' := Option.some.inj hf
    exact .refl _ _
  | cons hgap hscan h ih =>
    obtain ⟨m₁, hτ, hws⟩ := Mode.exists_follow hf
    obtain ⟨g, hg, rfl⟩ := hgap
    have hcomment := startsComment_of_scan hτ hws hop hscan h
    have hτ := Mode.follows_of_follow hτ
    exact (runs_blanks hS hg _).trans ((runs_of_scan hS hτ hscan hcomment).trans
      (ih (isStack_follow hS hτ) hws))

/-- Where no comment begins a gap is blanks. -/
theorem blankGap_of_placesWithin {S : List Char} (hS : IsStack S) {n : ℕ}
    (h : u ∈ placesWithin n s) (hc : Clean (inCode S) s) : BlankGap s u := by
  induction n generalizing s with
  | zero => exact ⟨[], fun _ h => absurd h List.not_mem_nil, (List.mem_singleton.mp h).symm⟩
  | succ n ih =>
    rw [placesWithin] at h
    rcases List.mem_cons.mp h with rfl | h
    · exact ⟨[], fun _ h => absurd h List.not_mem_nil, rfl⟩
    · split at h
      · next t ht =>
        unfold gap? at ht
        split at ht
        · exact absurd (hc.1 rfl rfl) (by simp [startsComment])
        · exact absurd (hc.1 rfl rfl) (by simp [startsComment])
        · next c v _ _ =>
          split at ht
          · next hb =>
            obtain rfl := Option.some.inj ht
            have hg : Blanks (c :: v.takeWhile isGapBlank) := by
              intro d hd
              rcases List.mem_cons.mp hd with rfl | hd
              exacts [hb, List.mem_takeWhile_imp hd]
            have e : c :: v = c :: v.takeWhile isGapBlank ++ v.dropWhile isGapBlank := by
              rw [List.cons_append, List.takeWhile_append_dropWhile]
            rw [e] at hc ⊢
            obtain ⟨g, hg', e'⟩ := ih h ((runs_blanks hS hg _).clean.mp hc)
            refine ⟨c :: v.takeWhile isGapBlank ++ g, fun d hd => ?_, by rw [e', List.append_assoc]⟩
            exact (List.mem_append.mp hd).elim (hg d) (hg' d)
          · simp at ht
        · simp at ht
      · simp at h

/-- **In a text clean of comments** any spelling has only blanks between its tokens, and the scan
stands where the terminals lead. -/
theorem runs_of_spells_clean (hS : IsStack m.stack) (hf : m.followAll ws = some m')
    (hc : Clean (inCode m.stack) s) (h : Spells Gap ws s r) :
    Spells BlankGap ws s r ∧ Runs (inCode m.stack) s (inCode m'.stack) r := by
  induction h generalizing m with
  | nil =>
    obtain rfl : m = m' := Option.some.inj hf
    exact ⟨.nil _, .refl _ _⟩
  | @cons τ ws s u a t r hgap hscan h ih =>
    obtain ⟨m₁, hτ, hws⟩ := Mode.exists_follow hf
    have hblank := blankGap_of_placesWithin hS hgap hc
    have hruns : Runs (inCode m.stack) s (inCode m.stack) u := by
      obtain ⟨g, hg, rfl⟩ := hblank
      exact runs_blanks hS hg u
    have hcu : Clean (inCode m.stack) u := hruns.clean.mp hc
    have hcomment : startsComment u = false := by
      cases u with
      | nil => rfl
      | cons c u => exact hcu.1 rfl rfl
    have hτ := Mode.follows_of_follow hτ
    have hscanned := runs_of_scan hS hτ hscan hcomment
    obtain ⟨hspells, hrest⟩ := ih (isStack_follow hS hτ) hws (hscanned.clean.mp hcu)
    exact ⟨.cons hblank hscan hspells, hruns.trans (hscanned.trans hrest)⟩

end Scan

end VariableImport.Script
