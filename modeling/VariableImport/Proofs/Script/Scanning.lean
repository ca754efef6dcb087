import VariableImport.Proofs.Script.Solid
import VariableImport.Script.ImportCall

/-!
# Proofs/Script/Scanning — the scan of characters over a part of a text

`Scan.Runs` is the scan of `firstArgument` over a part of a text in which no comma, closing parenthesis
or closing brace stands outside, and no comment begins in code.  Characters that are no marks are passed over,
and so is what stands between quotes or in a template.
-/

namespace VariableImport.Script

/-! ## Scanning -/

/-- Whether a text begins with a comment. -/
def startsComment : Text → Bool
  | '/' :: c :: _ => c == '/' || c == '*'
  | _ => false

/-- A scan outside of quotes. -/
abbrev Scan.inCode (S : List Char) : Scan := { stack := S }

/-- **A scan goes over a part of a text** that holds neither a comma nor a closing parenthesis or brace
outside of quotes and brackets, nor the start of a comment outside of quotes. -/
inductive Scan.Runs : Scan → Text → Scan → Text → Prop
  | refl (σ : Scan) (s : Text) : Runs σ s σ s
  | step {σ σ' : Scan} {c : Char} {s s' : Text}
      (houtside : σ.isOutside = true → c ≠ ',' ∧ c ≠ ')' ∧ c ≠ '\x7d')
      (hcomment : σ.pass = false → σ.quote = none → startsComment (c :: s) = false)
      (h : Runs (σ.step c s.head?) s σ' s') : Runs σ (c :: s) σ' s'

/-- **Whether no comment begins in code** as a text is scanned. -/
def Clean : Scan → Text → Prop
  | _, [] => True
  | σ, c :: s => (σ.pass = false → σ.quote = none → startsComment (c :: s) = false) ∧
      Clean (σ.step c s.head?) s

instance decidableClean : (σ : Scan) → (s : Text) → Decidable (Clean σ s)
  | _, [] => isTrue trivial
  | σ, c :: s =>
    have := decidableClean (σ.step c s.head?) s
    inferInstanceAs (Decidable (_ ∧ _))

namespace Scan

variable {σ σ₁ σ₂ : Scan} {s s₁ s₂ : Text}

theorem Runs.trans (h₁ : Runs σ s σ₁ s₁) (h₂ : Runs σ₁ s₁ σ₂ s₂) : Runs σ s σ₂ s₂ := by
  induction h₁ with
  | refl => exact h₂
  | step houtside hcomment _ ih => exact .step houtside hcomment (ih h₂)

theorem Runs.suffix (h : Runs σ s σ₁ s₁) : s₁ <:+ s := by
  induction h with
  | refl => exact List.suffix_rfl
  | step _ _ _ ih => exact ih.trans (List.suffix_cons _ _)

/-- The first character that is run over. -/
theorem Runs.exists_cons (h : Runs σ s σ₁ s₁) (hlt : s₁.length < s.length) :
    ∃ c u, s = c :: u ∧ (σ.isOutside = true → c ≠ ',' ∧ c ≠ ')' ∧ c ≠ '\x7d') ∧
      (σ.pass = false → σ.quote = none → startsComment (c :: u) = false) := by
  cases h with
  | refl => exact absurd hlt (Nat.lt_irrefl _)
  | step houtside hcomment _ => exact ⟨_, _, rfl, houtside, hcomment⟩

/-- **A scan goes on from where it went**: of two runs the longer one goes on from the shorter. -/
theorem Runs.of_suffix (h₁ : Runs σ s σ₁ s₁) (h₂ : Runs σ s σ₂ s₂) (hs : s₂.length ≤ s₁.length) :
    Runs σ₁ s₁ σ₂ s₂ := by
  induction h₁ with
  | refl => exact h₂
  | step _ _ h₁ ih =>
    cases h₂ with
    | refl =>
      have := h₁.suffix.length_le
      simp only [List.length_cons] at hs
      omega
    | step _ _ h₂ => exact ih h₂ hs

/-- What is run over belongs to the first argument. -/
theorem Runs.firstArgument (h : Runs σ s σ₁ s₁) :
    ∃ w, s = w ++ s₁ ∧ firstArgument σ s = w ++ Script.firstArgument σ₁ s₁ := by
  induction h with
  | refl σ s => exact ⟨[], rfl, rfl⟩
  | @step σ σ' c s s' houtside _ _ ih =>
    obtain ⟨w, hw, e⟩ := ih
    have hcomma : ¬ (σ.isOutside = true ∧ c = ',') := fun h => (houtside h.1).1 h.2
    refine ⟨c :: w, by rw [hw]; rfl, ?_⟩
    rw [Script.firstArgument, if_neg hcomma, e]
    rfl

theorem Runs.clean (h : Runs σ s σ₁ s₁) : Clean σ s ↔ Clean σ₁ s₁ := by
  induction h with
  | refl => rfl
  | step _ hcomment _ ih => exact ⟨fun hc => ih.mp hc.2, fun hc => ⟨hcomment, ih.mpr hc⟩⟩

/-! ## Characters -/

/-- Whether marks are ones that may be to come. -/
def IsStack (S : List Char) : Prop := ∀ d ∈ S, d = ')' ∨ d = ']' ∨ d = '`'

/-- The characters that a scan does not pass over. -/
def marks : List Char := ['\'', '"', '`', '(', '[', '\x7b', ')', ']', '\x7d', ',']

theorem closer?_eq_none {c : Char} (hc : c ∉ marks) : closer? c = none := by
  unfold closer?
  split
  all_goals first | exact absurd (by decide) hc | rfl

/-- Other characters leave a scan of code as it is. -/
theorem step_plain {S : List Char} (hS : IsStack S) {c : Char} (hc : c ∉ marks)
    (next : Option Char) : (inCode S).step c next = inCode S := by
  have hquote : ¬ (c = '\'' ∨ c = '"' ∨ c = '`') := by
    rintro (rfl | rfl | rfl) <;> exact hc (by decide)
  show (inCode S).code c = inCode S
  unfold code
  rw [if_neg hquote, closer?_eq_none hc]
  cases S with
  | nil => rfl
  | cons top rest =>
    have hbrace : ¬ (c = '\x7d' ∧ top = '`') := fun h => hc (h.1 ▸ by decide)
    have htop : c ≠ top := by
      rintro rfl
      rcases hS c (List.mem_cons_self ..) with rfl | rfl | rfl <;> exact hc (by decide)
    show (if c = '\x7d' ∧ top = '`' then _ else if c = top then _ else _) = _
    rw [if_neg hbrace, if_neg htop]

theorem outside_plain {S : List Char} {c : Char} (hc : c ∉ marks) :
    (inCode S).isOutside = true → c ≠ ',' ∧ c ≠ ')' ∧ c ≠ '\x7d' := by
  refine fun _ => ⟨?_, ?_, ?_⟩
  all_goals
    rintro rfl
    exact hc (by decide)

/-- A scan passes over a character of code. -/
theorem runs_char {S : List Char} (hS : IsStack S) {c : Char} {t : Text} (hc : c ∉ marks)
    (hcomment : startsComment (c :: t) = false) : Runs (inCode S) (c :: t) (inCode S) t := by
  refine .step (outside_plain hc) (fun _ _ => hcomment) ?_
  rw [step_plain hS hc]
  exact .refl _ _

theorem startsComment_of_ne {c : Char} (hc : c ≠ '/') (t : Text) : startsComment (c :: t) = false := by
  unfold startsComment
  split
  · next e => exact absurd (List.cons.inj e).1 hc
  · rfl

/-- A scan passes over characters of code. -/
theorem runs_chars {S : List Char} (hS : IsStack S) {w : Text} (hw : ∀ c ∈ w, c ∉ marks ∧ c ≠ '/')
    (t : Text) : Runs (inCode S) (w ++ t) (inCode S) t := by
  induction w with
  | nil => exact .refl _ _
  | cons c w ih =>
    obtain ⟨hc, hslash⟩ := hw c (List.mem_cons_self ..)
    exact (runs_char hS hc (startsComment_of_ne hslash _)).trans
      (ih fun d hd => hw d (List.mem_cons_of_mem _ hd))

/-- A scan passes over blanks. -/
theorem runs_blanks {S : List Char} (hS : IsStack S) {g : Text} (hg : Blanks g) (t : Text) :
    Runs (inCode S) (g ++ t) (inCode S) t := by
  refine runs_chars hS (fun c hc => ?_) t
  have hb := hg c hc
  refine ⟨fun hm => ?_, ?_⟩
  · have hall : (marks.all fun d => !isGapBlank d) = true := by decide
    have := List.all_eq_true.mp hall c hm
    simp [hb] at this
  · rintro rfl
    exact absurd hb (by decide)

/-! ## Quotes -/

/-- A scan enters quotes. -/
theorem runs_quote {S : List Char} {q : Char} (hq : q = '\'' ∨ q = '"' ∨ q = '`') (t : Text) :
    Runs (inCode S) (q :: t) { stack := S, quote := some q } t := by
  refine .step (fun _ => ?_) (fun _ _ => startsComment_of_ne ?_ t) ?_
  · rcases hq with rfl | rfl | rfl <;> decide
  · rcases hq with rfl | rfl | rfl <;> decide
  · have : (inCode S).step q t.head? = { stack := S, quote := some q } := by
      show (inCode S).code q = _
      unfold code
      rw [if_pos hq]
    rw [this]
    exact .refl _ _

/-- A scan in quotes goes on with any character. -/
theorem Runs.quoted {S : List Char} {q c : Char} {b : Bool} {s : Text}
    (h : Runs (Scan.step { stack := S, quote := some q, pass := b } c s.head?) s σ₁ s₁) :
    Runs { stack := S, quote := some q, pass := b } (c :: s) σ₁ s₁ := by
  refine .step (fun ho => ?_) (fun _ hn => ?_) h
  · simp [isOutside] at ho
  · simp at hn

/-- An escape in quotes. -/
theorem Runs.escape {S : List Char} {q c : Char} {s : Text}
    (h : Runs { stack := S, quote := some q } s σ₁ s₁) :
    Runs { stack := S, quote := some q } ('\\' :: c :: s) σ₁ s₁ :=
  .quoted (.quoted h)

/-- **The scan over a string** ends with its quote. -/
theorem runs_quotedBody {S : List Char} {q : Char} (hq : q = '\'' ∨ q = '"') {s body rest : Text}
    (h : quotedBody q s = some (body, rest)) :
    Runs { stack := S, quote := some q } s (inCode S) rest := by
  have hback : q ≠ '\\' := by rcases hq with rfl | rfl <;> decide
  have hbacktick : q ≠ '`' := by rcases hq with rfl | rfl <;> decide
  obtain ⟨hbody, rfl⟩ := isQuoted_of_quotedBody h
  clear h
  induction hbody with
  | nil =>
    have : Scan.step { stack := S, quote := some q } q rest.head? = inCode S := by
      show text _ q q _ = _
      rw [text, if_neg hback, if_pos rfl]
    exact .quoted (this ▸ .refl _ _)
  | escape c _ ih => exact ih.escape
  | @char c body hback hend _ _ ih =>
    have : Scan.step { stack := S, quote := some q } c (body ++ q :: rest).head? =
        { stack := S, quote := some q } := by
      show text _ q c _ = _
      rw [text, if_neg hback, if_neg hend, if_neg fun h => hbacktick h.1]
    refine .quoted ?_
    show Runs (Scan.step _ c (body ++ q :: rest).head?) _ _ _
    rw [this]
    exact ih

/-- **The scan over a part of a template** ends outside of quotes, in an expression if one opens. -/
theorem runs_templateBody {S : List Char} {s body rest : Text} {opens : Bool}
    (h : templateBody s = some (body, opens, rest)) :
    Runs { stack := S, quote := some '`' } s (inCode (if opens then '`' :: S else S)) rest := by
  obtain ⟨hbody, rfl⟩ := isRaw_of_templateBody h
  clear h
  induction hbody with
  | nil =>
    cases opens with
    | false => exact .quoted (.refl _ _)
    | true =>
      refine .quoted (.step (fun ho => ?_) (fun hp => ?_) (.refl _ _))
      · simp [Scan.step, text, isOutside] at ho
      · simp [Scan.step, text] at hp
  | escape c _ ih => exact ih.escape
  | @char c body hback hend hopen _ ih =>
    have hnext : ¬ ('`' = '`' ∧ c = '$' ∧ (body ++ (closing opens ++ rest)).head? = some '\x7b') :=
      fun h => head?_append_closing (hopen h.2.1) opens rest h.2.2
    have : Scan.step { stack := S, quote := some '`' } c (body ++ (closing opens ++ rest)).head? =
        { stack := S, quote := some '`' } := by
      show text _ '`' c _ = _
      rw [text, if_neg hback, if_neg hend, if_neg hnext]
    refine .quoted ?_
    show Runs (Scan.step _ c (body ++ (closing opens ++ rest)).head?) _ _ _
    rw [this]
    exact ih

end Scan

end VariableImport.Script
