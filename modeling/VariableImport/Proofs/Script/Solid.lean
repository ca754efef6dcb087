import VariableImport.Proofs.Script.Balance
import VariableImport.Proofs.Text.Blank

/-!
# Proofs/Script/Solid — where tokens begin and end

No blank stands at either end of a token (`solid_of_scan`), so blanks before a token belong to the gap
and what spells an expression is solid (`Spells.solid`).  Only an operator of products begins like a
comment (`multiplicative_of_scan`).
-/

namespace VariableImport.Script

open Computability

variable {m m' : Mode} {τ : Terminal} {s a t : Text}

/-! ## Tokens -/

theorem isBlank_of_isGapBlank {c : Char} (h : isGapBlank c = true) : Text.isBlank c = true := by
  simp only [isGapBlank, Bool.or_eq_true, beq_iff_eq] at h
  rcases h with (((rfl | rfl) | rfl) | rfl) | rfl
  all_goals rfl

theorem isGapBlank_of_not_isBlank {c : Char} (h : Text.isBlank c = false) : isGapBlank c = false := by
  by_contra hb
  rw [isBlank_of_isGapBlank (Bool.not_eq_false _ ▸ hb)] at h
  simp at h

theorem Blanks.allBlank {g : Text} (hg : Blanks g) : Text.AllBlank g :=
  fun c hc => isBlank_of_isGapBlank (hg c hc)

/-- Characters of a class without blanks make solid texts. -/
theorem solid_of_class {p : Char → Bool} (hp : ∀ {c}, Text.isBlank c = true → p c = false) {c : Char}
    {w : Text} (hc : Text.isBlank c = false) (hw : ∀ d ∈ w, p d = true) : Text.Solid (c :: w) := by
  refine ⟨⟨c, rfl, hc⟩, ?_⟩
  rcases List.eq_nil_or_concat w with rfl | ⟨u, d, rfl⟩
  · exact ⟨c, rfl, hc⟩
  · exact ⟨d, by simp [List.getLast?_cons], Text.isBlank_of_class hp (hw d (by simp))⟩

/-- Text between two marks is solid. -/
theorem solid_between {c d : Char} (hc : Text.isBlank c = false) (hd : Text.isBlank d = false)
    (w : Text) : Text.Solid (c :: (w ++ [d])) :=
  ⟨⟨c, rfl, hc⟩, ⟨d, by simp [List.getLast?_cons], hd⟩⟩

theorem isBlank_of_startsName {c : Char} (h : startsName c = true) : Text.isBlank c = false :=
  Text.isBlank_of_class (Text.not_of_isBlank (by decide)) h

theorem inName_of_isBlank {c : Char} (h : Text.isBlank c = true) : inName c = false := by
  have hd : c ≠ '$' := by
    rintro rfl
    exact absurd h (by decide)
  simp [inName, Text.isWord_of_isBlank h, hd]

theorem solid_word (hf : m.Follows τ m') {w : Text} (hw : w ∈ τ.words) : Text.Solid w := by
  cases τ with
  | mark c =>
    obtain rfl := List.mem_singleton.mp hw
    exact (show ∀ w ∈ Mode.punctuation.map ([·]), Text.Solid w by decide) _
      (List.mem_map_of_mem hf.mem_punctuation)
  | quoted q => exact absurd hw List.not_mem_nil
  | _ => exact (show ∀ w ∈ _, Text.Solid w by decide) w hw

/-- **No blank stands at either end of a token.** -/
theorem solid_of_scan (hf : m.follow τ = some m') (h : τ.scan s = some (a, t)) :
    ∃ w, Text.Solid w ∧ s = w ++ t := by
  obtain ⟨w, hlexeme, hs⟩ := exists_lexeme_of_scan h
  have hf := Mode.follows_of_follow hf
  refine ⟨w, ?_, hs⟩
  cases hlexeme with
  | word hw => exact solid_word hf hw
  | @quoted q _ =>
    have hb : Text.isBlank q = false := by rcases hf.isQuote with rfl | rfl <;> decide
    exact solid_between hb hb a
  | @part _ o opens _ hτ =>
    have ho : Text.isBlank o = false := by
      cases τ <;> cases hτ <;> decide
    cases opens with
    | true =>
      have hlast : a ++ closing true = (a ++ ['$']) ++ ['\x7b'] := by simp [closing]
      exact hlast ▸ solid_between ho (by decide) _
    | false => exact solid_between ho (by decide) _
  | number hc hu =>
    have hp {c : Char} (hc : Text.isBlank c = true) : (Text.isDecimal c || c == '.') = false := by
      have hdot : c ≠ '.' := by
        rintro rfl
        exact absurd hc (by decide)
      simp [Text.isDecimal_of_isBlank hc, hdot]
    exact solid_of_class hp (Text.isBlank_of_class Text.isDecimal_of_isBlank hc) (by simpa using hu)
  | name hc hu => exact solid_of_class inName_of_isBlank (isBlank_of_startsName hc) hu

/-- A token starts at no blank. -/
theorem isBlank_of_scan {c : Char} (hf : m.follow τ = some m') (h : τ.scan (c :: s) = some (a, t)) :
    Text.isBlank c = false := by
  obtain ⟨w, hw, e⟩ := solid_of_scan hf h
  obtain ⟨d, u, rfl, hd⟩ := hw.exists_head
  rw [(List.cons.inj e).1]
  exact hd

/-- At a blank there is no token. -/
theorem scan_blank (hf : m.follow τ = some m') {b : Char} (hb : isGapBlank b = true) (s : Text) :
    τ.scan (b :: s) = none := by
  cases h : τ.scan (b :: s) with
  | none => rfl
  | some x =>
    have := isGapBlank_of_not_isBlank (isBlank_of_scan hf h)
    rw [hb] at this
    simp at this

/-- Whether one of some words starts with a character. -/
def startsOne (words : List Text) (c : Char) : Bool := words.any (·.head? == some c)

/-- Whether a token may start with a character. -/
def Terminal.starts (c : Char) : Terminal → Bool
  | .importWord => startsOne [importText] c
  | .mark d => c == d
  | .quoted quote => c == quote
  | .plainTemplate => c == '`'
  | .templateHead => c == '`'
  | .templateMiddle => c == '\x7d'
  | .templateTail => c == '\x7d'
  | .number => Text.isDecimal c
  | .name => startsName c
  | .logical => startsOne logicalWords c
  | .relational => startsOne relationalWords c
  | .additive => startsOne additiveWords c
  | .multiplicative => startsOne multiplicativeWords c
  | .unary => startsOne unaryWords c

/-- **What a token starts with.** -/
theorem starts_of_scan {c : Char} (h : τ.scan (c :: s) = some (a, t)) : τ.starts c = true := by
  obtain ⟨w, hlexeme, hs⟩ := exists_lexeme_of_scan h
  obtain ⟨d, v, rfl⟩ := List.exists_cons_of_ne_nil hlexeme.ne_nil
  obtain rfl : c = d := (List.cons.inj hs).1
  generalize hw : c :: v = w at hlexeme
  cases hlexeme with
  | word hmem =>
    subst hw
    have hone : startsOne τ.words c = true := List.any_eq_true.mpr ⟨_, hmem, by simp⟩
    cases τ with
    | mark e =>
      have hone : startsOne [[e]] c = true := hone
      obtain rfl : e = c := by simpa [startsOne] using hone
      exact beq_self_eq_true e
    | quoted _ | plainTemplate | templateHead | templateMiddle | templateTail | number | name => cases hmem
    | _ => exact hone
  | quoted _ => exact beq_iff_eq.mpr (List.cons.inj hw).1
  | part hτ _ =>
    obtain rfl := (List.cons.inj hw).1
    cases τ <;> cases hτ <;> rfl
  | number hc _ =>
    obtain rfl := (List.cons.inj hw).1
    exact hc
  | name hc _ =>
    obtain rfl := (List.cons.inj hw).1
    exact hc

/-- **Only an operator of products begins like a comment.** -/
theorem multiplicative_of_scan {c : Char} (hf : m.follow τ = some m')
    (h : τ.scan (c :: s) = some (a, t)) (hc : c = '/' ∨ c = '*') : τ = .multiplicative := by
  have hstarts := starts_of_scan h
  cases τ with
  | multiplicative => rfl
  | mark d =>
    obtain rfl : c = d := beq_iff_eq.mp hstarts
    rcases hc with rfl | rfl <;> exact absurd (Mode.follows_of_follow hf).mem_punctuation (by decide)
  | quoted quote =>
    obtain rfl : c = quote := beq_iff_eq.mp hstarts
    rcases hc with rfl | rfl <;> exact absurd (Mode.follows_of_follow hf).isQuote (by decide)
  | _ => rcases hc with rfl | rfl <;> exact absurd hstarts (by decide)

/-! ## Spellings -/

variable {gap : Text → Text → Prop} {ws : List Terminal} {r : Text}

/-- Where terminals lead the first of them leads somewhere. -/
theorem Mode.exists_follow (hf : m.followAll (τ :: ws) = some m') :
    ∃ m₁, m.follow τ = some m₁ ∧ m₁.followAll ws = some m' :=
  Option.bind_eq_some_iff.mp hf

/-- An expression has a terminal. -/
theorem ne_nil_of_mem_expressions (h : ws ∈ expressions) : ws ≠ [] := by
  rintro rfl
  have : (⟨[], true⟩ : Mode).followAll [] = some ⟨[], false⟩ := leads_expressions [] true [] h
  simp [Mode.followAll] at this

/-- **What is left begins after a token.** -/
theorem Spells.exists_last (hgap : ∀ {s u}, gap s u → u <:+ s) (hf : m.followAll ws = some m')
    (hne : ws ≠ []) (h : Spells gap ws s r) : ∃ v d, s = v ++ d :: r ∧ Text.isBlank d = false := by
  induction h generalizing m with
  | nil => exact absurd rfl hne
  | @cons τ ws s u a t r hg hscan h ih =>
    obtain ⟨m₁, hτ, hws⟩ := Mode.exists_follow hf
    obtain ⟨v, rfl⟩ := hgap hg
    obtain ⟨w, hw, rfl⟩ := solid_of_scan hτ hscan
    cases h with
    | nil =>
      obtain ⟨x, d, rfl, hd⟩ := hw.exists_last
      exact ⟨v ++ x, d, by simp, hd⟩
    | cons hg' hscan' h =>
      obtain ⟨x, d, rfl, hd⟩ := ih hws (by simp)
      exact ⟨v ++ (w ++ x), d, by simp, hd⟩

/-- Blanks between tokens are gaps between them. -/
theorem Spells.of_blankGap (hf : m.followAll ws = some m') (h : Spells BlankGap ws s r) :
    Spells Gap ws s r := by
  induction h generalizing m with
  | nil => exact .nil _
  | @cons τ ws s u a t r hgap hscan _ ih =>
    obtain ⟨m₁, hτ, hws⟩ := Mode.exists_follow hf
    refine .cons (hgap.gap fun c hc => ?_) hscan (ih hws)
    obtain ⟨v, rfl⟩ := List.head?_eq_some_iff.mp hc
    exact isGapBlank_of_not_isBlank (isBlank_of_scan hτ hscan)

end VariableImport.Script
