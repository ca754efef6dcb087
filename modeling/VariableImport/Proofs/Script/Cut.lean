import VariableImport.Proofs.Script.CodePoint
import VariableImport.Proofs.Script.Spaced

/-!
# Proofs/Script/Cut — where the first argument of a call is cut

A call is seen without parsing if no comment stands before its parenthesis and nothing behind it
(`inner?_callText`).  Then the text of its first argument is looked for, and where it is cut in the right place
(`CutsArgument`) that argument is what is parsed; any other call is parsed as it is.  **A source that is cut in the right
place, or that is no call, is parsed as its argument is** (`IsCut.parse_iff`).
-/

namespace VariableImport.Script

variable {A Q R R' g lead s t y source source' : Text} {ws : List Terminal} {e : Expression}

/-! ## Calls that are seen -/

/-- Gaps that begin with no blank begin with a slash. -/
theorem Ended.exists_slash (hg : Ended g) (hne : g ≠ []) (hhead : ∀ c ∈ g.head?, Text.isBlank c = false) :
    ∃ t, g = '/' :: t := by
  cases hg with
  | nil => exact absurd rfl hne
  | blank hc =>
    have := hhead _ rfl
    rw [isBlank_of_isGapBlank hc] at this
    cases this
  | line => exact ⟨_, rfl⟩
  | block => exact ⟨_, rfl⟩

theorem solid_callText (hS : Text.trim source = callText lead g A Q) : Text.Solid (callText lead g A Q) :=
  hS ▸ (Text.trim_eq_nil_or_solid source).resolve_left (hS ▸ by simp [callText])

/-- Blanks follow a call that stands in a source. -/
theorem exists_trimLeft_callText (hS : Text.trim source = callText lead g A Q) :
    ∃ b, Text.AllBlank b ∧ Text.trimLeft source = callText lead g A Q ++ b := by
  obtain ⟨b, b', hb, hb', hsource⟩ := Text.exists_trim source
  obtain ⟨c, u, hcu, hc⟩ := (solid_callText hS).exists_head
  refine ⟨b', hb', ?_⟩
  rw [hsource, hS, hcu]
  exact Text.trimLeft_append hb hc _

/-- What follows an opening parenthesis is cut off at the end. -/
theorem inner?_of_open {rest inner : Text} (hword : importText.isPrefixOf? (Text.trimLeft source) = some rest)
    (hopen : Text.trimLeft rest = '(' :: inner) : inner? source =
      if (Text.trimRight inner).getLast? = some ')' then some (Text.trimRight inner).dropLast else none := by
  unfold inner?
  rw [hword]
  dsimp only
  rw [hopen]
  rfl

/-- Behind blanks what the parentheses of a call hold is cut off at the end. -/
theorem inner?_of_allBlank (hS : Text.trim source = callText [] g A Q) (hblank : Text.AllBlank g)
    (hQ : Q ≠ []) :
    inner? source = if Q.getLast? = some ')' then some (A ++ Q).dropLast else none := by
  obtain ⟨b, hb, hleft⟩ := exists_trimLeft_callText hS
  have hne : A ++ Q ≠ [] := fun e => hQ (List.append_eq_nil_iff.mp e).2
  have hright : Text.trimRight (A ++ Q ++ b) = A ++ Q := by
    obtain ⟨d, hd, hbd⟩ := (solid_callText hS).2
    have e : callText [] g A Q = importText ++ (g ++ ['(']) ++ (A ++ Q) := by simp [callText]
    rw [e, List.getLast?_append_of_ne_nil _ hne] at hd
    obtain ⟨u, hu⟩ := List.getLast?_eq_some_iff.mp hd
    rw [hu]
    exact Text.trimRight_append hb hbd u
  have hword : importText.isPrefixOf? (callText [] g A Q ++ b) = some (g ++ '(' :: (A ++ Q ++ b)) :=
    Text.isPrefixOf?_eq_some.mpr (by simp [callText])
  have hopen : Text.trimLeft (g ++ '(' :: (A ++ Q ++ b)) = '(' :: (A ++ Q ++ b) :=
    Text.trimLeft_append hblank (by decide) _
  rw [inner?_of_open (hleft ▸ hword) hopen, hright, List.getLast?_append_of_ne_nil _ hQ]

/-- A comment before the parenthesis of a call hides it. -/
theorem inner?_of_comment (hS : Text.trim source = callText [] g A Q) (hg : Ended g)
    (hblank : ¬ Text.AllBlank g) : inner? source = none := by
  obtain ⟨b, -, hleft⟩ := exists_trimLeft_callText hS
  have hword : importText.isPrefixOf? (callText [] g A Q ++ b) = some (g ++ '(' :: (A ++ Q ++ b)) :=
    Text.isPrefixOf?_eq_some.mpr (by simp [callText])
  have hne : Text.trimLeft g ≠ [] := fun h => hblank fun c hc => List.dropWhile_eq_nil_iff.mp h c hc
  obtain ⟨t, ht⟩ := hg.trimLeft.exists_slash hne (Text.head_trimLeft g)
  unfold inner?
  rw [hleft, hword]
  dsimp only
  rw [trimLeft_of_head (by decide), ht]
  rfl

/-- A comment before a call hides it. -/
theorem inner?_of_lead (hS : Text.trim source = callText lead g A Q) (hlead : Ended lead) (hne : lead ≠ []) :
    inner? source = none := by
  obtain ⟨b, -, hleft⟩ := exists_trimLeft_callText hS
  obtain ⟨t, rfl⟩ : ∃ t, lead = '/' :: t := by
    refine hlead.exists_slash hne fun c hc => ?_
    obtain ⟨d, hd, hbd⟩ := (solid_callText hS).1
    rw [callText, List.head?_append_of_ne_nil _ hne] at hd
    exact Option.some.inj (hc.symm.trans hd) ▸ hbd
  have hword : importText.isPrefixOf? (callText ('/' :: t) g A Q ++ b) = none :=
    isPrefixOf?_eq_none (by simp [callText])
  unfold inner?
  rw [hleft, hword]

/-- **A call is seen without parsing** if no comment stands before its parenthesis and nothing behind it;
its parentheses hold what follows up to the end. -/
theorem inner?_callText (hS : Text.trim source = callText lead g A Q) (hlead : Ended lead) (hg : Ended g)
    (hQ : Q ≠ []) : inner? source = some y ↔
      lead = [] ∧ Text.AllBlank g ∧ ∃ T, Q = T ++ [')'] ∧ y = A ++ T := by
  by_cases hnil : lead = []
  · subst hnil
    by_cases hblank : Text.AllBlank g
    · rw [inner?_of_allBlank hS hblank hQ]
      constructor
      · intro h
        split at h
        · next hlast =>
          obtain ⟨T, rfl⟩ := List.getLast?_eq_some_iff.mp hlast
          rw [← List.append_assoc, List.dropLast_concat] at h
          exact ⟨rfl, hblank, T, rfl, (Option.some.inj h).symm⟩
        · cases h
      · rintro ⟨-, -, T, rfl, rfl⟩
        rw [List.getLast?_concat, if_pos rfl, ← List.append_assoc, List.dropLast_concat]
    · rw [inner?_of_comment hS hg hblank]
      exact iff_of_false (by simp) fun h => hblank h.2.1
  · rw [inner?_of_lead hS hlead hnil]
    exact iff_of_false (by simp) fun h => hnil h.1

/-- Whether a call is seen without parsing: no comment stands before its parenthesis or behind it. -/
def IsSeen (lead g Q : Text) : Prop := lead = [] ∧ Text.AllBlank g ∧ Q.getLast? = some ')'

/-! ## The first argument -/

/-- **Whether the first argument is cut where it ends**, if the call is seen without parsing. -/
def CutsArgument (source A : Text) : Prop := ∀ x, inner? source = some x → firstArgument {} x = A

instance (source A : Text) : Decidable (CutsArgument source A) :=
  decidable_of_iff ((inner? source).all fun x => decide (firstArgument {} x = A)) (by
    simp [CutsArgument, Option.all_eq_true])

/-- The text of the first argument, if the call is seen and the argument is cut where it ends. -/
theorem importArgument_of_isSeen (hS : Text.trim source = callText lead g A Q) (hlead : Ended lead)
    (hg : Ended g) (hQ : Q ≠ []) (hcut : CutsArgument source A) (h : IsSeen lead g Q) :
    importArgument source = Text.trim A := by
  obtain ⟨hlead', hblank, hlast⟩ := h
  obtain ⟨T, rfl⟩ := List.getLast?_eq_some_iff.mp hlast
  have hinner : inner? source = some (A ++ T) :=
    (inner?_callText hS hlead hg hQ).mpr ⟨hlead', hblank, T, rfl, rfl⟩
  rw [importArgument, hinner]
  exact congrArg Text.trim (hcut _ hinner)

/-- A call that is not seen is its own argument. -/
theorem importArgument_of_not_isSeen (hS : Text.trim source = callText lead g A Q) (hlead : Ended lead)
    (hg : Ended g) (hQ : Q ≠ []) (h : ¬ IsSeen lead g Q) : importArgument source = Text.trim source := by
  have hinner : inner? source = none := by
    refine Option.eq_none_iff_forall_ne_some.mpr fun y hy => h ?_
    obtain ⟨hlead', hblank, T, rfl, -⟩ := (inner?_callText hS hlead hg hQ).mp hy
    exact ⟨hlead', hblank, List.getLast?_concat⟩
  rw [importArgument, hinner]

/-- An argument is cut in front of a comma, whatever stands behind that. -/
theorem exists_comma {σ : Scan} (hR : R ≠ []) (h : firstArgument σ (A ++ R) = A) :
    ∃ T, R = ',' :: T ∧ ∀ U, firstArgument σ (A ++ ',' :: U) = A := by
  induction A generalizing σ with
  | nil =>
    obtain ⟨c, T, rfl⟩ := List.exists_cons_of_ne_nil hR
    rw [List.nil_append, firstArgument] at h
    split at h
    · next hc => exact ⟨T, by rw [hc.2], fun U => if_pos ⟨hc.1, rfl⟩⟩
    · exact absurd h (List.cons_ne_nil _ _)
  | cons c A ih =>
    rw [List.cons_append, firstArgument] at h
    split at h
    · exact absurd h.symm (List.cons_ne_nil _ _)
    · next hc =>
      obtain ⟨T, rfl, hcut⟩ := ih (List.cons.inj h).2
      refine ⟨T, rfl, fun U => ?_⟩
      have hnext : (A ++ ',' :: U).head? = (A ++ ',' :: T).head? := by cases A <;> rfl
      rw [List.cons_append, firstArgument, if_neg hc, hnext, hcut]

/-- What stands behind the mark after an argument does not change where the argument is cut. -/
theorem CutsArgument.of_tail {c : Char} (hS : Text.trim source = callText lead g A (c :: R))
    (hS' : Text.trim source' = callText lead g A (c :: R')) (hlead : Ended lead) (hg : Ended g)
    (hR' : R' ≠ []) (hlast : R.getLast? = R'.getLast?) (hcut : CutsArgument source A) :
    CutsArgument source' A := by
  intro y hy
  obtain ⟨hlead', hblank, T, hT, rfl⟩ := (inner?_callText hS' hlead hg (List.cons_ne_nil _ _)).mp hy
  cases T with
  | nil => exact absurd (List.cons.inj hT).2 hR'
  | cons d T =>
    obtain ⟨rfl, rfl⟩ := List.cons.inj hT
    obtain ⟨U, rfl⟩ := List.getLast?_eq_some_iff.mp (hlast.trans List.getLast?_concat)
    have hinner := (inner?_callText hS hlead hg (List.cons_ne_nil _ _)).mpr ⟨hlead', hblank, c :: U, rfl, rfl⟩
    obtain ⟨_, e, h⟩ := exists_comma (List.cons_ne_nil _ _) (hcut _ hinner)
    obtain ⟨rfl, -⟩ := List.cons.inj e
    exact h T

/-- A call that is not seen is parsed as it is. -/
theorem parse_importArgument_of_not_isSeen (hS : Text.trim source = callText lead g A Q) (hlead : Ended lead)
    (hg : Ended g) (hQ : Q ≠ []) (h : ¬ IsSeen lead g Q) :
    parse (importArgument source) = .ok e ↔ parse source = .ok e := by
  rw [importArgument_of_not_isSeen hS hlead hg hQ h]
  exact parse_trim

/-- **An import call** is parsed as its first argument, if that is cut where it ends and the second argument
is no less sound. -/
theorem parse_importArgument_of_call (hS : Text.trim source = callText lead g A Q) (hlead : Ended lead)
    (hg : Ended g) (hws : ws ∈ expressions) (hA : Spaced ws A Q) (hQ : IsTail Q) (hcut : CutsArgument source A)
    (hsound : (∃ e, parse (importArgument source) = .ok e) → ∃ e, parse source = .ok e) :
    parse (importArgument source) = .ok e ↔ parse source = .ok e := by
  by_cases hseen : IsSeen lead g Q
  · obtain ⟨B, hcall⟩ := parse_callText hS hlead hg hws hA hQ
    rw [importArgument_of_isSeen hS hlead hg hQ.ne_nil hcut hseen] at hsound ⊢
    refine ⟨fun he => ?_, fun he => ((hcall e).mp he).1⟩
    -- another expression is parsed from the source only if the second argument is sound
    obtain ⟨e', he'⟩ := hsound ⟨e, he⟩
    exact (hcall e).mpr ⟨he, ((hcall e').mp he').2⟩
  · exact parse_importArgument_of_not_isSeen hS hlead hg hQ.ne_nil hseen

/-! ## Sources that are cut in the right place -/

/-- **Whether a source is cut in the right place**: it is taken for no call, it is an import call without
comments, it is one with gaps of which the first argument is cut where it ends, or neither it nor its argument
is parsed.  Of a call it is asked that it spells no number beyond Unicode, so that its second argument is
sound. -/
inductive IsCut (source : Text) : Prop
  | expression (h : inner? source = none)
  | plain {ws : List Terminal} (hws : ws ∈ importCalls) (hspells : Spells BlankGap ws (Text.trim source) [])
    (hrange : ∀ n ∈ escapes source, n < 0x110000)
  | call {lead g A Q : Text} {ws : List Terminal} (hS : Text.trim source = callText lead g A Q)
    (hlead : Ended lead) (hg : Ended g) (hws : ws ∈ expressions) (hA : Spaced ws A Q) (hQ : IsTail Q)
    (hcut : CutsArgument source A) (hrange : ∀ n ∈ escapes source, n < 0x110000)
  | rejected (hsource : ∀ e, parse source ≠ .ok e) (hargument : ∀ e, parse (importArgument source) ≠ .ok e)

/-- An import call without comments has a reading. -/
theorem IsCall.found_ne_nil {B : Option Text} (h : IsCall s A B) : (Script.source s).found ≠ [] := by
  intro hnil
  have hhead := h.head?_found
  cases h with
  | mk _ _ hA _ =>
    obtain ⟨e, he⟩ := exists_firstReading hA
    rw [hnil, he] at hhead
    cases hhead

/-- No gap stands in front of a trimmed text. -/
theorem gap_head_trim (s : Text) : ∀ c ∈ (Text.trim s).head?, isGapBlank c = false := by
  intro c hc
  rcases Text.trim_eq_nil_or_solid s with hnil | hsolid
  · rw [hnil] at hc
    cases hc
  · obtain ⟨d, hd, hbd⟩ := hsolid.1
    exact isGapBlank_of_not_isBlank (Option.some.inj (hc.symm.trans hd) ▸ hbd)

/-- **A source that is cut in the right place** is parsed as its argument is. -/
theorem IsCut.parse_iff (h : IsCut source) (e : Expression) :
    parse source = .ok e ↔ parse (importArgument source) = .ok e := by
  cases h with
  | expression h =>
    rw [importArgument, h]
    exact parse_trim.symm
  | plain hws hspells hrange =>
    obtain ⟨A, B, hcall⟩ := (exists_isCall_iff (gap_head_trim source)).mpr ⟨_, hws, hspells⟩
    obtain ⟨e', he'⟩ := exists_parse_of_readings hcall.found_ne_nil hrange
    rw [importArgument_of_isCall hcall, hcall.parse_eq_ok]
    exact and_iff_left (hcall.parse_eq_ok.mp he').2
  | call hS hlead hg hws hA hQ hcut hrange =>
    refine (parse_importArgument_of_call hS hlead hg hws hA hQ hcut fun _ => ?_).symm
    obtain ⟨s, A₀, B, hcall, halike, -⟩ := exists_isCall hlead hg hws hA hQ
    refine exists_parse_of_readings (fun hnil => ?_) hrange
    have hreadings := halike.readings_eq
    rw [← hS, readings, hnil, List.map_nil] at hreadings
    exact hcall.found_ne_nil (List.map_eq_nil_iff.mp hreadings.symm)
  | rejected hsource hargument => exact iff_of_false (hsource e) (hargument e)

end VariableImport.Script
