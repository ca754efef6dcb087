import Mathlib.Computability.Language
import Mathlib.Order.CompletePartialOrder
import VariableImport.Proofs.Script.Spelling
import VariableImport.Script.Grammar

/-!
# Proofs/Script/Language — the language of the grammar

The grammar as languages of terminals, one for each reader.  A reader `Recognizes` a language if it
gets from a text to another exactly where the text spells a word of the language in front of it;
combinators of readers are operations on languages.  So `expression` recognizes `expressions`
(`recognizes_expression`): how deep expressions nest is no bound, since every nesting takes a
terminal (`mem_expressionsWithin`).
-/

namespace VariableImport.Script

open Computability Reader

/-! ## The grammar -/

/-- One terminal alone. -/
abbrev only (τ : Terminal) : Language Terminal := {[τ]}

/-- The arguments of a call and the closing parenthesis. -/
def argumentLists (nested : Language Terminal) : Language Terminal :=
  only (.mark ')') +
    nested * ((only (.mark ',') * nested)∗ * ((1 + only (.mark ',')) * only (.mark ')')))

/-- Templates with expressions. -/
def templatesWithHoles (nested : Language Terminal) : Language Terminal :=
  only .templateHead * (nested * ((only .templateMiddle * nested)∗ * only .templateTail))

/-- Operands without accesses or calls. -/
def primaries (nested : Language Terminal) : Language Terminal :=
  only (.quoted '\'') + (only (.quoted '"') + (only .plainTemplate + (templatesWithHoles nested +
    (only .number + (only .name + only (.mark '(') * (nested * only (.mark ')')))))))

/-- Accesses and calls. -/
def postfixes (nested : Language Terminal) : Language Terminal :=
  only (.mark '.') * only .name + (only (.mark '[') * (nested * only (.mark ']')) +
    only (.mark '(') * argumentLists nested)

/-- Operands with accesses and calls. -/
def operands (nested : Language Terminal) : Language Terminal :=
  primaries nested * (postfixes nested)∗

/-- Operands with operators before them. -/
def prefixedOperands (nested : Language Terminal) : Language Terminal :=
  (only .unary)∗ * operands nested

/-- Items with operators of one level between them. -/
def chains (operator : Terminal) (item : Language Terminal) : Language Terminal :=
  item * (only operator * item)∗

/-- Conditions. -/
def conditions (nested : Language Terminal) : Language Terminal :=
  chains .logical (chains .relational (chains .additive (chains .multiplicative
    (prefixedOperands nested))))

/-- Conditions and choices between two expressions. -/
def conditionals (nested : Language Terminal) : Language Terminal :=
  conditions nested *
    (1 + only (.mark '?') * (nested * (only (.mark ':') * nested)))

/-- Expressions with others nested in them less than `n` deep. -/
def expressionsWithin : ℕ → Language Terminal
  | 0 => 0
  | n + 1 => conditionals (expressionsWithin n)

/-- **Expressions.** -/
def expressions : Language Terminal := ⨆ n, expressionsWithin n

/-! ## Readers and languages -/

variable {α β : Type} {p q : Reader α} {L M : Language Terminal}

/-- **A reader recognizes a language**: it gets to where words of the language lead. -/
def Recognizes (p : Reader α) (L : Language Terminal) : Prop :=
  ∀ s t, (∃ a, (a, t) ∈ (p s).found) ↔ ∃ ws ∈ L, Spells Gap ws s t

theorem recognizes_pure (a : α) : Recognizes (pure a : Reader α) 1 := by
  intro s t
  simp only [mem_pure, Language.mem_one]
  constructor
  · rintro ⟨-, -, rfl⟩
    exact ⟨[], rfl, .nil _⟩
  · rintro ⟨ws, rfl, h⟩
    exact ⟨a, rfl, spells_nil.mp h⟩

theorem recognizes_token (τ : Terminal) : Recognizes (token τ) (only τ) := by
  intro s t
  simp only [mem_token]
  constructor
  · rintro ⟨a, u, hu, h⟩
    exact ⟨[τ], rfl, spells_singleton.mpr ⟨u, a, hu, h⟩⟩
  · rintro ⟨ws, rfl, h⟩
    obtain ⟨u, a, hu, h⟩ := spells_singleton.mp h
    exact ⟨a, u, hu, h⟩

/-- **Reading one after another** recognizes the product. -/
theorem Recognizes.bind {f : α → Reader β} (hp : Recognizes p L) (hf : ∀ a, Recognizes (f a) M) :
    Recognizes (p >>= f) (L * M) := by
  intro s r
  constructor
  · rintro ⟨b, hb⟩
    obtain ⟨a, t, ha, hb⟩ := mem_bind.mp hb
    obtain ⟨ws, hws, hst⟩ := (hp s t).mp ⟨a, ha⟩
    obtain ⟨vs, hvs, htr⟩ := (hf a t r).mp ⟨b, hb⟩
    exact ⟨ws ++ vs, Language.append_mem_mul hws hvs, spells_append.mpr ⟨t, hst, htr⟩⟩
  · rintro ⟨_, hmem, h⟩
    obtain ⟨ws, hws, vs, hvs, rfl⟩ := Language.mem_mul.mp hmem
    obtain ⟨t, hst, htr⟩ := spells_append.mp h
    obtain ⟨a, ha⟩ := (hp s t).mpr ⟨ws, hws, hst⟩
    obtain ⟨b, hb⟩ := (hf a t r).mpr ⟨vs, hvs, htr⟩
    exact ⟨b, mem_bind.mpr ⟨a, t, ha, hb⟩⟩

/-- Results may be changed. -/
theorem Recognizes.map (hp : Recognizes p L) (f : α → β) :
    Recognizes (p >>= fun a => pure (f a)) L := by
  have := hp.bind fun a => recognizes_pure (f a)
  rwa [mul_one] at this

theorem Recognizes.orElse (hp : Recognizes p L) (hq : Recognizes q M) :
    Recognizes (p <|> q) (L + M) := by
  intro s t
  simp only [mem_orElse, Language.mem_add, exists_or, hp s t, hq s t, or_and_right]

/-- What is found by preference is what either finds. -/
theorem Recognizes.orWhereNot (hp : Recognizes p L) (hq : Recognizes q M) :
    Recognizes (p.orWhereNot q) (L + M) := by
  intro s t
  have hends : (∃ a, (a, t) ∈ (p.orWhereNot q s).found) ↔
      (∃ a, (a, t) ∈ (p s).found) ∨ ∃ a, (a, t) ∈ (q s).found := by
    simp only [Reader.orWhereNot, List.mem_append, List.mem_filter, exists_or]
    constructor
    · exact Or.imp_right fun ⟨a, h, _⟩ => ⟨a, h⟩
    · rintro (h | ⟨a, ha⟩)
      · exact .inl h
      -- where the first reader gets to a text of the same length, it gets to this one
      · by_cases hall : (p s).found.all (·.2.length != t.length) = true
        · exact .inr ⟨a, ha, hall⟩
        · obtain ⟨⟨b, u⟩, hb, hlen⟩ : ∃ x ∈ (p s).found, x.2.length = t.length := by
            simpa using hall
          have hsuffix {v : Text} : (∃ a, (a, v) ∈ (p s).found) ∨ (∃ a, (a, v) ∈ (q s).found) →
              v <:+ s := by
            rintro (h | h)
            · obtain ⟨ws, -, h⟩ := (hp s v).mp h
              exact h.suffix Gap.suffix
            · obtain ⟨ws, -, h⟩ := (hq s v).mp h
              exact h.suffix Gap.suffix
          have hut : u = t := List.suffix_of_suffix_length_le (hsuffix (.inl ⟨b, hb⟩))
            (hsuffix (.inr ⟨a, ha⟩)) hlen.le |>.eq_of_length hlen
          exact .inl ⟨b, hut ▸ hb⟩
  rw [hends, hp s t, hq s t]
  simp only [Language.mem_add, or_and_right, exists_or]

/-- Within some steps words of the step one after another are recognized. -/
theorem mem_stepsWithin {step : α → Reader α} (hstep : ∀ a, Recognizes (step a) M) {n : ℕ} {a : α}
    {s t : Text} (h : ∃ b, (b, t) ∈ (stepsWithin step n a s).found) :
    ∃ ws ∈ M∗, Spells Gap ws s t := by
  induction n generalizing a s with
  | zero =>
    obtain ⟨b, hb⟩ := h
    obtain ⟨-, rfl⟩ := mem_pure.mp hb
    exact ⟨[], Language.nil_mem_kstar M, .nil _⟩
  | succ n ih =>
    obtain ⟨b, hb⟩ := h
    rcases mem_orElse.mp hb with hb | hb
    · obtain ⟨-, rfl⟩ := mem_pure.mp hb
      exact ⟨[], Language.nil_mem_kstar M, .nil _⟩
    · obtain ⟨c, u, hc, hb⟩ := mem_bind.mp hb
      obtain ⟨ws, hws, hsu⟩ := (hstep a s u).mp ⟨c, hc⟩
      obtain ⟨vs, hvs, hut⟩ := ih ⟨b, hb⟩
      refine ⟨ws ++ vs, ?_, spells_append.mpr ⟨u, hsu, hut⟩⟩
      rw [← Language.one_add_self_mul_kstar_eq_kstar]
      exact .inr (Language.append_mem_mul hws hvs)

theorem exists_mem_stepsWithin {step : α → Reader α} (hstep : ∀ a, Recognizes (step a) M) {n : ℕ}
    {words : List (List Terminal)} (hwords : ∀ ws ∈ words, ws ∈ M) (hn : words.length ≤ n) {a : α}
    {s t : Text} (h : Spells Gap words.flatten s t) :
    ∃ b, (b, t) ∈ (stepsWithin step n a s).found := by
  induction words generalizing n a s with
  | nil =>
    obtain rfl := spells_nil.mp h
    cases n with
    | zero => exact ⟨a, mem_pure.mpr ⟨rfl, rfl⟩⟩
    | succ n => exact ⟨a, mem_orElse.mpr (.inl (mem_pure.mpr ⟨rfl, rfl⟩))⟩
  | cons ws words ih =>
    cases n with
    | zero => simp at hn
    | succ n =>
      rw [List.flatten_cons] at h
      obtain ⟨u, hsu, hut⟩ := spells_append.mp h
      obtain ⟨c, hc⟩ := (hstep a s u).mpr ⟨ws, hwords ws (List.mem_cons_self ..), hsu⟩
      obtain ⟨b, hb⟩ := ih (a := c) (fun vs hvs => hwords vs (List.mem_cons_of_mem _ hvs))
        (Nat.le_of_succ_le_succ hn) hut
      exact ⟨b, mem_orElse.mpr (.inr (mem_bind.mpr ⟨c, u, hc, hb⟩))⟩

/-- Words that are not empty are no more than their terminals. -/
theorem length_le_flatten {words : List (List Terminal)} (h : ∀ ws ∈ words, ws ≠ []) :
    words.length ≤ words.flatten.length := by
  induction words with
  | nil => exact le_rfl
  | cons ws words ih =>
    have := ih fun vs hvs => h vs (List.mem_cons_of_mem _ hvs)
    have := List.length_pos_of_ne_nil (h ws (List.mem_cons_self ..))
    rw [List.flatten_cons, List.length_append, List.length_cons]
    omega

/-- **Steps** recognize the words of a step, any number of them. -/
theorem recognizes_steps {step : α → Reader α} (hstep : ∀ a, Recognizes (step a) M)
    (hne : [] ∉ M) (a : α) : Recognizes (steps step a) M∗ := by
  intro s t
  refine ⟨mem_stepsWithin hstep, ?_⟩
  rintro ⟨_, hws, h⟩
  obtain ⟨words, rfl, hwords⟩ := Language.mem_kstar.mp hws
  refine exists_mem_stepsWithin hstep hwords ?_ h
  have hlen := length_le_flatten fun ws hw e => hne (e ▸ hwords ws hw)
  have := h.length_le Gap.suffix
  omega

/-! ## Words that are not empty -/

theorem nil_not_mem_only (τ : Terminal) : [] ∉ only τ := fun h => nomatch h

theorem nil_not_mem_mul (hL : [] ∉ L) : [] ∉ L * M := by
  intro h
  obtain ⟨ws, hws, vs, -, e⟩ := Language.mem_mul.mp h
  exact hL ((List.append_eq_nil_iff.mp e).1 ▸ hws)

theorem nil_not_mem_only_mul (τ : Terminal) : [] ∉ only τ * M :=
  nil_not_mem_mul (nil_not_mem_only τ)

/-! ## The readers of the grammar -/

variable {nested : Reader Tree} {N : Language Terminal}

theorem recognizes_mark (c : Char) : Recognizes (mark c) (only (.mark c)) :=
  (recognizes_token _).map fun _ => ()

theorem recognizes_optionalComma : Recognizes optionalComma (1 + only (.mark ',')) :=
  (recognizes_pure ()).orElse (recognizes_mark ',')

theorem recognizes_commaSeparated (h : Recognizes nested N) (begun : List Tree) :
    Recognizes (commaSeparated nested begun) (only (.mark ',') * N)∗ := by
  refine (recognizes_steps (fun items => ?_) (nil_not_mem_only_mul _) begun).map _
  exact (recognizes_mark ',').bind fun _ => h.map (· :: items)

theorem recognizes_arguments (h : Recognizes nested N) :
    Recognizes (arguments nested) (argumentLists N) := by
  refine ((recognizes_mark ')').map fun _ => []).orElse (h.bind fun first => ?_)
  refine (recognizes_commaSeparated h [first]).bind fun items => ?_
  exact recognizes_optionalComma.bind fun _ => (recognizes_mark ')').map fun _ => items

theorem recognizes_templateWithHoles (h : Recognizes nested N) :
    Recognizes (templateWithHoles nested) (templatesWithHoles N) := by
  refine (recognizes_token _).bind fun head => h.bind fun first => ?_
  refine (recognizes_steps (fun ⟨quasis, holes⟩ => ?_) (nil_not_mem_only_mul _) _).bind
    fun ⟨quasis, holes⟩ => ?_
  · exact (recognizes_token _).map fun tail => Tree.template (tail :: quasis).reverse holes.reverse
  · exact (recognizes_token _).bind fun quasi => h.map fun hole => (quasi :: quasis, hole :: holes)

theorem recognizes_primary (h : Recognizes nested N) :
    Recognizes (primary nested) (primaries N) := by
  refine ((recognizes_token _).map _).orElse (((recognizes_token _).map _).orElse
    (((recognizes_token _).map _).orElse ((recognizes_templateWithHoles h).orElse
      (((recognizes_token _).map _).orElse (((recognizes_token _).map _).orElse ?_)))))
  exact (recognizes_mark '(').bind fun _ => h.bind fun e => (recognizes_mark ')').map fun _ => e

theorem recognizes_postfixStep (h : Recognizes nested N) (e : Tree) :
    Recognizes (postfixStep nested e) (postfixes N) := by
  refine ((recognizes_mark '.').bind fun _ => (recognizes_token _).map _).orElse
    (Recognizes.orElse ?_ ?_)
  · exact (recognizes_mark '[').bind fun _ => h.bind fun key => (recognizes_mark ']').map fun _ => _
  · exact (recognizes_mark '(').bind fun _ => (recognizes_arguments h).map _

theorem nil_not_mem_postfixes : [] ∉ postfixes N := by
  rintro (h | h | h)
  all_goals exact nil_not_mem_only_mul _ h

theorem recognizes_operand (h : Recognizes nested N) : Recognizes (operand nested) (operands N) :=
  (recognizes_primary h).bind fun e => recognizes_steps (recognizes_postfixStep h)
    nil_not_mem_postfixes e

/-! ## Operators before an operand -/

/-- Operands with less than `n` operators before them. -/
def prefixedOperandsWithin (nested : Language Terminal) : ℕ → Language Terminal
  | 0 => 0
  | n + 1 => operands nested + only .unary * prefixedOperandsWithin nested n

theorem recognizes_fail : Recognizes (fail : Reader α) 0 := by
  intro s t
  simp [fail, Language.notMem_zero]

theorem recognizes_prefixedWithin (h : Recognizes nested N) (n : ℕ) :
    Recognizes (prefixedWithin nested n) (prefixedOperandsWithin N n) := by
  induction n with
  | zero => exact recognizes_fail
  | succ n ih =>
    exact (recognizes_operand h).orWhereNot ((recognizes_token _).bind fun operator => ih.map _)

theorem prefixedOperandsWithin_le (n : ℕ) : prefixedOperandsWithin N n ≤ prefixedOperands N := by
  induction n with
  | zero => exact bot_le
  | succ n ih =>
    rintro ws (h | h)
    · exact ⟨[], Language.nil_mem_kstar _, ws, h, rfl⟩
    · obtain ⟨us, hus, vs, hvs, rfl⟩ := Language.mem_mul.mp h
      obtain ⟨xs, hxs, ys, hys, rfl⟩ := Language.mem_mul.mp (ih hvs)
      refine ⟨us ++ xs, ?_, ys, hys, List.append_assoc ..⟩
      rw [← Language.one_add_self_mul_kstar_eq_kstar]
      exact .inr (Language.append_mem_mul hus hxs)

theorem mem_prefixedOperandsWithin {ws : List Terminal} (h : ws ∈ prefixedOperands N) {n : ℕ}
    (hn : ws.length < n) : ws ∈ prefixedOperandsWithin N n := by
  obtain ⟨us, hus, vs, hvs, rfl⟩ := Language.mem_mul.mp h
  obtain ⟨words, rfl, hwords⟩ := Language.mem_kstar.mp hus
  induction words generalizing n with
  | nil =>
    cases n with
    | zero => simp at hn
    | succ n => exact .inl hvs
  | cons us words ih =>
    obtain rfl : us = [.unary] := hwords us (List.mem_cons_self ..)
    cases n with
    | zero => simp at hn
    | succ n =>
      have hwords' : ∀ vs ∈ words, vs ∈ only .unary := fun vs hv =>
        hwords vs (List.mem_cons_of_mem _ hv)
      refine .inr ⟨[.unary], rfl, words.flatten ++ vs, ?_, rfl⟩
      have hmem : words.flatten ++ vs ∈ prefixedOperands N :=
        Language.append_mem_mul (Language.join_mem_kstar hwords') hvs
      have hlen : (words.flatten ++ vs).length < n := by
        simp only [List.flatten_cons, List.append_assoc, List.length_append, List.length_cons,
          List.length_nil] at hn ⊢
        omega
      exact ih hwords' (Language.join_mem_kstar hwords') hmem hlen

/-- **Operators before an operand** are read, however many there are. -/
theorem recognizes_prefixed (h : Recognizes nested N) :
    Recognizes (prefixed nested) (prefixedOperands N) := by
  intro s t
  refine ((recognizes_prefixedWithin h (s.length + 1)) s t).trans ⟨?_, ?_⟩
  · rintro ⟨ws, hws, hst⟩
    exact ⟨ws, prefixedOperandsWithin_le _ hws, hst⟩
  · rintro ⟨ws, hws, hst⟩
    have := hst.length_le Gap.suffix
    exact ⟨ws, mem_prefixedOperandsWithin hws (by omega), hst⟩

/-! ## Expressions -/

theorem recognizes_leftToRight {item : Reader Tree} {I : Language Terminal} (operator : Terminal)
    (make : Text → Tree → Tree → Tree) (h : Recognizes item I) :
    Recognizes (leftToRight operator make item) (chains operator I) := by
  refine h.bind fun left => recognizes_steps (fun left => ?_) (nil_not_mem_only_mul _) left
  exact (recognizes_token _).bind fun op => h.map fun right => make op left right

theorem recognizes_condition (h : Recognizes nested N) :
    Recognizes (condition nested) (conditions N) :=
  recognizes_leftToRight _ _ (recognizes_leftToRight _ _ (recognizes_leftToRight _ _
    (recognizes_leftToRight _ _ (recognizes_prefixed h))))

theorem recognizes_conditional (h : Recognizes nested N) :
    Recognizes (conditional nested) (conditionals N) := by
  refine (recognizes_condition h).bind fun test => (recognizes_pure test).orElse ?_
  refine (recognizes_mark '?').bind fun _ => h.bind fun consequent => ?_
  exact (recognizes_mark ':').bind fun _ => h.map fun alternate => _

theorem recognizes_expressionWithin (n : ℕ) :
    Recognizes (expressionWithin n) (expressionsWithin n) := by
  induction n with
  | zero => exact recognizes_fail
  | succ n ih => exact recognizes_conditional ih

/-! ## The depth of nesting -/

/-- Whether a language holds the words of another that have less than `n` terminals. -/
def HoldsBelow (n : ℕ) (L M : Language Terminal) : Prop := ∀ ws ∈ L, ws.length < n → ws ∈ M

variable {n : ℕ} {L' M' N' : Language Terminal}

theorem HoldsBelow.refl (L : Language Terminal) : HoldsBelow n L L := fun _ h _ => h

theorem HoldsBelow.add (hL : HoldsBelow n L L') (hM : HoldsBelow n M M') :
    HoldsBelow n (L + M) (L' + M') :=
  fun ws hws hlen => hws.imp (hL ws · hlen) (hM ws · hlen)

theorem HoldsBelow.mul (hL : HoldsBelow n L L') (hM : HoldsBelow n M M') :
    HoldsBelow n (L * M) (L' * M') := by
  rintro _ ⟨ws, hws, vs, hvs, rfl⟩ hlen
  rw [List.length_append] at hlen
  exact Language.append_mem_mul (hL ws hws (by omega)) (hM vs hvs (by omega))

theorem HoldsBelow.kstar (h : HoldsBelow n L L') : HoldsBelow n L∗ L'∗ := by
  intro _ hws hlen
  obtain ⟨words, rfl, hwords⟩ := Language.mem_kstar.mp hws
  refine Language.join_mem_kstar fun ws hw => h ws (hwords ws hw) ?_
  exact ((List.sublist_flatten_of_mem hw).length_le).trans_lt hlen

/-- After a terminal there is less room. -/
theorem HoldsBelow.only_mul (h : HoldsBelow n L L') (τ : Terminal) :
    HoldsBelow (n + 1) (only τ * L) (only τ * L') := by
  rintro _ ⟨_, rfl, vs, hvs, rfl⟩ hlen
  refine Language.append_mem_mul rfl (h vs hvs ?_)
  simpa using hlen

theorem HoldsBelow.argumentLists (h : HoldsBelow n N N') :
    HoldsBelow n (argumentLists N) (argumentLists N') :=
  (refl _).add (h.mul (((refl _).mul h).kstar.mul (refl _)))

theorem HoldsBelow.primaries (h : HoldsBelow n N N') :
    HoldsBelow (n + 1) (primaries N) (primaries N') := by
  have htemplates : HoldsBelow (n + 1) (templatesWithHoles N) (templatesWithHoles N') :=
    (h.mul (((refl _).mul h).kstar.mul (refl _))).only_mul _
  exact (refl _).add ((refl _).add ((refl _).add (htemplates.add ((refl _).add ((refl _).add
    ((h.mul (refl _)).only_mul _))))))

theorem HoldsBelow.postfixes (h : HoldsBelow n N N') :
    HoldsBelow (n + 1) (postfixes N) (postfixes N') :=
  (refl _).add (((h.mul (refl _)).only_mul _).add (h.argumentLists.only_mul _))

theorem HoldsBelow.chains (h : HoldsBelow n L L') (operator : Terminal) :
    HoldsBelow n (chains operator L) (chains operator L') :=
  h.mul ((refl _).mul h).kstar

/-- **Whatever is nested stands behind a terminal.** -/
theorem HoldsBelow.conditionals (h : HoldsBelow n N N') :
    HoldsBelow (n + 1) (conditionals N) (conditionals N') := by
  have hprefixed : HoldsBelow (n + 1) (prefixedOperands N) (prefixedOperands N') :=
    (refl _).mul (h.primaries.mul h.postfixes.kstar)
  exact ((((hprefixed.chains _).chains _).chains _).chains _).mul
    ((refl _).add ((h.mul ((refl _).mul h)).only_mul _))

theorem holdsBelow_expressionsWithin {m k : ℕ} (hk : m ≤ k) (n : ℕ) :
    HoldsBelow m (expressionsWithin n) (expressionsWithin k) := by
  induction m generalizing n k with
  | zero => exact fun _ _ hlen => absurd hlen (Nat.not_lt_zero _)
  | succ m ih =>
    cases n with
    | zero => exact fun _ h => absurd h (Language.notMem_zero _)
    | succ n =>
      cases k with
      | zero => simp at hk
      | succ k => exact (ih (Nat.le_of_succ_le_succ hk) n).conditionals

/-- **An expression nests no deeper than it has terminals.** -/
theorem mem_expressionsWithin {ws : List Terminal} (h : ws ∈ expressions) {n : ℕ}
    (hn : ws.length < n) : ws ∈ expressionsWithin n := by
  obtain ⟨m, hm⟩ := Language.mem_iSup.mp h
  exact holdsBelow_expressionsWithin le_rfl m ws hm hn

/-- **Reading an expression** gets to where expressions lead. -/
theorem recognizes_expression : Recognizes expression expressions := by
  intro s t
  refine (recognizes_expressionWithin (s.length + 1) s t).trans ⟨?_, ?_⟩
  · rintro ⟨ws, hws, hst⟩
    exact ⟨ws, Language.mem_iSup.mpr ⟨_, hws⟩, hst⟩
  · rintro ⟨ws, hws, hst⟩
    have := hst.length_le Gap.suffix
    exact ⟨ws, mem_expressionsWithin hws (by omega), hst⟩

end VariableImport.Script
