import VariableImport.Proofs.Script.Derivation
import VariableImport.Proofs.Script.SteadyGrammar

/-!
# Proofs/Script/Ahead — what stands ahead tells what is read

A split is `Clear` if no slash of a comment behind a value could divide it, and `Plain` if moreover no
operator word is the start of a name that something may follow.  In a plain split the terminal of the
next token is known from what it starts with: behind an operand, no token of another terminal is found
that anything could be read behind (`Next.held`), and where an operand starts, none is found but an
operator word that a name goes on with (`eq_of_operand`).
-/

namespace VariableImport.Script

open Reader

variable {τ σ : Terminal} {c : Char} {s t u v w r : Text} {a b : Text} {x y : Text × Text} {ws vs : List Token}
  {l : Level} {e : Tree}

/-! ## What tokens start with -/

/-- The characters that a token starts with, but for numbers and names. -/
def Terminal.heads : Terminal → List Char
  | .importWord => ['i']
  | .mark c => [c]
  | .quoted quote => [quote]
  | .plainTemplate | .templateHead => ['`']
  | .templateMiddle | .templateTail => ['\x7d']
  | .number | .name => []
  | .logical => logicalWords.filterMap List.head?
  | .relational => relationalWords.filterMap List.head?
  | .additive => additiveWords.filterMap List.head?
  | .multiplicative => multiplicativeWords.filterMap List.head?
  | .unary => unaryWords.filterMap List.head?

theorem mem_heads_of_startsOne {words : List Text} (h : startsOne words c = true) :
    c ∈ words.filterMap List.head? := by
  obtain ⟨w, hw, hc⟩ := List.any_eq_true.mp h
  exact List.mem_filterMap.mpr ⟨w, hw, beq_iff_eq.mp hc⟩

/-- **What a token starts with**: one of few characters, a digit, or a letter. -/
theorem mem_heads (h : τ.starts c = true) : c ∈ τ.heads ∨
    τ = .number ∧ Text.isDecimal c = true ∨ τ = .name ∧ startsName c = true := by
  cases τ with
  | number => exact .inr (.inl ⟨rfl, h⟩)
  | name => exact .inr (.inr ⟨rfl, h⟩)
  | importWord | logical | relational | additive | multiplicative | unary =>
    exact .inl (mem_heads_of_startsOne h)
  | _ => exact .inl (List.mem_singleton.mpr (beq_iff_eq.mp h))

theorem isDecimal_of_startsName (h : startsName c = true) : Text.isDecimal c = false := by
  simp only [startsName, Bool.or_eq_true, beq_iff_eq] at h
  rcases h with (h | rfl) | rfl
  · delta Char.isAlpha Char.isUpper Char.isLower at h
    simp only [Bool.or_eq_true, Bool.and_eq_true, decide_eq_true_eq, UInt32.le_iff_toNat_le,
      ge_iff_le] at h
    have hlow : 65 ≤ c.toNat := by
      show 65 ≤ c.val.toNat
      rcases h with ⟨h, -⟩ | ⟨h, -⟩ <;> exact le_trans (by decide) h
    have hhigh : c.toNat < 128 := by
      show c.val.toNat < 128
      rcases h with ⟨-, h⟩ | ⟨-, h⟩ <;> exact lt_of_le_of_lt h (by decide)
    rw [Text.isDecimal, if_pos hhigh]
    by_contra hdigit
    simp only [Char.isDigit, Bool.not_eq_false, Bool.and_eq_true, decide_eq_true_eq,
      UInt32.le_iff_toNat_le, ge_iff_le] at hdigit
    have : c.toNat ≤ 57 := hdigit.2
    omega
  · decide
  · decide

/-- What may stand behind a value. -/
def valueTerminals : List Terminal :=
  [.logical, .relational, .additive, .multiplicative, .mark '.', .mark '[', .mark '(', .mark '?',
    .mark ':', .mark ')', .mark ']', .mark ',', .templateMiddle, .templateTail]

/-- Terminals that start alike where an operand may start, or behind one. -/
def confusable : List (Terminal × Terminal) :=
  [(.name, .unary), (.unary, .name), (.plainTemplate, .templateHead), (.templateHead, .plainTemplate),
    (.mark '?', .logical), (.logical, .mark '?'), (.templateMiddle, .templateTail),
    (.templateTail, .templateMiddle)]

/-- **Two terminals of one place** that start with the same character are the same, or few. -/
theorem eq_or_confusable {L : List Terminal} (hL : L = operandTerminals ∨ L = valueTerminals) (hτ : τ ∈ L)
    (hσ : σ ∈ L) (hc : τ.starts c = true) (hc' : σ.starts c = true) : τ = σ ∨ (τ, σ) ∈ confusable := by
  have hall : ∀ τ ∈ L, τ.heads.all fun c => decide (∀ σ ∈ L, σ.starts c = true →
      τ = σ ∨ (τ, σ) ∈ confusable ∧ (σ, τ) ∈ confusable) := by
    rcases hL with rfl | rfl <;> decide +kernel
  have hheads : ∀ τ ∈ L, ∀ c ∈ τ.heads, ∀ σ ∈ L, σ.starts c = true →
      τ = σ ∨ (τ, σ) ∈ confusable ∧ (σ, τ) ∈ confusable :=
    fun τ hτ c hc => of_decide_eq_true (List.all_eq_true.mp (hall τ hτ) c hc)
  rcases mem_heads hc with hmem | hnumber | hname
  · exact (hheads τ hτ c hmem σ hσ hc').imp_right And.left
  all_goals rcases mem_heads hc' with hmem | hnumber' | hname'
  · exact (hheads σ hσ c hmem τ hτ hc).imp Eq.symm And.right
  · exact .inl (hnumber.1.trans hnumber'.1.symm)
  · cases (isDecimal_of_startsName hname'.2).symm.trans hnumber.2
  · exact (hheads σ hσ c hmem τ hτ hc).imp Eq.symm And.right
  · cases (isDecimal_of_startsName hname.2).symm.trans hnumber'.2
  · exact .inl (hname.1.trans hname'.1.symm)

theorem exists_cons_of_scan (h : τ.scan u = some x) : ∃ c v, u = c :: v ∧ τ.starts c = true := by
  have hlt := length_lt_of_scan (a := x.1) (t := x.2) h
  obtain ⟨c, v, rfl⟩ := List.exists_cons_of_ne_nil (List.ne_nil_of_length_pos (Nat.zero_lt_of_lt hlt))
  exact ⟨c, v, rfl, starts_of_scan (t := x.2) h⟩

theorem starts_both (h : τ.scan u = some x) (h' : σ.scan u = some y) :
    ∃ c, τ.starts c = true ∧ σ.starts c = true := by
  obtain ⟨c, v, rfl, hc⟩ := exists_cons_of_scan h
  exact ⟨c, hc, starts_of_scan (t := y.2) h'⟩

/-- A part of a template ends in one way. -/
theorem not_templatePart {opening : Char} (h : templatePart opening true s = some x)
    (h' : templatePart opening false s = some y) : False := by
  obtain ⟨u, rfl, hu⟩ := templatePart_eq (show _ = some (x.1, x.2) from h)
  obtain ⟨v, e, hv⟩ := templatePart_eq (show _ = some (y.1, y.2) from h')
  obtain rfl := (List.cons.inj e).2
  simpa using hu.symm.trans hv

/-- **Where an operand starts** one terminal is found at most, unless a name goes on with an operator. -/
theorem eq_of_operand (hτ : τ ∈ operandTerminals) (hσ : σ ∈ operandTerminals) (h : τ.scan u = some x)
    (h' : σ.scan u = some y) : τ = σ ∨ τ = .name ∧ σ = .unary ∨ τ = .unary ∧ σ = .name := by
  obtain ⟨c, hc, hc'⟩ := starts_both h h'
  refine (eq_or_confusable (.inl rfl) hτ hσ hc hc').imp_right fun hconfusable => ?_
  simp only [confusable, List.mem_cons, List.not_mem_nil, or_false, Prod.mk.injEq] at hconfusable
  rcases hconfusable with h₁ | h₁ | ⟨rfl, rfl⟩ | ⟨rfl, rfl⟩ | ⟨rfl, rfl⟩ | ⟨rfl, rfl⟩ | ⟨rfl, rfl⟩ | ⟨rfl, rfl⟩
  · exact .inl h₁
  · exact .inr h₁
  · exact (not_templatePart h' h).elim
  · exact (not_templatePart h h').elim
  all_goals exact absurd hτ (by decide)

theorem mark_eq (h : (Terminal.mark c).scan u = some x) : u = c :: x.2 := by
  obtain ⟨hmem, e⟩ := oneOf_eq (t := x.2) h
  rwa [List.mem_singleton.mp hmem] at e

/-- **Behind a value** one terminal is found at most, unless two question marks stand there. -/
theorem eq_of_value (hτ : τ ∈ valueTerminals) (hσ : σ ∈ valueTerminals) (h : τ.scan u = some x)
    (h' : σ.scan u = some y) : τ = σ ∨ τ = .mark '?' ∧ σ = .logical ∨
      τ = .logical ∧ σ = .mark '?' ∧ ∃ v, y.2 = '?' :: v := by
  obtain ⟨c, hc, hc'⟩ := starts_both h h'
  refine (eq_or_confusable (.inr rfl) hτ hσ hc hc').imp_right fun hconfusable => ?_
  simp only [confusable, List.mem_cons, List.not_mem_nil, or_false, Prod.mk.injEq] at hconfusable
  rcases hconfusable with ⟨rfl, rfl⟩ | ⟨rfl, rfl⟩ | ⟨rfl, rfl⟩ | ⟨rfl, rfl⟩ | h₁ | ⟨rfl, rfl⟩ | ⟨rfl, rfl⟩ |
    ⟨rfl, rfl⟩
  iterate 4 exact absurd hτ (by decide)
  · exact .inl h₁
  · refine .inr ⟨rfl, rfl, ?_⟩
    obtain rfl := mark_eq h'
    obtain ⟨hmem, e⟩ := oneOf_eq (t := x.2) h
    simp only [logicalWords, List.mem_cons, List.not_mem_nil, or_false] at hmem
    rcases hmem with hx | hx | hx
    all_goals simp [hx] at e
    exact ⟨_, e⟩
  · exact (not_templatePart h h').elim
  · exact (not_templatePart h' h).elim

/-! ## Places -/

/-- **The places where a token may start** are starts of gaps, but for the end of all gaps. -/
theorem places_eq_append (h : Gap s u) (hu : gap? u = none) :
    ∃ k, places s = k ++ [u] ∧ ∀ w ∈ k, gap? w ≠ none := by
  have within (n : ℕ) (hmem : u ∈ placesWithin n s) :
      ∃ k, placesWithin n s = k ++ [u] ∧ ∀ w ∈ k, gap? w ≠ none := by
    clear h
    induction n generalizing s with
    | zero => exact ⟨[], congrArg (· :: []) (List.mem_singleton.mp hmem).symm, fun _ h => absurd h List.not_mem_nil⟩
    | succ n ih =>
      cases hs : gap? s with
      | none =>
        rw [placesWithin, hs] at hmem ⊢
        exact ⟨[], congrArg (· :: []) (List.mem_singleton.mp hmem).symm, fun _ h => absurd h List.not_mem_nil⟩
      | some t =>
        rw [placesWithin, hs] at hmem ⊢
        have hne : u ≠ s := fun e => by cases (e ▸ hu).symm.trans hs
        obtain ⟨k, hk, hgaps⟩ := ih ((List.mem_cons.mp hmem).resolve_left hne)
        refine ⟨s :: k, congrArg (s :: ·) hk, ?_⟩
        exact List.forall_mem_cons.mpr ⟨fun hnone => (by cases hnone.symm.trans hs), hgaps⟩
  exact within _ h

/-- The gaps before a token end in one place. -/
theorem Gap.unique (h : Gap s u) (hu : gap? u = none) (h' : Gap s v) (hv : gap? v = none) : v = u := by
  obtain ⟨k, hk, hgaps⟩ := places_eq_append h hu
  rcases List.mem_append.mp (show v ∈ k ++ [u] from hk ▸ h') with hmem | hmem
  exacts [absurd hv (hgaps v hmem), List.mem_singleton.mp hmem]

/-- A token is found where the gaps end, and before it where a gap starts. -/
theorem found_token_gap (h : Gap s u) (hu : gap? u = none) (τ : Terminal) : ∃ k,
    (token τ s).found = k ++ (τ.scan u).toList ∧
      ∀ x ∈ k, ∃ w, Gap s w ∧ gap? w ≠ none ∧ τ.scan w = some x := by
  obtain ⟨k, hk, hgaps⟩ := places_eq_append h hu
  refine ⟨k.filterMap τ.scan, ?_, fun x hx => ?_⟩
  · show (places s).filterMap τ.scan = _
    rw [hk, List.filterMap_append]
    cases hscan : τ.scan u <;> simp [hscan]
  · obtain ⟨w, hw, hscan⟩ := List.mem_filterMap.mp hx
    refine ⟨w, ?_, hgaps w hw, hscan⟩
    show w ∈ places s
    rw [hk]
    exact List.mem_append_left _ hw

/-- **A token that is no division** is found where the gaps end. -/
theorem found_token_of_ne (h : Gap s u) (hu : gap? u = none) (hτ : τ.isToken = true)
    (hne : τ ≠ .multiplicative) : (token τ s).found = (τ.scan u).toList := by
  obtain ⟨k, hk, hstart⟩ := found_token_gap h hu τ
  have hnil : k = [] := List.eq_nil_iff_forall_not_mem.mpr fun x hx => by
    obtain ⟨w, -, hw, hscan⟩ := hstart x hx
    obtain ⟨t, ht⟩ := Option.ne_none_iff_exists'.mp hw
    cases (scan_of_gap hτ hne ht).symm.trans hscan
  rw [hk, hnil, List.nil_append]

/-- **The end of the text** is found if the gaps end there. -/
theorem found_finish_gap (h : Gap s u) (hu : gap? u = none) :
    (finish s).found = if u = [] then [((), [])] else [] := by
  obtain ⟨k, hk, hgaps⟩ := places_eq_append h hu
  have hnil : (k.filterMap fun t : Text => if t = [] then some ((), t) else none) = [] := by
    refine List.filterMap_eq_nil_iff.mpr fun w hw => if_neg ?_
    rintro rfl
    exact hgaps [] hw rfl
  show (places s).filterMap _ = _
  rw [hk, List.filterMap_append, hnil]
  by_cases hend : u = [] <;> simp [hend]

/-! ## Plain splits -/

/-- No operand starts at a text. -/
def Barren (s : Text) : Prop := ∀ τ ∈ operandTerminals, ∀ u, Gap s u → τ.scan u = none

instance (s : Text) : Decidable (Barren s) :=
  inferInstanceAs (Decidable (∀ τ ∈ operandTerminals, ∀ u ∈ places s, τ.scan u = none))

/-- **No slash of a comment** at the start of a text could divide what stands before it. -/
def Settled (t : Text) : Prop :=
  ∀ u, Gap t u → gap? u ≠ none → ∀ x ∈ Terminal.multiplicative.scan u, Barren x.2

instance (t : Text) : Decidable (Settled t) :=
  inferInstanceAs (Decidable (∀ u ∈ places t, gap? u ≠ none →
    ∀ x ∈ Terminal.multiplicative.scan u, Barren x.2))

/-- Operators with an operand on either side. -/
def operators : List Terminal := [.logical, .relational, .additive, .multiplicative, .mark '?']

/-- **Whether anything may follow a value** that a text stands behind: the end, or a token that may stand
there, behind a point a name and behind an operator an operand. -/
def MayFollow (t : Text) : Prop := Gap t [] ∨ ∃ τ ∈ valueTerminals, ∃ u, Gap t u ∧ ∃ x ∈ τ.scan u,
  (τ = .mark '.' → ∃ v, Gap x.2 v ∧ (scanName v).isSome = true) ∧ (τ ∈ operators → ¬ Barren x.2)

instance (t : Text) : Decidable (MayFollow t) :=
  inferInstanceAs (Decidable ([] ∈ places t ∨ ∃ τ ∈ valueTerminals, ∃ u ∈ places t, ∃ x ∈ τ.scan u,
    (τ = .mark '.' → ∃ v ∈ places x.2, (scanName v).isSome = true) ∧ (τ ∈ operators → ¬ Barren x.2)))

/-- The terminals that a value ends with. -/
def valueEnds : List Terminal :=
  [.quoted '\'', .quoted '"', .plainTemplate, .templateTail, .number, .name, .mark ')', .mark ']']

/-- **Whether no slash of a comment could divide** what stands before a token: behind all gaps, and the slash
is one of a comment behind a value, or behind a name that an operator word starts. -/
structure Clear (τ : Terminal) (s u : Text) : Prop where
  gap : Gap s u
  gap?_eq : gap? u = none
  settled : τ ∈ valueEnds → ∀ x ∈ τ.scan u, Settled x.2
  settled_name : τ = .unary → ∀ y ∈ scanName u, Settled y.2

/-- **Whether a token stands where nothing else is read**: clearly, and an operator is no start of a name
that something may follow. -/
structure Plain (τ : Terminal) (s u : Text) : Prop extends Clear τ s u where
  unary : τ = .unary → ∀ y ∈ scanName u, ¬ MayFollow y.2

instance (τ : Terminal) (s u : Text) : Decidable (Clear τ s u) :=
  decidable_of_iff (u ∈ places s ∧ gap? u = none ∧ (τ ∈ valueEnds → ∀ x ∈ τ.scan u, Settled x.2) ∧
    (τ = .unary → ∀ y ∈ scanName u, Settled y.2))
    ⟨fun ⟨h₁, h₂, h₃, h₄⟩ => ⟨h₁, h₂, h₃, h₄⟩, fun h => ⟨h.gap, h.gap?_eq, h.settled, h.settled_name⟩⟩

instance (τ : Terminal) (s u : Text) : Decidable (Plain τ s u) :=
  decidable_of_iff (Clear τ s u ∧ (τ = .unary → ∀ y ∈ scanName u, ¬ MayFollow y.2))
    ⟨fun ⟨h, h'⟩ => ⟨h, h'⟩, fun h => ⟨h.toClear, h.unary⟩⟩

theorem Barren.found_token (h : Barren s) (hτ : τ ∈ operandTerminals) : (token τ s).found = [] := by
  refine List.eq_nil_iff_forall_not_mem.mpr fun x hx => ?_
  obtain ⟨u, hu, hscan⟩ := mem_token.mp (show (x.1, x.2) ∈ _ from hx)
  cases (h τ hτ u hu).symm.trans hscan

theorem barren_question (v : Text) : Barren ('?' :: v) := by
  have hstarts : ∀ τ ∈ operandTerminals, τ.starts '?' = false := by decide
  intro τ hτ u hu
  rw [eq_of_gap (gap?_of_isPlain (by decide) v) hu]
  exact scan_eq_none (hstarts τ hτ) v

/-! ## The next token behind a value -/

/-- How tight the operators of a level bind, where what closes something does not bind at all. -/
def Level.bond (l : Level) : ℕ := l.rank + 1

/-- How tight a token behind a value binds it; what closes something does not. -/
def Terminal.bond : Terminal → ℕ
  | .mark c => if c = '?' then 1 else if c = '.' ∨ c = '[' ∨ c = '(' then 7 else 0
  | .logical => 2
  | .relational => 3
  | .additive => 4
  | .multiplicative => 5
  | _ => 0

/-- A token of a terminal is next behind a value. -/
structure Next (τ : Terminal) (t : Text) : Prop where
  mem : τ ∈ valueTerminals
  settled : Settled t
  exists_scan : ∃ u x, Gap t u ∧ gap? u = none ∧ τ.scan u = some x

/-- **Whether a value is held**: of what binds it looser than `k` only operators are found behind it that
no operand follows, and the end of the text is not. -/
structure Held (k : ℕ) (t : Text) : Prop where
  finish : (finish t).found = []
  token : ∀ σ ∈ valueTerminals, σ.bond < k → ∀ x ∈ (token σ t).found, σ ∈ operators ∧ Barren x.2

theorem Held.mono {j k : ℕ} (h : Held k t) (hj : j ≤ k) : Held j t :=
  ⟨h.finish, fun σ hσ hlt => h.token σ hσ (hlt.trans_le hj)⟩

theorem Held.found_token {k : ℕ} (h : Held k t) (hσ : σ ∈ valueTerminals) (hlt : σ.bond < k)
    (hne : σ ∉ operators) : (Reader.token σ t).found = [] :=
  List.eq_nil_iff_forall_not_mem.mpr fun x hx => hne (h.token σ hσ hlt x hx).1

theorem Held.found_mark {k : ℕ} (h : Held k t) (hc : Terminal.mark c ∈ valueTerminals)
    (hlt : (Terminal.mark c).bond < k) (hne : Terminal.mark c ∉ operators) : (mark c t).found = [] :=
  found_bind_nil (h.found_token hc hlt hne) _

theorem isToken_of_value (hτ : τ ∈ valueTerminals) : τ.isToken = true :=
  (show ∀ τ ∈ valueTerminals, τ.isToken = true by decide) τ hτ

/-- Where a gap starts behind a value only a division is found, and nothing is read behind it. -/
theorem Settled.barren (h : Settled t) (hτ : τ ∈ valueTerminals) (hu : Gap t u) (hgap : gap? u ≠ none)
    (hscan : τ.scan u = some x) : τ = .multiplicative ∧ Barren x.2 := by
  obtain ⟨v, hv⟩ := Option.ne_none_iff_exists'.mp hgap
  have hdivides : τ = .multiplicative := by
    by_contra hne
    cases (scan_of_gap (isToken_of_value hτ) hne hv).symm.trans hscan
  exact ⟨hdivides, h u hu hgap x (hdivides ▸ hscan)⟩

/-- **The next token holds a value** as tight as it binds. -/
theorem Next.held (h : Next τ t) : Held τ.bond t := by
  obtain ⟨u, x, hgap, hu, hscan⟩ := h.exists_scan
  refine ⟨?_, fun σ hσ hlt y hy => ?_⟩
  · obtain ⟨c, v, rfl, -⟩ := exists_cons_of_scan hscan
    rw [found_finish_gap hgap hu, if_neg (List.cons_ne_nil c v)]
  · obtain ⟨k, hk, hstart⟩ := found_token_gap hgap hu σ
    rcases List.mem_append.mp (show y ∈ k ++ _ from hk ▸ hy) with hy | hy
    · obtain ⟨w, hw, hgapw, hscanw⟩ := hstart y hy
      obtain ⟨rfl, hbarren⟩ := h.settled.barren hσ hw hgapw hscanw
      exact ⟨by decide, hbarren⟩
    · rcases eq_of_value h.mem hσ hscan (Option.mem_toList.mp hy) with rfl | ⟨rfl, rfl⟩ | ⟨rfl, rfl, v, hv⟩
      · exact absurd hlt (lt_irrefl _)
      · exact absurd hlt (by decide)
      · exact ⟨by decide, hv ▸ barren_question v⟩

/-- Where nothing may follow, a value is held for good. -/
theorem held_of_not_mayFollow (h : ¬ MayFollow t) : Held 7 t := by
  refine ⟨List.eq_nil_iff_forall_not_mem.mpr fun x hx => h (.inl ?_), fun σ hσ hlt x hx => ?_⟩
  · exact (mem_finish.mp (show ((), x.2) ∈ (finish t).found from hx)).2
  · obtain ⟨u, hu, hscan⟩ := mem_token.mp (show (x.1, x.2) ∈ _ from hx)
    by_contra hnot
    exact h (.inr ⟨σ, hσ, u, hu, x, hscan, fun hpoint => absurd (hpoint ▸ hlt) (by decide),
      fun hop hbarren => hnot ⟨hop, hbarren⟩⟩)

/-! ## The ends of what tokens derive -/

/-- **What tokens derive starts with an operand.** -/
theorem Derives.exists_head (h : Derives l ws e) :
    ∃ τ a vs, ws = (τ, a) :: vs ∧ τ ∈ operandTerminals := by
  induction h with
  | tighter _ ih => exact ih
  | between _ _ _ ih | choice _ _ _ ih | index _ _ ih | call _ _ _ _ ih | member _ ih | callNone _ ih =>
    obtain ⟨τ, a, vs, rfl, hτ⟩ := ih
    exact ⟨τ, a, _, rfl, hτ⟩
  | string hq => exact ⟨_, _, _, rfl, by rcases hq with rfl | rfl <;> decide⟩
  | _ => exact ⟨_, _, _, rfl, by decide⟩

/-- **What tokens derive ends a value.** -/
theorem Derives.exists_last (h : Derives l ws e) : ∃ vs τ a, ws = vs ++ [(τ, a)] ∧ τ ∈ valueEnds := by
  induction h with
  | tighter _ ih => exact ih
  | @between _ τ _ ws _ op _ _ _ _ _ _ ih =>
    obtain ⟨vs, σ, a, rfl, hσ⟩ := ih
    exact ⟨ws ++ (τ, op) :: vs, σ, a, by simp, hσ⟩
  | @choice ws vs _ _ _ _ _ _ _ _ _ ih =>
    obtain ⟨us, σ, a, rfl, hσ⟩ := ih
    exact ⟨ws ++ markToken '?' :: (vs ++ markToken ':' :: us), σ, a, by simp, hσ⟩
  | @unary op _ _ _ ih =>
    obtain ⟨vs, σ, a, rfl, hσ⟩ := ih
    exact ⟨(.unary, op) :: vs, σ, a, rfl, hσ⟩
  | @member ws _ n => exact ⟨ws ++ [markToken '.'], .name, n, by simp, by decide⟩
  | @index ws vs => exact ⟨ws ++ markToken '[' :: vs, .mark ']', [']'], by simp [markToken], by decide⟩
  | @callNone ws => exact ⟨ws ++ [markToken '('], .mark ')', [')'], by simp [markToken], by decide⟩
  | @call ws vs _ _ more trailing =>
    exact ⟨ws ++ markToken '(' :: (vs ++ (itemTokens more ++ trailingComma trailing)), .mark ')', [')'],
      by simp [markToken], by decide⟩
  | @template head tail vs _ more =>
    exact ⟨(.templateHead, head) :: (vs ++ itemTokens more), .templateTail, tail, by simp, by decide⟩
  | @group ws => exact ⟨markToken '(' :: ws, .mark ')', [')'], by simp [markToken], by decide⟩
  | string hq => exact ⟨[], _, _, rfl, by rcases hq with rfl | rfl <;> decide⟩
  | plainTemplate | number | name => exact ⟨[], _, _, rfl, by decide⟩

variable {ok : Terminal → Text → Text → Prop}

theorem Splits.of_cons (h : Splits ok ((τ, a) :: ws) s r) :
    ∃ u t, ok τ s u ∧ τ.scan u = some (a, t) ∧ Splits ok ws t r := by
  cases h with
  | cons hok hscan h => exact ⟨_, _, hok, hscan, h⟩

theorem Splits.of_append (h : Splits ok (ws ++ vs) s r) : ∃ t, Splits ok ws s t ∧ Splits ok vs t r := by
  induction ws generalizing s with
  | nil => exact ⟨s, .nil s, h⟩
  | cons w ws ih =>
    obtain ⟨u, t, hok, hscan, h⟩ := Splits.of_cons (τ := w.1) (a := w.2) h
    obtain ⟨t', hws, hvs⟩ := ih h
    exact ⟨t', .cons hok hscan hws, hvs⟩

theorem Splits.suffix (h : Splits Plain ws s r) : r <:+ s := by
  induction h with
  | nil => exact List.suffix_rfl
  | cons hok hscan _ ih =>
    obtain ⟨w, -, rfl⟩ := exists_of_scan hscan
    exact ih.trans ((List.suffix_append w _).trans (Gap.suffix hok.gap))

/-- No slash of a comment divides what tokens derive. -/
theorem Derives.settled (h : Derives l ws e) (hs : Splits Plain ws s t) : Settled t := by
  obtain ⟨vs, τ, a, rfl, hτ⟩ := h.exists_last
  obtain ⟨r, -, hs⟩ := hs.of_append
  obtain ⟨u, t', hok, hscan, hs⟩ := hs.of_cons
  cases hs
  exact hok.settled hτ _ hscan

theorem Derives.not_barren (h : Derives l ws e) (hs : Splits Plain ws s t) : ¬ Barren s := by
  obtain ⟨τ, a, vs, rfl, hτ⟩ := h.exists_head
  obtain ⟨u, t', hok, hscan, -⟩ := hs.of_cons
  intro hbarren
  cases (hbarren τ hτ u hok.gap).symm.trans hscan

/-- No call ends where an operand starts. -/
theorem Derives.found_close (h : Derives l ws e) (hs : Splits Plain ws s t) : (mark ')' s).found = [] := by
  obtain ⟨τ, a, vs, rfl, hτ⟩ := h.exists_head
  obtain ⟨u, t', hok, hscan, -⟩ := hs.of_cons
  have hstarts : ∀ τ ∈ operandTerminals, τ.starts ')' = false := by decide
  obtain ⟨c, v, rfl, hc⟩ := exists_cons_of_scan hscan
  refine found_bind_nil (List.eq_nil_iff_forall_not_mem.mpr fun x hx => ?_) _
  rw [found_token_of_ne hok.gap hok.gap?_eq (by decide) (by simp)] at hx
  obtain rfl := (List.cons.inj (mark_eq (Option.mem_toList.mp hx))).1
  cases (hstarts τ hτ).symm.trans hc

end VariableImport.Script
