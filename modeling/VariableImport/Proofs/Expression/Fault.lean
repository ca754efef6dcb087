import VariableImport.Expression.Template
import VariableImport.Proofs.Expression.Value

/-!
# Proofs/Expression/Fault — the fault that an expression is rejected for

An expression holds operators and fragments, each at an address: the numbers of the parts that it lies in,
from the outside in (`Holds`).  The places are in order from left to right, an operator before its operands
(`Precedes`).  What lies in other expressions, or in an expression of a template that no fragment of its
own stands before, is not held.

An operator other than `+` and a wildcard in a fragment are faults, and **an expression has no glob exactly
if it has a fault, and is rejected for the first one** (`rejected_for_first_fault`), before its glob could be
refused.
-/

namespace VariableImport

open Template (Part)

namespace Expression

variable {e f : Expression} {a b : Address} {n : ℕ} {c c' : Cause}

/-! ## Places -/

/-- Fragments with the expression behind each of them, as far as there are fragments. -/
def byTurns : List Text → List Expression → List Part
  | [], _ => []
  | quasi :: quasis, [] => .static quasi :: byTurns quasis []
  | quasi :: quasis, hole :: holes => .static quasi :: .hole hole :: byTurns quasis holes

/-- **The parts of an expression** that its value is made of, from left to right. -/
def parts : Expression → List Part
  | .literal value => [.static value]
  | .template quasis holes => byTurns quasis holes
  | .binary _ left right => [.hole left, .hole right]
  | .concat receiver arguments => .hole receiver :: arguments.map .hole
  | .other .. => []

/-- What may be at fault. -/
inductive Mark where
  | operator (written : Text)
  | fragment (text : Text)

/-- **What an expression holds at an address.** -/
inductive Holds : Expression → Address → Mark → Prop
  | operator (written : Text) (left right : Expression) :
    Holds (.binary written left right) [] (.operator written)
  | fragment {e : Expression} {n : ℕ} {text : Text} (h : e.parts[n]? = some (.static text)) :
    Holds e [n] (.fragment text)
  | inside {e f : Expression} {n : ℕ} {a : Address} {m : Mark} (h : e.parts[n]? = some (.hole f))
    (hf : Holds f a m) : Holds e (n :: a) m

/-- **The faults**: operators that do not join texts, and fragments with a wildcard. -/
inductive Mark.IsFault : Mark → Cause → Prop
  | operator {written : Text} (h : written ≠ ['+']) :
    IsFault (.operator written) (.unsupportedOperator written)
  | fragment {text : Text} (h : Glob.wildcard ∈ text) : IsFault (.fragment text) (.wildcardInLiteral text)

/-- Whether one of some places is at fault. -/
def HasFault (held : Address → Mark → Prop) : Prop := ∃ a m c, held a m ∧ m.IsFault c

/-- **The order of places** from left to right: what another place lies in stands before it, and else the
first number in which they differ decides. -/
def Precedes (a b : Address) : Prop := List.Lex (· < ·) a b

theorem precedes_cons_iff {k : ℕ} : Precedes (k :: b) (n :: a) ↔ k < n ∨ k = n ∧ Precedes b a :=
  List.cons_lex_cons_iff

theorem not_precedes_nil : ¬ Precedes a [] := List.not_lex_nil

/-- Of two places one precedes the other. -/
theorem eq_of_not_precedes (h : ¬ Precedes a b) (h' : ¬ Precedes b a) : a = b := List.le_antisymm h' h

/-- **Whether the first fault of some places has a given cause.** -/
def IsFirstFault (held : Address → Mark → Prop) (c : Cause) : Prop :=
  ∃ a m, held a m ∧ m.IsFault c ∧ ∀ b m' c', held b m' → m'.IsFault c' → ¬ Precedes b a

/-- What a part holds. -/
def partHolds : Part → Address → Mark → Prop
  | .static text, a, m => a = [] ∧ m = .fragment text
  | .hole f, a, m => Holds f a m

theorem holds_cons_iff {m : Mark} :
    Holds e (n :: a) m ↔ ∃ p, e.parts[n]? = some p ∧ partHolds p a m := by
  constructor
  · intro h
    cases h with
    | fragment h => exact ⟨_, h, rfl, rfl⟩
    | inside h hf => exact ⟨_, h, hf⟩
  · rintro ⟨p, hp, hm⟩
    cases p with
    | static text =>
      obtain ⟨rfl, rfl⟩ := hm
      exact .fragment hp
    | hole f => exact .inside hp hm

/-- **One thing at most is held at an address.** -/
theorem Holds.unique {m m' : Mark} (h : Holds e a m) (h' : Holds e a m') : m = m' := by
  induction h with
  | operator => cases h'; rfl
  | fragment h =>
    obtain ⟨p, hp, hm⟩ := holds_cons_iff.mp h'
    obtain rfl := Option.some.inj (h.symm.trans hp)
    exact hm.2.symm
  | inside h _ ih =>
    obtain ⟨p, hp, hm⟩ := holds_cons_iff.mp h'
    obtain rfl := Option.some.inj (h.symm.trans hp)
    exact ih hm

theorem Mark.IsFault.unique {m : Mark} (h : m.IsFault c) (h' : m.IsFault c') : c = c' := by
  cases h <;> cases h' <;> rfl

/-- **The first fault has one cause.** -/
theorem IsFirstFault.unique (h : IsFirstFault (Holds e) c) (h' : IsFirstFault (Holds e) c') : c = c' := by
  obtain ⟨a, m, ha, hm, hfirst⟩ := h
  obtain ⟨b, m', hb, hm', hfirst'⟩ := h'
  obtain rfl := eq_of_not_precedes (hfirst' a m c ha hm) (hfirst b m' c' hb hm')
  obtain rfl := ha.unique hb
  exact hm.unique hm'

/-- An expression is larger than those among its parts. -/
theorem sizeOf_lt_of_hole_mem (h : .hole f ∈ e.parts) : sizeOf f < sizeOf e := by
  have hturns {quasis : List Text} {holes : List Expression} (h : .hole f ∈ byTurns quasis holes) :
      f ∈ holes := by
    fun_induction byTurns quasis holes with
    | case1 => simp at h
    | case2 quasi quasis ih => exact ih (by simpa using h)
    | case3 quasi quasis hole holes ih =>
      simp only [List.mem_cons, reduceCtorEq, Part.hole.injEq, false_or] at h
      exact List.mem_cons.mpr (h.imp_right ih)
  cases e with
  | literal value => simp [parts] at h
  | template quasis holes =>
    have := List.sizeOf_lt_of_mem (hturns h)
    rw [template.sizeOf_spec]
    omega
  | binary operator left right =>
    simp only [parts, List.mem_cons, Part.hole.injEq, List.not_mem_nil, or_false] at h
    rw [binary.sizeOf_spec]
    rcases h with rfl | rfl <;> omega
  | concat receiver arguments =>
    simp only [parts, List.mem_cons, Part.hole.injEq, List.mem_map, exists_eq_right] at h
    rw [concat.sizeOf_spec]
    rcases h with rfl | h
    · omega
    · have := List.sizeOf_lt_of_mem h
      omega
  | other => simp [parts] at h

end Expression

namespace Glob

open Expression

variable {e : Expression} {c : Cause} {g : Text} {p : Part} {ps : List Part}

/-! ## The glob of parts -/

/-- The glob of a part. -/
def ofPart : Part → Except Cause Text
  | .static text => fragment text
  | .hole e => ofExpression e

/-- The glob of parts one after another. -/
def ofParts : List Part → Except Cause Text
  | [] => .ok []
  | p :: ps => do return (← ofPart p) ++ (← ofParts ps)

theorem fragments_eq_ofParts (quasis : List Text) : fragments quasis = ofParts (byTurns quasis []) := by
  induction quasis with
  | nil => rfl
  | cons quasi quasis ih => rw [fragments, ih]; rfl

theorem ofTemplate_eq_ofParts (quasis : List Text) (holes : List Expression) :
    ofTemplate quasis holes = ofParts (byTurns quasis holes) := by
  fun_induction byTurns quasis holes with
  | case1 => rw [ofTemplate]; rfl
  | case2 quasi quasis => exact fragments_eq_ofParts (quasi :: quasis)
  | case3 quasi quasis hole holes ih =>
    rw [ofTemplate, ih, ofParts, ofParts, ofPart, ofPart]
    cases fragment quasi with
    | error => rfl
    | ok head =>
      cases ofExpression hole with
      | error => rfl
      | ok value =>
        cases ofParts (byTurns quasis holes) with
        | error => rfl
        | ok rest => exact congrArg Except.ok (List.append_assoc _ _ _)

theorem ofItems_eq_ofParts (es : List Expression) : ofItems es = ofParts (es.map .hole) := by
  induction es with
  | nil => rfl
  | cons e es ih => rw [ofItems, ih]; rfl

/-- **The glob of an expression is that of its parts**, if it is not rejected itself; a part that is not
known has no parts. -/
theorem ofExpression_eq_ofParts (hoperator : ∀ m c, Holds e [] m → ¬ m.IsFault c) :
    ofExpression e = ofParts e.parts ∨ e.parts = [] ∧ ∃ g, ofExpression e = .ok g := by
  cases e with
  | literal value =>
    refine .inl ?_
    rw [ofExpression, parts, ofParts, ofPart]
    cases fragment value with
    | error => rfl
    | ok text => exact congrArg Except.ok (List.append_nil text).symm
  | template quasis holes =>
    refine .inl ?_
    rw [ofExpression, ofTemplate_eq_ofParts]
    rfl
  | binary operator left right =>
    have hplus : operator = ['+'] := by
      by_contra hne
      exact hoperator _ _ (.operator operator left right) (.operator hne)
    refine .inl ?_
    rw [ofExpression, if_pos hplus, parts, ofParts, ofParts, ofPart, ofPart, ofParts]
    cases ofExpression left with
    | error => rfl
    | ok value =>
      cases ofExpression right with
      | error => rfl
      | ok rest => exact congrArg (fun t => Except.ok (value ++ t)) (List.append_nil rest).symm
  | concat receiver arguments =>
    refine .inl ?_
    rw [ofExpression, ofItems_eq_ofParts]
    rfl
  | other => exact .inr ⟨rfl, _, rfl⟩

/-- **Parts are rejected for the first part that is rejected.** -/
theorem ofParts_cases (ps : List Part) :
    (∃ g, ofParts ps = .ok g ∧ ∀ p ∈ ps, ∃ g, ofPart p = .ok g) ∨
      ∃ (n : ℕ) (p : Part) (c : Cause), ofParts ps = .error c ∧ ps[n]? = some p ∧ ofPart p = .error c ∧
        ∀ k < n, ∀ q, ps[k]? = some q → ∃ g, ofPart q = .ok g := by
  induction ps with
  | nil => exact .inl ⟨[], rfl, fun _ h => absurd h List.not_mem_nil⟩
  | cons p ps ih =>
    rw [ofParts]
    cases hp : ofPart p with
    | error c => exact .inr ⟨0, p, c, rfl, rfl, hp, fun k hk => absurd hk (Nat.not_lt_zero k)⟩
    | ok head =>
      rcases ih with ⟨rest, hrest, hall⟩ | ⟨n, q, c, hrest, hq, hc, hbefore⟩
      · rw [hrest]
        exact .inl ⟨_, rfl, List.forall_mem_cons.mpr ⟨⟨head, hp⟩, hall⟩⟩
      · rw [hrest]
        refine .inr ⟨n + 1, q, c, rfl, hq, hc, fun k hk r hr => ?_⟩
        cases k with
        | zero =>
          obtain rfl := Option.some.inj hr
          exact ⟨head, hp⟩
        | succ k => exact hbefore k (Nat.lt_of_succ_lt_succ hk) r hr

/-! ## Faults -/

/-- Whether a glob is found where there is no fault, and else the first fault is told. -/
def Tells (result : Except Cause Text) (held : Address → Mark → Prop) : Prop :=
  (∃ g, result = .ok g ∧ ¬ HasFault held) ∨ ∃ c, result = .error c ∧ IsFirstFault held c

theorem tells_fragment (s : Text) : Tells (fragment s) (partHolds (.static s)) := by
  by_cases hs : wildcard ∈ s
  · refine .inr ⟨.wildcardInLiteral s, if_pos hs, [], _, ⟨rfl, rfl⟩, .fragment hs, fun b m' c' hb _ => ?_⟩
    rw [hb.1]
    exact not_precedes_nil
  · refine .inl ⟨s, if_neg hs, ?_⟩
    rintro ⟨a, m, c, ⟨-, rfl⟩, hfault⟩
    cases hfault with
    | fragment h => exact hs h

/-- **The first fault of an expression** lies in its first part that is rejected. -/
theorem tells_of_parts (hoperator : ∀ m c, Holds e [] m → ¬ m.IsFault c)
    (hparts : ∀ p ∈ e.parts, Tells (ofPart p) (partHolds p)) : Tells (ofParts e.parts) (Holds e) := by
  have sound {p : Part} (hp : p ∈ e.parts) (hok : ∃ g, ofPart p = .ok g) : ¬ HasFault (partHolds p) := by
    rcases hparts p hp with ⟨_, -, hnone⟩ | ⟨c, herror, -⟩
    · exact hnone
    · obtain ⟨g, hg⟩ := hok
      rw [hg] at herror
      cases herror
  rcases ofParts_cases e.parts with ⟨g, hg, hall⟩ | ⟨n, p, c, hc, hn, hp, hbefore⟩
  · refine .inl ⟨g, hg, ?_⟩
    rintro ⟨a, m, c, hm, hfault⟩
    cases a with
    | nil => exact hoperator m c hm hfault
    | cons n a =>
      obtain ⟨p, hn, hp⟩ := holds_cons_iff.mp hm
      have hmem := List.mem_of_getElem? hn
      exact sound hmem (hall p hmem) ⟨a, m, c, hp, hfault⟩
  · rcases hparts p (List.mem_of_getElem? hn) with ⟨g, hok, -⟩ | ⟨c', hc', a, m, ha, hm, hfirst⟩
    · rw [hp] at hok
      cases hok
    · obtain rfl := Except.error.inj (hp.symm.trans hc')
      refine .inr ⟨c, hc, n :: a, m, holds_cons_iff.mpr ⟨p, hn, ha⟩, hm, fun b m' c' hb hm' => ?_⟩
      cases b with
      | nil => exact absurd hm' (hoperator m' c' hb)
      | cons k b =>
        obtain ⟨q, hk, hq⟩ := holds_cons_iff.mp hb
        rcases lt_trichotomy k n with hlt | rfl | hgt
        · exact absurd ⟨b, m', c', hq, hm'⟩ (sound (List.mem_of_getElem? hk) (hbefore k hlt q hk))
        · obtain rfl := Option.some.inj (hn.symm.trans hk)
          rw [precedes_cons_iff, or_iff_right (lt_irrefl k)]
          exact fun h => hfirst b m' c' hq hm' h.2
        · rw [precedes_cons_iff]
          omega

/-- **An expression is rejected for its first fault**, and has a glob if there is none. -/
theorem tells_ofExpression (e : Expression) : Tells (ofExpression e) (Holds e) := by
  by_cases hoperator : ∃ m c, Holds e [] m ∧ m.IsFault c
  · obtain ⟨m, c, hm, hc⟩ := hoperator
    cases hm with
    | operator written left right =>
      cases hc with
      | operator hne =>
        refine .inr ⟨.unsupportedOperator written, ?_, [], _, .operator written left right, .operator hne,
          fun _ _ _ _ _ => not_precedes_nil⟩
        rw [ofExpression, if_neg hne]
  · have hoperator : ∀ m c, Holds e [] m → ¬ m.IsFault c := fun m c hm hc => hoperator ⟨m, c, hm, hc⟩
    have htells : Tells (ofParts e.parts) (Holds e) := by
      refine tells_of_parts hoperator fun p hp => ?_
      cases p with
      | static text => exact tells_fragment text
      | hole f =>
        have := sizeOf_lt_of_hole_mem hp
        exact tells_ofExpression f
    rcases ofExpression_eq_ofParts hoperator with hparts | ⟨hnil, g, hg⟩
    · rwa [hparts]
    · rcases htells with ⟨_, -, hnone⟩ | ⟨c, hc, -⟩
      · exact .inl ⟨g, hg, hnone⟩
      · rw [hnil] at hc
        cases hc
termination_by sizeOf e

theorem ofExpression_eq_error_iff : ofExpression e = .error c ↔ IsFirstFault (Holds e) c := by
  rcases tells_ofExpression e with ⟨g, hg, hnone⟩ | ⟨c', hc', hfirst⟩
  · refine ⟨fun h => by simp [hg] at h, fun ⟨a, m, ha, hm, _⟩ => absurd ⟨a, m, c, ha, hm⟩ hnone⟩
  · rw [hc']
    exact ⟨fun h => Except.error.inj h ▸ hfirst, fun h => congrArg _ (hfirst.unique h)⟩

theorem exists_error_iff : (∃ c, ofExpression e = .error c) ↔ HasFault (Holds e) := by
  rcases tells_ofExpression e with ⟨g, hg, hnone⟩ | ⟨c, hc, a, m, ha, hm, -⟩
  · simp [hg, hnone]
  · exact iff_of_true ⟨c, hc⟩ ⟨a, m, c, ha, hm⟩

/-- A glob that is refused quotes the source. -/
theorem exists_of_validate {source : Text} {r : ImportError} (h : validate g source = .error r) :
    ∃ c, r = ⟨c, some source⟩ := by
  unfold validate at h
  split_ifs at h <;> exact ⟨_, (Except.error.inj h).symm⟩

/-- **An import is rejected for the first fault of its expression.**  An expression has no glob exactly if
it has a fault, and the error is that of the first one.  With a resolver that does not fail, every error
quotes the source; it is that of the first fault if there is any, and else that of a glob that is refused. -/
theorem rejected_for_first_fault {resolver : Text → Except Failure (Option Resolved)}
    (hresolver : ∀ raw, ∃ r, resolver raw = .ok r) (e : Expression) (source : Text) :
    ((∃ c, ofExpression e = .error c) ↔ HasFault (Holds e)) ∧
    (∀ c, ofExpression e = .error c ↔ IsFirstFault (Holds e) c) ∧
    (∀ c, IsFirstFault (Holds e) c →
      GlobPattern.ofExpression e source resolver = .error (.rejected ⟨c, some source⟩)) ∧
    ∀ failure, GlobPattern.ofExpression e source resolver = .error failure →
      ∃ c, failure = .rejected ⟨c, some source⟩ ∧ (IsFirstFault (Holds e) c ∨
        ¬ HasFault (Holds e) ∧ ∃ raw r, ofExpression e = .ok raw ∧ resolver raw = .ok r ∧
          validate (collapse ((r.map Resolved.path).getD raw)) source = .error ⟨c, some source⟩) := by
  refine ⟨exists_error_iff, fun c => ofExpression_eq_error_iff, fun c hc => ?_, fun failure h => ?_⟩
  · rw [GlobPattern.ofExpression, ofExpression_eq_error_iff.mpr hc]
  · rw [GlobPattern.ofExpression] at h
    cases he : ofExpression e with
    | error c =>
      rw [he] at h
      exact ⟨c, (Except.error.inj h).symm, .inl (ofExpression_eq_error_iff.mp he)⟩
    | ok raw =>
      have hnone : ¬ HasFault (Holds e) := fun hfault => by
        obtain ⟨c, hc⟩ := exists_error_iff.mpr hfault
        rw [he] at hc
        cases hc
      obtain ⟨r, hr⟩ := hresolver raw
      simp only [he, hr, bind, Except.bind, pure, Except.pure] at h
      split at h
      · cases hvalid : validate (collapse ((r.map Resolved.path).getD raw)) source with
        | ok => simp [hvalid] at h
        | error refused =>
          obtain ⟨c, rfl⟩ := exists_of_validate hvalid
          rw [hvalid] at h
          exact ⟨c, (Except.error.inj h).symm, .inr ⟨hnone, raw, r, rfl, hr, hvalid⟩⟩
      · cases h

/-- A template of an absolute path with a fault in its first expression, one in the fragment behind it, and one
in an expression that no fragment stands before. -/
def faultyTemplate : Expression :=
  .template ["/a/".toList, "*.js".toList] [.binary ['-'] (.literal ['*']) (.identifier ['b']),
    .identifier ['c'], .literal ['*']]

/-- A resolver that knows no specifier. -/
def resolvesNothing : Text → Except Failure (Option Resolved) := fun _ => .ok none

/-- The operator is told before the wildcard in its operand and the one behind it, and before the glob could be
refused for its path. -/
theorem rejected_for_first_operator :
    (∀ raw, ∃ r, resolvesNothing raw = .ok r) ∧
      IsFirstFault (Holds faultyTemplate) (.unsupportedOperator ['-']) ∧
        GlobPattern.ofExpression faultyTemplate "import(s)".toList resolvesNothing =
          .error (.rejected ⟨.unsupportedOperator ['-'], some "import(s)".toList⟩) := by
  have hresolver : ∀ raw, ∃ r, resolvesNothing raw = .ok r := fun _ => ⟨none, rfl⟩
  have hfaults := rejected_for_first_fault hresolver faultyTemplate "import(s)".toList
  have hfirst := (hfaults.2.1 (.unsupportedOperator ['-'])).mp (by decide +kernel)
  exact ⟨hresolver, hfirst, hfaults.2.2.1 _ hfirst⟩

end Glob

end VariableImport
