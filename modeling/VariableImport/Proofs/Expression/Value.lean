import VariableImport.Proofs.Glob.Instance

/-!
# Proofs/Expression/Value — what an import expression may evaluate to

The parts of an expression that are not known take their texts from an `Assignment`; the rest is
joined as it is written (`value`).  The raw glob of an expression stands for exactly the values that
the expression has under the assignments (`instance_ofExpression`), and it holds a wildcard exactly
if there is a part to assign (`wildcard_mem_ofExpression`).
-/

namespace VariableImport

/-! ## Assignments -/

/-- The way to a part of an expression: which operand to enter, from the outside in. -/
abbrev Address := List Nat

/-- A text for the part at every address. -/
abbrev Assignment := Address → Text

namespace Assignment

/-- What an assignment says of one operand. -/
def part (σ : Assignment) (n : Nat) : Assignment := fun address => σ (n :: address)

/-- An assignment with another one for one operand. -/
def put (σ : Assignment) (n : Nat) (τ : Assignment) : Assignment
  | [] => σ []
  | k :: address => if k = n then τ address else σ (k :: address)

@[simp] theorem part_put_self (σ : Assignment) (n : Nat) (τ : Assignment) :
    (σ.put n τ).part n = τ := by
  funext address
  simp [part, put]

theorem part_put_of_ne (σ : Assignment) {n k : Nat} (τ : Assignment) (h : k ≠ n) :
    (σ.put n τ).part k = σ.part k := by
  funext address
  simp [part, put, h]

end Assignment

namespace Expression

/-! ## Values -/

/-- Fragments with texts between them; a text that no fragment stands before does not count. -/
def interleave : List Text → List Text → Text
  | [], _ => []
  | quasis, [] => quasis.flatten
  | quasi :: quasis, text :: texts => quasi ++ text ++ interleave quasis texts

mutual

/-- **The value of an expression** under an assignment to the parts that are not known. -/
def value (σ : Assignment) : Expression → Text
  | .literal value => value
  | .template quasis holes => interleave quasis (values σ 0 holes)
  | .binary _ left right => value (σ.part 0) left ++ value (σ.part 1) right
  | .concat receiver arguments => value (σ.part 0) receiver ++ (values σ 1 arguments).flatten
  | .other .. => σ []

/-- The values of operands that are numbered from `n` on. -/
def values (σ : Assignment) (n : Nat) : List Expression → List Text
  | [] => []
  | e :: es => value (σ.part n) e :: values σ (n + 1) es

end

/-- Operands take their values from their own parts of the assignment. -/
theorem values_congr {σ τ : Assignment} {n : Nat} (es : List Expression)
    (h : ∀ k, n ≤ k → σ.part k = τ.part k) : values σ n es = values τ n es := by
  induction es generalizing n with
  | nil => rfl
  | cons e es ih =>
    rw [values, values, h n le_rfl, ih fun k hk => h k (Nat.le_of_succ_le hk)]

theorem values_put (σ τ : Assignment) (n : Nat) (e : Expression) (es : List Expression) :
    values (σ.put n τ) n (e :: es) = value τ e :: values σ (n + 1) es := by
  rw [values, Assignment.part_put_self,
    values_congr es fun k hk => σ.part_put_of_ne τ (Nat.ne_of_gt hk)]

mutual

/-- Whether evaluation comes to a part that is not known. -/
def hasUnknown : Expression → Bool
  | .literal _ => false
  | .template quasis holes => anyUnknown quasis.length holes
  | .binary _ left right => hasUnknown left || hasUnknown right
  | .concat receiver arguments => hasUnknown receiver || anyUnknown arguments.length arguments
  | .other .. => true

/-- Whether `hasUnknown` holds of one of the first `n` members. -/
def anyUnknown : Nat → List Expression → Bool
  | n + 1, e :: es => hasUnknown e || anyUnknown n es
  | _, _ => false

end

end Expression

/-! ## Globs and values -/

namespace Glob

open Expression

/-- Two results joined, where both are there. -/
theorem append_eq_ok {x y : Except Cause Text} {g : Text}
    (h : (do return (← x) ++ (← y)) = Except.ok g) :
    ∃ a b, x = .ok a ∧ y = .ok b ∧ g = a ++ b := by
  cases x with
  | error e => simp [bind, Except.bind] at h
  | ok a =>
    cases y with
    | error e => simp [bind, Except.bind] at h
    | ok b => exact ⟨a, b, rfl, rfl, (Except.ok.inj h).symm⟩

theorem fragment_eq_ok {s g : Text} (h : fragment s = .ok g) : g = s ∧ wildcard ∉ s := by
  unfold fragment at h
  split at h
  · simp at h
  · next hs => exact ⟨(Except.ok.inj h).symm, hs⟩

/-- A template from its first hole on, taken apart. -/
theorem ofTemplate_cons_eq_ok {quasi : Text} {quasis : List Text} {hole : Expression}
    {holes : List Expression} {g : Text}
    (h : ofTemplate (quasi :: quasis) (hole :: holes) = .ok g) :
    ∃ a b, ofExpression hole = .ok a ∧ ofTemplate quasis holes = .ok b ∧
      fragment quasi = .ok quasi ∧ g = quasi ++ a ++ b := by
  rw [ofTemplate] at h
  cases hq : fragment quasi with
  | error e => simp [hq, bind, Except.bind] at h
  | ok head =>
    cases ha : ofExpression hole with
    | error e => simp [hq, ha, bind, Except.bind] at h
    | ok a =>
      cases hb : ofTemplate quasis holes with
      | error e => simp [hq, ha, hb, bind, Except.bind] at h
      | ok b =>
        obtain ⟨rfl, -⟩ := fragment_eq_ok hq
        simp only [hq, ha, hb, bind, Except.bind, pure, Except.pure, Except.ok.injEq] at h
        exact ⟨a, b, rfl, rfl, rfl, h.symm⟩

theorem instance_fragment {q g s : Text} (h : fragment q = .ok g) : Instance g s ↔ s = q := by
  obtain ⟨rfl, hq⟩ := fragment_eq_ok h
  exact instance_fixed hq

theorem fragments_eq_ok {quasis : List Text} {g : Text} (h : fragments quasis = .ok g) :
    g = quasis.flatten ∧ wildcard ∉ g := by
  induction quasis generalizing g with
  | nil =>
    obtain rfl := Except.ok.inj h
    simp
  | cons q quasis ih =>
    obtain ⟨a, b, ha, hb, rfl⟩ := append_eq_ok h
    obtain ⟨rfl, hq⟩ := fragment_eq_ok ha
    obtain ⟨rfl, hb⟩ := ih hb
    exact ⟨rfl, by simpa [hq] using hb⟩

mutual

/-- **The raw glob of an expression stands for exactly its values.** -/
theorem instance_ofExpression (e : Expression) {g : Text} (h : ofExpression e = .ok g) (s : Text) :
    Instance g s ↔ ∃ σ, value σ e = s := by
  match e with
  | .literal v =>
    rw [instance_fragment h]
    exact ⟨fun e => ⟨fun _ => [], e.symm⟩, fun ⟨_, e⟩ => e.symm⟩
  | .template quasis holes => exact instance_ofTemplate quasis holes 0 h s
  | .binary operator left right =>
    rw [ofExpression] at h
    split at h
    · obtain ⟨a, b, ha, hb, rfl⟩ := append_eq_ok h
      rw [instance_append]
      constructor
      · rintro ⟨x, y, rfl, hx, hy⟩
        obtain ⟨σ, rfl⟩ := (instance_ofExpression left ha x).mp hx
        obtain ⟨τ, rfl⟩ := (instance_ofExpression right hb y).mp hy
        refine ⟨(Assignment.put (fun _ => []) 0 σ).put 1 τ, ?_⟩
        rw [value, Assignment.part_put_self, Assignment.part_put_of_ne _ _ (by decide),
          Assignment.part_put_self]
      · rintro ⟨σ, rfl⟩
        exact ⟨_, _, rfl, (instance_ofExpression left ha _).mpr ⟨_, rfl⟩,
          (instance_ofExpression right hb _).mpr ⟨_, rfl⟩⟩
    · simp at h
  | .concat receiver arguments =>
    obtain ⟨a, b, ha, hb, rfl⟩ := append_eq_ok h
    rw [instance_append]
    constructor
    · rintro ⟨x, y, rfl, hx, hy⟩
      obtain ⟨σ, rfl⟩ := (instance_ofExpression receiver ha x).mp hx
      obtain ⟨τ, rfl⟩ := (instance_ofItems arguments 1 hb y).mp hy
      refine ⟨τ.put 0 σ, ?_⟩
      rw [value, Assignment.part_put_self,
        values_congr arguments fun k hk => τ.part_put_of_ne σ (Nat.ne_of_gt hk)]
    · rintro ⟨σ, rfl⟩
      exact ⟨_, _, rfl, (instance_ofExpression receiver ha _).mpr ⟨_, rfl⟩,
        (instance_ofItems arguments 1 hb _).mpr ⟨_, rfl⟩⟩
  | .other .. =>
    obtain rfl := Except.ok.inj h
    exact ⟨fun _ => ⟨fun _ => s, rfl⟩, fun _ => instance_wildcard s⟩

theorem instance_ofTemplate (quasis : List Text) (holes : List Expression) (n : Nat) {g : Text}
    (h : ofTemplate quasis holes = .ok g) (s : Text) :
    Instance g s ↔ ∃ σ, interleave quasis (values σ n holes) = s := by
  match quasis, holes with
  | [], holes =>
    rw [ofTemplate] at h
    obtain rfl := Except.ok.inj h
    rw [instance_nil]
    exact ⟨fun e => ⟨fun _ => [], e.symm⟩, fun ⟨_, e⟩ => e.symm⟩
  | quasi :: quasis, [] =>
    obtain ⟨rfl, hg⟩ := fragments_eq_ok h
    rw [instance_fixed hg]
    exact ⟨fun e => ⟨fun _ => [], e.symm⟩, fun ⟨_, e⟩ => e.symm⟩
  | quasi :: quasis, hole :: holes =>
    obtain ⟨a, b, ha, hb, hq, rfl⟩ := ofTemplate_cons_eq_ok h
    rw [instance_append]
    constructor
    · rintro ⟨x, y, rfl, hx, hy⟩
      obtain ⟨q, v, rfl, hqx, hv⟩ := instance_append.mp hx
      obtain rfl := (instance_fragment hq).mp hqx
      obtain ⟨σ, rfl⟩ := (instance_ofExpression hole ha v).mp hv
      obtain ⟨τ, rfl⟩ := (instance_ofTemplate quasis holes (n + 1) hb y).mp hy
      refine ⟨τ.put n σ, ?_⟩
      rw [values_put, interleave]
    · rintro ⟨σ, rfl⟩
      refine ⟨_, _, rfl, ?_, (instance_ofTemplate quasis holes (n + 1) hb _).mpr ⟨σ, rfl⟩⟩
      exact (instance_self quasi).append ((instance_ofExpression hole ha _).mpr ⟨_, rfl⟩)

theorem instance_ofItems (es : List Expression) (n : Nat) {g : Text} (h : ofItems es = .ok g)
    (s : Text) : Instance g s ↔ ∃ σ, (values σ n es).flatten = s := by
  match es with
  | [] =>
    obtain rfl := Except.ok.inj h
    rw [instance_nil]
    exact ⟨fun e => ⟨fun _ => [], e.symm⟩, fun ⟨_, e⟩ => e.symm⟩
  | e :: es =>
    obtain ⟨a, b, ha, hb, rfl⟩ := append_eq_ok h
    rw [instance_append]
    constructor
    · rintro ⟨x, y, rfl, hx, hy⟩
      obtain ⟨σ, rfl⟩ := (instance_ofExpression e ha x).mp hx
      obtain ⟨τ, rfl⟩ := (instance_ofItems es (n + 1) hb y).mp hy
      refine ⟨τ.put n σ, ?_⟩
      rw [values_put, List.flatten_cons]
    · rintro ⟨σ, rfl⟩
      exact ⟨_, _, rfl, (instance_ofExpression e ha _).mpr ⟨_, rfl⟩,
        (instance_ofItems es (n + 1) hb _).mpr ⟨σ, rfl⟩⟩

end

/-! ## Wildcards and parts that are not known -/

mutual

/-- **The raw glob holds a wildcard exactly if evaluation comes to a part that is not known.** -/
theorem wildcard_mem_ofExpression (e : Expression) {g : Text} (h : ofExpression e = .ok g) :
    wildcard ∈ g ↔ e.hasUnknown = true := by
  match e with
  | .literal v =>
    obtain ⟨rfl, hv⟩ := fragment_eq_ok h
    simp [hv, hasUnknown]
  | .template quasis holes => exact wildcard_mem_ofTemplate quasis holes h
  | .binary operator left right =>
    rw [ofExpression] at h
    split at h
    · obtain ⟨a, b, ha, hb, rfl⟩ := append_eq_ok h
      rw [List.mem_append, wildcard_mem_ofExpression left ha, wildcard_mem_ofExpression right hb,
        hasUnknown, Bool.or_eq_true]
    · simp at h
  | .concat receiver arguments =>
    obtain ⟨a, b, ha, hb, rfl⟩ := append_eq_ok h
    rw [List.mem_append, wildcard_mem_ofExpression receiver ha,
      wildcard_mem_ofItems arguments hb, hasUnknown, Bool.or_eq_true]
  | .other .. =>
    obtain rfl := Except.ok.inj h
    simp [hasUnknown]

theorem wildcard_mem_ofTemplate (quasis : List Text) (holes : List Expression) {g : Text}
    (h : ofTemplate quasis holes = .ok g) :
    wildcard ∈ g ↔ anyUnknown quasis.length holes = true := by
  match quasis, holes with
  | [], holes =>
    rw [ofTemplate] at h
    obtain rfl := Except.ok.inj h
    simp [anyUnknown]
  | quasi :: quasis, [] =>
    simp [(fragments_eq_ok h).2, anyUnknown]
  | quasi :: quasis, hole :: holes =>
    obtain ⟨a, b, ha, hb, hq, rfl⟩ := ofTemplate_cons_eq_ok h
    rw [List.mem_append, List.mem_append, wildcard_mem_ofExpression hole ha,
      wildcard_mem_ofTemplate quasis holes hb, List.length_cons, anyUnknown, Bool.or_eq_true]
    simp [(fragment_eq_ok hq).2]

theorem wildcard_mem_ofItems (es : List Expression) {g : Text} (h : ofItems es = .ok g) :
    wildcard ∈ g ↔ anyUnknown es.length es = true := by
  match es with
  | [] =>
    obtain rfl := Except.ok.inj h
    simp [anyUnknown]
  | e :: es =>
    obtain ⟨a, b, ha, hb, rfl⟩ := append_eq_ok h
    rw [List.mem_append, wildcard_mem_ofExpression e ha, wildcard_mem_ofItems es hb,
      List.length_cons, anyUnknown, Bool.or_eq_true]

end

/-- What starts an address that holds its own data. -/
def dataScheme : Text := ['d', 'a', 't', 'a', ':']

theorem isDynamic_ofExpression {e : Expression} {raw : Text} (h : ofExpression e = .ok raw) :
    isDynamic raw = false ↔ e.hasUnknown = false ∨ raw.startsWith dataScheme = true := by
  have hw := wildcard_mem_ofExpression e h
  cases hu : e.hasUnknown with
  | false => simp [isDynamic, hw, hu]
  | true => simp [isDynamic, hw, hu, dataScheme]

/-- Without a resolver a glob is found not to be dynamic by its raw text alone. -/
theorem exists_fixed_iff {e : Expression} {raw : Text} (h : ofExpression e = .ok raw)
    (source : Text) :
    (∃ p, GlobPattern.ofExpression e source (fun _ => .ok none) = .ok p ∧ p.dynamic = false) ↔
      isDynamic raw = false := by
  simp only [GlobPattern.ofExpression, h, bind, Except.bind, Option.map_none, Option.getD_none]
  split
  · next hd =>
    split
    · simp [hd]
    · simp [hd, pure, Except.pure]
  · next hd => simpa [pure, Except.pure] using hd

/-- **What the raw glob of an expression says.**  Its instances are the values of the expression;
collapsing keeps the instances of every glob and leaves no run of wildcards; and without a resolver
an expression counts as fixed exactly if nothing in it is not known or it spells its own data. -/
theorem ofExpression_iff_value {e : Expression} {raw : Text} (h : ofExpression e = .ok raw) :
    (∀ s, Instance raw s ↔ ∃ σ, value σ e = s) ∧
    (∀ g, (∀ s, Instance (collapse g) s ↔ Instance g s) ∧
      ¬ [wildcard, wildcard] <:+: collapse g) ∧
    ∀ source,
      (∃ p, GlobPattern.ofExpression e source (fun _ => .ok none) = .ok p ∧ p.dynamic = false) ↔
        e.hasUnknown = false ∨ raw.startsWith dataScheme = true :=
  ⟨instance_ofExpression e h, fun g => ⟨instance_collapse g, not_infix_collapse g⟩,
    fun source => (exists_fixed_iff h source).trans (isDynamic_ofExpression h)⟩

/-- A view named by two variables with a letter between them, `a.concat('b', c)` in a template. -/
def twoPartView : Expression :=
  .template ["./views/".toList, ".js".toList]
    [.concat (.identifier ['a']) [.literal ['b'], .identifier ['c']]]

theorem twoPartView_iff_value :
    ofExpression twoPartView = .ok "./views/*b*.js".toList ∧
    (∃ σ, value σ twoPartView = "./views/xb/y.js".toList) ∧
    ¬ [wildcard, wildcard] <:+: collapse "./views/*b**.js".toList ∧
    ∀ source, ¬ ∃ p, GlobPattern.ofExpression twoPartView source (fun _ => .ok none) = .ok p ∧
      p.dynamic = false := by
  have hraw : ofExpression twoPartView = .ok "./views/*b*.js".toList := by decide +kernel
  obtain ⟨hvalue, hcollapse, hfixed⟩ := ofExpression_iff_value hraw
  have hs : Instance ("./views/".toList ++ wildcard :: 'b' :: wildcard :: ".js".toList)
      ("./views/".toList ++ (['x'] ++ 'b' :: ("/y".toList ++ ".js".toList))) :=
    (instance_self _).append (.star _ (.char (by decide) (.star _ (instance_self _))))
  exact ⟨hraw, (hvalue _).mp hs, (hcollapse _).2, fun source => (hfixed source).not.mpr (by decide)⟩

end Glob

end VariableImport
