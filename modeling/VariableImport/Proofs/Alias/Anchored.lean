import VariableImport.Proofs.Alias.Target

/-!
# Proofs/Alias/Anchored — aliases that mean the same everywhere

A replacement that starts with a dot is put in place of the alias, and one from the root is a directory
wherever it is taken.  Any other is taken from the working directory (`AliasRule.IsUnanchored`), although
nothing else of a resolver is: two resolvers with the same rules and packages from the root agree on a
specifier unless the first rule that matches it has such a replacement (`resolve_congr`).  There **the way
depends on the working directory** (`resolve_anywhere_iff`).
-/

namespace VariableImport

/-- Whether the replacement of a rule is a directory that is named neither by dots nor from the root. -/
def AliasRule.IsUnanchored (rule : AliasRule) : Prop :=
  rule.replacement ≠ [] ∧ rule.replacement.head? ≠ some '.' ∧ Path.isAbsolute rule.replacement = false

instance (rule : AliasRule) : Decidable rule.IsUnanchored :=
  inferInstanceAs (Decidable (rule.replacement ≠ [] ∧ _ ∧ _))

namespace AliasResolver

variable {resolver resolver' : AliasResolver} {rule : AliasRule} {rules : List AliasRule}
  {engine : Engine} {cwd cwd' specifier importer : Text} {span : ℕ × ℕ}

/-- **Whether a specifier drifts**: the first rule that matches it is unanchored. -/
def Drifts (rules : List AliasRule) (specifier : Text) (engine : Engine := Pattern.engine) : Prop :=
  ∃ rule, IsFirstMatch rules specifier rule engine ∧ rule.IsUnanchored

/-- Among anchored rules no specifier drifts. -/
theorem not_drifts (h : ∀ rule ∈ rules, ¬ rule.IsUnanchored) : ¬ Drifts rules specifier engine := by
  rintro ⟨rule, ⟨before, after, span, rfl, -, -⟩, hunanchored⟩
  exact h rule (List.mem_append_right before (List.mem_cons_self ..)) hunanchored

/-! ## Anchored rules -/

/-- **An anchored rule** is applied alike in every working directory. -/
theorem apply_anchored (himporter : Path.isAbsolute importer = true) (h : ¬ rule.IsUnanchored) :
    apply cwd rule span specifier importer = apply cwd' rule span specifier importer := by
  by_cases hdot : rule.replacement.head? = some '.'
  · rw [apply, apply, if_pos hdot, if_pos hdot]
  · rw [apply, apply, if_neg hdot, if_neg hdot, Path.relativeFrom?, Path.relativeFrom?]
    by_cases hempty : rule.replacement = []
    · rw [if_pos hempty, if_pos hempty]
    · have hroot : Path.isAbsolute rule.replacement = true := by
        by_contra hroot
        exact h ⟨hempty, hdot, Bool.eq_false_iff.mpr hroot⟩
      rw [Path.relative_of_isAbsolute (Path.isAbsolute_dirname himporter) hroot cwd cwd']

/-- A rule that passes a specifier on is not the first that matches. -/
theorem Drifts.cons (hspan : rule.span specifier engine = .ok none) (h : Drifts rules specifier engine) :
    Drifts (rule :: rules) specifier engine := by
  obtain ⟨found, ⟨before, after, span, rfl, hbefore, hfound⟩, hunanchored⟩ := h
  exact ⟨found, ⟨rule :: before, after, span, rfl, List.forall_mem_cons.mpr ⟨hspan, hbefore⟩, hfound⟩,
    hunanchored⟩

theorem firstMatch_anchored (cwd cwd' : Text) (himporter : Path.isAbsolute importer = true)
    (h : ¬ Drifts rules specifier engine) :
    firstMatch engine cwd specifier importer rules = firstMatch engine cwd' specifier importer rules := by
  induction rules with
  | nil => rfl
  | cons rule rules ih =>
    rw [firstMatch, firstMatch]
    cases hspan : rule.span specifier engine with
    | error failure => rfl
    | ok found =>
      cases found with
      | none => exact ih fun hlater => h (hlater.cons hspan)
      | some span =>
        have hrule : ¬ rule.IsUnanchored := fun hunanchored =>
          h ⟨rule, ⟨[], rules, span, rfl, fun _ hq => absurd hq List.not_mem_nil, hspan⟩, hunanchored⟩
        show (do return some (← apply cwd rule span specifier importer)) = _
        rw [apply_anchored himporter hrule]
        rfl

/-! ## Packages -/

/-- **Packages from the root** are found and reached alike. -/
theorem resolveBare_congr (hpackages : resolver'.packages = resolver.packages)
    (hroot : Path.isAbsolute resolver.packages = true) (himporter : Path.isAbsolute importer = true)
    (hprobe : ∀ p, Path.isAbsolute p = true → resolver'.probe p = resolver.probe p) :
    resolver'.resolveBare specifier importer = resolver.resolveBare specifier importer := by
  have hway : resolver'.wayToPackages importer = resolver.wayToPackages importer := by
    rw [wayToPackages, wayToPackages, hpackages,
      Path.relative_of_isAbsolute (Path.isAbsolute_dirname himporter) hroot resolver'.cwd resolver.cwd]
  simp only [resolveBare, hway, hpackages, hprobe _ (Path.isAbsolute_append hroot _)]

/-! ## Resolving -/

/-- Resolvers with the same rules in one working directory resolve alike. -/
theorem resolve_congr_probe (hrules : resolver'.rules = resolver.rules)
    (hengine : resolver'.engine = resolver.engine) (hcwd : resolver'.cwd = resolver.cwd)
    (hpackages : resolver'.packages = resolver.packages)
    (hprobe : ∀ p, Path.isAbsolute p = true → resolver'.probe p = resolver.probe p)
    (hroot : Path.isAbsolute resolver.packages = true) (himporter : Path.isAbsolute importer = true) :
    resolver'.resolve specifier importer = resolver.resolve specifier importer := by
  rw [resolve, resolve, resolveAlias, resolveAlias, hrules, hengine, hcwd,
    resolveBare_congr hpackages hroot himporter hprobe]

/-- **Resolvers that differ in the working directory** resolve a specifier alike unless it drifts. -/
theorem resolve_congr (hrules : resolver'.rules = resolver.rules) (hengine : resolver'.engine = resolver.engine)
    (hpackages : resolver'.packages = resolver.packages)
    (hprobe : ∀ p, Path.isAbsolute p = true → resolver'.probe p = resolver.probe p)
    (hroot : Path.isAbsolute resolver.packages = true) (himporter : Path.isAbsolute importer = true)
    (h : ¬ Drifts resolver.rules specifier resolver.engine) :
    resolver'.resolve specifier importer = resolver.resolve specifier importer := by
  rw [resolve, resolve, resolveAlias, resolveAlias, hrules, hengine,
    firstMatch_anchored resolver'.cwd resolver.cwd himporter h,
    resolveBare_congr hpackages hroot himporter hprobe]

/-- An unanchored replacement is found from the working directory. -/
theorem apply_unanchored (span : ℕ × ℕ) (specifier : Text) (hcwd : Path.isAbsolute cwd = true)
    (himporter : Path.isAbsolute importer = true) (h : rule.IsUnanchored) :
    ∃ way, apply cwd rule span specifier importer = .ok (place rule way span.1 span.2 specifier importer) ∧
      Path.walk (Path.walk [] (Path.dirname importer)) way =
        Path.walk [] (Path.append cwd rule.replacement) := by
  obtain ⟨hne, hdot, -⟩ := h
  refine ⟨_, by rw [apply, if_neg hdot, Path.relativeFrom?, if_neg hne], ?_⟩
  rw [Path.walk_relativeify, ← Path.relative_append hcwd]
  exact Path.walk_relative (Path.isAbsolute_dirname himporter) (Path.isAbsolute_append hcwd _)

/-- **A specifier is resolved alike everywhere** exactly if it does not drift. -/
theorem resolve_anywhere_iff (hroot : Path.isAbsolute resolver.packages = true)
    (himporter : Path.isAbsolute importer = true) :
    (∀ cwd cwd', Path.isAbsolute cwd = true → Path.isAbsolute cwd' = true →
      { resolver with cwd := cwd }.resolve specifier importer =
        { resolver with cwd := cwd' }.resolve specifier importer) ↔
      ¬ Drifts resolver.rules specifier resolver.engine := by
  constructor
  · rintro halike ⟨rule, ⟨before, after, span, hrules, hbefore, hspan⟩, hunanchored⟩
    obtain ⟨cwd, cwd', hcwd, hcwd', hne⟩ := Path.exists_walk_append_ne hunanchored.2.2
    obtain ⟨way, happly, hway⟩ := apply_unanchored span specifier hcwd himporter hunanchored
    obtain ⟨way', happly', hway'⟩ := apply_unanchored span specifier hcwd' himporter hunanchored
    have hresolved {cwd : Text} {r : Resolved} (h : apply cwd rule span specifier importer = .ok r) :
        { resolver with cwd := cwd }.resolve specifier importer = .ok (some r) :=
      resolve_eq_some.mpr (.inl (firstMatch_eq_some.mpr ⟨before, rule, after, span, hrules, hbefore, hspan, h⟩))
    have h := (hresolved happly).symm.trans ((halike cwd cwd' hcwd hcwd').trans (hresolved happly'))
    have hpath := congrArg Resolved.path (Option.some.inj (Except.ok.inj h))
    obtain rfl : way = way' := List.append_cancel_right hpath
    exact hne (hway.symm.trans hway')
  · intro h cwd cwd' _ _
    exact resolve_congr rfl rfl rfl (fun _ _ => rfl) hroot himporter h

end AliasResolver

end VariableImport
