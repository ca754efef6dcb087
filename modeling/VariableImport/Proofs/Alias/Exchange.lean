import VariableImport.Proofs.Alias.Heads

/-!
# Proofs/Alias/Exchange — heads are exchanged back

A specifier and the path that it is resolved to are alike behind their heads, where the rule takes the
beginning of the specifier or puts a relative text in place of what it matches; anywhere else no head is
kept and no path is exchanged (`heads_exchange`).  Resolving is inverted once, by the first rule that
matches (`firstMatch_eq_some`) or by none (`firstMatch_eq_none`).
-/

namespace VariableImport

namespace AliasResolver

variable {resolver : AliasResolver} {engine : Engine} {cwd specifier importer : Text} {rules : List AliasRule}
  {r : Resolved}

/-! ## The rule that matches -/

/-- **The first rule of a table that matches** a specifier. -/
def IsFirstMatch (rules : List AliasRule) (specifier : Text) (rule : AliasRule)
    (engine : Engine := Pattern.engine) : Prop :=
  ∃ before after span, rules = before ++ rule :: after ∧
    (∀ q ∈ before, q.span specifier engine = .ok none) ∧ rule.span specifier engine = .ok (some span)

/-- A table without a match for a specifier. -/
theorem firstMatch_eq_none :
    firstMatch engine cwd specifier importer rules = .ok none ↔
      ∀ q ∈ rules, q.span specifier engine = .ok none := by
  induction rules with
  | nil => simp [firstMatch]
  | cons rule rules ih =>
    rw [List.forall_mem_cons, ← ih, firstMatch, bind_eq_ok]
    constructor
    · rintro ⟨span, hspan, h⟩
      cases span with
      | none => exact ⟨hspan, h⟩
      | some span =>
        obtain ⟨_, -, h⟩ := bind_eq_ok.mp h
        cases Except.ok.inj h
    · rintro ⟨hspan, h⟩
      exact ⟨none, hspan, h⟩

/-- **A table with a match** applies the first rule that matches. -/
theorem firstMatch_eq_some : firstMatch engine cwd specifier importer rules = .ok (some r) ↔
    ∃ before rule after span, rules = before ++ rule :: after ∧
      (∀ q ∈ before, q.span specifier engine = .ok none) ∧ rule.span specifier engine = .ok (some span) ∧
      apply cwd rule span specifier importer = .ok r := by
  constructor
  · intro h
    induction rules with
    | nil => simp [firstMatch] at h
    | cons rule rules ih =>
      rw [firstMatch, bind_eq_ok] at h
      obtain ⟨span, hspan, h⟩ := h
      cases span with
      | none =>
        obtain ⟨before, rule', after, span', rfl, hbefore, hmatch⟩ := ih h
        exact ⟨rule :: before, rule', after, span', rfl, List.forall_mem_cons.mpr ⟨hspan, hbefore⟩, hmatch⟩
      | some span =>
        obtain ⟨r', hr, h⟩ := bind_eq_ok.mp h
        obtain rfl := Option.some.inj (Except.ok.inj h)
        exact ⟨[], rule, rules, span, rfl, fun _ hq => absurd hq List.not_mem_nil, hspan, hr⟩
  · rintro ⟨before, rule, after, span, rfl, hbefore, hspan, hr⟩
    induction before with
    | nil =>
      rw [List.nil_append, firstMatch, bind_eq_ok]
      exact ⟨some span, hspan, bind_eq_ok.mpr ⟨r, hr, rfl⟩⟩
    | cons q before ih =>
      obtain ⟨hq, hbefore⟩ := List.forall_mem_cons.mp hbefore
      rw [List.cons_append, firstMatch, bind_eq_ok]
      exact ⟨none, hq, ih hbefore⟩

/-- **A specifier is resolved** by the rules, or by the packages where no rule matches. -/
theorem resolve_eq_some : resolver.resolve specifier importer = .ok (some r) ↔
    resolver.resolveAlias specifier importer = .ok (some r) ∨
      (resolver.resolveAlias specifier importer = .ok none ∧
        resolver.resolveBare specifier importer = some r) := by
  rw [resolve, bind_eq_ok]
  constructor
  · rintro ⟨found, hfound, h⟩
    cases found with
    | some found =>
      obtain rfl := Option.some.inj (Except.ok.inj h)
      exact .inl hfound
    | none => exact .inr ⟨hfound, Except.ok.inj h⟩
  · rintro (h | ⟨h, hbare⟩)
    · exact ⟨some r, h, rfl⟩
    · exact ⟨none, h, congrArg Except.ok hbare⟩

/-! ## What a result says of its call -/

theorem apply_eq_ok {rule : AliasRule} {span : Nat × Nat}
    (h : apply cwd rule span specifier importer = .ok r) :
    r.origin = .alias ∧ r.rule = rule ∧ r.specifier = specifier := by
  unfold apply at h
  split at h
  · obtain rfl := Except.ok.inj h
    exact ⟨rfl, rfl, rfl⟩
  · split at h
    · simp at h
    · obtain rfl := Except.ok.inj h
      exact ⟨rfl, rfl, rfl⟩

theorem origin_of_resolveBare (h : resolver.resolveBare specifier importer = some r) :
    r.origin = .bare ∧ r.specifier = specifier := by
  obtain ⟨-, level, -, rfl⟩ := resolveBare_eq_some.mp h
  exact ⟨rfl, rfl⟩

/-- A directory that is put in place of the middle of a specifier leaves no heads. -/
theorem heads_place {rule : AliasRule} {way : Text} {start stop : Nat} (h : start ≠ 0) :
    (place rule way start stop specifier importer).specifierHead = [] ∧
      (place rule way start stop specifier importer).pathHead = [] := by
  simp [place, h]

end AliasResolver

namespace Resolved

open AliasResolver

variable {r : Resolved}

/-- **Whether heads are kept**: of a package, by a match at the start of the specifier, or by a relative
replacement. -/
def KeepsHeads (r : Resolved) (engine : Engine := Pattern.engine) : Prop :=
  r.origin = .bare ∨ (∃ stop, r.rule.span r.specifier engine = .ok (some (0, stop))) ∨
    r.rule.replacement.head? = some '.'

/-- Behind the heads stands one text. -/
theorem existsUnique_tail (h : SharesTail r.specifier r) :
    ∃! tail, r.specifier = r.specifierHead ++ tail ∧ r.path = r.pathHead ++ tail := by
  obtain ⟨tail, hspecifier, hpath⟩ := h
  refine ⟨tail, ⟨hspecifier, hpath⟩, fun u hu => ?_⟩
  exact List.append_cancel_left (hu.2.symm.trans hpath)

/-- Without heads a path stays as it is. -/
theorem toSpecifier_of_nil (hhead : r.specifierHead = []) (hpath : r.pathHead = []) (p : Text) :
    r.toSpecifier p = p := by
  have := r.toSpecifier_append p
  rwa [hhead, hpath, List.nil_append] at this

end Resolved

namespace AliasResolver

variable {resolver : AliasResolver} {engine : Engine} {cwd specifier importer : Text} {r : Resolved}

/-- A rule keeps heads that can be exchanged, or none. -/
theorem heads_apply {rule : AliasRule} {span : Nat × Nat}
    (hspan : rule.span specifier engine = .ok (some span))
    (h : apply cwd rule span specifier importer = .ok r) :
    (r.KeepsHeads engine → SharesTail r.specifier r) ∧
      (¬ r.KeepsHeads engine → r.specifierHead = [] ∧ r.pathHead = []) := by
  obtain ⟨horigin, hrule, hspecifier⟩ := apply_eq_ok h
  have hstart : (∃ stop, r.rule.span r.specifier engine = .ok (some (0, stop))) ↔ span.1 = 0 := by
    rw [hrule, hspecifier, hspan]
    constructor
    · rintro ⟨stop, e⟩
      rw [Option.some.inj (Except.ok.inj e)]
    · intro e
      exact ⟨span.2, congrArg (fun start => Except.ok (some (start, span.2))) e⟩
  have hkeeps : r.KeepsHeads engine ↔ span.1 = 0 ∨ rule.replacement.head? = some '.' := by
    rw [Resolved.KeepsHeads, hstart, horigin, hrule]
    simp
  rw [hkeeps, hspecifier]
  unfold apply at h
  split at h
  · next hdot =>
    obtain rfl := Except.ok.inj h
    exact ⟨fun _ => sharesTail_substitute .., fun hn => absurd (.inr hdot) hn⟩
  · next hdot =>
    split at h
    · simp at h
    · obtain rfl := Except.ok.inj h
      refine ⟨fun hk => sharesTail_place ?_, fun hn => heads_place fun e => hn (.inl e)⟩
      simp [place, hk.resolve_right hdot]

/-- **Heads are exchanged** wherever they are kept: behind them specifier and path are alike, so that the
path stands for the specifier, and every path with the one head for a specifier with the other.  Where
none are kept every path stands for itself.  The rule of an alias is the first that matches. -/
theorem heads_exchange (h : resolver.resolve specifier importer = .ok (some r)) :
    r.specifier = specifier ∧
      (r.KeepsHeads resolver.engine →
        (∃! tail, r.specifier = r.specifierHead ++ tail ∧ r.path = r.pathHead ++ tail) ∧
        r.toSpecifier r.path = r.specifier ∧
        ∀ u, r.toSpecifier (r.pathHead ++ u) = r.specifierHead ++ u) ∧
      (¬ r.KeepsHeads resolver.engine → r.specifierHead = [] ∧ r.pathHead = [] ∧ ∀ p, r.toSpecifier p = p) ∧
      (r.origin = .alias → IsFirstMatch resolver.rules specifier r.rule resolver.engine) := by
  have hexchange (hshares : SharesTail r.specifier r) :
      (∃! tail, r.specifier = r.specifierHead ++ tail ∧ r.path = r.pathHead ++ tail) ∧
        r.toSpecifier r.path = r.specifier ∧
        ∀ u, r.toSpecifier (r.pathHead ++ u) = r.specifierHead ++ u := by
    refine ⟨Resolved.existsUnique_tail hshares, ?_, r.toSpecifier_append⟩
    obtain ⟨tail, hspecifier, hpath⟩ := hshares
    rw [hpath, r.toSpecifier_append, hspecifier]
  rcases resolve_eq_some.mp h with halias | ⟨-, hbare⟩
  · obtain ⟨before, rule, after, span, hrules, hbefore, hspan, happly⟩ := firstMatch_eq_some.mp halias
    obtain ⟨-, hrule, hspecifier⟩ := apply_eq_ok happly
    obtain ⟨hkept, hnone⟩ := heads_apply hspan happly
    refine ⟨hspecifier, fun hk => hexchange (hkept hk), fun hn => ?_, fun _ => ?_⟩
    · obtain ⟨hhead, hpath⟩ := hnone hn
      exact ⟨hhead, hpath, Resolved.toSpecifier_of_nil hhead hpath⟩
    · exact hrule ▸ ⟨before, after, span, hrules, hbefore, hspan⟩
  · obtain ⟨horigin, hspecifier⟩ := origin_of_resolveBare hbare
    have hshares : SharesTail r.specifier r := hspecifier ▸ sharesTail_resolveBare hbare
    refine ⟨hspecifier, fun _ => hexchange hshares, fun hn => absurd (.inl horigin) hn, fun e => ?_⟩
    cases horigin.symm.trans e

/-- A project with a directory of sources that is written without a slash. -/
def sourcesResolver : AliasResolver :=
  { rules := [{ find := ['@'], replacement := "/proj/src".toList },
      { find := "^src/".toList, replacement := "/proj/src/".toList, regex := true }],
    packages := "/proj/node_modules".toList, probe := fun _ => false, cwd := ['/'] }

/-- The files next to a directory are asked for as they are written. -/
theorem heads_exchange_sources :
    ∃ r, sourcesResolver.resolve "src/views/*.mjs".toList "/proj/src/pages/home.ts".toList = .ok (some r) ∧
      r.KeepsHeads ∧ r.path = "../views/*.mjs".toList ∧
      r.toSpecifier "../views/bar.mjs".toList = "src/views/bar.mjs".toList := by
  have h : sourcesResolver.resolve "src/views/*.mjs".toList "/proj/src/pages/home.ts".toList =
      .ok (some (place { find := "^src/".toList, replacement := "/proj/src/".toList, regex := true }
        "..".toList 0 4 "src/views/*.mjs".toList "/proj/src/pages/home.ts".toList)) := by
    decide +kernel
  have hkeeps : (place { find := "^src/".toList, replacement := "/proj/src/".toList, regex := true }
      "..".toList 0 4 "src/views/*.mjs".toList "/proj/src/pages/home.ts".toList).KeepsHeads :=
    .inr (.inl ⟨4, by decide +kernel⟩)
  exact ⟨_, h, hkeeps, by decide, ((heads_exchange h).2.1 hkeeps).2.2 "views/bar.mjs".toList⟩

end AliasResolver

end VariableImport
