import VariableImport.Config.Validation
import VariableImport.Proofs.CallSite.Batch
import VariableImport.Proofs.Script.CodePoint

/-!
# Proofs/CallSite/Halting — where one call site stops a batch

A batch takes rejections as results, and nothing else: it comes to an entry for every source exactly if no
call site breaks off in another way (`batch_ok_iff`).  A call site breaks off while a specifier is resolved,
at a rule that is no regular expression or has no replacement (`Stuck`), or in the search for its files
(`Halts`).
-/

namespace VariableImport

/-- A call is caught unless it breaks off. -/
theorem Batch.isSome_caught?_iff {outcome : Except Failure CallSite} :
    (caught? outcome).isSome ↔ ¬ BreaksOff outcome := by
  unfold caught?
  split
  · simp
  · simp
  · next failure hne => simpa [BreaksOff] using hne

/-! ## Rules -/

/-- Whether a rule is to be read as a regular expression, and its text writes none for an engine. -/
def AliasRule.IsUnreadable (rule : AliasRule) (engine : Engine := Pattern.engine) : Prop :=
  rule.regex = true ∧ engine rule.find = none

theorem breaksOff_span {engine : Engine} {rule : AliasRule} {specifier : Text} :
    BreaksOff (rule.span specifier engine) ↔ rule.IsUnreadable engine := by
  unfold AliasRule.IsUnreadable
  cases hregex : rule.regex with
  | false =>
    rw [AliasRule.span_literal hregex]
    exact iff_of_false (not_breaksOff_ok _) fun h => absurd h.1 Bool.false_ne_true
  | true =>
    rw [AliasRule.span, if_pos hregex]
    cases engine rule.find with
    | none => exact iff_of_true ⟨_, rfl, by simp⟩ ⟨rfl, rfl⟩
    | some find => exact iff_of_false (not_breaksOff_ok _) fun h => absurd h.2 (Option.some_ne_none _)

namespace AliasResolver

variable {engine : Engine} {cwd specifier importer : Text} {rule : AliasRule} {rules : List AliasRule}
  {span : ℕ × ℕ}

theorem breaksOff_apply :
    BreaksOff (apply cwd rule span specifier importer) ↔ rule.replacement = [] := by
  unfold apply
  split
  · next hdot => exact iff_of_false (not_breaksOff_ok _) fun h => by simp [h] at hdot
  · rw [Path.relativeFrom?]
    by_cases hempty : rule.replacement = []
    · rw [if_pos hempty]
      exact iff_of_true ⟨_, rfl, nofun⟩ hempty
    · rw [if_neg hempty]
      exact iff_of_false (not_breaksOff_ok _) hempty

/-- **Whether some rules cannot be gone through for a specifier**: the first that is asked and does not pass
it on is no regular expression, or matches and has no replacement. -/
inductive Stuck (engine : Engine) (specifier : Text) : List AliasRule → Prop
  | unreadable {rule : AliasRule} {rules : List AliasRule} (h : rule.IsUnreadable engine) :
    Stuck engine specifier (rule :: rules)
  | pathless {rule : AliasRule} {rules : List AliasRule} {span : ℕ × ℕ}
    (hspan : rule.span specifier engine = .ok (some span)) (h : rule.replacement = []) :
    Stuck engine specifier (rule :: rules)
  | later {rule : AliasRule} {rules : List AliasRule} (hspan : rule.span specifier engine = .ok none)
    (h : Stuck engine specifier rules) : Stuck engine specifier (rule :: rules)

theorem breaksOff_firstMatch :
    BreaksOff (firstMatch engine cwd specifier importer rules) ↔ Stuck engine specifier rules := by
  induction rules with
  | nil => exact iff_of_false (not_breaksOff_ok none) nofun
  | cons rule rules ih =>
    rw [firstMatch, breaksOff_bind, breaksOff_span]
    constructor
    · rintro (h | ⟨found, hspan, h⟩)
      · exact .unreadable h
      · cases found with
        | none => exact .later hspan (ih.mp h)
        | some span =>
          dsimp only at h
          rw [breaksOff_bind_left fun _ => not_breaksOff_pure _, breaksOff_apply] at h
          exact .pathless hspan h
    · rintro (h | ⟨hspan, h⟩ | ⟨hspan, h⟩)
      · exact .inl h
      · exact .inr ⟨_, hspan, breaksOff_bind.mpr (.inl (breaksOff_apply.mpr h))⟩
      · exact .inr ⟨none, hspan, ih.mpr h⟩

/-- **A specifier cannot be resolved** where the rules cannot be gone through for it. -/
theorem breaksOff_resolve {resolver : AliasResolver} :
    BreaksOff (resolver.resolve specifier importer) ↔ Stuck resolver.engine specifier resolver.rules := by
  rw [resolve, breaksOff_bind_left, resolveAlias, breaksOff_firstMatch]
  intro found
  cases found <;> exact not_breaksOff_pure _

end AliasResolver

/-! ## Call sites -/

namespace CallSite

open AliasResolver (Stuck)

variable {config : Config} {resolver : AliasResolver} {search : Search} {source importer specifier : Text}

/-- **The specifier that is resolved for an expression**: a text that does not import one file as it is
written, or the raw glob. -/
inductive Asks : Expression → Text → Prop
  | literal {value : Text} (h : Path.isPlain value = false) : Asks (.literal value) value
  | glob {e : Expression} {raw : Text} (hliteral : ∀ value, e ≠ .literal value)
    (h : Glob.ofExpression e = .ok raw) : Asks e raw

theorem breaksOff_ofLiteral {value : Text} :
    BreaksOff (ofLiteral resolver importer (.literal value)).outcome ↔
      Path.isPlain value = false ∧ Stuck resolver.engine value resolver.rules := by
  rw [outcome_ofLiteral]
  cases hplain : Path.isPlain value with
  | true => exact iff_of_false (not_breaksOff_ok _) fun h => nomatch h.1
  | false =>
    rw [if_neg (by decide), breaksOff_bind_left fun _ => not_breaksOff_ok _, AliasResolver.breaksOff_resolve,
      and_iff_right rfl]

theorem breaksOff_ofExpression {e : Expression} {resolve : Text → Except Failure (Option Resolved)} :
    BreaksOff (GlobPattern.ofExpression e source resolve) ↔
      ∃ raw, Glob.ofExpression e = .ok raw ∧ BreaksOff (resolve raw) := by
  unfold GlobPattern.ofExpression
  cases Glob.ofExpression e with
  | error cause => exact iff_of_false (not_breaksOff_rejected _) fun ⟨_, h, _⟩ => nomatch h
  | ok raw =>
    dsimp only
    rw [breaksOff_bind_left]
    · exact ⟨fun h => ⟨raw, rfl, h⟩, fun ⟨_, hraw, h⟩ => Except.ok.inj hraw ▸ h⟩
    · intro resolved
      split
      · split
        · exact not_breaksOff_rejected _
        · exact not_breaksOff_pure _
      · exact not_breaksOff_pure _

/-- A literal that is gone on with is its own raw glob, and does not import as it is written. -/
theorem asks_of_ofLiteral {e : Expression} {raw : Text}
    (hnone : (ofLiteral resolver importer e).outcome = .ok none) (hraw : Glob.ofExpression e = .ok raw) :
    Asks e raw := by
  by_cases hliteral : ∃ value, e = .literal value
  · obtain ⟨value, rfl⟩ := hliteral
    obtain rfl : value = raw := by
      rw [Glob.ofExpression, Glob.fragment] at hraw
      split at hraw
      · simp at hraw
      · exact Except.ok.inj hraw
    refine .literal (Bool.eq_false_iff.mpr fun hplain => ?_)
    simp [ofLiteral, hplain] at hnone
  · exact .glob (fun value h => hliteral ⟨value, h⟩) hraw

/-- **Planning breaks off** where the specifier that is asked for cannot be resolved. -/
theorem breaksOff_planExpression {e : Expression} :
    BreaksOff (planExpression config resolver source importer e).outcome ↔
      ∃ specifier, Asks e specifier ∧ Stuck resolver.engine specifier resolver.rules := by
  have hglob : BreaksOff (GlobPattern.ofExpression e source fun raw => resolver.resolve raw importer) ↔
      ∃ raw, Glob.ofExpression e = .ok raw ∧ Stuck resolver.engine raw resolver.rules := by
    simp only [breaksOff_ofExpression, AliasResolver.breaksOff_resolve]
  rw [outcome_planExpression, breaksOff_bind]
  constructor
  · rintro (h | ⟨found, hfound, h⟩)
    · cases e with
      | literal value =>
        obtain ⟨hplain, hstuck⟩ := breaksOff_ofLiteral.mp h
        exact ⟨value, .literal hplain, hstuck⟩
      | _ => exact absurd h (not_breaksOff_ok none)
    · cases found with
      | some verdict => exact absurd h (not_breaksOff_ok _)
      | none =>
        obtain ⟨raw, hraw, hstuck⟩ := hglob.mp ((breaksOff_bind_left fun _ => not_breaksOff_ok _).mp h)
        exact ⟨raw, asks_of_ofLiteral hfound hraw, hstuck⟩
  · rintro ⟨specifier, hasks, hstuck⟩
    cases hasks with
    | literal hplain => exact .inl (breaksOff_ofLiteral.mpr ⟨hplain, hstuck⟩)
    | glob hliteral hraw =>
      refine .inr ⟨none, ofLiteral_of_ne hliteral, ?_⟩
      exact (breaksOff_bind_left fun _ => not_breaksOff_ok _).mpr (hglob.mpr ⟨specifier, hraw, hstuck⟩)

theorem breaksOff_plan :
    BreaksOff (plan config resolver source importer).outcome ↔
      Script.isIgnored source = false ∧
        ∃ e, Script.parse (overruled config importer (Script.importArgument source)) = .ok e ∧
          ∃ specifier, Asks e specifier ∧ Stuck resolver.engine specifier resolver.rules := by
  rw [outcome_plan]
  cases Script.isIgnored source with
  | true => exact iff_of_false (not_breaksOff_ok _) fun h => nomatch h.1
  | false =>
    rw [if_neg (by decide), breaksOff_bind, and_iff_right rfl]
    refine (or_iff_right (not_breaksOff_mapError _)).trans (exists_congr fun e => ?_)
    rw [mapError_eq_ok, breaksOff_bind_left fun _ => not_breaksOff_ok _, breaksOff_planExpression]

/-- **Whether a call site stops** what goes on: while its specifier is resolved, or in the search. -/
inductive Halts (config : Config) (resolver : AliasResolver) (search : Search) (importer source : Text) :
    Prop
  | specifier {e : Expression} {specifier : Text} (hkept : Script.isIgnored source = false)
    (hparse : Script.parse (overruled config importer (Script.importArgument source)) = .ok e)
    (hasks : Asks e specifier) (hstuck : Stuck resolver.engine specifier resolver.rules)
  | search {argument : Text} {glob : GlobPattern} {globs : List Text}
    (hplan : (plan config resolver source importer).outcome = .ok (argument, .search glob globs))
    (hsearch : BreaksOff (search globs (Path.dirname importer)))

/-- **A call site breaks off** exactly where it stops. -/
theorem breaksOff_compile :
    BreaksOff (compile config resolver search source importer).outcome ↔
      Halts config resolver search importer source := by
  have hsettle (argument : Text) (glob : GlobPattern) (globs found : List Text) : ¬ BreaksOff (do
      let verdict ← settle config source importer glob globs found
      return ({ source, argument, importer, verdict } : CallSite)).outcome := by
    rw [Logged.outcome_bind, outcome_settle]
    exact not_breaksOff_ok _
  rw [compile, Logged.outcome_bind, breaksOff_bind, breaksOff_plan]
  constructor
  · rintro (⟨hkept, e, hparse, specifier, hasks, hstuck⟩ | ⟨⟨argument, p⟩, hplan, h⟩)
    · exact .specifier hkept hparse hasks hstuck
    · cases p with
      | settled verdict => exact absurd h (not_breaksOff_ok _)
      | search glob globs =>
        rw [Logged.outcome_bind, Logged.outcome_of, breaksOff_bind_left (hsettle argument glob globs)] at h
        exact .search hplan h
  · rintro (⟨hkept, hparse, hasks, hstuck⟩ | ⟨hplan, hsearch⟩)
    · exact .inl ⟨hkept, _, hparse, _, hasks, hstuck⟩
    · refine .inr ⟨_, hplan, ?_⟩
      dsimp only
      rw [Logged.outcome_bind, Logged.outcome_of, breaksOff_bind_left (hsettle _ _ _)]
      exact hsearch

end CallSite

/-! ## Rules and searches that never stop a call site -/

/-- Whether a rule can be read and has a replacement. -/
def AliasRule.IsUsable (rule : AliasRule) (engine : Engine := Pattern.engine) : Prop :=
  ¬ rule.IsUnreadable engine ∧ rule.replacement ≠ []

/-- Usable rules can be gone through for every specifier. -/
theorem AliasResolver.not_stuck {engine : Engine} {specifier : Text} {rules : List AliasRule}
    (hrules : ∀ rule ∈ rules, rule.IsUsable engine) : ¬ Stuck engine specifier rules := by
  intro h
  induction h with
  | unreadable h => exact (hrules _ (List.mem_cons_self ..)).1 h
  | pathless hspan h => exact (hrules _ (List.mem_cons_self ..)).2 h
  | later hspan h ih => exact ih fun rule hrule => hrules rule (List.mem_cons_of_mem _ hrule)

/-- **Usable rules and a search that does not break off** stop no call site. -/
theorem CallSite.not_halts {config : Config} {resolver : AliasResolver} {search : Search}
    (hrules : ∀ rule ∈ resolver.rules, rule.IsUsable resolver.engine)
    (hsearch : ∀ globs base, ¬ BreaksOff (search globs base)) (importer source : Text) :
    ¬ Halts config resolver search importer source := by
  rintro (⟨-, -, -, hstuck⟩ | ⟨-, hbreaks⟩)
  · exact AliasResolver.not_stuck hrules hstuck
  · exact hsearch _ _ hbreaks

/-- **The search in a tree of files** breaks off where it lists a directory with a null character. -/
theorem FileSystem.breaksOff_matcher (fs : FileSystem) (globs : List Text) (base : Text) :
    BreaksOff (fs.matcher globs base) ↔ ∃ glob ∈ globs, listsNull base glob = true := by
  rw [matcher, ← List.any_eq_true]
  split
  · next h => exact iff_of_true ⟨_, rfl, nofun⟩ h
  · next h => exact iff_of_false (not_breaksOff_ok _) h

/-! ## Batches -/

namespace Batch

variable {config : Config} {resolver : AliasResolver} {search : Search} {sources : List Text}
  {importer : Text}

theorem outcome_compile :
    (compile config resolver search sources importer).outcome =
      (collect (outcomesOf config resolver search importer sources)).map (numberFrom 0) := by
  have hruns : (sources.map fun source => CallSite.compile config resolver search source importer).map
      (·.outcome) = outcomesOf config resolver search importer sources := List.map_map ..
  rw [compile, ← hruns]

theorem caught_iff_not_halts {source : Text} :
    (caught? (outcomeOf config resolver search importer source)).isSome ↔
      ¬ CallSite.Halts config resolver search importer source := by
  rw [isSome_caught?_iff, outcomeOf, CallSite.breaksOff_compile]

/-- The results of a batch are the numbered outcomes of its call sites, all of them caught. -/
theorem exists_of_compile {results : List Result}
    (h : (compile config resolver search sources importer).outcome = .ok results) :
    ∃ xs : List (Except ImportError CallSite),
      (outcomesOf config resolver search importer sources).map caught? = xs.map some ∧
        numberFrom 0 xs = results := by
  rw [outcome_compile] at h
  cases hxs : collect (outcomesOf config resolver search importer sources) with
  | error failure =>
    rw [hxs] at h
    exact nomatch h
  | ok xs =>
    rw [hxs] at h
    exact ⟨xs, collect_eq_ok.mp hxs, Except.ok.inj h⟩

/-- **A batch comes to an entry for every source exactly if none of its call sites stops.**  A rule that is
no regular expression for the engine, one without a replacement and a search that breaks off are all that can
stop one, and the search in a tree of files breaks off only where it lists a directory with a null character.
The arguments that are parsed are to spell no surrogates, which are no characters; their strings are decoded to
what they spell then. -/
theorem batch_ok_iff
    (hspells : ∀ source ∈ sources,
      ¬ Script.SpellsSurrogate (CallSite.overruled config importer (Script.importArgument source))) :
    (∀ source ∈ sources,
      Script.DecodesExactly (CallSite.overruled config importer (Script.importArgument source))) ∧
    ((∃ results, (compile config resolver search sources importer).outcome = .ok results) ↔
      ∀ source ∈ sources, ¬ CallSite.Halts config resolver search importer source) ∧
    (∀ results, (compile config resolver search sources importer).outcome = .ok results →
      AreNumbered (outcomeOf config resolver search importer) sources results) ∧
    ((∀ rule ∈ resolver.rules, rule.IsUsable resolver.engine) → (∀ globs base, ¬ BreaksOff (search globs base)) →
      ∃ results, (compile config resolver search sources importer).outcome = .ok results) ∧
    ∀ (fs : FileSystem) (globs : List Text) (base : Text),
      BreaksOff (fs.matcher globs base) ↔ ∃ glob ∈ globs, FileSystem.listsNull base glob = true := by
  have hiff : (∃ results, (compile config resolver search sources importer).outcome = .ok results) ↔
      ∀ source ∈ sources, ¬ CallSite.Halts config resolver search importer source := by
    constructor
    · rintro ⟨results, h⟩ source hsource
      obtain ⟨xs, hxs, -⟩ := exists_of_compile h
      have hmem : caught? (outcomeOf config resolver search importer source) ∈ xs.map some :=
        hxs ▸ List.mem_map_of_mem (List.mem_map_of_mem hsource)
      obtain ⟨x, -, hx⟩ := List.mem_map.mp hmem
      exact caught_iff_not_halts.mp (hx ▸ rfl)
    · intro h
      obtain ⟨xs, hxs⟩ := exists_caught fun source hsource => caught_iff_not_halts.mpr (h source hsource)
      exact ⟨numberFrom 0 xs, by rw [outcome_compile, outcomesOf, collect_eq_ok.mpr hxs]; rfl⟩
  refine ⟨fun source hsource => Script.decodesExactly (hspells source hsource), hiff, fun results h => ?_,
    fun hrules hsearch => ?_, FileSystem.breaksOff_matcher⟩
  · obtain ⟨xs, hxs, rfl⟩ := exists_of_compile h
    exact areNumbered_numberFrom hxs
  · exact hiff.mpr fun source _ => CallSite.not_halts hrules hsearch importer source

/-- A resolver with a rule that is usable. -/
def usableResolver : AliasResolver :=
  { rules := [{ find := ['@'], replacement := "/p/a".toList }], packages := [], probe := fun _ => false,
    cwd := ['/'] }

/-- Usable rules and a search that does not break off. -/
theorem batch_ok_iff_usable :
    ∃ results, (compile {} usableResolver (fun globs base => .ok (CallSite.neighbours.matchFiles globs base))
      mixedSources "/p/main.js".toList).outcome = .ok results ∧ results.length = 4 := by
  have hrules : ∀ rule ∈ usableResolver.rules, rule.IsUsable := by
    intro rule hrule
    obtain rfl := List.mem_singleton.mp hrule
    exact ⟨fun h => (nomatch h.1), by decide⟩
  have hspells : ∀ source ∈ mixedSources,
      ¬ Script.SpellsSurrogate (CallSite.overruled {} "/p/main.js".toList (Script.importArgument source)) := by
    decide +kernel
  obtain ⟨-, -, hentries, hok, -⟩ := batch_ok_iff hspells
  obtain ⟨results, h⟩ := hok hrules fun _ _ => not_breaksOff_ok _
  exact ⟨results, h, (hentries results h).length_eq⟩

/-- The number of results of a batch under a configuration that is written as a value, beside a directory. -/
def lengthBeside (written : Json) (sources : List Text) : Option (Except Failure ℕ) :=
  (Config.ofJson written).toOption.map fun config =>
    (compile config (CallSite.resolverOf config CallSite.neighbours.isDirectory CallSite.neighbours.cwd)
      CallSite.neighbours.matcher sources "/p/main.js".toList).outcome.map List.length

/-- A configuration with one rule, as a value. -/
def withRule (find replacement : String) (regex : Bool) : Json :=
  .object [("alias".toList, .list [.object [("find".toList, .text find.toList),
    ("replacement".toList, .text replacement.toList), ("regex".toList, .bool regex)]])]

/-- **One call site stops the others**: at a rule that is no regular expression, at one without a
replacement, or in a directory with a null character, under configurations that are accepted. -/
theorem one_stops_all :
    let beside := "import('./a/x.js')".toList
    (lengthBeside (withRule "(" "/p/a" true) [beside] = some (.ok 1) ∧
      lengthBeside (withRule "(" "/p/a" true) [beside, "import(`@/${id}.js`)".toList] =
        some (.error (.badPattern ['(']))) ∧
    (lengthBeside (withRule "@" "" false) [beside] = some (.ok 1) ∧
      lengthBeside (withRule "@" "" false) [beside, "import(`@/${id}.js`)".toList] =
        some (.error .noTarget)) ∧
    (lengthBeside (.object []) [beside] = some (.ok 1) ∧
      lengthBeside (.object []) [beside, "import(`./a\x00/${id}.js`)".toList] =
        some (.error .nullCharacter)) := by
  decide +kernel

end Batch

end VariableImport
