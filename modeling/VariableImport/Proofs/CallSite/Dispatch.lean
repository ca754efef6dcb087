import VariableImport.Glob.Search
import VariableImport.Proofs.CallSite.Stages
import VariableImport.Proofs.Glob.Instance
import VariableImport.Proofs.Path.Trail

/-!
# Proofs/CallSite/Dispatch — what lies behind a dispatch

A call site that dispatches was parsed, and its expression became a dynamic glob that was accepted
and searched for.  `compile_dispatch` gives these steps back, and `mem_files_dispatch` the search that
found a file, so that what is said of a dispatch needs no look into `CallSite.compile`.
-/

namespace VariableImport

/-! ## Accepted globs -/

/-- An accepted glob is explicit. -/
theorem Glob.validate_eq_ok {glob source : Text} (h : validate glob source = .ok ()) :
    Path.IsExplicit glob := by
  unfold validate at h
  split at h
  · simp at h
  split at h
  · simp at h
  split at h
  · simp at h
  · next hrel =>
    have hstart : glob.startsWith ['.', '/'] = true ∨ glob.startsWith ['.', '.', '/'] = true := by
      by_cases hhere : glob.startsWith ['.', '/'] = true
      · exact .inl hhere
      · exact .inr (by simpa [hhere] using hrel)
    simpa only [Text.startsWith, List.isPrefixOf_iff_prefix, Path.IsExplicit] using hstart

/-- **A glob** carries the raw glob of its expression and what that is resolved to.  A dynamic one is that
with its runs of wildcards collapsed, and it was accepted. -/
theorem GlobPattern.ofExpression_eq_ok {e : Expression} {source : Text}
    {resolver : Text → Except Failure (Option Resolved)} {glob : GlobPattern}
    (h : ofExpression e source resolver = .ok glob) :
    Glob.ofExpression e = .ok glob.raw ∧ resolver glob.raw = .ok glob.resolved ∧
      (glob.dynamic = true →
        glob.glob = Glob.collapse ((glob.resolved.map Resolved.path).getD glob.raw) ∧
        Glob.wildcard ∈ glob.glob ∧ Glob.validate glob.glob source = .ok ()) := by
  unfold ofExpression at h
  split at h
  · simp at h
  · next raw hraw =>
    obtain ⟨resolved, hres, h⟩ := bind_eq_ok.mp h
    dsimp only at h
    split at h
    · next hdyn =>
      split at h
      · simp at h
      · next hval =>
        obtain rfl := Except.ok.inj h
        have hstar := (Bool.and_eq_true_iff.mp hdyn).1
        exact ⟨hraw, hres, fun _ =>
          ⟨rfl, Glob.wildcard_mem_collapse.mpr (of_decide_eq_true hstar), hval⟩⟩
    · obtain rfl := Except.ok.inj h
      exact ⟨hraw, hres, nofun⟩

/-! ## Call sites -/

namespace CallSite

variable {config : Config} {resolver : AliasResolver} {source importer : Text}

/-- A plan with globs to search comes from an expression that is dynamic. -/
theorem planExpression_search {e : Expression} {glob : GlobPattern} {globs : List Text}
    (h : (planExpression config resolver source importer e).outcome = .ok (.search glob globs)) :
    GlobPattern.ofExpression e source (fun raw => resolver.resolve raw importer) = .ok glob ∧
      glob.dynamic = true ∧ globs = Glob.normalize glob.glob config.extensions config.loose := by
  have h := planExpression_eq_ok_iff.mp h
  cases h with
  | search _ hglob hd => exact ⟨hglob, hd, rfl⟩

/-- A literal does not dispatch. -/
theorem ofLiteral_some {e : Expression} {verdict : Verdict}
    (h : (ofLiteral resolver importer e).outcome = .ok (some verdict)) : verdict.kind = .normal := by
  have h := ofLiteral_eq_ok_iff.mp h
  cases h <;> rfl

/-- A plan that is settled does not dispatch. -/
theorem planExpression_settled {e : Expression} {verdict : Verdict}
    (h : (planExpression config resolver source importer e).outcome = .ok (.settled verdict)) :
    verdict.kind ≠ .dispatch := by
  have h := planExpression_eq_ok_iff.mp h
  cases h with
  | literal h => simp [ofLiteral_some h]
  | redirected | fixed => simp [Verdict.kind]

/-- What an argument is planned for is what it is parsed into. -/
theorem plan_eq_ok {argument : Text} {p : Plan}
    (h : (plan config resolver source importer).outcome = .ok (argument, p)) :
    p = .settled .ignored ∨
      ∃ e, Script.parse (overruled config importer (Script.importArgument source)) = .ok e ∧
        (planExpression config resolver source importer e).outcome = .ok p := by
  rcases plan_eq_ok_iff.mp h with ⟨-, -, hp⟩ | ⟨-, rfl, hp⟩
  exacts [.inl hp, .inr hp]

/-- No plan is a dispatch. -/
theorem kind_of_plan {argument : Text} {verdict : Verdict}
    (h : (plan config resolver source importer).outcome = .ok (argument, .settled verdict)) :
    verdict.kind ≠ .dispatch := by
  rcases plan_eq_ok h with h | ⟨e, -, hexpr⟩
  · simp [Plan.settled.inj h, Verdict.kind]
  · exact planExpression_settled hexpr

/-- A dispatch is settled from what was found. -/
theorem verdictOnFiles_eq_dispatch {glob glob' : GlobPattern} {globs globs' found files : List Text}
    {table : DispatchTable}
    (h : verdictOnFiles config importer glob' globs' found = .dispatch glob globs files table) :
    glob' = glob ∧ globs' = globs ∧
      files = (config.onFiles (enumerate importer found) importer).getD (enumerate importer found) ∧
      files ≠ [] ∧ table = DispatchTable.ofFiles files glob.resolved := by
  unfold verdictOnFiles at h
  dsimp only at h
  split at h
  · cases h
  · next hne =>
    obtain ⟨rfl, rfl, rfl, rfl⟩ := Verdict.dispatch.inj h
    exact ⟨rfl, rfl, rfl, hne, rfl⟩

/-- A dispatch is planned as a search, and settled from what it found. -/
theorem exists_search_of_dispatch {search : Search} {site : CallSite} {glob : GlobPattern}
    {globs files : List Text} {table : DispatchTable}
    (h : (compile config resolver search source importer).outcome = .ok site)
    (hv : site.verdict = .dispatch glob globs files table) :
    ∃ argument found, (plan config resolver source importer).outcome = .ok (argument, .search glob globs) ∧
      search globs (Path.dirname importer) = .ok found ∧
      files = (config.onFiles (enumerate importer found) importer).getD (enumerate importer found) ∧
      files ≠ [] ∧ table = DispatchTable.ofFiles files glob.resolved := by
  have h := compile_eq_ok_iff.mp h
  cases h with
  | @settled argument verdict hplan =>
    obtain rfl : verdict = .dispatch glob globs files table := hv
    exact absurd rfl (kind_of_plan hplan)
  | searched hplan hfound =>
    obtain ⟨rfl, rfl, hfiles⟩ := verdictOnFiles_eq_dispatch hv
    exact ⟨_, _, hplan, hfound, hfiles⟩

/-- **Behind a dispatch** stand an expression, its dynamic glob, and what the search found. -/
theorem compile_dispatch {search : Search} {site : CallSite} {glob : GlobPattern}
    {globs files : List Text} {table : DispatchTable}
    (h : (compile config resolver search source importer).outcome = .ok site)
    (hv : site.verdict = .dispatch glob globs files table) :
    ∃ e found,
      Script.parse (overruled config importer (Script.importArgument source)) = .ok e ∧
      GlobPattern.ofExpression e source (fun raw => resolver.resolve raw importer) = .ok glob ∧
      glob.dynamic = true ∧ globs = Glob.normalize glob.glob config.extensions config.loose ∧
      search globs (Path.dirname importer) = .ok found ∧
      files = (config.onFiles (enumerate importer found) importer).getD (enumerate importer found) ∧
      table = DispatchTable.ofFiles files glob.resolved := by
  obtain ⟨argument, found, hplan, hfound, hfiles, -, htable⟩ := exists_search_of_dispatch h hv
  obtain ⟨e, hparse, hexpr⟩ : ∃ e, _ ∧ _ := (plan_eq_ok hplan).resolve_left nofun
  obtain ⟨hglob, hd, rfl⟩ := planExpression_search hexpr
  exact ⟨e, found, hparse, hglob, hd, rfl, hfound, hfiles, htable⟩

/-- Whether a run comes to a dispatch with a property of its glob and files. -/
def dispatchesWith (test : GlobPattern → List Text → Bool) (run : Logged CallSite) : Bool :=
  match run.outcome with
  | .ok { verdict := .dispatch glob _ files _, .. } => test glob files
  | _ => false

theorem exists_of_dispatchesWith {test : GlobPattern → List Text → Bool} {run : Logged CallSite}
    (h : dispatchesWith test run = true) :
    ∃ site glob globs files table, run.outcome = .ok site ∧
      site.verdict = .dispatch glob globs files table ∧ test glob files = true := by
  unfold dispatchesWith at h
  split at h
  · next source argument importer glob globs files table hrun =>
    exact ⟨_, glob, globs, files, table, hrun, rfl, h⟩
  · simp at h

/-- A call site settled in a tree of files. -/
def compileIn (fs : FileSystem) (config : Config) (source importer : Text)
    (engine : Engine := Pattern.engine) : Logged CallSite :=
  compile config (resolverOf config fs.isDirectory fs.cwd engine) fs.matcher source importer

/-- Whether a configuration leaves the files of a dispatch as they are found. -/
def KeepsFiles (config : Config) : Prop := ∀ all importer, config.onFiles all importer = none

/-- **A file of a dispatch** was found in a search for a text of one of its globs. -/
theorem mem_files_dispatch {fs : FileSystem} {site : CallSite} {glob : GlobPattern}
    {globs files : List Text} {table : DispatchTable} (hconfig : KeepsFiles config)
    (h : (compile config resolver fs.matcher source importer).outcome = .ok site)
    (hv : site.verdict = .dispatch glob globs files table) {file : Text} (hfile : file ∈ files) :
    ∃ g ∈ Glob.normalize glob.glob config.extensions config.loose, ∃ x ∈ Glob.expandBraces g,
      ∃ p ∈ fs.search (Path.dirname importer) x, Path.relativeify p = file := by
  obtain ⟨e, found, -, -, -, rfl, hfound, rfl, -⟩ := compile_dispatch h hv
  rw [hconfig, Option.getD_none, mem_enumerate] at hfile
  obtain ⟨⟨p, hp, rfl⟩, -⟩ := hfile
  unfold FileSystem.matcher at hfound
  split at hfound
  · simp at hfound
  · obtain rfl := Except.ok.inj hfound
    obtain ⟨g, hg, hp⟩ := List.mem_flatMap.mp hp
    rw [FileSystem.matchPattern, Text.sortedSet, Text.mem_distinct, List.mem_mergeSort,
      List.mem_flatMap] at hp
    obtain ⟨x, hx, hp⟩ := hp
    exact ⟨g, hg, x, hx, p, (List.mem_filter.mp hp).1, rfl⟩

/-- The glob of a dispatch. -/
theorem glob_dispatch {search : Search} {site : CallSite} {glob : GlobPattern}
    {globs files : List Text} {table : DispatchTable}
    (h : (compile config resolver search source importer).outcome = .ok site)
    (hv : site.verdict = .dispatch glob globs files table) :
    resolver.resolve glob.raw importer = .ok glob.resolved ∧
      glob.glob = Glob.collapse ((glob.resolved.map Resolved.path).getD glob.raw) ∧
      Glob.wildcard ∈ glob.glob ∧ Path.IsExplicit glob.glob := by
  obtain ⟨e, found, -, hglob, hd, -⟩ := compile_dispatch h hv
  obtain ⟨-, hres, hdynamic⟩ := GlobPattern.ofExpression_eq_ok hglob
  obtain ⟨hcollapse, hstar, hval⟩ := hdynamic hd
  exact ⟨hres, hcollapse, hstar, Glob.validate_eq_ok hval⟩

end CallSite

end VariableImport
