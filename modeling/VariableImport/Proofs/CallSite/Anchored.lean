import VariableImport.Proofs.Alias.Anchored
import VariableImport.Proofs.CallSite.Halting
import VariableImport.Proofs.CommandLine.Globs
import VariableImport.Proofs.FileSystem.Anchored

/-!
# Proofs/CallSite/Anchored — configurations that mean the same everywhere

A configuration file that is named from the root is read alike in every working directory, and its root
becomes a directory from there (`load_workingIn`, `isAbsolute_root_of_load`).  Settling a call site rests
on the specifiers that it asks for and on the search below its importer (`compile_congr`).  So **a call
site is settled alike everywhere unless it asks for a specifier that drifts**, and a glob is found alike
everywhere only then (`load_compile_anywhere`).  A specifier behind an alias for `src` does drift: its files
are found or not as the working directory has it (`settled_by_working_directory`).
-/

namespace VariableImport

/-! ## Configurations from files -/

namespace Config

variable {fs : FileSystem} {cwd home file root : Text} {config : Config}

/-- **The root of a file from the root** does not depend on the working directory. -/
theorem absoluteRoot_of_isAbsolute (hfile : Path.isAbsolute file = true) (cwd cwd' root : Text) :
    absoluteRoot cwd file root = absoluteRoot cwd' file root := by
  simp only [absoluteRoot, Path.absolute, Path.append_of_isAbsolute hfile]

theorem isAbsolute_absoluteRoot (hfile : Path.isAbsolute file = true) (cwd root : Text) :
    Path.isAbsolute (absoluteRoot cwd file root) = true := by
  unfold absoluteRoot
  split
  · assumption
  · rw [Path.absolute, Path.append_of_isAbsolute hfile]
    exact Path.isAbsolute_normalize
      (Path.isAbsolute_append (Path.isAbsolute_dirname (Path.isAbsolute_normalize hfile)) root)

theorem loadFile_workingIn (hfile : Path.isAbsolute file = true) :
    loadFile (fs.workingIn cwd) file = loadFile fs file := by
  unfold loadFile
  rw [FileSystem.read_workingIn hfile]
  simp only [absoluteRoot_of_isAbsolute hfile (fs.workingIn cwd).cwd fs.cwd]

/-- **A file that is named from the root** is loaded alike in every working directory. -/
theorem load_workingIn (hfile : Path.isAbsolute file = true) :
    load (fs.workingIn cwd) home file = load fs home file := by
  have hne : file ≠ [] := by
    rintro rfl
    cases hfile
  rw [load, load, if_neg hne, List.find?_singleton, List.find?_singleton,
    FileSystem.leadsAnywhere_workingIn hfile]
  cases fs.leadsAnywhere file with
  | true => exact loadFile_workingIn hfile
  | false => rfl

theorem both_eq_ok {α β : Type} {x : Checked α} {y : Checked β} {a : α} {b : β}
    (h : both x y = .ok (a, b)) : x = .ok a ∧ y = .ok b := by
  unfold both at h
  split at h
  · obtain ⟨rfl, rfl⟩ := Prod.mk.inj (Except.ok.inj h)
    exact ⟨rfl, rfl⟩
  all_goals cases h

/-- **The root of a configuration** is the one in its value. -/
theorem root_ofJson {j : Json} (h : ofJson j = .ok config) (hroot : j.get? "root".toList = some (.text root)) :
    config.root = root := by
  unfold ofJson at h
  split at h
  · split at h
    · next hfields =>
      have hfield := (both_eq_ok hfields).1
      rw [fieldOr, hroot] at hfield
      unfold checkExtensions at h
      split at h
      · cases h
      · obtain rfl := Except.ok.inj h
        exact (Except.ok.inj hfield).symm
    · cases h
  · cases h

/-- **A configuration file from the root** gives the project a root from there. -/
theorem isAbsolute_root_of_load (hfile : Path.isAbsolute file = true) (h : load fs home file = .ok config) :
    Path.isAbsolute config.root = true := by
  have hne : file ≠ [] := by
    rintro rfl
    cases hfile
  rw [load, if_neg hne, List.find?_singleton] at h
  cases hleads : fs.leadsAnywhere file with
  | true =>
    rw [hleads] at h
    obtain ⟨fields, root, h⟩ := exists_of_loadFile h
    rw [root_ofJson h (Json.lookup_put ..)]
    exact isAbsolute_absoluteRoot hfile fs.cwd root
  | false =>
    rw [hleads, if_neg hne] at h
    cases h

end Config

/-! ## What a call site rests on -/

theorem Logged.bind_congr {α β : Type} {x : Logged α} {f g : α → Logged β}
    (h : ∀ a, x.outcome = .ok a → f a = g a) : x >>= f = x >>= g := by
  show Logged.bind x f = Logged.bind x g
  unfold Logged.bind
  cases hx : x.outcome with
  | error failure => rfl
  | ok a =>
    dsimp only
    rw [h a hx]

theorem GlobPattern.ofExpression_congr {e : Expression} {source : Text}
    {resolve resolve' : Text → Except Failure (Option Resolved)}
    (h : ∀ raw, Glob.ofExpression e = .ok raw → resolve' raw = resolve raw) :
    ofExpression e source resolve' = ofExpression e source resolve := by
  unfold ofExpression
  cases hraw : Glob.ofExpression e with
  | error cause => rfl
  | ok raw =>
    dsimp only
    rw [h raw hraw]

namespace CallSite

open AliasResolver (Drifts)

variable {config : Config} {resolver resolver' : AliasResolver} {search search' : Search}
  {source importer : Text} {e : Expression} {fs : FileSystem} {engine : Engine} {site : CallSite}
  {glob : GlobPattern}

theorem ofLiteral_congr (h : ∀ specifier, Asks e specifier →
      resolver'.resolve specifier importer = resolver.resolve specifier importer) :
    ofLiteral resolver' importer e = ofLiteral resolver importer e := by
  cases e with
  | literal value =>
    unfold ofLiteral
    dsimp only
    cases hplain : Path.isPlain value with
    | true => rfl
    | false => rw [h value (.literal hplain)]
  | _ => rfl

/-- **A plan rests on the specifiers that are asked for.** -/
theorem planExpression_congr (h : ∀ specifier, Asks e specifier →
      resolver'.resolve specifier importer = resolver.resolve specifier importer) :
    planExpression config resolver' source importer e = planExpression config resolver source importer e := by
  unfold planExpression
  rw [ofLiteral_congr h]
  refine Logged.bind_congr fun found hfound => ?_
  cases found with
  | some verdict => rfl
  | none =>
    dsimp only
    rw [GlobPattern.ofExpression_congr fun raw hraw => h raw (asks_of_ofLiteral hfound hraw)]

/-- **The specifiers that a call site asks for**, unless it is left alone. -/
def Requests (config : Config) (importer source specifier : Text) : Prop :=
  Script.isIgnored source = false ∧
    ∃ e, Script.parse (overruled config importer (Script.importArgument source)) = .ok e ∧ Asks e specifier

theorem plan_congr (h : ∀ specifier, Requests config importer source specifier →
      resolver'.resolve specifier importer = resolver.resolve specifier importer) :
    plan config resolver' source importer = plan config resolver source importer := by
  unfold plan
  dsimp only
  by_cases hignored : Script.isIgnored source = true
  · rw [if_pos hignored, if_pos hignored]
  · rw [if_neg hignored, if_neg hignored]
    refine Logged.bind_congr fun e he => Logged.bind_congr fun _ _ => ?_
    have hparse := mapError_eq_ok.mp he
    have hkept := Bool.eq_false_iff.mpr hignored
    rw [planExpression_congr fun specifier hasks => h specifier ⟨hkept, e, hparse, hasks⟩]

/-- **What a call site comes to** rests on the specifiers that it asks for, and on the search below its
importer. -/
theorem compile_congr (hresolve : ∀ specifier, Requests config importer source specifier →
      resolver'.resolve specifier importer = resolver.resolve specifier importer)
    (hsearch : ∀ globs, search' globs (Path.dirname importer) = search globs (Path.dirname importer)) :
    compile config resolver' search' source importer = compile config resolver search source importer := by
  unfold compile
  rw [plan_congr hresolve]
  refine Logged.bind_congr fun planned _ => ?_
  obtain ⟨argument, p⟩ := planned
  cases p with
  | settled verdict => rfl
  | search glob globs =>
    dsimp only
    rw [hsearch]

/-! ## Settling anywhere -/

/-- A root that is a directory from the root holds the same packages everywhere. -/
theorem packages_resolverOf (hroot : Path.isAbsolute config.root = true) (probe : Text → Bool) (cwd : Text)
    (engine : Engine) : (resolverOf config probe cwd engine).packages =
      Path.append (Path.normalize config.root) "node_modules".toList := by
  rw [resolverOf, AliasResolver.ofRoot, Path.absolute, Path.append_of_isAbsolute hroot]

/-- **A call site is settled alike in every working directory**, with the project below the root, unless it
asks for a specifier that drifts. -/
theorem compileIn_workingIn (hroot : Path.isAbsolute config.root = true)
    (himporter : Path.isAbsolute importer = true) (cwd : Text)
    (h : ∀ specifier, Requests config importer source specifier → ¬ Drifts config.alias specifier engine) :
    compileIn (fs.workingIn cwd) config source importer engine =
      compileIn fs config source importer engine := by
  have hpackages := packages_resolverOf hroot fs.isDirectory fs.cwd engine
  refine compile_congr (fun specifier hspecifier => ?_) fun globs => ?_
  · refine AliasResolver.resolve_congr rfl rfl ((packages_resolverOf hroot _ _ engine).trans hpackages.symm)
      (fun p hp => FileSystem.isDirectory_workingIn hp) ?_ himporter (h specifier hspecifier)
    rw [hpackages]
    exact Path.isAbsolute_append (Path.isAbsolute_normalize hroot) _
  · exact FileSystem.matcher_workingIn (Path.isAbsolute_dirname himporter) globs

/-- What a call site asks for is the raw glob that it comes to. -/
theorem eq_raw_of_requests {specifier : Text} (hconfig : KeepsArguments config)
    (h : (compileIn fs config source importer engine).outcome = .ok site)
    (hglob : site.verdict.glob = some glob) (hspecifier : Requests config importer source specifier) :
    specifier = glob.raw := by
  obtain ⟨e, hparse, -, hfound, -⟩ := exists_of_glob hconfig h hglob
  obtain ⟨hraw, -, -⟩ := GlobPattern.ofExpression_eq_ok hfound
  obtain ⟨-, e', hparse', hasks⟩ := hspecifier
  rw [overruled_eq hconfig, hparse] at hparse'
  obtain rfl := Except.ok.inj hparse'
  cases hasks with
  | literal =>
    have hself := Glob.fragment_eq_ok (by simpa only [Glob.ofExpression] using hraw)
    exact hself.1.symm
  | glob _ hraw' => exact Except.ok.inj (hraw'.symm.trans hraw)

/-- **A call site that comes to a glob comes to it everywhere** exactly if its raw glob does not drift. -/
theorem settled_anywhere_iff (hconfig : KeepsArguments config) (hroot : Path.isAbsolute config.root = true)
    (himporter : Path.isAbsolute importer = true)
    (h : (compileIn fs config source importer engine).outcome = .ok site)
    (hglob : site.verdict.glob = some glob) :
    (∀ cwd, Path.isAbsolute cwd = true →
      (compileIn (fs.workingIn cwd) config source importer engine).outcome = .ok site) ↔
    ¬ Drifts config.alias glob.raw engine := by
  constructor
  · intro hsame
    have hpackages := packages_resolverOf hroot fs.isDirectory fs.cwd engine
    have hanchored : Path.isAbsolute (resolverOf config fs.isDirectory fs.cwd engine).packages = true :=
      hpackages ▸ Path.isAbsolute_append (Path.isAbsolute_normalize hroot) _
    have hresolved (cwd : Text) (hcwd : Path.isAbsolute cwd = true) :
        { resolverOf config fs.isDirectory fs.cwd engine with cwd := cwd }.resolve glob.raw importer =
          .ok glob.resolved := by
      obtain ⟨e, -, -, hfound, -⟩ := exists_of_glob hconfig (hsame cwd hcwd) hglob
      obtain ⟨-, hres, -⟩ := GlobPattern.ofExpression_eq_ok hfound
      have hmoved : (resolverOf config (fs.workingIn cwd).isDirectory cwd engine).resolve glob.raw importer =
          { resolverOf config fs.isDirectory fs.cwd engine with cwd := cwd }.resolve glob.raw importer :=
        AliasResolver.resolve_congr_probe rfl rfl rfl
          ((packages_resolverOf hroot _ _ engine).trans hpackages.symm)
          (fun p hp => FileSystem.isDirectory_workingIn hp) hanchored himporter
      exact hmoved.symm.trans hres
    refine (AliasResolver.resolve_anywhere_iff hanchored himporter).mp fun cwd cwd' hcwd hcwd' => ?_
    rw [hresolved cwd hcwd, hresolved cwd' hcwd']
  · intro hstays cwd _
    rw [compileIn_workingIn hroot himporter cwd fun specifier hspecifier =>
      eq_raw_of_requests hconfig h hglob hspecifier ▸ hstays]
    exact h

/-- **A configuration file that is named from the root means the same in every working directory**, for
importers from the root: it is loaded as the same configuration, and a call site comes to the same unless
it asks for a specifier whose rule has an unanchored replacement.  With a glob it does so exactly if the raw
glob is no such specifier.  Any engine may search the rules that are regular expressions. -/
theorem load_compile_anywhere {home file : Text} (source : Text) (engine : Engine)
    (hfile : Path.isAbsolute file = true) (himporter : Path.isAbsolute importer = true)
    (hload : Config.load fs home file = .ok config) :
    (∀ cwd, Config.load (fs.workingIn cwd) home file = .ok config) ∧
      ((∀ specifier, Requests config importer source specifier → ¬ Drifts config.alias specifier engine) →
        ∀ cwd, compileIn (fs.workingIn cwd) config source importer engine =
          compileIn fs config source importer engine) ∧
      ∀ site glob, (compileIn fs config source importer engine).outcome = .ok site →
        site.verdict.glob = some glob →
        ((∀ cwd, Path.isAbsolute cwd = true →
            (compileIn (fs.workingIn cwd) config source importer engine).outcome = .ok site) ↔
          ¬ Drifts config.alias glob.raw engine) := by
  have hroot := Config.isAbsolute_root_of_load hfile hload
  refine ⟨fun cwd => (Config.load_workingIn hfile).trans hload, fun h cwd => ?_, fun site glob => ?_⟩
  · exact compileIn_workingIn hroot himporter cwd h
  · exact settled_anywhere_iff (Config.keepsArguments_load hload) hroot himporter

/-! ## A project with an alias -/

theorem dispatchesWith_congr {test : GlobPattern → List Text → Bool} {run run' : Logged CallSite}
    (h : run.outcome = run'.outcome) : dispatchesWith test run = dispatchesWith test run' := by
  unfold dispatchesWith
  rw [h]

/-- Whether a configuration is loaded that passes a test. -/
def loadsWith (test : Config → Bool) (fs : FileSystem) (home file : Text) : Bool :=
  match Config.load fs home file with
  | .ok config => test config
  | .error _ => false

theorem exists_of_loadsWith {test : Config → Bool} {fs : FileSystem} {home file : Text}
    (h : loadsWith test fs home file = true) :
    ∃ config, Config.load fs home file = .ok config ∧ test config = true := by
  unfold loadsWith at h
  split at h
  · next config hload => exact ⟨config, hload, h⟩
  · cases h

/-- A project whose configuration file stands elsewhere and holds one alias, for its sources. -/
def sourcesTree (replacement : Text) : FileSystem :=
  (FileSystem.ofPaths ["/p/main.js".toList, "/p/src/x.js".toList, "/w/".toList]).makeFile
    ["c".toList, Config.fileName]
    ("\x7b\"alias\": [\x7b\"find\": \"@\", \"replacement\": \"".toList ++ replacement ++ "\"\x7d]\x7d".toList)

/-- An import of any file among the sources. -/
def importOfSources : Text := "import(`@/$\x7bid\x7d.js`)".toList

/-- With the sources named from the root the file is found from another directory as well. -/
theorem load_compile_anywhere_sources :
    ∃ config, Config.load ((sourcesTree "/p/src".toList).workingIn "/w".toList) []
        "/c/dynimport.json".toList = .ok config ∧
      dispatchesWith (fun _ files => files = ["./src/x.js".toList])
        (compileIn ((sourcesTree "/p/src".toList).workingIn "/w".toList) config importOfSources
          "/p/main.js".toList) = true := by
  have hloads : loadsWith (fun config => decide (∀ rule ∈ config.alias, ¬ rule.IsUnanchored) &&
        dispatchesWith (fun _ files => files = ["./src/x.js".toList])
          (compileIn (sourcesTree "/p/src".toList) config importOfSources "/p/main.js".toList))
      (sourcesTree "/p/src".toList) [] "/c/dynimport.json".toList = true := by
    decide +kernel
  obtain ⟨config, hload, htest⟩ := exists_of_loadsWith hloads
  obtain ⟨hanchored, hdispatch⟩ := Bool.and_eq_true_iff.mp htest
  have himporter : Path.isAbsolute "/p/main.js".toList = true := by decide
  obtain ⟨hloads, hcompile, -⟩ := load_compile_anywhere importOfSources Pattern.engine (by decide) himporter hload
  have hsame := hcompile (fun specifier _ => AliasResolver.not_drifts (of_decide_eq_true hanchored)) "/w".toList
  refine ⟨config, hloads "/w".toList, ?_⟩
  rw [hsame]
  exact hdispatch

/-- **A replacement without a root** is looked for in the working directory: with the same configuration,
the file is found from the project and not from another directory. -/
theorem settled_by_working_directory :
    ∃ config, Config.load ((sourcesTree "src".toList).workingIn "/p".toList) []
        "/c/dynimport.json".toList = .ok config ∧
      Config.load ((sourcesTree "src".toList).workingIn "/w".toList) []
        "/c/dynimport.json".toList = .ok config ∧
      (compileIn ((sourcesTree "src".toList).workingIn "/p".toList) config importOfSources
          "/p/main.js".toList).outcome ≠
        (compileIn ((sourcesTree "src".toList).workingIn "/w".toList) config importOfSources
          "/p/main.js".toList).outcome := by
  have hloads : loadsWith (fun config =>
        dispatchesWith (fun _ files => files = ["./src/x.js".toList])
          (compileIn ((sourcesTree "src".toList).workingIn "/p".toList) config importOfSources
            "/p/main.js".toList) &&
        !dispatchesWith (fun _ files => files = ["./src/x.js".toList])
          (compileIn ((sourcesTree "src".toList).workingIn "/w".toList) config importOfSources
            "/p/main.js".toList))
      (sourcesTree "src".toList) [] "/c/dynimport.json".toList = true := by
    decide +kernel
  obtain ⟨config, hload, htest⟩ := exists_of_loadsWith hloads
  obtain ⟨hthere, helsewhere⟩ := Bool.and_eq_true_iff.mp htest
  refine ⟨config, (Config.load_workingIn rfl).trans hload, (Config.load_workingIn rfl).trans hload, ?_⟩
  intro h
  rw [← dispatchesWith_congr h, hthere] at helsewhere
  cases helsewhere

end CallSite

end VariableImport
