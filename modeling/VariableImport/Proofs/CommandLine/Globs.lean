import VariableImport.CommandLine.Run
import VariableImport.Proofs.CallSite.Constant
import VariableImport.Proofs.Script.Cut

/-!
# Proofs/CommandLine/Globs — the globs that are shown are the globs that are searched

The `glob` command parses the whole text that it is given, and a call site is settled for the text of its
first argument.  Where that is cut in the right place (`IsCut`), the two are parsed as the same expression:
the command shows the glob of the call site and the globs that are searched for it, and it is rejected as the
call site is (`run_glob`).
-/

namespace VariableImport

open CallSite

/-! ## Configurations from files -/

namespace Config

/-- Hooks cannot be written into a file. -/
theorem keepsArguments_ofJson {j : Json} {config : Config} (h : ofJson j = .ok config) :
    KeepsArguments config := by
  unfold ofJson at h
  split at h
  · split at h
    · unfold checkExtensions at h
      split at h
      · cases h
      · obtain rfl := Except.ok.inj h
        exact fun _ _ => rfl
    · cases h
  · cases h

/-- **A configuration from a file** is that of the fields in it, with the root taken from the file. -/
theorem exists_of_loadFile {fs : FileSystem} {file : Text} {config : Config}
    (h : loadFile fs file = .ok config) : ∃ fields root,
      ofJson (.object (Json.put fields "root".toList (.text (absoluteRoot fs.cwd file root)))) =
        .ok config := by
  unfold loadFile at h
  obtain ⟨content, -, h⟩ := bind_eq_ok.mp h
  obtain ⟨value, -, h⟩ := bind_eq_ok.mp h
  split at h
  · split at h
    · exact ⟨_, _, mapError_eq_ok.mp h⟩
    · exact ⟨_, _, mapError_eq_ok.mp h⟩
    · cases h
  · cases h

/-- **A configuration that is loaded** leaves arguments as they are written. -/
theorem keepsArguments_load {fs : FileSystem} {home named : Text} {config : Config}
    (h : load fs home named = .ok config) : KeepsArguments config := by
  unfold load at h
  dsimp only at h
  split at h
  · obtain ⟨fields, root, h⟩ := exists_of_loadFile h
    exact keepsArguments_ofJson h
  · split at h
    · obtain rfl := Except.ok.inj h
      exact fun _ _ => rfl
    · cases h

end Config

namespace CommandLine

theorem keepsArguments_settings {fs : FileSystem} {home : Text} {r : Request} {config : Config}
    (h : settings fs home r = .ok config) : KeepsArguments config := by
  obtain ⟨config', hload, h⟩ := bind_eq_ok.mp h
  obtain rfl := Except.ok.inj h
  have hconfig := Config.keepsArguments_load hload
  split
  · exact hconfig
  · exact hconfig

end CommandLine

/-! ## What call sites carry -/

namespace CallSite

variable {config : Config} {resolver : AliasResolver} {search : Search} {source importer : Text}
  {glob : GlobPattern}

/-- The globs that are searched for a glob. -/
def searched (config : Config) (glob : GlobPattern) : List Text :=
  Glob.normalize glob.glob config.extensions config.loose

/-- What was found is settled, whatever it is. -/
theorem exists_settle (config : Config) (source importer : Text) (glob : GlobPattern)
    (globs found : List Text) :
    ∃ verdict, (settle config source importer glob globs found).outcome = .ok verdict ∧
      verdict.glob = some glob ∧ verdict.globs = globs := by
  refine ⟨_, outcome_settle config source importer glob globs found, ?_⟩
  unfold verdictOnFiles
  dsimp only
  split <;> exact ⟨rfl, rfl⟩

/-- A verdict on a glob carries it, with the globs that were searched. -/
theorem verdictOnGlob_eq_ok {verdict : Verdict}
    (h : verdictOnGlob config search source importer glob = .ok verdict) :
    verdict.glob = some glob ∧ (glob.dynamic = true → verdict.globs = searched config glob) := by
  unfold verdictOnGlob at h
  split at h
  · obtain ⟨found, -, hsettle⟩ := bind_eq_ok.mp h
    obtain ⟨verdict', hverdict, hglob, hglobs⟩ :=
      exists_settle config source importer glob (searched config glob) found
    obtain rfl := Except.ok.inj (hverdict.symm.trans hsettle)
    exact ⟨hglob, fun _ => hglobs⟩
  · next hd =>
    refine ⟨?_, fun hd' => absurd hd' hd⟩
    split at h
    all_goals
      obtain rfl := Except.ok.inj h
      rfl

/-- Only the search fails on a glob. -/
theorem verdictOnGlob_eq_error {f : Failure}
    (h : verdictOnGlob config search source importer glob = .error f) :
    glob.dynamic = true ∧ search (searched config glob) (Path.dirname importer) = .error f := by
  unfold verdictOnGlob at h
  split at h
  · next hd =>
    refine ⟨hd, ?_⟩
    unfold carryOut at h
    dsimp only at h
    change search (searched config glob) (Path.dirname importer) >>= _ = _ at h
    cases hfound : search (searched config glob) (Path.dirname importer) with
    | error f' =>
      rw [hfound] at h
      exact congrArg Except.error (Except.error.inj h)
    | ok found =>
      rw [hfound, ok_bind] at h
      obtain ⟨verdict, hverdict, -⟩ :=
        exists_settle config source importer glob (searched config glob) found
      cases hverdict.symm.trans h
  · split at h <;> cases h

/-- A literal that is settled before its glob carries none. -/
theorem glob_of_ofLiteral {e : Expression} {verdict : Verdict}
    (h : (ofLiteral resolver importer e).outcome = .ok (some verdict)) : verdict.glob = none := by
  have h := ofLiteral_eq_ok_iff.mp h
  cases h <;> rfl

/-- Only resolving a literal fails before its glob. -/
theorem ofLiteral_eq_error {e : Expression} {f : Failure}
    (h : (ofLiteral resolver importer e).outcome = .error f) :
    ∃ v, e = .literal v ∧ resolver.resolve v importer = .error f := by
  cases e with
  | literal v =>
    rw [outcome_ofLiteral] at h
    split at h
    · cases h
    · refine ⟨v, rfl, ?_⟩
      cases hres : resolver.resolve v importer with
      | error f' =>
        rw [hres] at h
        exact congrArg Except.error (Except.error.inj h)
      | ok resolved =>
        rw [hres] at h
        cases h
  | _ => cases h

/-- A call site that is left alone has no glob. -/
theorem glob_of_isIgnored {site : CallSite} (hignored : Script.isIgnored source = true)
    (h : (compile config resolver search source importer).outcome = .ok site) :
    site.verdict.glob = none := by
  have hplan {argument : Text} {p : Plan}
      (h : (plan config resolver source importer).outcome = .ok (argument, p)) : p = .settled .ignored := by
    rcases plan_eq_ok_iff.mp h with ⟨-, -, hp⟩ | ⟨hnot, -⟩
    · exact hp
    · cases hignored.symm.trans hnot
  have h := compile_eq_ok_iff.mp h
  cases h with
  | settled h₁ =>
    obtain rfl := Plan.settled.inj (hplan h₁)
    rfl
  | searched h₁ => cases hplan h₁

/-- **Behind a glob** stands an expression that is not settled as a literal. -/
theorem exists_of_glob {site : CallSite} (hconfig : KeepsArguments config)
    (h : (compile config resolver search source importer).outcome = .ok site)
    (hglob : site.verdict.glob = some glob) :
    ∃ e, Script.parse (Script.importArgument source) = .ok e ∧
      (ofLiteral resolver importer e).outcome = .ok none ∧
      GlobPattern.ofExpression e source (fun raw => resolver.resolve raw importer) = .ok glob ∧
      (glob.dynamic = true → site.verdict.globs = searched config glob) := by
  have hignored : Script.isIgnored source = false := by
    by_contra hignored
    rw [glob_of_isIgnored (Bool.not_eq_false _ ▸ hignored) h] at hglob
    cases hglob
  cases hparse : Script.parse (Script.importArgument source) with
  | error e =>
    rw [compile_of_rejected hconfig hignored hparse] at h
    cases h
  | ok e =>
    have hverdict := verdict_of_parse resolver search importer hconfig hignored hparse
    rw [h] at hverdict
    cases hlit : (ofLiteral resolver importer e).outcome with
    | error f =>
      rw [verdictOn_of_failure hlit] at hverdict
      cases hverdict
    | ok verdict =>
      cases verdict with
      | some verdict =>
        rw [verdictOn_of_literal hlit] at hverdict
        obtain rfl := Except.ok.inj hverdict
        rw [glob_of_ofLiteral hlit] at hglob
        cases hglob
      | none =>
        rw [verdictOn_of_glob hlit] at hverdict
        obtain ⟨glob', hfound, hverdict⟩ := bind_eq_ok.mp hverdict.symm
        obtain ⟨hcarried, hglobs⟩ := verdictOnGlob_eq_ok hverdict
        obtain rfl := Option.some.inj (hcarried.symm.trans hglob)
        exact ⟨e, rfl, hlit, hfound, hglobs⟩

end CallSite

namespace CommandLine

variable {fs : FileSystem} {config : Config} {resolver : AliasResolver} {search : Search}
  {source importer : Text}

/-- What is shown of a text that is parsed. -/
theorem globsOf_of_parse {e : Expression} (h : Script.parse source = .ok e) :
    globsOf config resolver source importer =
      (GlobPattern.ofExpression e source fun raw => resolver.resolve raw importer) >>= fun glob =>
        .ok (glob, if glob.dynamic then searched config glob else []) := by
  unfold globsOf
  rw [h]
  rfl

/-- **The glob of a call site is shown** with the globs that were searched. -/
theorem globsOf_of_compile {site : CallSite} {glob : GlobPattern} (hconfig : KeepsArguments config)
    (hcut : Script.IsCut source)
    (h : (compile config resolver search source importer).outcome = .ok site)
    (hglob : site.verdict.glob = some glob) :
    ∃ globs, globsOf config resolver source importer = .ok (glob, globs) ∧
      (glob.dynamic = true → globs = site.verdict.globs) := by
  obtain ⟨e, hparse, -, hfound, hglobs⟩ := exists_of_glob hconfig h hglob
  rw [globsOf_of_parse ((hcut.parse_iff e).mpr hparse), hfound, ok_bind]
  refine ⟨_, rfl, fun hd => ?_⟩
  rw [if_pos hd, hglobs hd]

/-- What is no expression is rejected for the same reason. -/
theorem globsOf_of_rejected {e : ImportError} (hcut : Script.IsCut source)
    (h : Script.parse (Script.importArgument source) = .error e) :
    ∃ f', globsOf config resolver source importer = .error f' ∧ f'.gist = (Failure.rejected e).gist := by
  cases hwhole : Script.parse source with
  | ok e' => cases h.symm.trans ((hcut.parse_iff e').mp hwhole)
  | error e' =>
    refine ⟨.rejected e', ?_, ?_⟩
    · unfold globsOf
      rw [hwhole]
      rfl
    · exact congrArg Sum.inl ((Script.kind_of_parse hwhole).trans (Script.kind_of_parse h).symm)

/-- A literal without a wildcard that is not resolved has no glob either. -/
theorem globsOf_of_literal {v : Text} {f : Failure} (h : Script.parse source = .ok (.literal v))
    (hstar : Glob.wildcard ∉ v) (hres : resolver.resolve v importer = .error f) :
    globsOf config resolver source importer = .error f := by
  have hraw : Glob.ofExpression (.literal v) = .ok v := Glob.fragment_eq_self hstar
  rw [globsOf_of_parse h]
  unfold GlobPattern.ofExpression
  rw [hraw]
  dsimp only
  rw [hres]
  rfl

/-- **A call site that is rejected** is shown no glob, for the same kind of reason. -/
theorem globsOf_of_failure {f : Failure} (hconfig : KeepsArguments config)
    (hignored : Script.isIgnored source = false) (hcut : Script.IsCut source)
    (hliteral : ∀ v f, Script.parse source = .ok (.literal v) → resolver.resolve v importer = .error f →
      Glob.wildcard ∉ v)
    (h : (compile config resolver search source importer).outcome = .error f) :
    (∃ f', globsOf config resolver source importer = .error f' ∧ f'.gist = f.gist) ∨
      ∃ argument glob globs, globsOf config resolver source importer = .ok (glob, globs) ∧
        (plan config resolver source importer).outcome = .ok (argument, .search glob globs) ∧
        search globs (Path.dirname importer) = .error f := by
  cases hparse : Script.parse (Script.importArgument source) with
  | error e =>
    rw [compile_of_rejected hconfig hignored hparse] at h
    obtain rfl := Except.error.inj h
    exact .inl (globsOf_of_rejected hcut hparse)
  | ok e =>
    have hverdict := verdict_of_parse resolver search importer hconfig hignored hparse
    rw [h] at hverdict
    have hwhole := (hcut.parse_iff e).mpr hparse
    cases hlit : (ofLiteral resolver importer e).outcome with
    | error f' =>
      rw [verdictOn_of_failure hlit] at hverdict
      obtain rfl : f = f' := Except.error.inj hverdict
      obtain ⟨v, rfl, hres⟩ := ofLiteral_eq_error hlit
      exact .inl ⟨f, globsOf_of_literal hwhole (hliteral v f hwhole hres) hres, rfl⟩
    | ok verdict =>
      cases verdict with
      | some verdict =>
        rw [verdictOn_of_literal hlit] at hverdict
        cases hverdict
      | none =>
        rw [verdictOn_of_glob hlit] at hverdict
        rw [globsOf_of_parse hwhole]
        cases hglob : GlobPattern.ofExpression e source fun raw => resolver.resolve raw importer with
        | error f' =>
          rw [hglob] at hverdict
          obtain rfl : f = f' := Except.error.inj hverdict
          exact .inl ⟨f, rfl, rfl⟩
        | ok glob =>
          rw [hglob] at hverdict
          obtain ⟨hd, hsearch⟩ := verdictOnGlob_eq_error hverdict.symm
          rw [ok_bind, if_pos hd]
          refine .inr ⟨_, glob, _, rfl, plan_eq_ok_iff.mpr (.inr ⟨hignored, (overruled_eq hconfig _).symm, e,
            hparse, planExpression_eq_ok_iff.mpr (.search hlit hglob hd)⟩), hsearch⟩

/-- The globs are shown only of a dynamic glob. -/
theorem globLines_congr {glob : GlobPattern} {globs globs' : List Text}
    (h : glob.dynamic = true → globs = globs') : globLines glob globs = globLines glob globs' := by
  unfold globLines
  cases hd : glob.dynamic with
  | true => rw [h hd]
  | false => rfl

/-- The text that shows a glob and the globs that are searched for it. -/
def shown (glob : GlobPattern) (globs : List Text) : Text := (globLines glob globs).flatMap (· ++ ['\n'])

/-- **Whether an outcome shows the glob of a source** and the globs that are searched for it.  Only characters can be
written out: of a surrogate, which the source or an alias may spell, the replacement character is left in a
text. -/
def Shows (source : Text) (glob : GlobPattern) (globs : List Text) (outcome : Outcome) : Prop :=
  ¬ Script.SpellsSurrogate source → Script.replacement ∉ shown glob globs →
    outcome.exitCode = 0 ∧ outcome.output = shown glob globs

/-- **The `glob` command and call sites agree**, where the first argument is cut in the right place: the glob of
the call site is shown with the globs that were searched, and what rejects the call site rejects the command,
unless it is the search for the globs that are shown that failed. -/
theorem run_glob {engine : Engine} {home input : Text} {r : Request} (hcommand : r.command = .glob source importer)
    (hload : settings fs home r = .ok config) (hignored : Script.isIgnored source = false)
    (hcut : Script.IsCut source)
    (hliteral : ∀ v f, Script.parse source = .ok (.literal v) →
      (resolverOf config fs.isDirectory fs.cwd engine).resolve v (Path.absolute fs.cwd importer) = .error f →
      Glob.wildcard ∉ v) :
    (∀ site glob, (compile config (resolverOf config fs.isDirectory fs.cwd engine) search source
        (Path.absolute fs.cwd importer)).outcome = .ok site → site.verdict.glob = some glob →
      Shows source glob site.verdict.globs (run fs home input r engine).1) ∧
    ∀ f, (compile config (resolverOf config fs.isDirectory fs.cwd engine) search source
        (Path.absolute fs.cwd importer)).outcome = .error f →
      ((run fs home input r engine).1.exitCode = 1 ∧
        ∃ f', (run fs home input r engine).1.trouble = some (.failure f') ∧ f'.gist = f.gist) ∨
      ∃ argument glob globs, (plan config (resolverOf config fs.isDirectory fs.cwd engine) source
          (Path.absolute fs.cwd importer)).outcome = .ok (argument, .search glob globs) ∧
        search globs (Path.dirname (Path.absolute fs.cwd importer)) = .error f ∧
        Shows source glob globs (run fs home input r engine).1 := by
  have hconfig := keepsArguments_settings hload
  have hrun : (run fs home input r engine).1 =
      (runGlob fs config source importer engine).after (importerNote fs importer) := by
    unfold run
    rw [hcommand]
    dsimp only
    unfold withSettings
    rw [hload]
  rw [hrun]
  unfold runGlob
  dsimp only
  refine ⟨fun site glob h hglob _ _ => ?_, fun f h => ?_⟩
  · obtain ⟨globs, hshown, hglobs⟩ := globsOf_of_compile hconfig hcut h hglob
    rw [shown, hshown, ← globLines_congr hglobs]
    exact ⟨rfl, rfl⟩
  · rcases globsOf_of_failure hconfig hignored hcut hliteral h with
      ⟨f', hshown, hgist⟩ | ⟨argument, glob, globs, hshown, hplan, hsearch⟩
    · rw [hshown]
      exact .inl ⟨rfl, f', rfl, hgist⟩
    · rw [hshown]
      exact .inr ⟨argument, glob, globs, hplan, hsearch, fun _ _ => ⟨rfl, rfl⟩⟩

/-- The glob of an import is asked for. -/
def globRequest (source : Text) : Request := { command := .glob source "/p/main.js".toList }

/-- Where there is no configuration file, the defaults are in force. -/
theorem settings_neighbours (source : Text) :
    settings neighbours [] (globRequest source) = .ok {} := by
  have hnone : [Config.fileName, Config.userFile []].find? neighbours.leadsAnywhere = none := by
    decide +kernel
  have hload : Config.load neighbours [] [] = .ok {} := by
    unfold Config.load
    dsimp only
    rw [if_pos rfl, hnone]
    rfl
  unfold settings
  exact hload ▸ rfl

/-- A call with a comment in front of its argument. -/
theorem run_glob_commented :
    (run neighbours [] [] (globRequest (importWith "/* the page */".toList))).1.exitCode = 0 ∧
      (run neighbours [] [] (globRequest (importWith "/* the page */".toList))).1.output =
        "raw:      ./a/*.js\nglob:     ./a/*.js\n  ./a/*.js\n  ./a/**/*.js\n".toList := by
  have hk : Script.IsBlockComment "/* the page */".toList :=
    ⟨" the page ".toList, by decide +kernel, by decide +kernel⟩
  have hA : Script.IsExpression "`./a/${id}.js`".toList := by
    decide +kernel
  have htrim : Text.trim (importWith "/* the page */".toList) =
      Script.callText [] [] ("/* the page */".toList ++ ([' '] ++ "`./a/${id}.js`".toList)) [')'] := by
    decide +kernel
  obtain ⟨ws, hws, hspaced⟩ :=
    Script.exists_spaced hk.ended (g := [' ']) (by decide) hA Script.isTail_close
  have hcut : Script.IsCut (importWith "/* the page */".toList) :=
    .call htrim .nil .nil hws hspaced Script.isTail_close (by decide +kernel) (by decide +kernel)
  have hsite : dispatchesWith (fun glob _ => globLines glob (searched {} glob) =
      ["raw:      ./a/*.js".toList, "glob:     ./a/*.js".toList, "  ./a/*.js".toList,
        "  ./a/**/*.js".toList])
      (compileIn neighbours {} (importWith "/* the page */".toList) "/p/main.js".toList) = true := by
    decide +kernel
  obtain ⟨site, glob, globs, files, table, h, hv, hlines⟩ := exists_of_dispatchesWith hsite
  have hliteral : ∀ v f, Script.parse (importWith "/* the page */".toList) = .ok (.literal v) →
      (resolverOf {} neighbours.isDirectory neighbours.cwd).resolve v
        (Path.absolute neighbours.cwd "/p/main.js".toList) = .error f → Glob.wildcard ∉ v := by
    intro v f _ hfails
    cases hfails
  have himporter : Path.absolute neighbours.cwd "/p/main.js".toList = "/p/main.js".toList := by
    decide +kernel
  have hcommand : (globRequest (importWith "/* the page */".toList)).command =
      .glob (importWith "/* the page */".toList) "/p/main.js".toList := rfl
  have hsite' : (compile {} (resolverOf {} neighbours.isDirectory neighbours.cwd) neighbours.matcher
      (importWith "/* the page */".toList) (Path.absolute neighbours.cwd "/p/main.js".toList)).outcome =
        .ok site := himporter.symm ▸ h
  have hglob : site.verdict.glob = some glob := by rw [hv]; rfl
  obtain ⟨-, -, -, -, -, hglobs, -⟩ := compile_dispatch h hv
  have hshown : shown glob site.verdict.globs =
      "raw:      ./a/*.js\nglob:     ./a/*.js\n  ./a/*.js\n  ./a/**/*.js\n".toList := by
    rw [hv]
    show (globLines glob globs).flatMap (· ++ ['\n']) = _
    rw [hglobs]
    exact congrArg (List.flatMap (· ++ ['\n'])) (of_decide_eq_true hlines)
  have hshows : Shows (importWith "/* the page */".toList) glob site.verdict.globs
      (run neighbours [] [] (globRequest (importWith "/* the page */".toList))).1 :=
    (run_glob hcommand (settings_neighbours _) (by decide +kernel) hcut hliteral).1 site glob hsite' hglob
  rw [Shows, hshown] at hshows
  exact hshows (by decide +kernel) (by decide +kernel)

/-- An import with an object of options. -/
def importWithOptions : Text := "import(`./a/${id}.js`, \x7b with: \x7b\x7d \x7d)".toList

/-- Options with an object are cut off for a call site, which shows a glob, and rejected by the command. -/
theorem options_rejected :
    settings neighbours [] (globRequest importWithOptions) = .ok {} ∧
      Script.isIgnored importWithOptions = false ∧
      (∃ site glob, (compileIn neighbours {} importWithOptions "/p/main.js".toList).outcome = .ok site ∧
        site.verdict.kind = .dispatch ∧ site.verdict.glob = some glob) ∧
      (run neighbours [] [] (globRequest importWithOptions)).1.exitCode = 1 := by
  have hsite : dispatchesWith (fun _ _ => true)
      (compileIn neighbours {} importWithOptions "/p/main.js".toList) = true := by
    decide +kernel
  obtain ⟨site, glob, globs, files, table, h, hv, -⟩ := exists_of_dispatchesWith hsite
  refine ⟨settings_neighbours _, ?_, ⟨site, glob, h, by rw [hv]; rfl, by rw [hv]; rfl⟩, ?_⟩
  all_goals decide +kernel

end CommandLine

end VariableImport
