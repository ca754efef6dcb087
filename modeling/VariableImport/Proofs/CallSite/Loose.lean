import VariableImport.Proofs.CallSite.Offered

/-!
# Proofs/CallSite/Loose — letting in directories keeps what a table says

Loosely, the globs of a call site let in directories of any depth, in front of later globs.  A call site
that dispatches still does, to the same files and others, and every specifier of its table stands for
the same file (`loose_extends`), where all magic in its glob is wildcards and the head of an alias is
fixed text without two slashes side by side.
-/

namespace VariableImport

namespace CallSite

variable {config : Config} {resolver : AliasResolver} {fs : FileSystem} {source importer argument : Text}
  {glob : GlobPattern} {globs files : List Text} {table : DispatchTable} {site : CallSite}

/-- A configuration that lets in directories, or does not. -/
def letIn (config : Config) (loose : Bool) : Config := { config with loose }

theorem planExpression_letIn {loose : Bool} {e : Expression}
    (h : (planExpression (letIn config loose) resolver source importer e).outcome =
      .ok (.search glob globs)) (loose' : Bool) :
    (planExpression (letIn config loose') resolver source importer e).outcome =
      .ok (.search glob (Glob.normalize glob.glob config.extensions loose')) := by
  have h := planExpression_eq_ok_iff.mp h
  cases h with
  | search hliteral hglob hd => exact planExpression_eq_ok_iff.mpr (.search hliteral hglob hd)

/-- **What is searched for** does not depend on whether directories are let in, but for the globs. -/
theorem plan_letIn {loose : Bool}
    (h : (plan (letIn config loose) resolver source importer).outcome =
      .ok (argument, .search glob globs)) (loose' : Bool) :
    (plan (letIn config loose') resolver source importer).outcome =
      .ok (argument, .search glob (Glob.normalize glob.glob config.extensions loose')) := by
  rcases plan_eq_ok_iff.mp h with ⟨-, -, hp⟩ | ⟨hignored, hargument, e, hparse, hp⟩
  · cases hp
  · exact plan_eq_ok_iff.mpr (.inr ⟨hignored, hargument, e, hparse, planExpression_letIn hp loose'⟩)

/-- What is searched for are the globs of the call site. -/
theorem globs_eq_normalize {loose : Bool}
    (h : (plan (letIn config loose) resolver source importer).outcome =
      .ok (argument, .search glob globs)) : globs = Glob.normalize glob.glob config.extensions loose := by
  have hself := plan_letIn h loose
  rw [h] at hself
  exact (Plan.search.inj (Prod.mk.inj (Except.ok.inj hself)).2).2

/-- **A call site dispatches** exactly if its plan is a search that finds files. -/
theorem compile_dispatch_iff {search : Search} (hconfig : KeepsFiles config) :
    (∃ site, (compile config resolver search source importer).outcome = .ok site ∧
      site.verdict = .dispatch glob globs files table) ↔
    ∃ argument found, (plan config resolver source importer).outcome = .ok (argument, .search glob globs) ∧
      search globs (Path.dirname importer) = .ok found ∧ files = enumerate importer found ∧ files ≠ [] ∧
      table = DispatchTable.ofFiles files glob.resolved := by
  constructor
  · rintro ⟨site, h, hv⟩
    obtain ⟨argument, found, hplan, hfound, hfiles, hne, htable⟩ := exists_search_of_dispatch h hv
    rw [hconfig, Option.getD_none] at hfiles
    exact ⟨argument, found, hplan, hfound, hfiles, hne, htable⟩
  · rintro ⟨argument, found, hplan, hfound, rfl, hne, rfl⟩
    refine ⟨_, compile_eq_ok_iff.mpr (.searched hplan hfound), ?_⟩
    simp only [verdictOnFiles, hconfig (enumerate importer found) importer, Option.getD_none, if_neg hne]

end CallSite

namespace Resolved

/-- Whether a resolved path is searched as it is written, and its head exchanged uniformly: it holds
nothing that a search reads anew, and its head is fixed and has no two slashes side by side. -/
structure IsPlain (r : Resolved) : Prop where
  path : ∀ c ∈ r.path, c ∉ Glob.reread
  head : Glob.wildcard ∉ r.pathHead
  slashes : ¬ ['/', '/'] <:+: r.pathHead

/-- Whether a resolved path is searched as it is written. -/
def isPlain (r : Resolved) : Bool :=
  r.path.all (· ∉ Glob.reread) && Glob.wildcard ∉ r.pathHead && !r.pathHead.contains ['/', '/']

theorem isPlain_iff {r : Resolved} : r.isPlain = true ↔ r.IsPlain := by
  simp only [isPlain, Bool.and_eq_true, List.all_eq_true, decide_eq_true_eq, Bool.not_eq_true',
    Bool.eq_false_iff, ne_eq, Text.contains_iff]
  exact ⟨fun ⟨⟨hpath, hhead⟩, hslashes⟩ => ⟨hpath, hhead, hslashes⟩,
    fun ⟨hpath, hhead, hslashes⟩ => ⟨⟨hpath, hhead⟩, hslashes⟩⟩

end Resolved

namespace CallSite

variable {config : Config} {resolver : AliasResolver} {fs : FileSystem} {source importer : Text}
  {glob : GlobPattern} {globs files : List Text} {table : DispatchTable} {site : CallSite}

/-- **A head that is exchanged**: paths behind it have the specifiers of what stands behind another. -/
theorem exists_plain_head (hres : resolver.resolve glob.raw importer = .ok glob.resolved)
    (hglob : glob.glob = Glob.collapse ((glob.resolved.map Resolved.path).getD glob.raw))
    (hresolved : ∀ r ∈ glob.resolved, r.IsPlain) : ∃ head specifierHead : Text, head <+: glob.glob ∧
      Glob.wildcard ∉ head ∧ ¬ ['/', '/'] <:+: head ∧
      ∀ u, DispatchTable.candidates glob.resolved (head ++ u) =
        DispatchTable.specifiersOf (specifierHead ++ u) := by
  cases hr : glob.resolved with
  | none => exact ⟨[], [], List.nil_prefix, by simp, by simp, fun _ => rfl⟩
  | some r =>
    obtain ⟨-, hhead, hslashes⟩ := hresolved r hr
    refine ⟨r.pathHead, r.specifierHead, ?_, hhead, hslashes, fun u => ?_⟩
    · by_cases hne : r.pathHead = []
      · rw [hne]
        exact List.nil_prefix
      · obtain ⟨tail, -, hpath⟩ := AliasResolver.sharesTail_resolve (hr ▸ hres) hne
        rw [hglob, hr, Option.map_some, Option.getD_some, hpath, Glob.collapse_append hhead]
        exact List.prefix_append ..
    · rw [DispatchTable.candidates, r.toSpecifier_append]

/-- A glob is searched as it is written, if its text is and what it resolves to is. -/
theorem not_mem_reread_of_plain
    (hglob : glob.glob = Glob.collapse ((glob.resolved.map Resolved.path).getD glob.raw))
    (hraw : ∀ c ∈ glob.raw, c ∉ Glob.reread) (hresolved : ∀ r ∈ glob.resolved, r.IsPlain) :
    ∀ c ∈ glob.glob, c ∉ Glob.reread := by
  intro c hc
  rw [hglob] at hc
  have hc := (Glob.collapse_sublist _).subset hc
  cases hr : glob.resolved with
  | none => exact hraw c (by simpa [hr] using hc)
  | some r => exact (hresolved r hr).path c (by simpa [hr] using hc)

/-- **No file is lost** where directories are let in. -/
theorem enumerate_loose (fs : FileSystem) (importer glob : Text) (extensions : List Text) :
    ∀ file ∈ enumerate importer (fs.matchFiles (Glob.normalize glob extensions false) (Path.dirname importer)),
      file ∈ enumerate importer
        (fs.matchFiles (Glob.normalize glob extensions true) (Path.dirname importer)) := by
  intro file hfile
  obtain ⟨⟨q, hq, hrel⟩, hsame⟩ := mem_enumerate.mp hfile
  obtain ⟨pattern, hpattern, hq⟩ := List.mem_flatMap.mp hq
  exact mem_enumerate.mpr
    ⟨⟨q, List.mem_flatMap.mpr ⟨pattern, Glob.mem_normalize_loose hpattern, hq⟩, hrel⟩, hsame⟩

/-- **Letting in directories is a conservative extension**: a call site that dispatches still does, no
file is lost, and every specifier stands for the file that it stood for. -/
theorem loose_extends (hfs : fs.IsNamed) (hconfig : KeepsFiles config)
    (hext : Glob.AreWords config.extensions)
    (h : (compile (letIn config false) resolver fs.matcher source importer).outcome = .ok site)
    (hv : site.verdict = .dispatch glob globs files table)
    (hraw : ∀ c ∈ glob.raw, c ∉ Glob.reread) (hresolved : ∀ r ∈ glob.resolved, r.IsPlain) :
    ∃ site' globs' files' table',
      (compile (letIn config true) resolver fs.matcher source importer).outcome = .ok site' ∧
      site'.verdict = .dispatch glob globs' files' table' ∧ (∀ file ∈ files, file ∈ files') ∧
      ∀ k file, table.lookup k = some file → table'.lookup k = some file := by
  have hkept (loose : Bool) : KeepsFiles (letIn config loose) := hconfig
  obtain ⟨argument, found, hplan, hfound, rfl, hne, rfl⟩ := (compile_dispatch_iff (hkept false)).mp ⟨site, h, hv⟩
  obtain ⟨hres, hglob, hstar, hexplicit⟩ := glob_dispatch h hv
  have hplan' := plan_letIn hplan true
  obtain rfl := globs_eq_normalize hplan
  obtain ⟨head, specifierHead, hhead, hfixed, hslashes, hspecifiers⟩ := exists_plain_head hres hglob hresolved
  have hread := not_mem_reread_of_plain hglob hraw hresolved
  have hflat : ¬ Glob.deep <:+: glob.glob := hglob ▸ Glob.not_infix_collapse _
  have hbrace : '\x7b' ∉ glob.glob := fun hm => hread _ hm (by decide)
  obtain ⟨hnull, rfl⟩ := FileSystem.matcher_eq_ok.mp hfound
  have hfound' : fs.matcher (Glob.normalize glob.glob config.extensions true) (Path.dirname importer) =
      .ok (fs.matchFiles (Glob.normalize glob.glob config.extensions true) (Path.dirname importer)) :=
    FileSystem.matcher_eq_ok.mpr ⟨FileSystem.listsNull_normalize hstar hflat hbrace hnull, rfl⟩
  have hkeeps := enumerate_loose fs importer glob.glob config.extensions
  obtain ⟨first, hfirst⟩ := List.exists_mem_of_ne_nil _ hne
  obtain ⟨site', h', hv'⟩ := (compile_dispatch_iff (hkept true)).mpr
    ⟨argument, _, hplan', hfound', rfl, List.ne_nil_of_mem (hkeeps first hfirst), rfl⟩
  refine ⟨site', _, _, _, h', hv', hkeeps, fun k file hk => ?_⟩
  rw [lookup_normalize, if_neg (by simp)] at hk
  rw [lookup_normalize, if_pos rfl]
  exact findSome?_offered hfs hext hexplicit hstar hread hflat hhead hfixed hslashes hspecifiers hk

/-- An import in a tree of files, with one alias and two extensions. -/
def compileLoosely (loose : Bool) (rule : AliasRule) (paths : List Text) (source : Text) : Logged CallSite :=
  let config : Config := { «alias» := [rule], extensions := [".js".toList, ".ts".toList] }
  compile (letIn config loose) (resolverOf config (FileSystem.ofPaths paths).isDirectory
    (FileSystem.ofPaths paths).cwd) (FileSystem.ofPaths paths).matcher source "/p/main.js".toList

/-- The table of an import behind an alias is kept where a deeper directory is let in. -/
theorem loose_extends_alias : ∃ site glob globs files table site' globs' files' table',
    (compileLoosely false { find := ['@'], replacement := "./a".toList }
      ["/p/a/v/x/index.js".toList, "/p/a/vx.js".toList, "/p/a/v/y/x.js".toList]
      "import(`@/v${id}`)".toList).outcome = .ok site ∧
    site.verdict = .dispatch glob globs files table ∧
    files = ["./a/v/x/index.js".toList, "./a/vx.js".toList] ∧
    (compileLoosely true { find := ['@'], replacement := "./a".toList }
      ["/p/a/v/x/index.js".toList, "/p/a/vx.js".toList, "/p/a/v/y/x.js".toList]
      "import(`@/v${id}`)".toList).outcome = .ok site' ∧
    site'.verdict = .dispatch glob globs' files' table' ∧ (∀ file ∈ files, file ∈ files') ∧
    ∀ k file, table.lookup k = some file → table'.lookup k = some file := by
  have h : dispatchesWith (fun glob files => decide
      (files = ["./a/v/x/index.js".toList, "./a/vx.js".toList] ∧
        glob.raw.all (· ∉ Glob.reread) = true ∧ glob.resolved.all Resolved.isPlain = true))
      (compileLoosely false { find := ['@'], replacement := "./a".toList }
        ["/p/a/v/x/index.js".toList, "/p/a/vx.js".toList, "/p/a/v/y/x.js".toList]
        "import(`@/v${id}`)".toList) = true := by
    decide +kernel
  obtain ⟨site, glob, globs, files, table, h, hv, htest⟩ := exists_of_dispatchesWith h
  obtain ⟨hfiles, hraw, hresolved⟩ := of_decide_eq_true htest
  have hraw : ∀ c ∈ glob.raw, c ∉ Glob.reread := by simpa using hraw
  have hresolved : ∀ r ∈ glob.resolved, r.IsPlain := fun r hr =>
    Resolved.isPlain_iff.mp (by simpa [show glob.resolved = some r from hr] using hresolved)
  have hext : Glob.AreWords [".js".toList, ".ts".toList] := by
    intro extension hmem
    simp only [List.mem_cons, List.not_mem_nil, or_false] at hmem
    rcases hmem with rfl | rfl
    exacts [⟨['j', 's'], rfl, List.all_eq_true.mp (by decide)⟩,
      ⟨['t', 's'], rfl, List.all_eq_true.mp (by decide)⟩]
  obtain ⟨site', globs', files', table', h', hv', hkeeps, hlookup⟩ :=
    loose_extends (FileSystem.isNamed_ofPaths _) (fun _ _ => rfl) hext h hv hraw hresolved
  exact ⟨site, glob, globs, files, table, site', globs', files', table', h, hv, hfiles, h', hv', hkeeps, hlookup⟩

/-! ## Specifiers that are lost -/

/-- Whether a run dispatches a specifier to a file, though its raw glob holds nothing that a search reads
anew. -/
def Gives (k file : Text) (run : Logged CallSite) : Prop :=
  ∃ site glob globs files table, run.outcome = .ok site ∧
    site.verdict = .dispatch glob globs files table ∧
    (∀ c ∈ glob.raw, c ∉ ['?', '[', ']', '\x7b', '\x7d']) ∧ table.lookup k = some file

/-- Whether an import dispatches a specifier to another file if directories are let in. -/
def Steals (rule : AliasRule) (paths : List Text) (source : Text) : Prop :=
  ∃ k file file', Gives k file (compileLoosely false rule paths source) ∧
    Gives k file' (compileLoosely true rule paths source) ∧ file' ≠ file

/-- What a rule resolves to, as far as specifiers depend on it. -/
def resolvedBy (rule : AliasRule) (specifierHead pathHead : Text) : Resolved :=
  { origin := .alias, rule, importer := [], specifier := [], path := [], specifierHead, pathHead }

/-- The first glob that offers a file for a specifier, where the heads of a rule are exchanged. -/
def firstOffer (loose : Bool) (rule : AliasRule) (paths : List Text) (glob specifierHead pathHead k : Text) :
    Option Text :=
  (if loose then (Glob.repairSlash glob).flatMap Glob.expandDepth else Glob.repairSlash glob).findSome?
    (offered (FileSystem.ofPaths paths) "/p/main.js".toList (some (resolvedBy rule specifierHead pathHead))
      [".js".toList, ".ts".toList] k)

/-- Whether an import comes to a glob, with heads exchanged, and its raw glob holds nothing that a search
reads anew. -/
def comesTo (text specifierHead pathHead : Text) (glob : GlobPattern) (_ : List Text) : Bool :=
  decide (glob.glob = text ∧ (glob.resolved.map fun r => (r.specifierHead, r.pathHead)) =
    some (specifierHead, pathHead) ∧ glob.raw.all (· ∉ ['?', '[', ']', '\x7b', '\x7d']) = true)

theorem steals_of_firstOffer {rule : AliasRule} {paths : List Text} {source : Text}
    (glob specifierHead pathHead k file file' : Text)
    (h : dispatchesWith (comesTo glob specifierHead pathHead) (compileLoosely false rule paths source) = true)
    (hnull : ∀ pattern ∈ Glob.normalize glob [".js".toList, ".ts".toList] true,
      FileSystem.listsNull "/p".toList pattern = false)
    (hstrict : firstOffer false rule paths glob specifierHead pathHead k = some file)
    (hloose : firstOffer true rule paths glob specifierHead pathHead k = some file') (hne : file' ≠ file) :
    Steals rule paths source := by
  obtain ⟨site, pattern, globs, files, table, hrun, hv, htest⟩ := exists_of_dispatchesWith h
  obtain ⟨rfl, hheads, hraw⟩ := of_decide_eq_true htest
  have hraw : ∀ c ∈ pattern.raw, c ∉ ['?', '[', ']', '\x7b', '\x7d'] := fun c hc =>
    of_decide_eq_true (List.all_eq_true.mp hraw c hc)
  obtain ⟨r, hr, hheads⟩ := Option.map_eq_some_iff.mp hheads
  obtain ⟨rfl, rfl⟩ := Prod.mk.inj hheads
  have hkept {loose : Bool} {config : Config} (h : config.onFiles = fun _ _ => none) :
      KeepsFiles (letIn config loose) := fun _ _ => congrFun (congrFun h _) _
  obtain ⟨argument, found, hplan, hfound, rfl, -, rfl⟩ := (compile_dispatch_iff (hkept rfl)).mp ⟨site, hrun, hv⟩
  obtain rfl : globs = Glob.normalize pattern.glob [".js".toList, ".ts".toList] false :=
    globs_eq_normalize hplan
  obtain ⟨-, rfl⟩ := FileSystem.matcher_eq_ok.mp hfound
  have hdir : Path.dirname "/p/main.js".toList = "/p".toList := by decide
  have hoffers (loose : Bool) : (DispatchTable.ofFiles (enumerate "/p/main.js".toList
      ((FileSystem.ofPaths paths).matchFiles (Glob.normalize pattern.glob [".js".toList, ".ts".toList] loose)
        (Path.dirname "/p/main.js".toList))) pattern.resolved).lookup k =
      firstOffer loose rule paths pattern.glob r.specifierHead r.pathHead k := by
    rw [lookup_normalize, show pattern.resolved = some r from hr]
    rfl
  refine ⟨k, file, file', ⟨site, pattern, _, _, _, hrun, hv, hraw, (hoffers false).trans hstrict⟩, ?_, hne⟩
  have hlookup := (hoffers true).trans hloose
  have hfiles : enumerate "/p/main.js".toList ((FileSystem.ofPaths paths).matchFiles
      (Glob.normalize pattern.glob [".js".toList, ".ts".toList] true)
      (Path.dirname "/p/main.js".toList)) ≠ [] := by
    intro hnil
    rw [hnil] at hlookup
    simp [DispatchTable.lookup_ofFiles] at hlookup
  obtain ⟨site', hrun', hv'⟩ := (compile_dispatch_iff (hkept rfl)).mpr ⟨argument, _, plan_letIn hplan true,
    FileSystem.matcher_eq_ok.mpr ⟨hdir.symm ▸ hnull, rfl⟩, rfl, hfiles, rfl⟩
  exact ⟨site', pattern, _, _, _, hrun', hv', hraw, hlookup⟩

/-- **A wildcard or two slashes in the head of an alias, or magic in its replacement**, each give a
specifier to another file. -/
theorem steals_beyond_conditions :
    Steals { find := "./av/b/c".toList, replacement := "./*v".toList, regex := true }
      ["/p/*vX/index.js".toList, "/p/av/b/cX/index.js.ts".toList] "import(`./av/b/c${id}`)".toList ∧
    Steals { find := "./a".toList, replacement := "./a//v".toList, regex := true }
      ["/p/a/vX/index.js".toList, "/p/a/v/vX/index.js.ts".toList] "import(`./a${id}`)".toList ∧
    Steals { find := "./av/b/c".toList, replacement := "./?v".toList, regex := true }
      ["/p/?vX/index.js".toList, "/p/av/b/cX/index.js.ts".toList] "import(`./av/b/c${id}`)".toList ∧
    Steals { find := "./a/b/c/".toList, replacement := "./[[a]".toList, regex := true }
      ["/p/[[a]X/index.js".toList, "/p/a/b/c/X/index.js.ts".toList] "import(`./a/b/c/${id}`)".toList ∧
    Steals { find := "@".toList, replacement := "./\x7ba,av/b/c\x7dv".toList, regex := true }
      ["/p/av/b/cvYs/index.js".toList, "/p/av/b/cvYs/index.js.ts".toList] "import(`@${id}s`)".toList := by
  refine ⟨?_, ?_, ?_, ?_, ?_⟩
  · refine steals_of_firstOffer "./*v*".toList "./av/b/c".toList "./*v".toList
      "./av/b/cX/index.js".toList "./*vX/index.js".toList "./av/b/cX/index.js.ts".toList ?_ ?_ ?_ ?_ ?_
    all_goals decide +kernel
  · refine steals_of_firstOffer "./a//v*".toList "./a".toList "./a//v".toList
      "./a/vX/index.js".toList "./a/vX/index.js".toList "./a//v/vX/index.js.ts".toList ?_ ?_ ?_ ?_ ?_
    all_goals decide +kernel
  · refine steals_of_firstOffer "./?v*".toList "./av/b/c".toList "./?v".toList
      "./av/b/cX/index.js".toList "./?vX/index.js".toList "./av/b/cX/index.js.ts".toList ?_ ?_ ?_ ?_ ?_
    all_goals decide +kernel
  · refine steals_of_firstOffer "./[[a]*".toList "./a/b/c/".toList "./[[a]".toList
      "./a/b/c/X/index.js".toList "./[[a]X/index.js".toList "./a/b/c/X/index.js.ts".toList ?_ ?_ ?_ ?_ ?_
    all_goals decide +kernel
  · refine steals_of_firstOffer "./\x7ba,av/b/c\x7dv*s".toList "@".toList "./\x7ba,av/b/c\x7dv".toList
      "./av/b/cvYs/index.js".toList "./av/b/cvYs/index.js".toList "./av/b/cvYs/index.js.ts".toList ?_ ?_ ?_ ?_ ?_
    all_goals decide +kernel

end CallSite

end VariableImport
