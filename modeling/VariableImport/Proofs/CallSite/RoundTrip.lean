import VariableImport.Proofs.Alias.Heads
import VariableImport.Proofs.CallSite.Dispatch
import VariableImport.Proofs.DispatchTable.Candidates
import VariableImport.Proofs.FileSystem.Named
import VariableImport.Proofs.Glob.Ending
import VariableImport.Proofs.Glob.Searched

/-!
# Proofs/CallSite/RoundTrip — every file can be asked for

A file of a dispatch stands in its table under specifiers.  One of them is an instance of the raw
glob, so some value of the import expression leads to the file (`exists_candidate`), where the heads
of an alias can be exchanged back and the glob is searched as it is written.
-/

namespace VariableImport

namespace Glob

/-- A glob whose last component names no extension ends in a wildcard or in a component with more
than dots. -/
theorem after_eq_nil_or {before mid after : Text} (hmid : Filling before after mid)
    (hext : hasExtension (before ++ mid ++ after) = false)
    (hname : ∃ c ∈ Path.basename (before ++ wildcard :: after), c ≠ '.') :
    after = [] ∨ ∃ c ∈ Path.basename after, c ≠ '.' := by
  by_cases hslash : '/' ∈ after
  · obtain ⟨head, name, -, rfl, hn⟩ := Text.exists_cutLast hslash
    refine .inr ?_
    have e : before ++ wildcard :: (head ++ '/' :: name) =
        (before ++ wildcard :: head) ++ '/' :: name := by simp
    rw [e, Path.basename_append_cons _ hn] at hname
    rwa [Path.basename_append_cons _ hn]
  · rw [Path.basename_of_not_mem hslash]
    rcases List.eq_nil_or_concat after with h | ⟨init, c, rfl⟩
    · exact .inl h
    · refine .inr ⟨c, by simp, ?_⟩
      rintro rfl
      -- a last component of dots behind a wildcard would be an extension
      obtain ⟨s, hs⟩ : ∃ s, mid = s ++ [wildcard] := by
        cases hmid
        exacts [⟨[], rfl⟩, ⟨['*', '*', '/'], rfl⟩, ⟨['*', '/', '*'], rfl⟩,
          ⟨['*', '/', '*', '*', '/'], rfl⟩, ⟨['/'], rfl⟩, ⟨['/', '*', '*', '/'], rfl⟩]
      have hinit : '/' ∉ wildcard :: init := by
        have : '/' ∉ init := fun h => hslash (by simp [h])
        simp [slash_ne_wildcard, this]
      obtain ⟨name, hname⟩ : ∃ name, Path.basename (before ++ mid ++ (init.concat '.')) =
          name ++ wildcard :: init ++ ['.'] := by
        refine ⟨(Path.cutName (before ++ s)).2, ?_⟩
        have hlast : '/' ∉ wildcard :: init ++ ['.'] := by simpa using hinit
        have e : before ++ mid ++ init.concat '.' = (before ++ s) ++ (wildcard :: init ++ ['.']) := by
          simp [hs]
        rw [e, Path.basename, Path.splitName, Path.cutName_append _ hlast]
        simp
      have hextension : Path.extension (name ++ wildcard :: init ++ ['.']) = ['.'] := by
        refine Path.extension_append ⟨wildcard, ?_, by decide⟩ (by simp) (by simp)
        refine Path.mem_basename_append ?_ _
        rw [Path.basename_of_not_mem hinit]
        exact List.mem_cons_self ..
      rw [hasExtension, hname, hextension] at hext
      simp at hext

/-- Instances of an explicit glob are explicit. -/
theorem Instance.isExplicit {g s : Text} (hg : Path.IsExplicit g) (h : Instance g s) :
    Path.IsExplicit s := by
  refine hg.imp ?_ ?_
  all_goals
    rintro ⟨rest, rfl⟩
    obtain ⟨a, b, rfl, ha, -⟩ := instance_append.mp h
    rw [(instance_fixed (by decide)).mp ha]
    exact List.prefix_append _ _

namespace Layout

theorem wildcard_not_mem_after (l : Layout) : wildcard ∉ l.after := by
  intro h
  rcases List.mem_append.mp h with h | h
  · exact wildcard_not_mem l.tail_fixed h
  · obtain ⟨c, hc, h⟩ := List.mem_flatMap.mp h
    rcases List.mem_cons.mp h with h | h
    · exact slash_ne_wildcard h.symm
    · exact wildcard_not_mem (l.rest_fixed c hc) h

/-- What normal globs add behind a layout makes another one. -/
theorem exists_append_extension (l : Layout) {index word : Text}
    (hindex : index = [] ∨ index = DispatchTable.indexName)
    (hword : ∀ c ∈ word, Text.isWord c = true) :
    ∃ l' : Layout, l'.before = l.before ∧ l'.after = l.after ++ (index ++ '.' :: word) := by
  have hslash : '/' ∉ word := not_mem_of_isWord hword (by decide)
  have hmagic : hasMagic ('.' :: word) = false := by
    have := hasMagic_of_isWord hword
    rw [hasMagic_eq_any] at this ⊢
    rw [List.any_cons, this]
    rfl
  rcases hindex with rfl | rfl
  · exact l.exists_append (by simp [hslash]) hmagic
  · refine l.exists_append_name (n := "index".toList ++ '.' :: word) ⟨by simp, ?_⟩ ?_
    · have : '/' ∉ "index".toList := by decide
      simp only [List.mem_append, this, List.mem_cons, hslash]
      simp
    · rw [hasMagic_eq_any] at hmagic ⊢
      rw [List.any_append, hmagic]
      rfl

/-- **What a search for a normal glob finds** is an instance of the glob, or one with an extension
behind it, also of an index file. -/
theorem instance_of_mem_normalize (l : Layout) {fs : FileSystem} (hfs : fs.IsNamed)
    {extensions : List Text} (hext : AreWords extensions) (hbrace : '\x7b' ∉ l.glob)
    (hname : ∃ c ∈ Path.basename l.glob, c ≠ '.') {loose : Bool} {g x directory p : Text}
    (hg : g ∈ normalize l.glob extensions loose) (hx : x ∈ expandBraces g)
    (hp : p ∈ fs.search directory x) :
    Instance l.glob p ∨ ∃ q index word, p = q ++ (index ++ '.' :: word) ∧ Instance l.glob q ∧
      (index = [] ∨ index = DispatchTable.indexName) ∧ DispatchTable.IsWord word ∧
      (l.after = [] ∨ ∃ c ∈ Path.basename l.after, c ≠ '.') := by
  obtain ⟨mid, hmid, hg⟩ := mem_normalize l.wildcard_not_mem_after hg
  have hplain : '\x7b' ∉ l.before ++ mid ++ l.after := by
    have hm : '\x7b' ∉ mid := by cases hmid <;> decide
    simp only [glob, List.mem_append, List.mem_cons, not_or] at hbrace
    simp only [List.mem_append, not_or]
    exact ⟨⟨hbrace.1, hm⟩, hbrace.2.2⟩
  rcases hg with rfl | ⟨hno, index, hindex, rfl⟩
  · rw [expandBraces_of_not_mem hplain, List.mem_singleton] at hx
    exact .inl (l.instance_of_mem_search hfs hmid (hx ▸ hp))
  · have hplain' : '\x7b' ∉ l.before ++ mid ++ l.after ++ index := by
      have : '\x7b' ∉ index := by rcases hindex with rfl | rfl <;> decide
      rw [List.mem_append, not_or]
      exact ⟨hplain, this⟩
    obtain ⟨word, rfl, hword⟩ := mem_expandBraces_group hplain' hext hx
    obtain ⟨l', hbefore, hafter⟩ := l.exists_append_extension hindex hword
    have hmid' : Filling l'.before l'.after mid := by
      rw [hbefore, hafter]
      exact hmid.append_after _
    have hp' : p ∈ fs.search directory (l'.before ++ mid ++ l'.after) := by
      simpa [hbefore, hafter] using hp
    have hglob : l'.glob = l.glob ++ (index ++ '.' :: word) := by simp [glob, hbefore, hafter]
    have hi := l'.instance_of_mem_search hfs hmid' hp'
    rw [hglob] at hi
    obtain ⟨q, added, rfl, hq, hadded⟩ := instance_append.mp hi
    have hfixed : wildcard ∉ index ++ '.' :: word := by
      have hw : wildcard ∉ word := not_mem_of_isWord hword (by decide)
      have hi : wildcard ∉ index := by rcases hindex with rfl | rfl <;> decide
      have hdot : wildcard ≠ '.' := by decide
      simp [hw, hi, hdot]
    obtain rfl := (instance_fixed hfixed).mp hadded
    exact .inr ⟨q, index, word, rfl, hq, hindex,
      ⟨not_mem_of_isWord hword (by decide), not_mem_of_isWord hword (by decide)⟩,
      after_eq_nil_or hmid hno hname⟩

/-- The text after the last wildcard stays when a fixed head is taken away. -/
theorem exists_eq_append_after {l : Layout} {head tail : Text} (hhead : wildcard ∉ head)
    (h : l.glob = head ++ tail) : ∃ before, tail = before ++ wildcard :: l.after := by
  have hstar : wildcard ∈ tail := by
    have : wildcard ∈ head ++ tail := h ▸ by simp [glob]
    exact (List.mem_append.mp this).resolve_left hhead
  obtain ⟨before, after, -, rfl, hafter⟩ := Text.exists_cutLast hstar
  have hl : Text.cutLast wildcard l.glob = some (l.before, l.after) :=
    cutLast_append l.wildcard_not_mem_after
  have hr : Text.cutLast wildcard l.glob = some (head ++ before, after) := by
    rw [h, ← List.append_assoc]
    exact cutLast_append hafter
  rw [hl] at hr
  obtain ⟨-, rfl⟩ := Prod.mk.inj (Option.some.inj hr)
  exact ⟨before, rfl⟩

end Layout

end Glob

namespace Resolved

/-- Whether the head of a path can be exchanged back for that of its specifier: there is one, and it
is fixed text. -/
def Exchanges (r : Resolved) : Prop :=
  r.pathHead ≠ [] ∧ ∀ c ∈ r.pathHead, c ≠ Glob.wildcard ∧ c ∉ Glob.reread

instance (r : Resolved) : Decidable r.Exchanges :=
  decidable_of_iff
    (r.pathHead ≠ [] ∧ (r.pathHead.all fun c => c ≠ Glob.wildcard ∧ c ∉ Glob.reread) = true)
    (by simp [Exchanges])

end Resolved

/-- **Exchanged heads**: a specifier and what it resolves to are alike behind two heads, and the
specifiers of a path behind the one are those behind the other. -/
theorem AliasResolver.exists_heads {resolver : AliasResolver} {raw importer : Text}
    {resolved : Option Resolved} (h : resolver.resolve raw importer = .ok resolved)
    (hheads : ∀ r ∈ resolved, r.Exchanges) :
    ∃ head pathHead tail, raw = head ++ tail ∧
      (resolved.map Resolved.path).getD raw = pathHead ++ tail ∧
      (∀ c ∈ pathHead, c ≠ Glob.wildcard ∧ c ∉ Glob.reread) ∧
      ∀ t, DispatchTable.candidates resolved (pathHead ++ t) = DispatchTable.specifiersOf (head ++ t) := by
  cases resolved with
  | none => exact ⟨[], [], raw, rfl, rfl, by simp, fun _ => rfl⟩
  | some r =>
    obtain ⟨hne, hfixed⟩ := hheads r rfl
    obtain ⟨tail, hraw, hpath⟩ := sharesTail_resolve h hne
    refine ⟨r.specifierHead, r.pathHead, tail, hraw, hpath, hfixed, fun t => ?_⟩
    rw [DispatchTable.candidates, r.toSpecifier_append]

/-- A configuration with some aliases. -/
def Config.ofAliases (rules : List AliasRule) : Config := { «alias» := rules }

namespace CallSite

/-- **Every file can be asked for**: one of the specifiers of a file of a dispatch is an instance of
the raw glob of the import. -/
theorem exists_candidate {config : Config} {fs : FileSystem} {resolver : AliasResolver}
    {source importer : Text} {site : CallSite} {glob : GlobPattern} {globs files : List Text}
    {table : DispatchTable} (hfs : fs.IsNamed) (hconfig : KeepsFiles config)
    (hext : Glob.AreWords config.extensions)
    (h : (compile config resolver fs.matcher source importer).outcome = .ok site)
    (hv : site.verdict = .dispatch glob globs files table)
    (hraw : ∀ c ∈ glob.raw, c ∉ Glob.reread)
    (hheads : ∀ r ∈ glob.resolved, r.Exchanges)
    (hsearched : [] ∉ Glob.searched glob.glob)
    (hname : ∃ c ∈ Path.basename glob.glob, c ≠ '.') :
    ∀ file ∈ files, ∃ c ∈ DispatchTable.candidates glob.resolved file, Glob.Instance glob.raw c := by
  intro file hfile
  obtain ⟨hres, hglob, hstar, hexplicit⟩ := glob_dispatch h hv
  obtain ⟨g, hg, x, hx, p, hp, rfl⟩ := mem_files_dispatch hconfig h hv hfile
  obtain ⟨head, pathHead, tail, hrawEq, hpath, hfixed, hcandidates⟩ :=
    AliasResolver.exists_heads hres hheads
  have hpathHead : Glob.wildcard ∉ pathHead := fun hm => (hfixed _ hm).1 rfl
  rw [hpath, Glob.collapse_append hpathHead] at hglob
  have hread : ∀ c ∈ glob.glob, c ∉ Glob.reread := by
    intro c hc
    rw [hglob] at hc
    rcases List.mem_append.mp hc with hc | hc
    · exact (hfixed c hc).2
    · exact hraw c (hrawEq ▸ List.mem_append_right _ ((Glob.collapse_sublist tail).subset hc))
  have hsimple : Glob.IsSimple glob.glob := fun c hc =>
    ⟨fun e => hread c hc (e ▸ by decide), fun e => hread c hc (e ▸ by decide)⟩
  have hbrace : '\x7b' ∉ glob.glob := fun hm => hread _ hm (by decide)
  have hdeep : ¬ [Glob.wildcard, Glob.wildcard] <:+: glob.glob := by
    rw [hglob, ← Glob.collapse_append hpathHead]
    exact Glob.not_infix_collapse _
  obtain ⟨l, hl⟩ := Glob.exists_layout hexplicit hsimple hstar hdeep hsearched
  obtain ⟨before, htail⟩ := Glob.Layout.exists_eq_append_after hpathHead (hl.trans hglob)
  rw [← hl] at hg hname hbrace
  rw [← hl] at hexplicit
  -- an instance of the glob is one of the tail behind the head that is exchanged
  have hsplit {q : Text} (hq : Glob.Instance l.glob q) (added : Text) :
      ∃ y, Glob.Instance (Glob.collapse tail) y ∧
        DispatchTable.candidates glob.resolved (Path.relativeify (q ++ added)) =
          DispatchTable.specifiersOf (head ++ (y ++ added)) := by
    have hrel : Path.relativeify (q ++ added) = q ++ added :=
      ((hq.isExplicit hexplicit).mono (List.prefix_append q added)).relativeify
    rw [hl, hglob] at hq
    obtain ⟨a, y, rfl, ha, hy⟩ := Glob.instance_append.mp hq
    obtain rfl := (Glob.instance_fixed hpathHead).mp ha
    exact ⟨y, hy, by rw [hrel, List.append_assoc, hcandidates]⟩
  rw [hrawEq]
  rcases l.instance_of_mem_normalize hfs hext hbrace hname hg hx hp with
    hi | ⟨q, index, word, rfl, hq, hindex, hword, hlast⟩
  · obtain ⟨y, hy, hc⟩ := hsplit hi []
    rw [List.append_nil, List.append_nil] at hc
    rw [hc]
    exact ⟨_, DispatchTable.mem_specifiersOf_self _,
      (Glob.instance_self head).append ((Glob.instance_collapse tail y).mp hy)⟩
  · obtain ⟨y, hy, hc⟩ := hsplit hq (index ++ '.' :: word)
    rw [hc]
    exact DispatchTable.exists_mem_specifiersOf htail l.wildcard_not_mem_after hy hindex hword hlast

/-- The extensions that are taken by default are words behind dots. -/
theorem areWords_defaultExtensions : Glob.AreWords defaultExtensions := by
  intro extension h
  simp only [defaultExtensions, List.mem_cons, List.not_mem_nil, or_false] at h
  rcases h with rfl | rfl | rfl | rfl | rfl | rfl | rfl
  all_goals exact ⟨_, rfl, List.all_eq_true.mp (by decide)⟩

/-- A file below an alias can be asked for by the alias. -/
theorem exists_candidate_alias :
    ∃ site glob globs files table,
      (compileIn (.ofPaths ["/p/a/b/index.ts".toList])
        (.ofAliases [{ find := ['@'], replacement := "/p".toList }])
        "import(`@/a/${id}`)".toList "/p/main.js".toList).outcome = .ok site ∧
      site.verdict = .dispatch glob globs files table ∧
      files = ["./a/b/index.ts".toList] ∧ glob.raw = "@/a/*".toList ∧
      ∀ file ∈ files, ∃ c ∈ DispatchTable.candidates glob.resolved file,
        Glob.Instance glob.raw c := by
  have h : dispatchesWith (fun glob files => decide
      (files = ["./a/b/index.ts".toList] ∧ glob.raw = "@/a/*".toList ∧
        glob.raw.all (· ∉ Glob.reread) = true ∧ (∀ r ∈ glob.resolved, r.Exchanges) ∧
        [] ∉ Glob.searched glob.glob ∧ (Path.basename glob.glob).any (· ≠ '.') = true))
      (compileIn (.ofPaths ["/p/a/b/index.ts".toList])
        (.ofAliases [{ find := ['@'], replacement := "/p".toList }])
        "import(`@/a/${id}`)".toList "/p/main.js".toList) = true := by
    decide +kernel
  obtain ⟨site, glob, globs, files, table, h, hv, htest⟩ := exists_of_dispatchesWith h
  obtain ⟨hfiles, hrawEq, hraw, hheads, hsearched, hname⟩ := of_decide_eq_true htest
  have hraw : ∀ c ∈ glob.raw, c ∉ Glob.reread := by simpa using hraw
  have hname : ∃ c ∈ Path.basename glob.glob, c ≠ '.' := by simpa using hname
  exact ⟨site, glob, globs, files, table, h, hv, hfiles, hrawEq,
    exists_candidate (FileSystem.isNamed_ofPaths _) (fun _ _ => rfl) areWords_defaultExtensions h hv
      hraw hheads hsearched hname⟩

/-! ## Imports that lose a file -/

/-- Whether a run dispatches to a file that no value of the import leads to, though its raw glob holds
nothing that a search reads anew. -/
def Strays (run : Logged CallSite) : Prop :=
  ∃ site glob globs files table, run.outcome = .ok site ∧
    site.verdict = .dispatch glob globs files table ∧
    (∀ c ∈ glob.raw, c ∉ ['?', '[', ']', '\x7b', '\x7d']) ∧
    ∃ file ∈ files, ∀ c ∈ DispatchTable.candidates glob.resolved file, ¬ Glob.Instance glob.raw c

theorem strays_of_dispatchesWith {run : Logged CallSite}
    (h : dispatchesWith (fun glob files =>
      glob.raw.all (· ∉ ['?', '[', ']', '\x7b', '\x7d']) && decide (∃ file ∈ files,
        ∀ c ∈ DispatchTable.candidates glob.resolved file, ¬ Glob.Instance glob.raw c)) run = true) :
    Strays run := by
  obtain ⟨site, glob, globs, files, table, h, hv, htest⟩ := exists_of_dispatchesWith h
  obtain ⟨hraw, hstray⟩ := Bool.and_eq_true_iff.mp htest
  exact ⟨site, glob, globs, files, table, h, hv,
    fun c hc => of_decide_eq_true (List.all_eq_true.mp hraw c hc), of_decide_eq_true hstray⟩

/-- An import in a tree of one file, with one alias. -/
def compileWith (rule : AliasRule) (path source : Text) : Logged CallSite :=
  compileIn (.ofPaths [path]) (.ofAliases [rule]) source "/p/main.js".toList

/-- **No head to exchange, a wildcard in the head of an alias, an empty component behind a wildcard,
and a last component of dots** each lose a file. -/
theorem strays_beyond_conditions :
    Strays (compileWith { find := "views/".toList, replacement := "/p/pages".toList, regex := true }
      "/p/pages/x.js".toList "import(`./views/${id}.js`)".toList) ∧
    Strays (compileWith { find := ['@'], replacement := "./*".toList }
      "/p/a/x.js".toList "import(`@/${id}.js`)".toList) ∧
    Strays (compileWith { find := ['@'], replacement := "/p".toList }
      "/p/a/x/index.js".toList "import(`./a/${id}/`)".toList) ∧
    Strays (compileWith { find := ['@'], replacement := "/p".toList }
      "/p/a/x/..js".toList "import(`./a/${id}/.`)".toList) := by
  refine ⟨?_, ?_, ?_, ?_⟩
  all_goals exact strays_of_dispatchesWith (by decide +kernel)

end CallSite

end VariableImport
