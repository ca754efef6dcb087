import VariableImport.Proofs.CallSite.Dispatch
import VariableImport.Proofs.FileSystem.Named
import VariableImport.Proofs.Glob.Braces
import VariableImport.Proofs.Glob.Normal
import VariableImport.Proofs.Glob.Search

/-!
# Proofs/CallSite/StaticHead — the directory that an import names

Up to the last slash before its first wildcard a glob is fixed text (`Glob.staticHead`).  The files
of a dispatch start with it as long as it holds no character that a search reads in another way
(`prefix_files`); each such character, alone, lets a dispatch out of the directory (`mayLeave_reread`).
-/

namespace VariableImport

namespace Glob

/-- The text of a glob up to and with the last slash before its first wildcard. -/
def staticHead (glob : Text) : Text := (Path.cutName (glob.takeWhile (· ≠ wildcard))).1

/-- The text before the first wildcard. -/
theorem takeWhile_prefix_before {before after : Text} :
    (before ++ wildcard :: after).takeWhile (· ≠ wildcard) <+: before := by
  have hp : (before ++ wildcard :: after).takeWhile (· ≠ wildcard) <+: before ++ wildcard :: after :=
    List.takeWhile_prefix _
  refine Text.prefix_of_prefix_append_cons (fun h => ?_) hp
  simpa using List.mem_takeWhile_imp h

/-- The static head of an explicit glob is a directory with a slash. -/
theorem exists_eq_staticHead {glob : Text} (hglob : Path.IsExplicit glob)
    (hsplit : [] ∉ Text.split '/' glob) :
    ∃ q, staticHead glob = q ++ ['/'] ∧ Path.IsBase q ∧ Path.IsExplicit (q ++ ['/']) ∧
      q ++ ['/'] <+: glob.takeWhile (· ≠ wildcard) := by
  obtain ⟨dots, rest, rfl, hdots⟩ := hglob.exists_eq
  have hexplicit : Path.IsExplicit (dots ++ ['/']) := by
    rcases hdots with rfl | rfl
    exacts [.inl (List.prefix_refl _), .inr (List.prefix_refl _)]
  have htake : (dots ++ '/' :: rest).takeWhile (· ≠ wildcard) =
      dots ++ '/' :: rest.takeWhile (· ≠ wildcard) := by
    rcases hdots with rfl | rfl <;> rfl
  cases hc : Text.cutLast '/' (dots ++ '/' :: rest.takeWhile (· ≠ wildcard)) with
  | none => exact absurd (Text.cutLast_eq_none.mp hc) (by simp)
  | some cut =>
    obtain ⟨q, name⟩ := cut
    obtain ⟨e, hname⟩ := Text.cutLast_eq_some.mp hc
    have hpre : q ++ ['/'] <+: (dots ++ '/' :: rest).takeWhile (· ≠ wildcard) := by
      rw [htake, e]
      exact ⟨name, by simp⟩
    obtain ⟨tail, htail⟩ := hpre.trans (List.takeWhile_prefix _)
    have hbase : Path.IsBase q := by
      refine Path.isBase_of_not_mem_split fun h => hsplit ?_
      rw [← htail, List.append_assoc]
      show [] ∈ Text.split '/' (q ++ '/' :: tail)
      rw [Text.split_append_cons]
      exact List.mem_append_left _ h
    refine ⟨q, ?_, hbase, hexplicit.mono (Text.prefix_of_last e hname), hpre⟩
    rw [staticHead, htake, Path.cutName, hc]

end Glob

namespace CallSite

/-- **Files start with the static head** of their glob where a search reads it as it is written. -/
theorem prefix_files {config : Config} {fs : FileSystem} {resolver : AliasResolver}
    {source importer : Text} {site : CallSite} {glob : GlobPattern} {globs files : List Text}
    {table : DispatchTable} (hfs : fs.IsNamed) (hconfig : KeepsFiles config)
    (h : (compile config resolver fs.matcher source importer).outcome = .ok site)
    (hv : site.verdict = .dispatch glob globs files table)
    (hsplit : [] ∉ Text.split '/' glob.glob)
    (hread : ∀ c ∈ Glob.reread, c ∉ Glob.staticHead glob.glob) :
    ∀ file ∈ files, Glob.staticHead glob.glob <+: file := by
  intro file hfile
  obtain ⟨-, -, hstar, hexplicit⟩ := glob_dispatch h hv
  obtain ⟨g, hg, x, hx, p, hp, rfl⟩ := mem_files_dispatch hconfig h hv hfile
  obtain ⟨q, hq, hbase, hqexplicit, hpre⟩ := Glob.exists_eq_staticHead hexplicit hsplit
  rw [hq] at hread ⊢
  -- the head stands before whatever a normal glob has for the last wildcard
  obtain ⟨before, after, -, hglob, hafter⟩ := Text.exists_cutLast hstar
  rw [hglob] at hg hpre
  have hbefore : q ++ ['/'] <+: before := hpre.trans Glob.takeWhile_prefix_before
  have hge : q ++ ['/'] <+: g := by
    obtain ⟨mid, -, hg⟩ := Glob.mem_normalize hafter hg
    rcases hg with rfl | ⟨-, index, -, rfl⟩
    all_goals
      simp only [List.append_assoc]
      exact hbefore.trans (List.prefix_append _ _)
  obtain ⟨rest, rfl⟩ := Glob.prefix_of_mem_expandBraces (hread _ (by decide)) hge hx
  have hmagic : Glob.hasMagic q = false := by
    refine Glob.hasMagic_eq_false.mpr fun c hc => ?_
    have hcq : c ∈ q ++ ['/'] := List.mem_append_left _ hc
    have hstar : c ≠ Glob.wildcard := by simpa using List.mem_takeWhile_imp (hpre.subset hcq)
    have hquestion : c ≠ '?' := fun e => hread c (e ▸ by decide) hcq
    have hbracket : c ≠ '[' := fun e => hread c (e ▸ by decide) hcq
    simp [Glob.isMagic, hquestion, hbracket, hstar]
  have hfound : q ++ ['/'] <+: p := by
    rw [List.append_assoc] at hp
    exact FileSystem.prefix_of_mem_search hfs hbase hmagic hp
  rw [(hqexplicit.mono hfound).relativeify]
  exact hfound

/-- A tree in which a directory stands beside the one that an import names. -/
def neighbours : FileSystem := .ofPaths ["/p/a/x.js".toList]

/-- The import of a file in a directory below the importer's. -/
def importBelow (directory : Text) : Text :=
  "import(`./".toList ++ directory ++ "/${id}.js`)".toList

/-- The files of a plain directory start with it. -/
theorem plain_directory_kept :
    ∃ site glob globs files table,
      (compileIn neighbours {} (importBelow ['a']) "/p/main.js".toList).outcome = .ok site ∧
      site.verdict = .dispatch glob globs files table ∧ files = ["./a/x.js".toList] ∧
      ∀ file ∈ files, Glob.staticHead glob.glob <+: file := by
  have h : dispatchesWith (fun glob files => decide (files = ["./a/x.js".toList] ∧
      [] ∉ Text.split '/' glob.glob ∧ Glob.reread.all (· ∉ Glob.staticHead glob.glob) = true))
      (compileIn neighbours {} (importBelow ['a']) "/p/main.js".toList) = true := by
    decide +kernel
  obtain ⟨site, glob, globs, files, table, h, hv, htest⟩ := exists_of_dispatchesWith h
  obtain ⟨hfiles, hsplit, hread⟩ := of_decide_eq_true htest
  have hread : ∀ c ∈ Glob.reread, c ∉ Glob.staticHead glob.glob := by simpa using hread
  exact ⟨site, glob, globs, files, table, h, hv, hfiles,
    prefix_files (FileSystem.isNamed_ofPaths _) (fun _ _ => rfl) h hv hsplit hread⟩

/-! ## Characters that are read anew -/

/-- Whether a dispatch leaves the directory that its glob names, the characters of `reread` in the
static head being `c` alone. -/
def leavesBy (c : Char) (glob : GlobPattern) (files : List Text) : Bool :=
  let head := Glob.staticHead glob.glob
  decide ([] ∉ Text.split '/' glob.glob ∧ c ∈ head) &&
    Glob.reread.all (fun d => d ∈ head → d = c) && files.any fun file => !head.isPrefixOf file

theorem leavesBy_reread : ∀ c ∈ Glob.reread, ∃ directory,
    dispatchesWith (leavesBy c) (compileIn neighbours {} (importBelow directory) "/p/main.js".toList) =
      true := by
  intro c hc
  rw [Glob.reread, List.mem_cons, List.mem_cons, List.mem_singleton] at hc
  rcases hc with rfl | rfl | rfl
  · exact ⟨"?".toList, by decide +kernel⟩
  · exact ⟨"[ab]".toList, by decide +kernel⟩
  · exact ⟨"{a,b}".toList, by decide +kernel⟩

/-- Whether some dispatch leaves the directory that its glob names, the static head holding `c` alone of
the characters of `reread`. -/
def MayLeave (c : Char) : Prop :=
  ∃ fs source importer site glob globs files table,
    fs.IsNamed ∧ Path.isAbsolute importer = true ∧
    (compileIn fs {} source importer).outcome = .ok site ∧
    site.verdict = .dispatch glob globs files table ∧ [] ∉ Text.split '/' glob.glob ∧
    (∀ d ∈ Glob.reread, d ∈ Glob.staticHead glob.glob ↔ d = c) ∧
    ∃ file ∈ files, ¬ Glob.staticHead glob.glob <+: file

/-- **Each character that a search reads anew** lets a dispatch out of its directory. -/
theorem mayLeave_reread : ∀ c ∈ Glob.reread, MayLeave c := by
  intro c hc
  obtain ⟨directory, hleave⟩ := leavesBy_reread c hc
  obtain ⟨site, glob, globs, files, table, h, hv, htest⟩ := exists_of_dispatchesWith hleave
  unfold leavesBy at htest
  rw [Bool.and_eq_true, Bool.and_eq_true, decide_eq_true_eq, List.all_eq_true, List.any_eq_true]
    at htest
  obtain ⟨⟨⟨hsplit, hmem⟩, honly⟩, file, hfile, hpre⟩ := htest
  refine ⟨neighbours, _, _, site, glob, globs, files, table, FileSystem.isNamed_ofPaths _, rfl, h, hv,
    hsplit, fun d hd => ⟨of_decide_eq_true (honly d hd), fun e => e ▸ hmem⟩, file, hfile, ?_⟩
  exact fun hp => by simp [List.isPrefixOf_iff_prefix.mpr hp] at hpre

/-- A directory named with a class is left for another one. -/
theorem class_leaves_directory :
    ∃ site glob globs files table,
      (compileIn neighbours {} (importBelow "[ab]".toList) "/p/main.js".toList).outcome = .ok site ∧
      site.verdict = .dispatch glob globs files table ∧ [] ∉ Text.split '/' glob.glob ∧
      "./a/x.js".toList ∈ files ∧ Glob.staticHead glob.glob = "./[ab]/".toList ∧
      ¬ Glob.staticHead glob.glob <+: "./a/x.js".toList := by
  have h : dispatchesWith (fun glob files => decide ([] ∉ Text.split '/' glob.glob ∧
      "./a/x.js".toList ∈ files ∧ Glob.staticHead glob.glob = "./[ab]/".toList))
      (compileIn neighbours {} (importBelow "[ab]".toList) "/p/main.js".toList) = true := by
    decide +kernel
  obtain ⟨site, glob, globs, files, table, h, hv, htest⟩ := exists_of_dispatchesWith h
  obtain ⟨hsplit, hmem, hhead⟩ := of_decide_eq_true htest
  refine ⟨site, glob, globs, files, table, h, hv, hsplit, hmem, hhead, ?_⟩
  rw [hhead]
  decide

end CallSite

end VariableImport
