import VariableImport.Proofs.Alias.Return

/-!
# Proofs/Alias/Package — the package that a specifier names

A bare specifier is looked for among the packages by its whole segments, up to the first empty one
(`IsPackagePath`).  The prefixes are tried from the longest on, whether or not a shorter one is a
directory (`find?_levels`), and the one that is found cancels out of the path again: **a bare specifier
resolves to itself behind the way to the packages, by the longest prefix that is a directory**
(`resolveBare_longest`).
-/

namespace VariableImport

namespace AliasResolver

variable {resolver : AliasResolver} {rules : List AliasRule} {specifier importer level : Text}
  {segments : List Text} {r : Resolved}

/-! ## Prefixes of whole segments -/

/-- **A path among the packages** that a specifier may mean: its first segments, up to an empty one. -/
def IsPackagePath (specifier p : Text) : Prop :=
  ∃ segments, segments ≠ [] ∧ segments <+: Text.split '/' specifier ∧ [] ∉ segments ∧
    p = Text.join ['/'] segments

/-- **What is tried as a package** is every such path. -/
theorem mem_levels_iff : level ∈ levels specifier ↔ IsPackagePath specifier level := by
  rw [mem_levels]
  constructor
  · rintro ⟨hlevel, h⟩
    refine ⟨Text.split '/' level, Text.split_ne_nil _ _, ?_, hlevel, (Text.join_split _ _).symm⟩
    rcases h with rfl | ⟨t, rfl⟩
    · exact List.prefix_rfl
    · rw [Text.split_append_cons]
      exact List.prefix_append _ _
  · rintro ⟨segments, hne, ⟨rest, hrest⟩, hnil, rfl⟩
    have hslash : ∀ s ∈ segments, '/' ∉ s := fun s hs =>
      Text.not_mem_of_mem_split (hrest ▸ List.mem_append_left _ hs)
    refine ⟨(Path.split_join hne hslash).symm ▸ hnil, ?_⟩
    rw [← Text.join_split '/' specifier, ← hrest, Path.join_append hne]
    by_cases h : rest = []
    · exact .inl (by simp [h])
    · exact .inr ⟨_, by rw [Path.trail_eq_cons_join h]⟩

/-! ## The longest first -/

/-- The prefixes behind others are longer. -/
theorem length_lt_of_mem_levelsFrom {done : Text} (h : level ∈ levelsFrom done segments) :
    done.length < level.length := by
  induction segments generalizing done with
  | nil => exact absurd h List.not_mem_nil
  | cons segment segments ih =>
    unfold levelsFrom at h
    split at h
    · exact absurd h List.not_mem_nil
    · next hne =>
      have hnext : done.length < (if done = [] then segment else done ++ '/' :: segment).length := by
        split
        · next hdone => simpa [hdone] using List.length_pos_of_ne_nil hne
        · simp
      rcases List.mem_cons.mp h with rfl | h
      · exact hnext
      · exact hnext.trans (ih h)

/-- **The prefixes grow.** -/
theorem pairwise_levelsFrom (done : Text) :
    (levelsFrom done segments).Pairwise fun p q => p.length < q.length := by
  induction segments generalizing done with
  | nil => exact List.Pairwise.nil
  | cons segment segments ih =>
    unfold levelsFrom
    split
    · exact List.Pairwise.nil
    · exact List.Pairwise.cons (fun _ h => length_lt_of_mem_levelsFrom h) (ih _)

/-- **The longest prefix that passes is found**, whether or not shorter ones pass. -/
theorem find?_levels {passes : Text → Bool} (h : (levels specifier).reverse.find? passes = some level) :
    level ∈ levels specifier ∧ passes level = true ∧
      ∀ p ∈ levels specifier, passes p = true → p.length ≤ level.length := by
  refine ⟨List.mem_reverse.mp (List.mem_of_find?_eq_some h), List.find?_some h, fun p hp hpass => ?_⟩
  obtain ⟨-, longer, shorter, hsplit, hlonger⟩ := List.find?_eq_some_iff_append.mp h
  have hgrow : (levels specifier).reverse.Pairwise fun p q => q.length < p.length :=
    List.pairwise_reverse.mpr (pairwise_levelsFrom [])
  rw [hsplit] at hgrow
  rcases List.mem_append.mp (hsplit ▸ List.mem_reverse.mpr hp) with hm | hm
  · exact absurd hpass (by simpa using hlonger p hm)
  · rcases List.mem_cons.mp hm with rfl | hm
    · exact le_rfl
    · exact (List.rel_of_pairwise_cons (List.pairwise_append.mp hgrow).2.1 hm).le

/-! ## Among the packages -/

/-- The directory of the packages ends in its name. -/
theorem isBase_packages (rules : List AliasRule) (root : Text) (probe : Text → Bool) (cwd : Text)
    (engine : Engine) : Path.IsBase (ofRoot rules root probe cwd engine).packages := by
  have hname : Path.IsName "node_modules".toList := by
    rw [String.toList_ofList]
    exact ⟨by decide, by decide⟩
  obtain ⟨s, hs⟩ := Path.suffix_append (Path.absolute cwd root) "node_modules".toList
  rw [ofRoot, ← hs]
  exact hname.isBase_append s

/-- The first segment of a bare specifier goes on below the packages. -/
theorem append_packages (h : Path.IsBase resolver.packages) (hbare : IsBare specifier)
    (hlevel : level ∈ levels specifier) :
    Path.append resolver.packages level = resolver.packages ++ '/' :: level := by
  obtain ⟨hsegments, hspecifier⟩ := mem_levels.mp hlevel
  have hhead : specifier.head? = level.head? := by
    rcases hspecifier with rfl | ⟨t, rfl⟩
    · rfl
    · exact List.head?_append_of_ne_nil _ (Path.isBase_of_not_mem_split hsegments).1
  exact (Path.append_of_base h (hhead ▸ hbare.2)).1

/-- **No package is found** where none of the paths is a directory. -/
theorem resolveBare_eq_none (h : Path.IsBase resolver.packages) (hbare : IsBare specifier) :
    resolver.resolveBare specifier importer = none ↔
      ∀ p, IsPackagePath specifier p → resolver.probe (resolver.packages ++ '/' :: p) = false := by
  have hprobe : resolver.resolveBare specifier importer = none ↔
      ∀ p ∈ levels specifier, ¬ resolver.probe (Path.append resolver.packages p) = true := by
    unfold resolveBare
    rw [if_neg (not_or.mpr hbare)]
    have hreverse : (∀ p ∈ levels specifier, ¬ resolver.probe (Path.append resolver.packages p) = true) ↔
        ∀ p ∈ (levels specifier).reverse, ¬ resolver.probe (Path.append resolver.packages p) = true := by
      simp only [List.mem_reverse]
    rw [hreverse, ← List.find?_eq_none]
    split
    · next hnone => simp [hnone]
    · next level hsome => simp [hsome]
  rw [hprobe]
  refine forall_congr' fun p => ?_
  rw [← mem_levels_iff]
  refine forall_congr' fun hp => ?_
  rw [append_packages h hbare hp, Bool.not_eq_true]

/-- **The package that is found** has the longest prefix that is a directory, put behind the way to
the packages in place of itself. -/
theorem resolveBare_eq (h : resolver.resolveBare specifier importer = some r) :
    r.rule.find ∈ levels specifier ∧
      resolver.probe (Path.append resolver.packages r.rule.find) = true ∧
      (∀ p ∈ levels specifier, resolver.probe (Path.append resolver.packages p) = true →
        p.length ≤ r.rule.find.length) ∧
      r = substitute .bare r.rule 0 r.rule.find.length specifier importer ∧
      r.rule.replacement = resolver.wayToPackages importer ++ '/' :: r.rule.find := by
  obtain ⟨-, level, hfind, rfl⟩ := resolveBare_eq_some.mp h
  obtain ⟨hlevel, hprobe, hlongest⟩ := find?_levels hfind
  exact ⟨hlevel, hprobe, hlongest, rfl, rfl⟩

/-- The way to the packages starts with a dot. -/
theorem head?_wayToPackages (resolver : AliasResolver) (importer : Text) :
    (resolver.wayToPackages importer).head? = some '.' := Path.head?_relativeify _

/-- **A package is put in place as a relative replacement is**: apart from its origin it is what applying its rule
gives, in every working directory. -/
theorem apply_of_resolveBare (h : resolver.resolveBare specifier importer = some r) (cwd : Text) :
    apply cwd r.rule (0, r.rule.find.length) specifier importer = .ok { r with origin := .alias } := by
  obtain ⟨-, -, -, hr, hreplacement⟩ := resolveBare_eq h
  have hdot : r.rule.replacement.head? = some '.' := by
    have hway := head?_wayToPackages resolver importer
    rw [hreplacement, List.head?_append, hway]
    rfl
  rw [apply, if_pos hdot, hr]
  rfl

/-- What a prefix is replaced by keeps it, so that the specifier is left as a whole. -/
theorem path_of_substitute {origin : Resolved.Origin} {rule : AliasRule} {way : Text}
    (hstart : rule.find <+: specifier) (hrule : rule.replacement = way ++ '/' :: rule.find) :
    (substitute origin rule 0 rule.find.length specifier importer).path = way ++ '/' :: specifier := by
  obtain ⟨rest, rfl⟩ := hstart
  simp [substitute, hrule]

/-- What replaces the start of a specifier is replaced by it again. -/
theorem toSpecifier_substitute (origin : Resolved.Origin) (rule : AliasRule) (stop : Nat) :
    let r := substitute origin rule 0 stop specifier importer
    r.toSpecifier r.path = specifier := by
  have hpath : (substitute origin rule 0 stop specifier importer).path =
      (substitute origin rule 0 stop specifier importer).pathHead ++ specifier.drop stop := by
    simp [substitute]
  dsimp only
  rw [hpath, Resolved.toSpecifier_append]
  exact List.take_append_drop ..

/-- **A bare specifier resolves to itself behind the way to the packages**, by its longest prefix of
whole segments that is a directory there, and not at all where none is. -/
theorem resolveBare_longest (rules : List AliasRule) (root : Text) (probe : Text → Bool) (cwd : Text)
    (engine : Engine) (importer specifier : Text) (hbare : IsBare specifier) :
    let resolver := ofRoot rules root probe cwd engine
    (resolver.resolveBare specifier importer = none ↔
      ∀ p, IsPackagePath specifier p → probe (resolver.packages ++ '/' :: p) = false) ∧
    ∀ r, resolver.resolveBare specifier importer = some r →
      IsPackagePath specifier r.rule.find ∧
      probe (resolver.packages ++ '/' :: r.rule.find) = true ∧
      (∀ p, IsPackagePath specifier p → probe (resolver.packages ++ '/' :: p) = true →
        p.length ≤ r.rule.find.length) ∧
      ∃ way, Path.relativeFrom? cwd importer resolver.packages = some way ∧
        r.path = way ++ '/' :: specifier ∧ r.toSpecifier r.path = specifier := by
  have hbase := isBase_packages rules root probe cwd engine
  refine ⟨resolveBare_eq_none hbase hbare, fun r hr => ?_⟩
  obtain ⟨hlevel, hprobe, hlongest, hr, hrule⟩ := resolveBare_eq hr
  rw [append_packages hbase hbare hlevel] at hprobe
  refine ⟨mem_levels_iff.mp hlevel, hprobe, fun p hp hpass => ?_, _, if_neg hbase.1, ?_, ?_⟩
  · have hp := mem_levels_iff.mpr hp
    exact hlongest p hp ((append_packages hbase hbare hp).symm ▸ hpass)
  · have hstart : r.rule.find <+: specifier := by
      rcases (mem_levels.mp hlevel).2 with e | ⟨t, e⟩
      exacts [⟨[], by simp [← e]⟩, ⟨_, e.symm⟩]
    exact hr ▸ path_of_substitute hstart hrule
  · exact hr ▸ toSpecifier_substitute .bare r.rule r.rule.find.length

/-- A project in which a directory of a package is found, and the package is not. -/
def deepResolver : AliasResolver :=
  ofRoot [] "/proj".toList (fun directory => directory == "/proj/node_modules/lib/a".toList) ['/']

/-- The deeper prefix is the one that is found. -/
theorem resolveBare_longest_deep :
    IsBare "lib/a/x.js".toList ∧
    ∃ r, deepResolver.resolveBare "lib/a/x.js".toList "/proj/src/main.js".toList = some r ∧
      r.rule.find = "lib/a".toList ∧ r.path = "../node_modules/lib/a/x.js".toList ∧
      r.toSpecifier r.path = "lib/a/x.js".toList := by
  have hbare : IsBare "lib/a/x.js".toList := by
    rw [String.toList_ofList]
    exact ⟨by decide, by decide⟩
  have hfound : ∃ r, deepResolver.resolveBare "lib/a/x.js".toList "/proj/src/main.js".toList = some r ∧
      r.rule.find = "lib/a".toList ∧ r.path = "../node_modules/lib/a/x.js".toList := by
    refine ⟨_, rfl, ?_, ?_⟩
    all_goals decide +kernel
  obtain ⟨r, hr, hfind, hpath⟩ := hfound
  obtain ⟨-, -, -, -, -, -, hback⟩ :=
    (resolveBare_longest [] "/proj".toList _ ['/'] _ "/proj/src/main.js".toList _ hbare).2 r hr
  exact ⟨hbare, r, hr, hfind, hpath, hback⟩

end AliasResolver

end VariableImport
