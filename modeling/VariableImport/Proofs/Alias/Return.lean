import VariableImport.Proofs.Alias.Target
import VariableImport.Proofs.Glob.Instance

/-!
# Proofs/Alias/Return — specifiers resolve back to their files

A glob is resolved once, by one rule, and the files it stands for are asked for by specifiers that are
resolved anew.  A literal rule treats all specifiers behind its text alike (`exists_apply_literal`), and
every prefix of a specifier that is made of whole segments is tried as a package (`mem_levels`).  So
**each specifier leads back to its file where no rule that is tried before matches it first**
(`resolve_toSpecifier`).  Without that, or with a wildcard in the head of the path, it may not
(`misleads_beyond_conditions`).
-/

namespace VariableImport

/-- **The files that a resolved glob means**: its head as it is, and text for every wildcard behind it. -/
def Resolved.Means (r : Resolved) (f : Text) : Prop :=
  ∃ tail u, r.path = r.pathHead ++ tail ∧ f = r.pathHead ++ u ∧ Glob.Instance tail u

/-- A head without a wildcard is kept by every file that a resolved glob stands for. -/
theorem Resolved.means_of_instance {r : Resolved} {specifier f : Text}
    (hshares : AliasResolver.SharesTail specifier r) (hhead : Glob.wildcard ∉ r.pathHead)
    (hf : Glob.Instance r.path f) : r.Means f := by
  obtain ⟨tail, -, hpath⟩ := hshares
  obtain ⟨a, u, rfl, ha, hu⟩ := Glob.instance_append.mp (hpath ▸ hf)
  rw [(Glob.instance_fixed hhead).mp ha]
  exact ⟨tail, u, hpath, rfl, hu⟩

namespace AliasResolver

variable {resolver : AliasResolver} {rule : AliasRule} {rules : List AliasRule}
  {cwd specifier importer level f : Text} {r : Resolved}

/-! ## Literal rules -/

/-- **A literal rule treats specifiers alike**: the slash behind its text belongs to the head of the
specifier or to what is left, and whatever goes on behind the head goes on behind the head of the path. -/
theorem exists_apply_literal {tail : Text}
    (h : apply cwd rule (0, rule.find.length) (rule.find ++ '/' :: tail) importer = .ok r) :
    ∃ slash, (slash = [] ∨ slash = ['/']) ∧ r.specifierHead = rule.find ++ slash ∧
      ∀ t u, '/' :: t = slash ++ u →
        ∃ r', apply cwd rule (0, rule.find.length) (rule.find ++ '/' :: t) importer = .ok r' ∧
          r'.origin = .alias ∧ r'.path = r.pathHead ++ u := by
  unfold apply at h ⊢
  split at h
  · next hdot =>
    obtain rfl := Except.ok.inj h
    refine ⟨[], .inl rfl, by simp [substitute], fun t u e => ?_⟩
    refine ⟨_, if_pos hdot, rfl, ?_⟩
    rw [List.nil_append] at e
    simp [substitute, ← e]
  · next hdot =>
    split at h
    · simp at h
    · next way hway =>
      obtain rfl := Except.ok.inj h
      refine ⟨['/'], .inr rfl, ?_, fun t u e => ?_⟩
      · have hlength : rule.find.length + (tail.length + 1) - tail.length = rule.find.length + 1 := by omega
        simp [place, hlength, List.take_append]
      · obtain rfl : t = u := (List.cons.inj e).2
        refine ⟨place rule way 0 rule.find.length (rule.find ++ '/' :: t) importer, ?_, rfl, ?_⟩
        · rw [if_neg hdot]
        · simp [place]

/-- The rules before the one that matches first. -/
theorem takeWhile_of_isFirstMatch {engine : Engine} (h : IsFirstMatch rules specifier rule engine) :
    ∃ after, rules = rules.takeWhile (· ≠ rule) ++ rule :: after := by
  obtain ⟨before, after, span, rfl, hbefore, hspan⟩ := h
  have hne : ∀ q ∈ before, decide (q ≠ rule) = true := by
    intro q hq
    refine decide_eq_true fun e => ?_
    rw [← e, hbefore q hq] at hspan
    simp at hspan
  refine ⟨after, ?_⟩
  rw [List.takeWhile_append_of_pos hne, List.takeWhile_cons_of_neg (by simp), List.append_nil]

/-! ## Packages -/

theorem mem_levelsFrom {done : Text} (hdone : done ≠ []) {segments : List Text} :
    level ∈ levelsFrom done segments ↔
      ∃ names, names ≠ [] ∧ names <+: segments ∧ [] ∉ names ∧ level = done ++ Path.trail names := by
  induction segments generalizing done with
  | nil =>
    refine iff_of_false List.not_mem_nil ?_
    rintro ⟨names, hne, hprefix, -⟩
    exact hne (List.prefix_nil.mp hprefix)
  | cons segment segments ih =>
    unfold levelsFrom
    by_cases hsegment : segment = []
    · rw [if_pos hsegment]
      refine iff_of_false List.not_mem_nil ?_
      rintro ⟨names, hne, hprefix, hnames, -⟩
      obtain ⟨name, names, rfl⟩ := List.exists_cons_of_ne_nil hne
      obtain ⟨rfl, -⟩ := List.cons_prefix_cons.mp hprefix
      exact hnames (hsegment ▸ List.mem_cons_self ..)
    · rw [if_neg hsegment]
      dsimp only
      rw [if_neg hdone, List.mem_cons, ih (by simp)]
      constructor
      · rintro (rfl | ⟨names, -, hprefix, hnames, rfl⟩)
        · exact ⟨[segment], by simp, by simp, by simpa using hsegment, by simp⟩
        · exact ⟨segment :: names, by simp, List.cons_prefix_cons.mpr ⟨rfl, hprefix⟩,
            by simpa using ⟨hsegment, hnames⟩, by simp⟩
      · rintro ⟨names, hne, hprefix, hnames, rfl⟩
        obtain ⟨name, names, rfl⟩ := List.exists_cons_of_ne_nil hne
        obtain ⟨rfl, hrest⟩ := List.cons_prefix_cons.mp hprefix
        by_cases hlast : names = []
        · exact .inl (by simp [hlast])
        · exact .inr ⟨names, hlast, hrest, fun hm => hnames (List.mem_cons_of_mem _ hm), by simp⟩

/-- **The prefixes that are tried as packages** are made of whole segments, none of them empty. -/
theorem mem_levels : level ∈ levels specifier ↔
    [] ∉ Text.split '/' level ∧ (specifier = level ∨ ∃ t, specifier = level ++ '/' :: t) := by
  obtain ⟨c, cs, hsplit, hspecifier, hcs⟩ := Path.exists_eq_append_trail specifier
  have hc : '/' ∉ c := hcs c (List.mem_cons_self ..)
  have hlevels : level ∈ levels specifier ↔
      c ≠ [] ∧ ∃ names, names <+: cs ∧ [] ∉ names ∧ level = c ++ Path.trail names := by
    rw [levels, hsplit, levelsFrom]
    by_cases hempty : c = []
    · simp [hempty]
    · simp only [if_neg hempty, if_true, List.mem_cons, mem_levelsFrom hempty]
      constructor
      · rintro (rfl | ⟨names, -, hprefix, hnames, rfl⟩)
        · exact ⟨hempty, [], List.nil_prefix, List.not_mem_nil, by simp⟩
        · exact ⟨hempty, names, hprefix, hnames, rfl⟩
      · rintro ⟨-, names, hprefix, hnames, rfl⟩
        by_cases hne : names = []
        · exact .inl (by simp [hne])
        · exact .inr ⟨names, hne, hprefix, hnames, rfl⟩
  rw [hlevels]
  constructor
  · rintro ⟨hne, names, ⟨post, rfl⟩, hnames, rfl⟩
    have hslash : ∀ d ∈ names, '/' ∉ d := fun d hd => hcs d (by simp [hd])
    rw [Path.split_append_trail _ hslash, Text.split_of_not_mem hc, hspecifier]
    refine ⟨by simpa using ⟨hne, hnames⟩, ?_⟩
    by_cases hpost : post = []
    · exact .inl (by simp [hpost])
    · exact .inr ⟨Text.join ['/'] post, by simp [Path.trail_eq_cons_join hpost]⟩
  · rintro ⟨hlevel, h⟩
    obtain ⟨d, names, hd, hjoin, -⟩ := Path.exists_eq_append_trail level
    have hspecifierSplit : ∃ post, Text.split '/' specifier = d :: (names ++ post) := by
      rcases h with rfl | ⟨t, rfl⟩
      · exact ⟨[], by simpa using hd⟩
      · exact ⟨Text.split '/' t, by rw [Text.split_append_cons, hd]; rfl⟩
    obtain ⟨post, hpost⟩ := hspecifierSplit
    obtain ⟨rfl, rfl⟩ := List.cons.inj (hsplit.symm.trans hpost)
    rw [hd, List.mem_cons, not_or] at hlevel
    exact ⟨Ne.symm hlevel.1, names, List.prefix_append .., hlevel.2, hjoin⟩

/-- A specifier of a package, which starts with neither a dot nor a slash. -/
def IsBare (specifier : Text) : Prop := specifier.head? ≠ some '.' ∧ specifier.head? ≠ some '/'

/-- **A package is found** by one of its prefixes that is a directory. -/
theorem exists_level_of_resolveBare (h : resolver.resolveBare specifier importer = some r) :
    IsBare specifier ∧ ∃ level ∈ levels specifier,
      resolver.probe (Path.append resolver.packages level) = true ∧ r.origin = .bare ∧
      r.specifierHead = specifier.take level.length ∧
      r.pathHead = resolver.wayToPackages importer ++ '/' :: level ∧
      r.path = r.pathHead ++ specifier.drop level.length := by
  obtain ⟨hbare, level, hfind, rfl⟩ := resolveBare_eq_some.mp h
  have hprobe := List.find?_some hfind
  refine ⟨hbare, level, ?_, hprobe, rfl, rfl, ?_⟩
  · exact List.mem_reverse.mp (List.mem_of_find?_eq_some hfind)
  · simp [substitute]

/-- **Whichever prefix is found**, the path is the whole specifier among the packages. -/
theorem exists_resolveBare (hbare : IsBare specifier) (hlevel : level ∈ levels specifier)
    (hprobe : resolver.probe (Path.append resolver.packages level) = true) :
    ∃ r, resolver.resolveBare specifier importer = some r ∧ r.origin = .bare ∧
      r.path = resolver.wayToPackages importer ++ '/' :: specifier := by
  have hsome : ((levels specifier).reverse.find? fun level =>
      resolver.probe (Path.append resolver.packages level)).isSome = true :=
    List.find?_isSome.mpr ⟨level, List.mem_reverse.mpr hlevel, hprobe⟩
  obtain ⟨found, hfind⟩ := Option.isSome_iff_exists.mp hsome
  refine ⟨_, resolveBare_eq_some.mpr ⟨hbare, found, hfind, rfl⟩, rfl, ?_⟩
  rcases (mem_levels.mp (List.mem_reverse.mp (List.mem_of_find?_eq_some hfind))).2 with rfl | ⟨t, rfl⟩
  · simp [substitute]
  · simp [substitute]

/-- A prefix is tried whatever goes on behind its slash. -/
theorem mem_levels_append {rest u : Text} (h : level ∈ levels (level ++ rest)) (hu : Glob.Instance rest u) :
    level ∈ levels (level ++ u) := by
  obtain ⟨hsegments, hrest⟩ := mem_levels.mp h
  refine mem_levels.mpr ⟨hsegments, ?_⟩
  rcases hrest with e | ⟨t, e⟩
  · obtain rfl : rest = [] := by simpa using e
    exact .inl (by rw [Glob.instance_nil.mp hu, List.append_nil])
  · obtain rfl := List.append_cancel_left e
    obtain ⟨v, rfl, -⟩ := (Glob.instance_char (by decide)).mp hu
    exact .inr ⟨v, rfl⟩

/-! ## Back to the files -/

/-- The rules that are tried before a result is found: those before its own, and all for a package. -/
def triedBefore (resolver : AliasResolver) (r : Resolved) : List AliasRule :=
  match r.origin with
  | .alias => resolver.rules.takeWhile (· ≠ r.rule)
  | .bare => resolver.rules

/-- The specifier of a file behind an alias is found by its rule. -/
theorem resolveAlias_toSpecifier {glob : Text} (hliteral : ∀ q ∈ resolver.rules, q.regex = false)
    (h : resolver.resolveAlias glob importer = .ok (some r)) (hf : r.Means f)
    (hbefore : ∀ q ∈ resolver.rules.takeWhile (· ≠ r.rule), q.span (r.toSpecifier f) resolver.engine = .ok none) :
    ∃ r', resolver.resolveAlias (r.toSpecifier f) importer = .ok (some r') ∧ r'.path = f ∧
      r'.origin = .alias := by
  obtain ⟨tail, u, hpath, rfl, hu⟩ := hf
  obtain ⟨before, rule, after, span, hrules, hnone, hspan, happly⟩ := firstMatch_eq_some.mp h
  obtain ⟨-, hrule, hglob⟩ := apply_eq_ok happly
  have hregex : rule.regex = false := hliteral rule (hrules ▸ by simp)
  have hshares : SharesTail r.specifier r :=
    (heads_apply hspan happly).1 (.inr (.inl ⟨span.2, by
      rw [hrule, hglob, hspan, (exists_of_span_literal hregex hspan).1]⟩))
  obtain ⟨rfl, rest, rfl⟩ := exists_of_span_literal hregex hspan
  obtain ⟨slash, hslash, hhead, hleads⟩ := exists_apply_literal happly
  obtain ⟨tail', hspecifier, hpath'⟩ := hshares
  obtain rfl : tail = tail' := List.append_cancel_left (hpath.symm.trans hpath')
  rw [hglob, hhead, List.append_assoc] at hspecifier
  have htail : '/' :: rest = slash ++ tail := List.append_cancel_left hspecifier
  -- either the head of the specifier ends in the slash, or what is left begins with it
  obtain ⟨t, ht⟩ : ∃ t, '/' :: t = slash ++ u := by
    rcases hslash with rfl | rfl
    · rw [List.nil_append] at htail
      rw [← htail] at hu
      obtain ⟨t, rfl, -⟩ := (Glob.instance_char (by decide)).mp hu
      exact ⟨t, rfl⟩
    · exact ⟨u, rfl⟩
  obtain ⟨r', happly', horigin', hpath'⟩ := hleads t u ht
  have hspan' : rule.span (rule.find ++ '/' :: t) resolver.engine = .ok (some (0, rule.find.length)) := by
    rw [AliasRule.span_literal hregex, if_pos (Text.startsWith_iff.mpr ⟨t, by simp⟩)]
  have hfound : r.toSpecifier (r.pathHead ++ u) = rule.find ++ '/' :: t := by
    rw [r.toSpecifier_append, hhead, List.append_assoc, ← ht]
  rw [hfound, hrule] at hbefore
  rw [hfound]
  have hfirst : IsFirstMatch resolver.rules _ rule resolver.engine := ⟨before, after, _, hrules, hnone, hspan⟩
  obtain ⟨after', hsplit⟩ := takeWhile_of_isFirstMatch hfirst
  refine ⟨r', ?_, hpath', horigin'⟩
  exact firstMatch_eq_some.mpr ⟨_, rule, after', _, hsplit, hbefore, hspan', happly'⟩

/-- The specifier of a file in a package is found in the packages. -/
theorem resolveBare_toSpecifier {glob : Text} (h : resolver.resolveBare glob importer = some r)
    (hf : r.Means f) :
    ∃ r', resolver.resolveBare (r.toSpecifier f) importer = some r' ∧ r'.path = f ∧ r'.origin = .bare := by
  obtain ⟨tail, u, hpath, rfl, hu⟩ := hf
  obtain ⟨hbare, level, hlevel, hprobe, -, hhead, hpathHead, hpath'⟩ := exists_level_of_resolveBare h
  obtain rfl : tail = glob.drop level.length := List.append_cancel_left (hpath.symm.trans hpath')
  obtain ⟨rest, rfl⟩ : ∃ rest, glob = level ++ rest := by
    rcases (mem_levels.mp hlevel).2 with rfl | ⟨t, rfl⟩
    exacts [⟨[], by simp⟩, ⟨_, rfl⟩]
  rw [List.drop_left] at hu
  rw [List.take_left] at hhead
  have hne : level ≠ [] := by
    rintro rfl
    exact (mem_levels.mp hlevel).1 (List.mem_singleton_self _)
  have hbare' : IsBare (level ++ u) := by
    rw [IsBare, List.head?_append_of_ne_nil _ hne]
    rwa [IsBare, List.head?_append_of_ne_nil _ hne] at hbare
  obtain ⟨r', hr', horigin', hpathU⟩ : ∃ r', resolver.resolveBare (level ++ u) importer = some r' ∧ _ ∧ _ :=
    exists_resolveBare hbare' (mem_levels_append hlevel hu) hprobe
  rw [r.toSpecifier_append, hhead]
  refine ⟨r', hr', ?_, horigin'⟩
  rw [hpathU, hpathHead, List.append_assoc, List.cons_append]

/-- **Specifiers resolve back to their files**: what a file is registered under means that file, where
no rule that is tried before matches it first. -/
theorem resolve_toSpecifier {glob : Text} (hliteral : ∀ q ∈ resolver.rules, q.regex = false)
    (h : resolver.resolve glob importer = .ok (some r)) (hf : r.Means f)
    (hbefore : ∀ q ∈ resolver.triedBefore r, q.span (r.toSpecifier f) resolver.engine = .ok none) :
    ∃ r', resolver.resolve (r.toSpecifier f) importer = .ok (some r') ∧ r'.path = f ∧
      r'.origin = r.origin := by
  rcases resolve_eq_some.mp h with halias | ⟨-, hbare⟩
  · obtain ⟨before, rule, after, span, -, -, -, happly⟩ := firstMatch_eq_some.mp halias
    obtain ⟨horigin, -, -⟩ := apply_eq_ok happly
    rw [triedBefore, horigin] at hbefore
    obtain ⟨r', hr', hpath, horigin'⟩ := resolveAlias_toSpecifier hliteral halias hf hbefore
    exact ⟨r', resolve_eq_some.mpr (.inl hr'), hpath, horigin'.trans horigin.symm⟩
  · obtain ⟨horigin, -⟩ := origin_of_resolveBare hbare
    rw [triedBefore, horigin] at hbefore
    obtain ⟨r', hr', hpath, horigin'⟩ := resolveBare_toSpecifier hbare hf
    exact ⟨r', resolve_eq_some.mpr (.inr ⟨firstMatch_eq_none.mpr hbefore, hr'⟩), hpath,
      horigin'.trans horigin.symm⟩

/-! ## Beyond the conditions -/

/-- Whether a file that a glob stands for is asked for by a specifier that does not lead back to it. -/
def Misleads (resolver : AliasResolver) (glob importer f : Text) : Prop :=
  ∃ r, resolver.resolve glob importer = .ok (some r) ∧ Glob.Instance r.path f ∧
    ∀ r', resolver.resolve (r.toSpecifier f) importer = .ok (some r') → r'.path ≠ f

/-- `Misleads`, to be run. -/
def misleads (resolver : AliasResolver) (glob importer f : Text) : Bool :=
  match resolver.resolve glob importer with
  | .ok (some r) =>
    Glob.isInstance r.path f &&
      match resolver.resolve (r.toSpecifier f) importer with
      | .ok (some r') => r'.path ≠ f
      | _ => true
  | _ => false

theorem misleads_of_run {glob : Text} (h : misleads resolver glob importer f = true) :
    Misleads resolver glob importer f := by
  unfold misleads at h
  split at h
  · next r hr =>
    obtain ⟨hf, h⟩ := Bool.and_eq_true_iff.mp h
    refine ⟨r, hr, Glob.isInstance_iff.mp hf, fun r' hr' => ?_⟩
    rw [hr'] at h
    exact of_decide_eq_true h
  · simp at h

/-- A project in which one alias lies within another. -/
def nestedResolver : AliasResolver :=
  { rules := [{ find := "@/a".toList, replacement := "/proj/other".toList },
      { find := ['@'], replacement := "/proj/src".toList }],
    packages := "/proj/node_modules".toList, probe := fun _ => false, cwd := ['/'] }

/-- A project with an alias within a package. -/
def packageResolver : AliasResolver :=
  { rules := [{ find := "lib/a".toList, replacement := "/proj/src".toList }],
    packages := "/proj/node_modules".toList, probe := (· = "/proj/node_modules/lib".toList), cwd := ['/'] }

/-- A project with a wildcard in a replacement. -/
def wildcardResolver : AliasResolver :=
  { rules := [{ find := ['@'], replacement := "./*".toList }],
    packages := "/proj/node_modules".toList, probe := fun _ => false, cwd := ['/'] }

/-- **A rule that is tried before, for an alias or a package, and a wildcard in the head** each lead
elsewhere. -/
theorem misleads_beyond_conditions :
    Misleads nestedResolver "@/*".toList "/proj/src/main.ts".toList "./a/x.js".toList ∧
    Misleads packageResolver "lib/*".toList "/proj/main.ts".toList "./node_modules/lib/a/x.js".toList ∧
    Misleads wildcardResolver "@/*.js".toList "/proj/main.ts".toList "./b/x.js".toList := by
  refine ⟨?_, ?_, ?_⟩
  all_goals exact misleads_of_run (by decide +kernel)

/-- What the outer alias makes of a glob. -/
def outerResolved : Resolved :=
  place { find := ['@'], replacement := "/proj/src".toList } ['.'] 0 1 "@/*".toList "/proj/src/main.ts".toList

/-- Where the inner alias does not match, the outer one leads back. -/
theorem resolve_toSpecifier_outer :
    ∃ r r', nestedResolver.resolve "@/*".toList "/proj/src/main.ts".toList = .ok (some r) ∧
      Glob.Instance r.path "./b/x.js".toList ∧
      nestedResolver.resolve (r.toSpecifier "./b/x.js".toList) "/proj/src/main.ts".toList = .ok (some r') ∧
      r'.path = "./b/x.js".toList := by
  have h : nestedResolver.resolve "@/*".toList "/proj/src/main.ts".toList = .ok (some outerResolved) := by
    decide +kernel
  have hf : Glob.Instance outerResolved.path "./b/x.js".toList := Glob.isInstance_iff.mp (by decide +kernel)
  have hmeans : outerResolved.Means "./b/x.js".toList :=
    Resolved.means_of_instance (sharesTail_resolve h (by decide)) (by decide) hf
  obtain ⟨r', hr', hpath, -⟩ := resolve_toSpecifier (by decide) h hmeans (by decide +kernel)
  exact ⟨outerResolved, r', h, hf, hr', hpath⟩

end AliasResolver

end VariableImport
