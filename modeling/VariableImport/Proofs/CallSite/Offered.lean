import VariableImport.Proofs.CallSite.RoundTrip
import VariableImport.Proofs.Glob.LetIn

/-!
# Proofs/CallSite/Offered — the glob that a specifier takes its file from

The table of a call site gives a specifier the file that the first glob offers (`lookup_normalize`).  A glob that
lets in directories offers none that a later glob had offered alone (`offered_isSome_apart`), hence a specifier
keeps its file (`findSome?_offered`).
-/

namespace VariableImport.CallSite

variable (fs : FileSystem) (importer : Text)

/-- The files that a pattern stands for. -/
def filesOf (pattern : Text) : List Text :=
  ((fs.matchPattern (Path.dirname importer) pattern).map Path.relativeify).filter
    fun p => !Path.sameFile importer p

/-- The file that stands for a specifier if a glob is searched alone. -/
def offered (resolved : Option Resolved) (extensions : List Text) (k glob : Text) : Option Text :=
  (Glob.inferExtension extensions glob).findSome? fun pattern =>
    (filesOf fs importer pattern).find? fun file => decide (k ∈ DispatchTable.candidates resolved file)

/-- **A specifier stands for the file that the first glob offers.** -/
theorem lookup_normalize (resolved : Option Resolved) (extensions : List Text) (k glob : Text)
    (loose : Bool) : (DispatchTable.ofFiles (enumerate importer
        (fs.matchFiles (Glob.normalize glob extensions loose) (Path.dirname importer))) resolved).lookup k =
      (if loose then (Glob.repairSlash glob).flatMap Glob.expandDepth
        else Glob.repairSlash glob).findSome? (offered fs importer resolved extensions k) := by
  rw [DispatchTable.lookup_ofFiles, enumerate, Text.find?_distinct, FileSystem.matchFiles, List.map_flatMap,
    List.filter_flatMap, List.find?_flatMap]
  exact Glob.normalize_findSome? _ glob extensions loose

variable {fs importer}

theorem mem_matchPattern {base pattern p : Text} : p ∈ fs.matchPattern base pattern ↔
    (∃ x ∈ Glob.expandBraces pattern, p ∈ fs.search base x) ∧ fs.isFile (Path.append base p) = true := by
  rw [FileSystem.matchPattern, Text.sortedSet, Text.mem_distinct, List.mem_mergeSort]
  simp only [List.mem_flatMap, List.mem_filter]
  constructor
  · rintro ⟨x, hx, hp, hf⟩
    exact ⟨⟨x, hx, hp⟩, hf⟩
  · rintro ⟨⟨x, hx, hp⟩, hf⟩
    exact ⟨x, hx, hp, hf⟩

theorem offered_isSome {resolved : Option Resolved} {extensions : List Text} {k glob : Text}
    (hbrace : '\x7b' ∉ glob) (hext : Glob.AreWords extensions) :
    (offered fs importer resolved extensions k glob).isSome = true ↔
      ∃ e, Glob.Ending extensions glob e ∧ ∃ p ∈ fs.search (Path.dirname importer) (glob ++ e),
        fs.isFile (Path.append (Path.dirname importer) p) = true ∧
        Path.sameFile importer (Path.relativeify p) = false ∧
        k ∈ DispatchTable.candidates resolved (Path.relativeify p) := by
  rw [offered, List.findSome?_isSome_iff]
  simp only [List.find?_isSome, filesOf, List.mem_filter, List.mem_map, mem_matchPattern, Bool.not_eq_true',
    decide_eq_true_eq]
  constructor
  · rintro ⟨pattern, hpattern, _, ⟨⟨p, ⟨⟨x, hx, hp⟩, hfile⟩, rfl⟩, hsame⟩, hk⟩
    obtain ⟨e, he, rfl⟩ := (Glob.mem_inferExtension_iff hbrace hext).mp ⟨pattern, hpattern, hx⟩
    exact ⟨e, he, p, hp, hfile, hsame, hk⟩
  · rintro ⟨e, he, p, hp, hfile, hsame, hk⟩
    obtain ⟨pattern, hpattern, hx⟩ := (Glob.mem_inferExtension_iff hbrace hext).mpr ⟨e, he, rfl⟩
    exact ⟨pattern, hpattern, _, ⟨⟨p, ⟨⟨_, hx, hp⟩, hfile⟩, rfl⟩, hsame⟩, hk⟩

/-- What an explicit glob finds is explicit. -/
theorem isExplicit_of_mem_search (hfs : fs.IsNamed) {base glob p : Text} (hglob : Path.IsExplicit glob)
    (h : p ∈ fs.search base glob) : Path.IsExplicit p := by
  obtain ⟨dots, rest, rfl, hdots⟩ := hglob.exists_eq
  have hbase : Path.IsBase dots := by rcases hdots with rfl | rfl <;> exact ⟨by simp, by decide⟩
  have hmagic : Glob.hasMagic dots = false := by rcases hdots with rfl | rfl <;> rfl
  have hbegins := FileSystem.prefix_of_mem_search hfs hbase hmagic h
  rcases hdots with rfl | rfl
  exacts [.inl hbegins, .inr hbegins]

/-- **The glob that lets in directories claims no specifier of a later one**, unless the one between them
offers a file for it as well. -/
theorem offered_isSome_apart (hfs : fs.IsNamed) {resolved : Option Resolved} {extensions : List Text}
    (hext : Glob.AreWords extensions) {k before after head specifierHead : Text} (j : Glob.Joint before after)
    (hbrace : '\x7b' ∉ before ++ Glob.wildcard :: after) (hhead : head <+: before)
    (hfixed : Glob.hasMagic head = false) (hslashes : ¬ ['/', '/'] <:+: head)
    (hspecifiers : ∀ u, DispatchTable.candidates resolved (head ++ u) =
      DispatchTable.specifiersOf (specifierHead ++ u))
    (hdeeper : (offered fs importer resolved extensions k
      (before ++ '/' :: (Glob.deep ++ '/' :: Glob.wildcard :: after))).isSome = true)
    (hlater : (offered fs importer resolved extensions k (before ++ Glob.wildcard :: after)).isSome = true) :
    (offered fs importer resolved extensions k (before ++ '/' :: Glob.wildcard :: after)).isSome = true := by
  have hbraceWith (mid : Text) (hmid : '\x7b' ∉ mid) : '\x7b' ∉ before ++ mid ++ Glob.wildcard :: after := by
    simp only [List.mem_append, not_or] at hbrace ⊢
    exact ⟨⟨hbrace.1, hmid⟩, hbrace.2⟩
  have hbraceDeep : '\x7b' ∉ before ++ '/' :: (Glob.deep ++ '/' :: Glob.wildcard :: after) := by
    simpa using hbraceWith ('/' :: (Glob.deep ++ ['/'])) (by decide)
  have hbraceApart : '\x7b' ∉ before ++ '/' :: Glob.wildcard :: after := by
    simpa using hbraceWith ['/'] (by decide)
  obtain ⟨e, he, p, hp, hfile, hsame, hk⟩ := (offered_isSome hbraceDeep hext).mp hdeeper
  obtain ⟨e', he', p', hp', hfile', -, hk'⟩ := (offered_isSome hbrace hext).mp hlater
  have hrel {p : Text} {rest : Text} (h : p ∈ fs.search (Path.dirname importer) (before ++ rest)) :
      Path.relativeify p = p :=
    (isExplicit_of_mem_search hfs (j.isExplicit.mono (List.prefix_append ..)) h).relativeify
  rw [List.append_assoc] at hp hp'
  rw [hrel hp] at hk hsame
  rw [hrel hp'] at hk'
  have hp : p ∈ fs.search (Path.dirname importer)
      (before ++ '/' :: (Glob.deep ++ '/' :: Glob.wildcard :: (after ++ e))) := by simpa using hp
  have hp' : p' ∈ fs.search (Path.dirname importer) (before ++ Glob.wildcard :: (after ++ e')) := by
    simpa using hp'
  obtain ⟨e, he, hp⟩ := FileSystem.mem_search_apart hfs hext j he hp hfile he' hp' hfile' hhead hfixed hslashes
    hspecifiers hk hk'
  refine (offered_isSome hbraceApart hext).mpr ⟨e, he, p, by simpa using hp, hfile, ?_⟩
  rw [hrel hp]
  exact ⟨hsame, hk⟩

/-- What a text between two others offers does not matter, if it offers nothing where only the later does. -/
theorem findSome?_between {f : Text → Option Text} {first between last other file : Text}
    (hbetween : (f between).isSome = true → (f last).isSome = true → (f first).isSome = true)
    (h : [first, last].findSome? f = some file) : [first, between, last, other].findSome? f = some file := by
  cases hfirst : f first with
  | some file' => simpa [hfirst] using h
  | none =>
    have hlast : f last = some file := by simpa [hfirst] using h
    have hnone : f between = none := by
      by_contra hsome
      simpa [hfirst] using hbetween (Option.isSome_iff_ne_none.mpr hsome) (by rw [hlast]; rfl)
    simp [hfirst, hnone, hlast]

/-- **Letting in directories keeps the file of a specifier.**  The specifiers of a path depend on what
stands behind a head of the glob that is exchanged for another. -/
theorem findSome?_offered (hfs : fs.IsNamed) {resolved : Option Resolved} {extensions : List Text}
    (hext : Glob.AreWords extensions) {k glob file head specifierHead : Text}
    (hexplicit : Path.IsExplicit glob) (hstar : Glob.wildcard ∈ glob) (hread : ∀ c ∈ glob, c ∉ Glob.reread)
    (hflat : ¬ Glob.deep <:+: glob) (hhead : head <+: glob) (hfixed : Glob.wildcard ∉ head)
    (hslashes : ¬ ['/', '/'] <:+: head)
    (hspecifiers : ∀ u, DispatchTable.candidates resolved (head ++ u) =
      DispatchTable.specifiersOf (specifierHead ++ u))
    (h : (Glob.repairSlash glob).findSome? (offered fs importer resolved extensions k) = some file) :
    ((Glob.repairSlash glob).flatMap Glob.expandDepth).findSome?
      (offered fs importer resolved extensions k) = some file := by
  obtain ⟨before, after, -, rfl, hafter⟩ := Text.exists_cutLast hstar
  obtain ⟨deeper, hexpand, -, -⟩ := Glob.exists_expandDepth hafter hflat
  rw [Glob.repairSlash, Glob.cutLast_append hafter] at h ⊢
  dsimp only at h ⊢
  split at h
  · next hrepaired =>
    rw [List.findSome?_singleton] at h
    rw [if_pos hrepaired, List.flatMap_singleton, hexpand]
    simp [h]
  · next hapart =>
    have hsimple : ∀ c ∈ before ++ Glob.wildcard :: after, c ≠ '?' ∧ c ≠ '[' := fun c hc =>
      ⟨fun e => hread c hc (e ▸ by decide), fun e => hread c hc (e ▸ by decide)⟩
    have hbrace : '\x7b' ∉ before ++ Glob.wildcard :: after := fun hm => hread _ hm (by decide)
    have j := Glob.Joint.of_glob (not_or.mp hapart) hexplicit hsimple hflat hafter
    rw [if_neg hapart, List.flatMap_cons, List.flatMap_singleton, hexpand, j.expandDepth_apart hafter]
    exact findSome?_between (offered_isSome_apart hfs hext j hbrace
      (Text.prefix_of_prefix_append_cons hfixed hhead)
      (Glob.hasMagic_of_isSimple (fun c hc => hsimple c (hhead.subset hc)) hfixed) hslashes hspecifiers) h

end VariableImport.CallSite
