import VariableImport.Proofs.Glob.IndexFile

/-!
# Proofs/Glob/Deepening — directories of any depth claim no specifier

A wildcard may go on a name that is begun before it, or stand for a name of its own (`Joint`).  If
directories of any depth are let in before such a name (`WayBelow`), what is found may have a specifier in
common with what the glob finds as it is written (`WayBehind`).  All that the glob finds lies at one depth, and
only index files have specifiers that lie higher (`WayBelow.exists_index`); so what is found is found without
these directories as well (`mem_search_apart`).
-/

namespace VariableImport.FileSystem

open Glob
open DispatchTable (indexName IsWord)

variable {fs : FileSystem} {base before after p q w b b' e e' g g' head specifierHead k u u' : Text}
  {above names names' extensions : List Text}

/-! ## Ways to what is found -/

/-- **A way below directories of any depth**: to where the text before is found, through some directories and
along a name for every component behind. -/
structure WayBelow (fs : FileSystem) (base before after b : Text) (above names : List Text) : Prop where
  arrival : b ∈ fs.arrivals base false before
  accepts : List.Forall₂ Accepts (Path.components (wildcard :: after)) names
  isName : ∀ n ∈ above ++ names, Path.IsName n

/-- **A way behind a directory**: to where its text is found, and along a name for every component behind,
the first of which is begun by a fixed text. -/
structure WayBehind (fs : FileSystem) (base q w after b : Text) (names : List Text) : Prop where
  rooted : Rooted q
  isName_begun : Path.IsName w
  arrival : b ∈ fs.arrivals base false q
  accepts : List.Forall₂ Accepts (Path.components (w ++ wildcard :: after)) names
  isName : ∀ n ∈ names, Path.IsName n

/-- **Behind directories of any depth** every component stands for a name. -/
theorem exists_wayBelow (hfs : fs.IsNamed) (j : Joint before after) (hend : Path.IsBase (wildcard :: after))
    (h : p ∈ fs.search base (before ++ '/' :: (deep ++ '/' :: wildcard :: after))) :
    ∃ b above names, WayBelow fs base before after b above names ∧ p = b ++ Path.trail (above ++ names) := by
  have hflat : ¬ deep <:+: wildcard :: after := by
    rw [← List.singleton_append]
    exact flat_append (by decide) (wildcard_not_mem j.fixed)
  have hdeep : Path.components (deep ++ '/' :: wildcard :: after) =
      deep :: Path.components (wildcard :: after) := by
    rw [Path.components_append, Path.components_of_isName ⟨by simp, by decide⟩, List.singleton_append]
  have hbase : Path.IsBase (deep ++ '/' :: wildcard :: after) := by
    have : deep ++ '/' :: wildcard :: after = (deep ++ ['/']) ++ wildcard :: after := by simp
    rw [this]
    exact hend.append _
  have htext : before ++ '/' :: (deep ++ '/' :: wildcard :: after) =
      before ++ (List.replicate 1 '/' ++ (deep ++ '/' :: wildcard :: after)) := rfl
  rw [htext, search_append j.isBase hbase (Joint.parts before [] _ List.not_mem_nil), hdeep] at h
  obtain ⟨b, hb, hp⟩ := List.mem_flatMap.mp h
  obtain ⟨c, cs, hcs, -⟩ := Path.exists_components_cons (by decide : wildcard ≠ '/') after
  have hcs : Path.components (wildcard :: after) = (wildcard :: c) :: cs := hcs [] List.not_mem_nil
  rw [follow_eq_reach, hcs] at hp
  obtain ⟨above, names, habove, hall, hnames, rfl⟩ := exists_names_of_mem_reach_deep hfs
    (isBase_of_mem_arrivals hfs j.rooted hb)
    (fun d hd => ⟨Path.isName_of_mem_components (hcs ▸ hd), ne_deep_of_mem_components hflat (hcs ▸ hd)⟩) hp
  refine ⟨b, above, names, ⟨hb, hcs ▸ hall, fun n hn => ?_⟩, rfl⟩
  rcases List.mem_append.mp hn with hn | hn
  exacts [habove n hn, hnames n hn]

/-- **Behind the directory of the begun name** every component stands for a name. -/
theorem exists_wayBehind (hfs : fs.IsNamed) (j : Joint before after) (hend : Path.IsBase (wildcard :: after))
    (h : p ∈ fs.search base (before ++ wildcard :: after)) :
    ∃ q w b names, WayBehind fs base q w after b names ∧ depth q < depth before ∧ p = b ++ Path.trail names := by
  obtain ⟨q, r, w, hcut, hq, hw⟩ := j.exists_cut
  have htext : before ++ wildcard :: after = q ++ (List.replicate (r + 1) '/' ++ (w ++ wildcard :: after)) := by
    rw [hcut]
    simp
  have hflat : ¬ deep <:+: w ++ wildcard :: after := fun h => (j.rooted_glob hend).flat <| by
    rw [htext, ← List.append_assoc]
    exact h.trans (List.suffix_append _ _).isInfix
  rw [htext, search_append hq.isBase (hend.append w) (Joint.parts q w _ hw.2)] at h
  obtain ⟨b, hb, hp⟩ := List.mem_flatMap.mp h
  rw [follow_eq_reach] at hp
  obtain ⟨names, hall, hnames, rfl⟩ := exists_names_of_mem_reach hfs (isBase_of_mem_arrivals hfs hq hb)
    (fun d hd => ⟨Path.isName_of_mem_components hd, ne_deep_of_mem_components hflat hd⟩) hp
  exact ⟨q, w, b, names, ⟨hq, hw, hb, hall, hnames⟩, hcut ▸ depth_lt_depth_append hq.isBase hw r, rfl⟩

/-- **A file is found** where the wildcard stands for a name of its own, if its components stand for the
names of a path to it. -/
theorem WayBelow.mem_search (hfs : fs.IsNamed) (j : Joint before after) (hend : Path.IsBase (wildcard :: after))
    (hway : WayBelow fs base before after b [] names)
    (hfile : fs.isFile (Path.append base (b ++ Path.trail names)) = true) :
    b ++ Path.trail names ∈ fs.search base (before ++ '/' :: wildcard :: after) := by
  obtain ⟨hb, hall, hnames⟩ := hway
  obtain ⟨c, cs, hcs, hwithin⟩ := Path.exists_components_cons (by decide : wildcard ≠ '/') after
  have hcs : Path.components (wildcard :: after) = (wildcard :: c) :: cs := hcs [] List.not_mem_nil
  have hfixed : ∀ d ∈ c :: cs, hasMagic d = false := fun d hd => hasMagic_of_infix (hwithin d hd) j.fixed
  rw [hcs] at hall
  obtain ⟨n, ns, hn, hns, rfl⟩ := List.forall₂_cons_left_iff.mp hall
  obtain rfl := eq_of_accepts_fixed (fun d hd => hfixed d (List.mem_cons_of_mem _ hd)) hns
  obtain ⟨hvisible, -⟩ := (accepts_star (hfixed c (List.mem_cons_self ..))).mp hn
  have hmagic : hasMagic (wildcard :: c) = true := hasMagic_star [] c
  have hmatch : matchesName (wildcard :: c) n = true := by
    rw [Accepts, if_pos hmagic] at hn
    exact hn.2
  have hdeep : wildcard :: c ≠ deep := by
    rintro hd
    have : hasMagic c = true := by simp [(List.cons.inj hd).2, hasMagic]
    simp [hfixed c (List.mem_cons_self ..)] at this
  have htext : before ++ '/' :: wildcard :: after =
      before ++ (List.replicate 1 '/' ++ wildcard :: after) := rfl
  rw [htext, search_append j.isBase hend (Joint.parts before [] _ List.not_mem_nil), hcs]
  refine List.mem_flatMap.mpr ⟨b, hb, mem_follow_of_isFile (isBase_of_mem_arrivals hfs j.rooted hb) hmagic
    hdeep (hnames n (List.mem_cons_self ..)) hvisible hmatch (fun d hd => ?_) hfile⟩
  exact ⟨hnames d (List.mem_cons_of_mem _ hd), hfixed d (List.mem_cons_of_mem _ hd)⟩

/-! ## Depths -/

/-- Text before a wildcard in the first component adds no component. -/
theorem length_components_star {w : Text} (hw : '/' ∉ w) (s : Text) :
    (Path.components (w ++ wildcard :: s)).length = (Path.components (wildcard :: s)).length := by
  obtain ⟨c, cs, hcs, -⟩ := Path.exists_components_cons (by decide : wildcard ≠ '/') s
  have hself : Path.components (wildcard :: s) = (wildcard :: c) :: cs := hcs [] List.not_mem_nil
  rw [hcs w hw, hself]
  rfl

/-- What is found below directories lies deeper by each of them. -/
theorem WayBelow.count_slash (hfs : fs.IsNamed) (j : Joint before after)
    (hway : WayBelow fs base before after b above names) :
    (b ++ Path.trail (above ++ names)).count '/' =
      depth before + (above.length + (Path.components (wildcard :: after)).length) := by
  rw [List.count_append, count_arrivals hfs j.rooted hway.arrival, Path.count_trail hway.isName,
    List.length_append, hway.accepts.length_eq]

/-- What is found behind a directory lies as deep as the components go. -/
theorem WayBehind.count_slash (hfs : fs.IsNamed) (hway : WayBehind fs base q w after b names) :
    (b ++ Path.trail names).count '/' = depth q + (Path.components (wildcard :: after)).length := by
  rw [List.count_append, count_arrivals hfs hway.rooted hway.arrival, Path.count_trail hway.isName,
    ← hway.accepts.length_eq, length_components_star hway.isName_begun.2]

/-- **A file below one more directory** that has a specifier in common with one that the glob finds as it is
written is an index file, and so is the other one, which lies one directory higher. -/
theorem WayBelow.exists_index {a : Text} (hfs : fs.IsNamed) (hext : AreWords extensions) (j : Joint before after)
    (hsame : hasExtension g = hasExtension g') (hdeep : g.contains deep = true) (he : Ending extensions g e)
    (he' : Ending extensions g' e') (hway : WayBelow fs base before (after ++ e) b (a :: above) names)
    (hway' : WayBehind fs base q w (after ++ e') b' names') (hdepth : depth q < depth before)
    (hu : head ++ u = b ++ Path.trail (a :: above ++ names)) (hu' : head ++ u' = b' ++ Path.trail names')
    (hk : k ∈ DispatchTable.specifiersOf (specifierHead ++ u))
    (hk' : k ∈ DispatchTable.specifiersOf (specifierHead ++ u')) :
    above = [] ∧ Path.IsBase (wildcard :: after) ∧ hasExtension g = false ∧
      (∃ v ∈ words extensions, ∃ v' ∈ words extensions, e = '.' :: v ∧ e' = indexName ++ '.' :: v') ∧
      ∃ word, IsWord word ∧ specifierHead ++ u = k ++ indexName ++ '.' :: word ∧
        (specifierHead ++ u' = k ∨ ∃ word', IsWord word' ∧ specifierHead ++ u' = k ++ '.' :: word') := by
  have hcount := hway.count_slash hfs (j.append (he.hasMagic hext))
  have hcount' := hway'.count_slash hfs
  rw [← hu, List.count_append, List.length_cons] at hcount
  rw [← hu', List.count_append] at hcount'
  have hlen := length_components_ending (List.cons_ne_nil wildcard after) hext hsame hdeep he he'
  rw [List.cons_append, List.cons_append] at hlen
  have hlt : (specifierHead ++ u').count '/' < (specifierHead ++ u).count '/' := by
    rw [List.count_append, List.count_append]
    rcases hlen with hle | ⟨hsucc, -⟩ <;> omega
  obtain ⟨hone, hindex⟩ := DispatchTable.exists_index_of_shared hk hk' hlt
  rw [List.count_append, List.count_append] at hone
  rcases hlen with hle | ⟨hsucc, hbase, hno, v, hv, v', hv', rfl, rfl⟩
  · omega
  · exact ⟨List.length_eq_zero_iff.mp (by omega), hbase, hno, ⟨v, hv, v', hv', rfl, rfl⟩, hindex⟩

/-! ## Index files -/

/-- An index file is found behind the directories that the glob stands for. -/
theorem exists_arrival_of_index (hfs : fs.IsNamed) (j : Joint before after)
    (hend : Path.IsBase (wildcard :: after)) {word : Text} (hslash : '/' ∉ word)
    (hword : hasMagic word = false)
    (h : p ∈ fs.search base (before ++ wildcard :: (after ++ (indexName ++ '.' :: word)))) :
    ∃ z ∈ fs.arrivals base false (before ++ wildcard :: after), p = z ++ (indexName ++ '.' :: word) := by
  have hname := isName_index hslash
  have htext : before ++ wildcard :: (after ++ (indexName ++ '.' :: word)) =
      (before ++ wildcard :: after) ++ (List.replicate 1 '/' ++ (indexStem ++ '.' :: word)) := by
    simp [indexName_eq]
  have hbase : Path.IsBase (indexStem ++ '.' :: word) := by simpa using hname.isBase_append []
  rw [htext, search_append (hend.append _) hbase (.inl (hasMagic_star ..)),
    Path.components_of_isName hname] at h
  obtain ⟨z, hz, hp⟩ := List.mem_flatMap.mp h
  have hdeep : indexStem ++ '.' :: word ≠ deep := fun e => by simp [indexStem] at e
  rw [follow_eq_reach] at hp
  obtain ⟨names, hall, -, rfl⟩ := exists_names_of_mem_reach hfs
    (isBase_of_mem_arrivals hfs (j.rooted_glob hend) hz)
    (fun d hd => (List.mem_singleton.mp hd) ▸ ⟨hname, hdeep⟩) hp
  obtain rfl := eq_of_accepts_fixed (fun d hd => (List.mem_singleton.mp hd) ▸ hasMagic_index hword) hall
  exact ⟨z, hz, by simp [indexName_eq]⟩

/-- An index file that a glob finds as it is written is behind the names of a directory. -/
theorem WayBehind.exists_index (hfs : fs.IsNamed) (j : Joint before after) (hend : Path.IsBase (wildcard :: after))
    {word : Text} (hslash : '/' ∉ word) (hword : hasMagic word = false)
    (hway : WayBehind fs base q w (after ++ (indexName ++ '.' :: word)) b names)
    (hp : b ++ Path.trail names ∈ fs.search base (before ++ wildcard :: (after ++ (indexName ++ '.' :: word)))) :
    ∃ m, names = m ++ [indexStem ++ '.' :: word] ∧ WayBehind fs base q w after b m ∧
      b ++ Path.trail m ∈ fs.arrivals base false (before ++ wildcard :: after) := by
  obtain ⟨hq, hw, hb, hall, hnames⟩ := hway
  obtain ⟨z, hz, hzp⟩ := exists_arrival_of_index hfs j hend hslash hword hp
  have hcomponents : Path.components (w ++ wildcard :: (after ++ (indexName ++ '.' :: word))) =
      Path.components (w ++ wildcard :: after) ++ [indexStem ++ '.' :: word] := by
    rw [← components_append_index _ hslash]
    simp
  rw [hcomponents] at hall
  obtain ⟨m, y, hm, hy, rfl⟩ := exists_concat_of_forall₂ hall
  obtain rfl := (accepts_fixed (hasMagic_index hword)).mp hy
  have hz' : (b ++ Path.trail m) ++ (indexName ++ '.' :: word) = z ++ (indexName ++ '.' :: word) := by
    rw [← hzp]
    simp [indexName_eq]
  exact ⟨m, rfl, ⟨hq, hw, hb, hm, fun n hn => hnames n (List.mem_append_left _ hn)⟩,
    List.append_cancel_right hz' ▸ hz⟩

/-- **An index file below another one** that it has a specifier in common with is the one in a directory
with the name of index files. -/
theorem eq_index_of_shared {head s t u v k word : Text} (hv : '.' ∉ v)
    (hfile : fs.isFile (Path.append base (head ++ u)) = true)
    (hfile' : fs.isFile (Path.append base (head ++ (t ++ (indexName ++ '.' :: v)))) = true)
    (h : s ++ u = k ++ indexName ++ '.' :: word)
    (hother : s ++ (t ++ (indexName ++ '.' :: v)) = k ∨
      ∃ word', IsWord word' ∧ s ++ (t ++ (indexName ++ '.' :: v)) = k ++ '.' :: word') :
    u = t ++ (indexName ++ (indexName ++ '.' :: word)) := by
  rcases hother with rfl | ⟨word', hword', hother⟩
  · -- no file has a file below it
    exfalso
    have hu : u = t ++ (indexName ++ '.' :: v) ++ '/' :: (indexStem ++ '.' :: word) := by
      simpa [indexName_eq] using h
    rw [hu, ← List.append_assoc, append_append_of_ne_nil _ (by simp [indexName_eq]),
      isFile_append_eq_false (append_ne_nil _ (by simp [indexName_eq])) hfile'] at hfile
    exact absurd hfile (by decide)
  · rw [← List.append_assoc, ← List.append_assoc] at hother
    obtain ⟨rfl, -⟩ := append_dot_inj hv hword'.1 hother
    simpa using h

/-! ## Shared specifiers -/

/-- **An index file in a directory with the name of index files** is found as one where the wildcard stands for
a name of its own. -/
theorem WayBelow.index {a v v' word : Text} (hfs : fs.IsNamed) (hext : AreWords extensions) (j : Joint before after)
    (hbase : Path.IsBase (wildcard :: after)) (hv : v ∈ words extensions) (hv' : v' ∈ words extensions)
    (hway : WayBelow fs base before (after ++ '.' :: v) b [a] names)
    (hway' : WayBehind fs base q w (after ++ (indexName ++ '.' :: v')) b' names')
    (hhead : head <+: before) (hfixed : hasMagic head = false) (hslashes : ¬ ['/', '/'] <:+: head)
    (hu : head ++ u = b ++ Path.trail (a :: names)) (hu' : head ++ u' = b' ++ Path.trail names')
    (hfound : head ++ u' ∈ fs.search base (before ++ wildcard :: (after ++ (indexName ++ '.' :: v'))))
    (hfile : fs.isFile (Path.append base (head ++ u)) = true)
    (hfile' : fs.isFile (Path.append base (head ++ u')) = true) (hword : IsWord word)
    (hindex : specifierHead ++ u = k ++ indexName ++ '.' :: word)
    (hother : specifierHead ++ u' = k ∨ ∃ word', IsWord word' ∧ specifierHead ++ u' = k ++ '.' :: word') :
    WayBelow fs base before (after ++ (indexName ++ '.' :: v)) b [] (a :: names) := by
  have hchars {word : Text} (hword : word ∈ words extensions) : ∀ c ∈ word, Text.isWord c = true :=
    isWord_of_mem_words hext hword
  have hslash {word : Text} (hword : word ∈ words extensions) : '/' ∉ word :=
    not_mem_of_isWord (hchars hword) (by decide)
  have hdot {word : Text} (hword : word ∈ words extensions) : '.' ∉ word :=
    not_mem_of_isWord (hchars hword) (by decide)
  -- the other file is an index file behind a directory that keeps the head as well
  obtain ⟨m, rfl, hm, hz⟩ :=
    hway'.exists_index hfs j hbase (hslash hv') (hasMagic_of_isWord (hchars hv')) (hu' ▸ hfound)
  obtain ⟨t, ht⟩ : head <+: b' ++ Path.trail m := prefix_of_mem_arrivals hfs (j.rooted_glob hbase) hfixed
    hslashes (hhead.trans (List.prefix_append ..)) hz
  have hcancel : head ++ u' = head ++ (t ++ (indexName ++ '.' :: v')) := by
    rw [hu', ← List.append_assoc, ht]
    simp [indexName_eq]
  obtain rfl : u' = t ++ (indexName ++ '.' :: v') := List.append_cancel_left hcancel
  have hshared := eq_index_of_shared (hdot hv') hfile hfile' hindex hother
  have htrail : b ++ Path.trail (a :: names) =
      b' ++ Path.trail m ++ (indexName ++ (indexName ++ '.' :: word)) := by
    rw [← ht, List.append_assoc, ← hshared, hu]
  exact ⟨hway.arrival, accepts_index j.fixed hbase hway'.isName_begun.2 hword ⟨hdot hv, hslash hv⟩
    (hasMagic_of_isWord (hchars hv)) hway.accepts hm.accepts hway.isName hm.isName htrail, hway.isName⟩

/-- **Directories of any depth claim no specifier.**  What is found behind them before a name of its own,
and has a specifier in common with what the glob finds as it is written, is found without them. -/
theorem mem_search_apart {p' : Text} {specifiers : Text → List Text} (hfs : fs.IsNamed)
    (hext : AreWords extensions) (j : Joint before after)
    (he : Ending extensions (before ++ '/' :: (deep ++ '/' :: wildcard :: after)) e)
    (hp : p ∈ fs.search base (before ++ '/' :: (deep ++ '/' :: wildcard :: (after ++ e))))
    (hfile : fs.isFile (Path.append base p) = true)
    (he' : Ending extensions (before ++ wildcard :: after) e')
    (hp' : p' ∈ fs.search base (before ++ wildcard :: (after ++ e')))
    (hfile' : fs.isFile (Path.append base p') = true)
    (hhead : head <+: before) (hfixed : hasMagic head = false) (hslashes : ¬ ['/', '/'] <:+: head)
    (hspecifiers : ∀ u, specifiers (head ++ u) = DispatchTable.specifiersOf (specifierHead ++ u))
    (hk : k ∈ specifiers p) (hk' : k ∈ specifiers p') :
    ∃ e, Ending extensions (before ++ '/' :: wildcard :: after) e ∧
      p ∈ fs.search base (before ++ '/' :: wildcard :: (after ++ e)) := by
  have hdeep : (before ++ '/' :: (deep ++ '/' :: wildcard :: after)).contains deep = true :=
    Text.contains_iff.mpr ⟨before ++ ['/'], '/' :: wildcard :: after, by simp⟩
  -- whether an extension is named is seen behind the wildcard, which all three globs have
  have hsame : hasExtension (before ++ '/' :: (deep ++ '/' :: wildcard :: after)) =
      hasExtension (before ++ wildcard :: after) := by
    simpa using hasExtension_star_eq (before ++ '/' :: (deep ++ ['/'])) before
  have hapart : hasExtension (before ++ '/' :: (deep ++ '/' :: wildcard :: after)) =
      hasExtension (before ++ '/' :: wildcard :: after) := by
    simpa using hasExtension_star_eq (before ++ '/' :: (deep ++ ['/'])) (before ++ ['/'])
  have hfix := he.hasMagic hext
  have hend : Path.IsBase (wildcard :: (after ++ e)) :=
    Path.IsBase.of_append (s := before ++ '/' :: (deep ++ ['/'])) (by simpa using he.isBase hext) (by simp)
  have hend' : Path.IsBase (wildcard :: (after ++ e')) :=
    Path.IsBase.of_append (s := before) (by simpa using he'.isBase hext) (by simp)
  obtain ⟨b, above, names, hway, hpe⟩ := exists_wayBelow hfs (j.append hfix) hend hp
  obtain ⟨q, w, b', names', hway', hdepth, hpe'⟩ :=
    exists_wayBehind hfs (j.append (he'.hasMagic hext)) hend' hp'
  cases above with
  | nil =>
    rw [hpe, List.nil_append] at hfile ⊢
    exact ⟨e, he.of_deep hapart hdeep, hway.mem_search hfs (j.append hfix) hend hfile⟩
  | cons a above =>
    -- the two keep the head that is exchanged
    obtain ⟨u, rfl⟩ : head <+: p := by
      rw [hpe]
      exact (prefix_of_mem_arrivals hfs j.rooted hfixed hslashes hhead hway.arrival).trans
        (List.prefix_append ..)
    obtain ⟨u', rfl⟩ : head <+: p' := by
      rw [search_eq_arrivals (hasMagic_star ..)] at hp'
      exact prefix_of_mem_arrivals hfs ((j.append (he'.hasMagic hext)).rooted_glob hend') hfixed hslashes
        (hhead.trans (List.prefix_append ..)) hp'
    rw [hspecifiers] at hk hk'
    obtain ⟨rfl, hbase, hno, ⟨v, hv, v', hv', rfl, rfl⟩, word, hword, hindex, hother⟩ :=
      hway.exists_index hfs hext j hsame hdeep he he' hway' hdepth hpe hpe' hk hk'
    have hindexWay := hway.index hfs hext j hbase hv hv' hway' hhead hfixed hslashes hpe hpe' hp' hfile hfile'
      hword hindex hother
    have hflat : (before ++ '/' :: wildcard :: after).contains deep = false :=
      Bool.eq_false_iff.mpr fun h => j.flat_apart (Text.contains_iff.mp h)
    have hending : Ending extensions (before ++ '/' :: wildcard :: after) (indexName ++ '.' :: v) :=
      .index (hapart ▸ hno) hflat hv
    have hendIndex : Path.IsBase (wildcard :: (after ++ (indexName ++ '.' :: v))) :=
      Path.IsBase.of_append (s := before ++ ['/']) (by simpa using hending.isBase hext) (by simp)
    rw [hpe] at hfile ⊢
    exact ⟨_, hending, hindexWay.mem_search hfs (j.append (hending.hasMagic hext)) hendIndex hfile⟩

end VariableImport.FileSystem
