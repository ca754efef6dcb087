import VariableImport.Proofs.DispatchTable.Lookup

/-!
# Proofs/DispatchTable/Registration — the first file keeps a specifier, every other one is told

A table is made by registering files under their specifiers one after another.  **One registration**
puts an entry or a collision behind those there are, or changes nothing (`register_cases`); so a run of
registrations keeps what the table had (`extends_registerAll`), and its entries and collisions can be
read off from the pairs that were registered (`keys_registerAll`, `collisions_registerAll`).
`firstWins_ofFiles` is the whole of it for the table of some files.
-/

namespace VariableImport.DispatchTable

variable {table : DispatchTable} {specifier file : Text}

/-! ## One registration -/

/-- The collision of a file with the one that keeps the specifier, if that is another file. -/
def collision? (table : DispatchTable) (specifier file : Text) : Option Collision :=
  (table.lookup specifier).bind fun kept => if kept = file then none else some ⟨specifier, kept, file⟩

theorem lookup_eq_none_iff : table.lookup specifier = none ↔ specifier ∉ table.entries.map Prod.fst := by
  rw [lookup, List.lookup_eq_none_iff]
  simp only [bne_iff_ne, ne_eq, List.mem_map, not_exists, not_and]
  exact ⟨fun h entry hentry e => h entry hentry e.symm, fun h entry hentry e => h entry hentry e.symm⟩

/-- **What a registration does**: a new specifier becomes an entry; a known one keeps its file, which is
a collision if it is another file. -/
theorem register_cases (table : DispatchTable) (specifier file : Text) :
    (table.lookup specifier = none ∧
      table.register specifier file = { table with entries := table.entries ++ [(specifier, file)] }) ∨
    ∃ kept, table.lookup specifier = some kept ∧
      table.register specifier file =
        { table with collisions := table.collisions ++ (table.collision? specifier file).toList } := by
  unfold register
  cases h : table.lookup specifier with
  | none => exact .inl ⟨rfl, rfl⟩
  | some kept =>
    refine .inr ⟨kept, rfl, ?_⟩
    by_cases hfile : kept = file
    · simp [collision?, h, hfile]
    · simp [collision?, h, hfile]

/-- Whether a table has what another one has, and maybe more behind it. -/
structure Extends (table larger : DispatchTable) : Prop where
  entries : table.entries <+: larger.entries
  collisions : table.collisions <+: larger.collisions

theorem Extends.refl (table : DispatchTable) : Extends table table := ⟨List.prefix_rfl, List.prefix_rfl⟩

theorem Extends.trans {a b c : DispatchTable} (hab : Extends a b) (hbc : Extends b c) : Extends a c :=
  ⟨hab.entries.trans hbc.entries, hab.collisions.trans hbc.collisions⟩

/-- **A larger table redirects no specifier.** -/
theorem Extends.lookup {larger : DispatchTable} (h : Extends table larger)
    (hkept : table.lookup specifier = some file) : larger.lookup specifier = some file := by
  obtain ⟨more, hmore⟩ := h.entries
  rw [DispatchTable.lookup] at hkept ⊢
  rw [← hmore, List.lookup_append, hkept]
  rfl

theorem extends_register (table : DispatchTable) (specifier file : Text) :
    Extends table (table.register specifier file) := by
  obtain ⟨-, h⟩ | ⟨kept, -, h⟩ := register_cases table specifier file
  · exact h ▸ ⟨List.prefix_append _ _, List.prefix_rfl⟩
  · exact h ▸ ⟨List.prefix_rfl, List.prefix_append _ _⟩

/-! ## A run of registrations -/

/-- Pairs of specifiers and files registered one after another. -/
def registerAll (table : DispatchTable) (regs : List (Text × Text)) : DispatchTable :=
  regs.foldl (fun table (specifier, file) => table.register specifier file) table

variable {regs : List (Text × Text)}

theorem registerAll_concat (table : DispatchTable) (regs : List (Text × Text)) (specifier file : Text) :
    table.registerAll (regs ++ [(specifier, file)]) =
      (table.registerAll regs).register specifier file := by
  rw [registerAll, List.foldl_append]
  rfl

/-- **A run of registrations keeps** what the table had. -/
theorem extends_registerAll (table : DispatchTable) (regs : List (Text × Text)) :
    Extends table (table.registerAll regs) := by
  induction regs using List.reverseRecOn with
  | nil => exact .refl table
  | append_singleton regs r ih => exact registerAll_concat table .. ▸ ih.trans (extends_register ..)

theorem lookup_registerAll (hempty : table.entries = []) (specifier : Text) :
    (table.registerAll regs).lookup specifier = regs.lookup specifier := by
  rw [registerAll, lookup_foldl_register, lookup, hempty]
  rfl

/-- Every specifier that was registered stands for a file. -/
theorem isSome_lookup_registerAll (hempty : table.entries = []) (hmem : (specifier, file) ∈ regs) :
    ((table.registerAll regs).lookup specifier).isSome := by
  rw [lookup_registerAll hempty, Option.isSome_iff_ne_none, Ne, List.lookup_eq_none_iff]
  intro h
  simpa using h _ hmem

/-- **The entries are the first registrations**: their specifiers stand in the order in which they were
registered first. -/
theorem keys_registerAll (hempty : table.entries = []) (regs : List (Text × Text)) :
    (table.registerAll regs).entries.map Prod.fst = Text.distinct (regs.map Prod.fst) := by
  induction regs using List.reverseRecOn with
  | nil => simp [registerAll, hempty, Text.distinct]
  | append_singleton regs r ih =>
    obtain ⟨specifier, file⟩ := r
    have hdistinct : Text.distinct ((regs ++ [(specifier, file)]).map Prod.fst) =
        Text.addNew ((table.registerAll regs).entries.map Prod.fst) specifier := by
      rw [ih, List.map_append, Text.distinct, List.foldl_append]
      rfl
    rw [registerAll_concat, hdistinct, Text.addNew]
    obtain ⟨hnone, h⟩ | ⟨kept, hkept, h⟩ := register_cases (table.registerAll regs) specifier file
    · rw [h, if_neg (List.contains_iff_mem.not.mpr (lookup_eq_none_iff.mp hnone)), List.map_append]
      rfl
    · have hknown : specifier ∈ (table.registerAll regs).entries.map Prod.fst := by
        by_contra hmem
        simp [lookup_eq_none_iff.mpr hmem] at hkept
      rw [h, if_pos (List.contains_iff_mem.mpr hknown)]

/-- A larger table tells the same collisions of a specifier that is known already. -/
theorem Extends.collision?_eq {larger : DispatchTable} (h : Extends table larger)
    (hknown : (table.lookup specifier).isSome) :
    larger.collision? specifier file = table.collision? specifier file := by
  obtain ⟨kept, hkept⟩ := Option.isSome_iff_exists.mp hknown
  rw [collision?, collision?, h.lookup hkept, hkept]

/-- **The collisions are the registrations of other files** than the ones that keep their specifiers. -/
theorem collisions_registerAll (hempty : table.entries = []) (hnone : table.collisions = [])
    (regs : List (Text × Text)) :
    (table.registerAll regs).collisions =
      regs.filterMap fun r => (table.registerAll regs).collision? r.1 r.2 := by
  induction regs using List.reverseRecOn with
  | nil => simp [registerAll, hnone]
  | append_singleton regs r ih =>
    obtain ⟨specifier, file⟩ := r
    rw [registerAll_concat]
    set before := table.registerAll regs with hbefore
    have hextends := extends_register before specifier file
    have hsame : (regs.filterMap fun r => (before.register specifier file).collision? r.1 r.2) =
        before.collisions := by
      rw [ih]
      refine List.filterMap_congr fun r hr => hextends.collision?_eq ?_
      exact isSome_lookup_registerAll hempty hr
    have hcollisions : (before.register specifier file).collisions = before.collisions ++
        ((before.register specifier file).collision? specifier file).toList := by
      obtain ⟨hnew, h⟩ | ⟨kept, hkept, h⟩ := register_cases before specifier file
      · have hown : (before.register specifier file).collision? specifier file = none := by
          rw [collision?, lookup_register, hnew, if_pos rfl]
          simp
        rw [hown, h, Option.toList_none, List.append_nil]
      · rw [hextends.collision?_eq (Option.isSome_iff_exists.mpr ⟨kept, hkept⟩), h]
    rw [List.filterMap_append, hsame, hcollisions, List.filterMap_cons, List.filterMap_nil]
    cases (before.register specifier file).collision? specifier file <;> rfl

/-- The files that a table names do not matter to what is registered. -/
theorem register_files (table : DispatchTable) (files : List Text) (specifier file : Text) :
    ({ table with files } : DispatchTable).register specifier file =
      { table.register specifier file with files } := by
  have hlookup : ({ table with files } : DispatchTable).lookup specifier = table.lookup specifier := rfl
  unfold register
  rw [hlookup]
  cases table.lookup specifier with
  | none => rfl
  | some kept => by_cases h : kept = file <;> simp [h]

theorem registerAll_files (table : DispatchTable) (files : List Text) (regs : List (Text × Text)) :
    ({ table with files } : DispatchTable).registerAll regs =
      { table.registerAll regs with files } := by
  induction regs using List.reverseRecOn with
  | nil => rfl
  | append_singleton regs r ih => rw [registerAll_concat, registerAll_concat, ih, register_files]

/-! ## The table of some files -/

/-- The files with their specifiers are scanned file by file. -/
theorem registrations_append (resolved : Option Resolved) (files more : List Text) :
    registrations resolved (files ++ more) = registrations resolved files ++ registrations resolved more :=
  List.flatMap_append

theorem mem_registrations {resolved : Option Resolved} {files : List Text} :
    (specifier, file) ∈ registrations resolved files ↔
      file ∈ files ∧ specifier ∈ candidates resolved file := by
  simp [registrations]

theorem ofFiles_eq_registerAll (files : List Text) (resolved : Option Resolved) :
    ofFiles files resolved = ({ files } : DispatchTable).registerAll (registrations resolved files) := rfl

/-- The specifiers of the files stand for files. -/
theorem exists_lookup_ofFiles {resolved : Option Resolved} {files : List Text} (hfile : file ∈ files)
    (hs : specifier ∈ candidates resolved file) :
    ∃ kept, (ofFiles files resolved).lookup specifier = some kept := by
  have hknown : ((({ files } : DispatchTable).registerAll (registrations resolved files)).lookup
      specifier).isSome := isSome_lookup_registerAll rfl (mem_registrations.mpr ⟨hfile, hs⟩)
  exact Option.isSome_iff_exists.mp hknown

theorem collisions_ofFiles (files : List Text) (resolved : Option Resolved) :
    (ofFiles files resolved).collisions =
      (registrations resolved files).filterMap fun r => (ofFiles files resolved).collision? r.1 r.2 :=
  collisions_registerAll rfl rfl _

/-- **Files that are added** go behind what the table of the others has. -/
theorem extends_ofFiles (files more : List Text) (resolved : Option Resolved) :
    Extends (ofFiles files resolved) (ofFiles (files ++ more) resolved) := by
  have hboth : ofFiles (files ++ more) resolved =
      { (ofFiles files resolved).registerAll (registrations resolved more) with files := files ++ more } := by
    have hfiles : ({ files := files ++ more } : DispatchTable) =
        { ({ files } : DispatchTable) with files := files ++ more } := rfl
    rw [ofFiles_eq_registerAll, registrations_append, hfiles, registerAll_files, registerAll,
      List.foldl_append]
    rfl
  have h := extends_registerAll (ofFiles files resolved) (registrations resolved more)
  exact hboth ▸ ⟨h.entries, h.collisions⟩

/-- **Whether a table gives each specifier to the first of some files that has it**, in the order in which
the specifiers come up, and tells every other file that has one. -/
structure FirstWins (resolved : Option Resolved) (files : List Text) (table : DispatchTable) : Prop where
  lookup_eq : ∀ s, table.lookup s = files.find? fun file => decide (s ∈ candidates resolved file)
  keys_eq : table.entries.map Prod.fst = Text.distinct (files.flatMap (candidates resolved))
  collisions_eq : table.collisions = files.flatMap fun file =>
    (candidates resolved file).filterMap fun s => table.collision? s file
  registered : ∀ file ∈ files, ∀ s ∈ candidates resolved file,
    table.lookup s = some file ∨ ∃ kept, kept ≠ file ∧ table.lookup s = some kept ∧
      ⟨s, kept, file⟩ ∈ table.collisions

/-- **The table of some files gives each specifier to the first file that has it** and loses no other file
silently.  Files that are added put entries and collisions behind those there are and redirect nothing. -/
theorem firstWins_ofFiles (files more : List Text) (resolved : Option Resolved) :
    FirstWins resolved files (ofFiles files resolved) ∧
    (ofFiles files resolved).entries <+: (ofFiles (files ++ more) resolved).entries ∧
    (ofFiles files resolved).collisions <+: (ofFiles (files ++ more) resolved).collisions ∧
    ∀ s file, (ofFiles files resolved).lookup s = some file →
      (ofFiles (files ++ more) resolved).lookup s = some file := by
  have hextends := extends_ofFiles files more resolved
  refine ⟨⟨lookup_ofFiles files resolved, ?_, ?_, fun file hfile s hs => ?_⟩,
    hextends.entries, hextends.collisions, fun s file => hextends.lookup⟩
  · rw [ofFiles_eq_registerAll, keys_registerAll rfl, registrations, List.map_flatMap]
    simp [Function.comp_def]
  · rw [collisions_ofFiles, registrations, List.filterMap_flatMap]
    simp only [List.filterMap_map]
    rfl
  · obtain ⟨kept, hkept⟩ := exists_lookup_ofFiles hfile hs
    by_cases h : kept = file
    · exact .inl (h ▸ hkept)
    · refine .inr ⟨kept, h, hkept, ?_⟩
      rw [collisions_ofFiles]
      refine List.mem_filterMap.mpr ⟨(s, file), mem_registrations.mpr ⟨hfile, hs⟩, ?_⟩
      rw [collision?, hkept, Option.bind_some, if_neg h]

example : (ofFiles ["./a.js".toList, "./a.ts".toList] none).collisions =
    [⟨"./a".toList, "./a.js".toList, "./a.ts".toList⟩] := by decide +kernel

end VariableImport.DispatchTable
