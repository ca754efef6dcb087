import VariableImport.Alias.Resolver

/-!
# DispatchTable/Basic — the file that is registered first keeps a specifier

Every file of a call site is registered under each literal specifier that the import may have had
for it.  The file that is registered first keeps a specifier; a later one is a collision.
-/

namespace VariableImport

/-- A specifier that a second file would have had. -/
structure Collision where
  specifier : Text
  kept : Text
  dropped : Text
deriving DecidableEq, Repr

/-- Specifiers and their files in the order of registration, the files, and the collisions. -/
structure DispatchTable where
  entries : List (Text × Text) := []
  files : List Text := []
  collisions : List Collision := []
deriving DecidableEq, Repr

namespace DispatchTable

/-- The file that a specifier stands for. -/
def lookup (table : DispatchTable) (specifier : Text) : Option Text :=
  table.entries.lookup specifier

/-- The specifiers that stand for a file. -/
def specifiersFor (table : DispatchTable) (file : Text) : List Text :=
  (table.entries.filter (·.2 == file)).map Prod.fst

/-- The file that a specifier is dispatched to; an unknown specifier is rejected. -/
def dispatch (table : DispatchTable) (specifier : Text) : Except ImportError Text :=
  match table.lookup specifier with
  | some file => .ok file
  | none => .error { cause := .unknownSpecifier specifier }

/-! ## Registration -/

/-- The name of index files. -/
def indexName : Text := ['/', 'i', 'n', 'd', 'e', 'x']

/-- The specifiers of a path: without `/index` and extension if it is an index file, without its
extension if it has one, and as a whole. -/
def specifiersOf (path : Text) : List Text :=
  let ext := Path.extension path
  let stem := path.take (path.length - ext.length)
  if ext = [] then [path]
  else if path.endsWith (indexName ++ ext) then
    [path.take (path.length - (indexName ++ ext).length), stem, path]
  else [stem, path]

/-- **The specifiers that an import may have had for a file**, written as the import was. -/
def candidates (resolved : Option Resolved) (file : Text) : List Text :=
  specifiersOf (match resolved with
    | some r => r.toSpecifier file
    | none => file)

/-- A file registered under one specifier. -/
def register (table : DispatchTable) (specifier file : Text) : DispatchTable :=
  match table.lookup specifier with
  | none => { table with entries := table.entries ++ [(specifier, file)] }
  | some kept =>
    if kept = file then table
    else { table with collisions := table.collisions ++ [⟨specifier, kept, file⟩] }

/-- The files with their specifiers in the order of registration. -/
def registrations (resolved : Option Resolved) (files : List Text) : List (Text × Text) :=
  files.flatMap fun file => (candidates resolved file).map fun specifier => (specifier, file)

/-- **The table of some files.** -/
def ofFiles (files : List Text) (resolved : Option Resolved) : DispatchTable :=
  (registrations resolved files).foldl (fun table (specifier, file) => table.register specifier file)
    { files }

/-- The full path is the last specifier of a path. -/
theorem mem_specifiersOf_self (path : Text) : path ∈ specifiersOf path := by
  simp only [specifiersOf]
  split
  · simp
  · split <;> simp

end DispatchTable

end VariableImport
