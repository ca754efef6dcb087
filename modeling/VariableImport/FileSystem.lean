import VariableImport.Path.Basic
import VariableImport.Text.Quoted

/-!
# FileSystem — paths are followed component by component

Files and directories by their components from the root, and a working directory.  A path is
followed component by component: `..` leaves a directory that has to exist, unlike in
`Path.normalize`.
-/

namespace VariableImport

/-- What a path may lead to. -/
inductive Entry where
  | directory
  | file (content : Text)
deriving DecidableEq, Repr

/-- The entries below the root by their components, and the working directory. -/
structure FileSystem where
  entries : List (List Text × Entry) := []
  cwd : Text := ['/']
deriving Repr

/-- Why a file cannot be read or written. -/
inductive FileError where
  | missing (path : Text)
  | isDirectory (path : Text)
  | notDirectory (path : Text)
deriving DecidableEq, Repr

/-- The wording of a file error, with its number among system errors. -/
def FileError.message : FileError → Text
  | .missing path => "[Errno 2] No such file or directory: ".toList ++ path.quoted
  | .isDirectory path => "[Errno 21] Is a directory: ".toList ++ path.quoted
  | .notDirectory path => "[Errno 20] Not a directory: ".toList ++ path.quoted

namespace FileSystem

/-- What stands at a place; the root is a directory. -/
def at? (fs : FileSystem) (place : List Text) : Option Entry :=
  if place = [] then some .directory else fs.entries.lookup place

/-- One component further from a directory. -/
def enter (fs : FileSystem) (place : List Text) (c : Text) : Option (List Text) :=
  match fs.at? place with
  | some .directory =>
    if c = [] ∨ c = Path.here then some place
    else if c = Path.up then some place.dropLast
    else if (fs.at? (place ++ [c])).isSome then some (place ++ [c])
    else none
  | _ => none

/-- The place that a path leads to. -/
def locate (fs : FileSystem) (p : Text) : Option (List Text) :=
  if p = [] then none else (Text.split '/' (Path.append fs.cwd p)).foldlM fs.enter []

/-- What a path leads to. -/
def find? (fs : FileSystem) (p : Text) : Option Entry := (fs.locate p).bind fs.at?

/-- Whether a path leads anywhere. -/
def leadsAnywhere (fs : FileSystem) (p : Text) : Bool := (fs.find? p).isSome

/-- Whether a path leads to a file. -/
def isFile (fs : FileSystem) (p : Text) : Bool :=
  match fs.find? p with
  | some (.file _) => true
  | _ => false

/-- Whether a path leads to a directory. -/
def isDirectory (fs : FileSystem) (p : Text) : Bool := fs.find? p == some .directory

/-- The names in a directory. -/
def names (fs : FileSystem) (place : List Text) : List (Text × Entry) :=
  fs.entries.filterMap fun (q, e) =>
    match place.isPrefixOf? q with
    | some [name] => some (name, e)
    | _ => none

/-- What lies below a directory, with the components from there. -/
def below (fs : FileSystem) (place : List Text) : List (List Text × Entry) :=
  fs.entries.filterMap fun (q, e) =>
    match place.isPrefixOf? q with
    | some (c :: cs) => some (c :: cs, e)
    | _ => none

/-! ## Changes -/

/-- An entry put at a place, in place of the one there. -/
def put (fs : FileSystem) (place : List Text) (e : Entry) : FileSystem :=
  { fs with entries := fs.entries.filter (·.1 != place) ++ [(place, e)] }

/-- A directory and those above it, where nothing stands yet. -/
def makeDirectory (fs : FileSystem) (place : List Text) : FileSystem :=
  ((List.range (place.length + 1)).map place.take).foldl (fun fs q => if (fs.at? q).isSome then fs else fs.put q .directory) fs

/-- A file and the directories above it. -/
def makeFile (fs : FileSystem) (place : List Text) (content : Text) : FileSystem :=
  (fs.makeDirectory place.dropLast).put place (.file content)

/-- The place where a path would put a file: its directory has to exist. -/
def target (fs : FileSystem) (p : Text) : Except FileError (List Text) :=
  match fs.find? p with
  | some .directory => .error (.isDirectory p)
  | some (.file _) =>
    match fs.locate p with
    | some place => .ok place
    | none => .error (.missing p)
  | none =>
    let (directory, name) := Path.cutName (Path.append fs.cwd p)
    match fs.locate directory with
    | none => .error (.missing p)
    | some place =>
      if fs.at? place = some .directory then
        if name = [] then .error (.isDirectory p) else .ok (place ++ [name])
      else .error (.notDirectory p)

/-- Writes a file into a directory that exists. -/
def write (fs : FileSystem) (p content : Text) : Except FileError FileSystem :=
  (fs.target p).map fun place => fs.put place (.file content)

/-- The content of a file. -/
def read (fs : FileSystem) (p : Text) : Except FileError Text :=
  match fs.find? p with
  | some (.file content) => .ok content
  | some .directory => .error (.isDirectory p)
  | none => .error (.missing p)

/-- Removes a file. -/
def remove (fs : FileSystem) (p : Text) : Except FileError FileSystem :=
  match fs.find? p, fs.locate p with
  | some (.file _), some place => .ok { fs with entries := fs.entries.filter (·.1 != place) }
  | some .directory, _ => .error (.isDirectory p)
  | _, _ => .error (.missing p)

/-- A tree of files, and of directories where a path ends in a slash, below the root. -/
def ofPaths (paths : List Text) : FileSystem :=
  paths.foldl (fun fs p =>
    let place := Path.components p
    if p.getLast? = some '/' then fs.makeDirectory place
    else if fs.isFile p then fs else fs.makeFile place []) {}

end FileSystem

end VariableImport
