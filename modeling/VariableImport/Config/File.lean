import VariableImport.Config.Validation
import VariableImport.FileSystem
import VariableImport.Json.Printer
import VariableImport.Json.Reader

/-!
# Config/File — the file that a configuration is read from

A configuration is read from the file that is named, or from the first of the usual places that
holds one, or else has its defaults.  A relative root is taken from the directory of the file.
-/

namespace VariableImport.Config

/-- The configuration file of a project. -/
def fileName : Text := "dynimport.json".toList

/-- The configuration file of a user with a given home. -/
def userFile (home : Text) : Text := Path.append home ".dynimport/config.json".toList

/-- Why a configuration cannot be loaded. -/
inductive LoadError where
  /-- The file that was named is not there. -/
  | notFound (path : Text)
  | unreadable (e : FileError)
  | notJson (e : Json.ReadError)
  /-- The file holds a value other than an object. -/
  | notObject (value : Json)
  /-- The root is not a text. -/
  | rootNotText (value : Json)
  | invalid (issues : List Issue)

/-- An issue on a line of its own, after its place. -/
def issueLine (i : Issue) : Text :=
  let step : Issue.Step → Text
    | .field name => name
    | .item index => Text.ofNat index
  '\n' :: Text.join ['.'] (i.place.map step) ++ ": ".toList ++ i.problem.message

/-- The wording of a load error. -/
def LoadError.message : LoadError → Text
  | .notFound path => "Config not found: ".toList ++ path
  | .unreadable e => e.message
  | .notJson e => e.message
  | .notObject _ => "the configuration is not an object".toList
  | .rootNotText _ => "the root is not a text".toList
  | .invalid issues => (issues.flatMap issueLine).tail

/-- The root of a configuration file with a given path, as an absolute path. -/
def absoluteRoot (cwd file root : Text) : Text :=
  if Path.isAbsolute root then root
  else Path.normalize (Path.append (Path.dirname (Path.absolute cwd file)) root)

/-- The configuration that a file holds. -/
def loadFile (fs : FileSystem) (file : Text) : Except LoadError Config := do
  let content ← (fs.read file).mapError .unreadable
  let value ← (Json.read (Text.withNewlines content)).mapError .notJson
  match value with
  | .object fields =>
    match fields.lookup "root".toList with
    | none | some (.text _) =>
      let root := match fields.lookup "root".toList with
        | some (.text root) => root
        | _ => ['.']
      let fields := Json.put fields "root".toList (.text (absoluteRoot fs.cwd file root))
      (ofJson (.object fields)).mapError .invalid
    | some value => .error (.rootNotText value)
  | value => .error (.notObject value)

/-- **The configuration in force**, from a named file or, for an empty name, from the usual
places. -/
def load (fs : FileSystem) (home named : Text) : Except LoadError Config :=
  let places := if named = [] then [fileName, userFile home] else [named]
  match places.find? fs.leadsAnywhere with
  | some file => loadFile fs file
  | none => if named = [] then .ok {} else .error (.notFound named)

/-- The contents of a first configuration file of a project in a working directory. -/
def starter (cwd : Text) : Json :=
  .object [
    ("root".toList, .text ['.']),
    ("alias".toList, .list [.object [
      ("find".toList, .text ['@']),
      ("replacement".toList, .text (Path.absolute cwd "src".toList))]]),
    ("extensions".toList, Json.texts defaultExtensions),
    ("loose".toList, .bool true)]

/-- Writes a first configuration file. -/
def writeStarter (fs : FileSystem) (file : Text) : Except FileError FileSystem :=
  fs.write file (Json.encodeIndented (starter fs.cwd))

end VariableImport.Config
