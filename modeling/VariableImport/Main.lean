import VariableImport.CommandLine.Run

/-!
# Main — the program that carries out a command line

Carries out the request of a command line.  The file system that it works on holds what lies below
the working directory and below the directory of the importer; of the files, only configurations are
read.
-/

namespace VariableImport

/-- What stands at an entry of a directory, and everything below it. -/
partial def surveyEntry (place : List Text) (entry : IO.FS.DirEntry) :
    IO (List (List Text × Entry)) := do
  let place := place ++ [entry.fileName.toList]
  match (← entry.path.symlinkMetadata).type with
  | .dir =>
    let inner ← (← entry.path.readDir).toList.mapM (surveyEntry place)
    return (place, .directory) :: inner.flatten
  | .symlink => return [(place, if ← entry.path.isDir then .directory else .file [])]
  | _ => return [(place, .file [])]

/-- A file system with everything below a directory, if the directory is there. -/
def survey (fs : FileSystem) (place : List Text) : IO FileSystem := do
  let path := String.ofList ('/' :: Text.join ['/'] place)
  try
    let below ← (← (← IO.FS.realPath path).readDir).toList.mapM (surveyEntry place)
    let fs := fs.makeDirectory place
    return { fs with entries := fs.entries ++ below.flatten }
  catch _ => return fs

/-- A file system with the content of a file, if it can be read. -/
def surveyFile (fs : FileSystem) (path : Text) : IO FileSystem := do
  try
    let content ← IO.FS.readFile (String.ofList path)
    return fs.makeFile (Path.components (Path.absolute fs.cwd path)) content.toList
  catch _ => return fs

/-- Places without those that lie below others. -/
def outermost (places : List (List Text)) : List (List Text) :=
  Text.distinct (places.filter fun p => !places.any fun q => q != p && q.isPrefixOf p)

/-- The file system that a request is carried out on. -/
def surveyFor (request : CommandLine.Request) (home cwd : Text) : IO FileSystem := do
  let importers := request.command.importer?.toList.map fun p => Path.dirname (Path.absolute cwd p)
  let fs ← (outermost ((cwd :: importers).map Path.components)).foldlM survey { cwd }
  [request.config, Config.fileName, Config.userFile home].foldlM surveyFile fs

/-- Everything that is left to read of the input. -/
partial def readLines (input : IO.FS.Stream) (before : String) : IO String := do
  let line ← input.getLine
  if line.isEmpty then return before else readLines input (before ++ line)

/-- Carries out a request and gives its exit code. -/
def carryOut (request : CommandLine.Request) : IO UInt32 := do
  let home := ((← IO.getEnv "HOME").getD "").toList
  let fs ← surveyFor request home (← IO.currentDir).toString.toList
  let input ← match request.command with
    | .transform _ [] | .transform _ [['-']] => readLines (← IO.getStdin) ""
    | _ => pure ""
  let (outcome, fs) := CommandLine.run fs home input.toList request
  if request.command = .init ∧ outcome.exitCode = 0 then
    if let .ok content := fs.read Config.fileName then
      IO.FS.writeFile (String.ofList Config.fileName) (String.ofList content)
  IO.print (String.ofList outcome.output)
  IO.eprint (String.ofList outcome.messages)
  return outcome.exitCode.toUInt32

end VariableImport

open VariableImport in
/-- The program: an exit code of 2 says that the command line was not understood. -/
def main (words : List String) : IO UInt32 := do
  match CommandLine.Request.ofWords (words.map String.toList) with
  | .ok request => carryOut request
  | .error .help =>
    IO.print (String.ofList CommandLine.usage)
    return 0
  | .error .misuse =>
    IO.eprint (String.ofList CommandLine.usage)
    return 2
