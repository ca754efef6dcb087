import VariableImport.FileSystem
import VariableImport.Glob.Braces
import VariableImport.Glob.Component
import VariableImport.Error

/-!
# Glob/Search — the files that a glob stands for below a directory

The files that a glob stands for below a directory.  The part of a glob before its first magic
component is kept as it is written; from there components are searched one after another.  `**` alone
in a component spans any number of directories; wildcards leave out names that start with a dot.
-/

namespace VariableImport

namespace Glob

/-- The text of a glob before its first magic component, and the components from there.  Empty
components among these are dropped, but not one at the end. -/
def cutMagic (glob : Text) : Text × List Text :=
  let head := (Path.cutName (glob.takeWhile fun c => !hasMagic [c])).1
  let tail := Text.split '/' (glob.drop head.length)
  let kept := tail.filter (!·.isEmpty)
  (Path.stripSlashes head, if tail.getLast? = some [] then kept ++ [[]] else kept)

/-- A path in a directory, where either may be missing. -/
def placeIn (directory p : Text) : Text :=
  if directory = [] then p else if p = [] then directory else Path.append directory p

end Glob

namespace FileSystem

open Glob

/-- The directory that a path leads to; the empty path is the working directory. -/
def directory? (fs : FileSystem) (p : Text) : Option (List Text) :=
  match fs.locate (if p = [] then Path.here else p) with
  | some place => if fs.at? place = some .directory then some place else none
  | none => none

/-- The names that a component stands for in a directory given by its path; only directories where
others are to follow.  The empty name stands for the directory itself. -/
def step (fs : FileSystem) (directory component : Text) (last : Bool) : List Text :=
  let wanted (e : Entry) : Bool := last || e == .directory
  if component = ['*', '*'] then
    match fs.directory? directory with
    | none => []
    | some place => [] :: (fs.below place).filterMap fun (q, e) =>
        if wanted e && q.all (!isHidden ·) then some (Text.join ['/'] q) else none
  else if hasMagic component then
    match fs.directory? directory with
    | none => []
    | some place => (fs.names place).filterMap fun (name, e) =>
        if wanted e && (isHidden component || !isHidden name) && matchesName component name
        then some name else none
  else if component = [] then
    if fs.isDirectory directory then [[]] else []
  else if fs.leadsAnywhere (placeIn directory component) then [component] else []

/-- The paths that components stand for from a path below the directory `base`. -/
def follow (fs : FileSystem) (base : Text) : Text → List Text → List Text
  | p, [] => [p]
  | p, component :: rest =>
    (fs.step (placeIn base p) component rest.isEmpty).flatMap fun name =>
      follow fs base (Path.append p name) rest

/-- The paths that a glob without braces stands for below a directory. -/
def search (fs : FileSystem) (base glob : Text) : List Text :=
  if hasMagic glob then
    let (head, components) := cutMagic glob
    fs.follow base head components
  else if fs.leadsAnywhere (placeIn base glob) then [glob] else []

/-- The files that one pattern stands for below a directory, sorted. -/
def matchPattern (fs : FileSystem) (base pattern : Text) : List Text :=
  Text.sortedSet <| (expandBraces pattern).flatMap fun glob =>
    (fs.search base glob).filter fun p => fs.isFile (Path.append base p)

/-- **The files that patterns stand for below a directory**, pattern by pattern. -/
def matchFiles (fs : FileSystem) (patterns : List Text) (base : Text) : List Text :=
  patterns.flatMap (fs.matchPattern base)

/-- Whether a search for a pattern lists a directory whose name holds a null character. -/
def listsNull (base pattern : Text) : Bool :=
  (expandBraces pattern).any fun glob =>
    hasMagic glob && decide ('\x00' ∈ base ++ (cutMagic glob).1)

/-- The files that patterns stand for below a directory, if it can be searched. -/
def matcher (fs : FileSystem) (patterns : List Text) (base : Text) : Except Failure (List Text) :=
  if patterns.any (listsNull base) then .error .nullCharacter else .ok (fs.matchFiles patterns base)

end FileSystem

end VariableImport
