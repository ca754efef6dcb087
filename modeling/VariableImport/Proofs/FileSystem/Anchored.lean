import VariableImport.Glob.Search
import VariableImport.Proofs.Path.Way

/-!
# Proofs/FileSystem/Anchored — files that are found from everywhere

A working directory is where paths without a root are followed from.  A path from the root is followed
without it (`locate_workingIn`), and a search below a directory from the root takes no other paths: **it
finds the same files in every working directory** (`matcher_workingIn`).
-/

namespace VariableImport

namespace FileSystem

open Glob (placeIn)

variable {fs : FileSystem} {p base directory : Text} {cwd : Text}

/-- The same files in another working directory. -/
def workingIn (fs : FileSystem) (cwd : Text) : FileSystem := { fs with cwd }

/-! ## Paths from the root -/

/-- **A path from the root** leads to the same place. -/
theorem locate_workingIn (hp : Path.isAbsolute p = true) : (fs.workingIn cwd).locate p = fs.locate p := by
  rw [locate, locate, Path.append_of_isAbsolute hp, Path.append_of_isAbsolute hp]
  rfl

theorem find?_workingIn (hp : Path.isAbsolute p = true) : (fs.workingIn cwd).find? p = fs.find? p := by
  rw [find?, locate_workingIn hp]
  rfl

theorem leadsAnywhere_workingIn (hp : Path.isAbsolute p = true) :
    (fs.workingIn cwd).leadsAnywhere p = fs.leadsAnywhere p := by
  rw [leadsAnywhere, find?_workingIn hp, leadsAnywhere]

theorem isFile_workingIn (hp : Path.isAbsolute p = true) : (fs.workingIn cwd).isFile p = fs.isFile p := by
  rw [isFile, find?_workingIn hp, isFile]

theorem isDirectory_workingIn (hp : Path.isAbsolute p = true) :
    (fs.workingIn cwd).isDirectory p = fs.isDirectory p := by
  rw [isDirectory, find?_workingIn hp, isDirectory]

theorem read_workingIn (hp : Path.isAbsolute p = true) : (fs.workingIn cwd).read p = fs.read p := by
  rw [read, find?_workingIn hp, read]

theorem directory?_workingIn (hp : Path.isAbsolute p = true) :
    (fs.workingIn cwd).directory? p = fs.directory? p := by
  have hne : p ≠ [] := by
    rintro rfl
    cases hp
  rw [directory?, directory?, if_neg hne, locate_workingIn hp]
  rfl

/-! ## Searches below a directory from the root -/

theorem isAbsolute_placeIn (hbase : Path.isAbsolute base = true) (p : Text) :
    Path.isAbsolute (placeIn base p) = true := by
  have hne : base ≠ [] := by
    rintro rfl
    cases hbase
  rw [placeIn, if_neg hne]
  split
  · exact hbase
  · exact Path.isAbsolute_append hbase p

/-- **One component** stands for the same names. -/
theorem step_workingIn (hdirectory : Path.isAbsolute directory = true) (component : Text) (last : Bool) :
    (fs.workingIn cwd).step directory component last = fs.step directory component last := by
  rw [step, step, directory?_workingIn hdirectory, isDirectory_workingIn hdirectory,
    leadsAnywhere_workingIn (isAbsolute_placeIn hdirectory component)]
  rfl

theorem follow_workingIn (hbase : Path.isAbsolute base = true) (components : List Text) (p : Text) :
    (fs.workingIn cwd).follow base p components = fs.follow base p components := by
  induction components generalizing p with
  | nil => rfl
  | cons component rest ih =>
    simp only [follow, step_workingIn (isAbsolute_placeIn hbase p), ih]

theorem search_workingIn (hbase : Path.isAbsolute base = true) (glob : Text) :
    (fs.workingIn cwd).search base glob = fs.search base glob := by
  simp only [search, follow_workingIn hbase, leadsAnywhere_workingIn (isAbsolute_placeIn hbase glob)]

theorem matchPattern_workingIn (hbase : Path.isAbsolute base = true) :
    (fs.workingIn cwd).matchPattern base = fs.matchPattern base := by
  funext pattern
  simp only [matchPattern, search_workingIn hbase, isFile_workingIn (Path.isAbsolute_append hbase _)]

/-- **A search below a directory from the root** finds the same files. -/
theorem matcher_workingIn (hbase : Path.isAbsolute base = true) (patterns : List Text) :
    (fs.workingIn cwd).matcher patterns base = fs.matcher patterns base := by
  simp only [matcher, matchFiles, matchPattern_workingIn hbase]

end FileSystem

end VariableImport
