import VariableImport.Alias.Rule

/-!
# Config/Basic — what a project configures

The project's root, its alias rules and extensions, how globs are read, and hooks that may overrule
the choice of modules, of files and of import arguments.
-/

namespace VariableImport

/-- The extensions that can be imported unless a configuration names others. -/
def defaultExtensions : List Text :=
  [".mjs".toList, ".js".toList, ".mts".toList, ".ts".toList, ".jsx".toList, ".tsx".toList,
    ".json".toList]

/-- A build configuration. -/
structure Config where
  /-- The directory that holds the packages. -/
  root : Text := ['.']
  «alias» : List AliasRule := []
  extensions : List Text := defaultExtensions
  /-- Whether wildcards reach directories at any depth. -/
  loose : Bool := true
  includePackages : Bool := false
  /-- Whether a module takes part, where the hook decides it. -/
  filter : Text → Option Bool := fun _ => none
  /-- The files to keep of those that were matched for an importer, where the hook decides it. -/
  onFiles : List Text → Text → Option (List Text) := fun _ _ => none
  /-- The argument to take instead of one written in an importer, where the hook decides it. -/
  onResolve : Text → Text → Option Text := fun _ _ => none

end VariableImport
