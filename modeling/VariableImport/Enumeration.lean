import VariableImport.Path.Basic

/-!
# Enumeration — the files that were found, each once

The files of a call site are what a search below the importer's directory found, as explicit
relative paths, each once, without the importer itself.
-/

namespace VariableImport

/-- **The files of a call site** in the order in which they were found. -/
def enumerate (importer : Text) (found : List Text) : List Text :=
  Text.distinct ((found.map Path.relativeify).filter fun p => !Path.sameFile importer p)

theorem mem_enumerate {importer p : Text} {found : List Text} :
    p ∈ enumerate importer found ↔
      (∃ q ∈ found, Path.relativeify q = p) ∧ Path.sameFile importer p = false := by
  simp [enumerate, Text.mem_distinct]

theorem nodup_enumerate (importer : Text) (found : List Text) : (enumerate importer found).Nodup :=
  Text.nodup_distinct _

end VariableImport
