import VariableImport.CallSite.Compile

/-!
# CallSite/Batch — the call sites of one file, each on its own

The call sites of one file: each is settled or rejected on its own, and those that dispatch are
numbered in source order.  `takesPart` says which files are looked at.
-/

namespace VariableImport.Batch

/-- A call site of a file, numbered, or its rejection. -/
abbrev Result := Except ImportError NumberedSite

/-- Outcomes with rejections as results; any other failure fails as a whole. -/
def collect : List (Except Failure CallSite) → Except Failure (List (Except ImportError CallSite))
  | [] => .ok []
  | .ok site :: rest => (collect rest).map (.ok site :: ·)
  | .error (.rejected e) :: rest => (collect rest).map (.error e :: ·)
  | .error failure :: _ => .error failure

/-- Call sites numbered from `next` on. -/
def numberFrom (next : Nat) : List (Except ImportError CallSite) → List Result
  | [] => []
  | .error e :: rest => .error e :: numberFrom next rest
  | .ok site :: rest =>
    if site.verdict.kind = .dispatch then
      .ok { site, index := some next } :: numberFrom (next + 1) rest
    else .ok { site } :: numberFrom next rest

/-- The notes on a call site of a file; a rejection is noted as well. -/
def notesOf (run : Logged CallSite) : List Note :=
  match run.outcome with
  | .error (.rejected e) => run.notes ++ [.rejected e]
  | _ => run.notes

/-- **The call sites of one file**, in source order. -/
def compile (config : Config) (resolver : AliasResolver) (search : Search)
    (sources : List Text) (importer : Text) : Logged (List Result) :=
  let runs := sources.map fun source => CallSite.compile config resolver search source importer
  ⟨runs.flatMap notesOf, (collect (runs.map (·.outcome))).map (numberFrom 0)⟩

/-- The dispatch functions of a file. -/
def functions (results : List Result) : List Text :=
  results.filterMap fun
    | .ok s => s.function
    | .error _ => none

/-- The block of dispatch functions to append to a file. -/
def renderBlock (results : List Result) : Text := DispatchTable.renderBlock (functions results)

/-- The name of a directory of packages. -/
def packagesName : Text := "node_modules".toList

/-- **Whether a file takes part**: its extension is configured, it may hold a dynamic import, and
neither the hook nor, unless the hook insists, its place among packages excludes it. -/
def takesPart (config : Config) (importer code : Text) : Bool :=
  let path := importer.takeWhile (· ≠ '?')
  if Path.extension path ∉ config.extensions then false
  else if !Script.hasDynamicImport code then false
  else match config.filter importer with
    | some b => b
    | none => config.includePackages || !importer.contains packagesName

end VariableImport.Batch
