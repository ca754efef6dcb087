import VariableImport.CallSite.Basic
import VariableImport.CallSite.Note
import VariableImport.Config.Basic
import VariableImport.Enumeration
import VariableImport.Glob.Normal
import VariableImport.Script.ImportCall
import VariableImport.Script.Parse

/-!
# CallSite/Compile — a call site is planned first and searched for once

A call site is settled in two parts.  `CallSite.plan` reads it and either comes to a verdict or finds
globs to search; only then, and once, the search is asked for files (`CallSite.compile`).
-/

namespace VariableImport

/-- A search for paths that some globs stand for below a directory. -/
abbrev Search := List Text → Text → Except Failure (List Text)

namespace CallSite

/-- What reading a call site comes to: a verdict, or a dynamic glob that is to be searched. -/
inductive Plan where
  | settled (verdict : Verdict)
  | search (glob : GlobPattern) (globs : List Text)

/-- The path of a literal that imports one file: as it is written, or as it is resolved. -/
def ofLiteral (resolver : AliasResolver) (importer : Text) (e : Expression) :
    Logged (Option Verdict) :=
  match e with
  | .literal value =>
    if Path.isPlain value then pure (some (.asWritten value))
    else do
      match ← .of (resolver.resolve value importer) with
      | none => return none
      | some r =>
        if Path.isPlain r.path then do
          .tell (.resolved r.origin value r.path)
          return some (.redirected r.path none)
        else return none
  | _ => pure none

/-- The plan for an expression. -/
def planExpression (config : Config) (resolver : AliasResolver) (source importer : Text)
    (e : Expression) : Logged Plan := do
  match ← ofLiteral resolver importer e with
  | some verdict => return .settled verdict
  | none =>
    let glob ← .of (GlobPattern.ofExpression e source fun raw => resolver.resolve raw importer)
    .tell (.globbed glob)
    if glob.dynamic then
      let globs := Glob.normalize glob.glob config.extensions config.loose
      .tell (.normalized globs)
      return .search glob globs
    else if Path.isPlain glob.glob then return .settled (.redirected glob.glob (some glob))
    else return .settled (.fixed glob)

/-- An argument as a hook overrules it; the hook's empty text does not count. -/
def overruled (config : Config) (importer argument : Text) : Text :=
  match config.onResolve argument importer with
  | none | some [] => argument
  | some other => other

/-- The argument of a call site and the plan for it. -/
def plan (config : Config) (resolver : AliasResolver) (source importer : Text) :
    Logged (Text × Plan) :=
  let argument := Script.importArgument source
  if Script.isIgnored source then do
    .tell (.ignored source)
    return (argument, .settled .ignored)
  else do
    let argument := overruled config importer argument
    let e ← .of ((Script.parse argument).mapError .rejected)
    .tell (.parsed e)
    return (argument, ← planExpression config resolver source importer e)

/-- The verdict on a glob once the files below the importer's directory are known. -/
def settle (config : Config) (source importer : Text) (glob : GlobPattern) (globs found : List Text) :
    Logged Verdict :=
  let all := enumerate importer found
  let files := (config.onFiles all importer).getD all
  let table := DispatchTable.ofFiles files glob.resolved
  do
    .tell (.matched files.length)
    if files = [] then
      .tell (.unmatched source importer)
      return .unmatched glob globs
    else
      ⟨table.collisions.map .collided, .ok ()⟩
      return .dispatch glob globs files table

/-- **A call site settled.** -/
def compile (config : Config) (resolver : AliasResolver) (search : Search)
    (source importer : Text) : Logged CallSite := do
  let (argument, plan) ← plan config resolver source importer
  match plan with
  | .settled verdict => return { source, argument, importer, verdict }
  | .search glob globs =>
    let found ← .of (search globs (Path.dirname importer))
    return { source, argument, importer, verdict := ← settle config source importer glob globs found }

/-- The resolver of a configuration. -/
def resolverOf (config : Config) (probe : Text → Bool) (cwd : Text) (engine : Engine := Pattern.engine) :
    AliasResolver :=
  .ofRoot config.alias config.root probe cwd engine

end CallSite

end VariableImport
