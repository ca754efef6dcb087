import VariableImport.CommandLine.Outcome
import VariableImport.CommandLine.Request
import VariableImport.Glob.Search

/-!
# CommandLine/Run — commands, run on a file system

A command is run on a file system, with the home of the user, a text as its input and an engine for
regular expressions.  Only `init` changes the file system.
-/

namespace VariableImport.CommandLine

/-! ## The glob of an expression -/

/-- The glob of an expression, and the globs that are searched for it if it is dynamic. -/
def globsOf (config : Config) (resolver : AliasResolver) (expression importer : Text) :
    Except Failure (GlobPattern × List Text) := do
  let e ← (Script.parse expression).mapError .rejected
  let glob ← GlobPattern.ofExpression e expression fun raw => resolver.resolve raw importer
  return (glob, if glob.dynamic then Glob.normalize glob.glob config.extensions config.loose else [])

/-- The line of a rule that resolved a glob. -/
def ruleLine (r : Resolved) : Text :=
  r.origin.name ++ ":    ".toList ++ r.rule.find ++ " -> ".toList ++ r.rule.replacement

/-- The lines that show a glob and the globs that are searched for it. -/
def globLines (glob : GlobPattern) (globs : List Text) : List Text :=
  ["raw:      ".toList ++ glob.raw, "glob:     ".toList ++ glob.glob] ++
    (glob.resolved.map ruleLine).toList ++
    if glob.dynamic then globs.map ("  ".toList ++ ·) else ["dynamic:  no (normal import)".toList]

/-! ## Call sites -/

/-- The files that a call site can import. -/
def filesOf (site : CallSite) : List Text :=
  match site.verdict.path with
  | some path => [path]
  | none => site.verdict.files

/-- What is written about a call site that was not rejected. -/
def siteLines (s : NumberedSite) : List Text :=
  match s.replacement, s.site.verdict.warning with
  | some text, _ => ["✓ ".toList ++ s.site.source, "    -> ".toList ++ text]
  | none, some kind =>
    ["⚠️  ".toList ++ s.site.source, "    left unchanged (".toList ++ kind.name ++ [')']]
  | none, none => ["• ".toList ++ s.site.source, "    left unchanged".toList]

/-- What is written about some results, and the dispatch functions after a blank line. -/
def transformLines (results : List Batch.Result) : List Text :=
  let sites := results.flatMap fun
    | .ok s => siteLines s
    | .error _ => []
  let block := Batch.renderBlock results
  sites ++ if block = [] then [] else [[], block]

/-- What is told about rejected sources. -/
def rejections (sources : List Text) (results : List Batch.Result) : List Text :=
  (sources.zip results).filterMap fun
    | (source, .error e) => some ("✗ ".toList ++ source ++ e.text ++ ['\n'])
    | (_, .ok _) => none

/-- The call sites that are named, or those on the lines of the input. -/
def sourcesOf (named : List Text) (input : Text) : List Text :=
  if named = [] ∨ named = [['-']] then (Text.lines input).filter (fun line => Text.trim line ≠ []) else named

/-! ## Commands -/

/-- The configuration of a request. -/
def settings (fs : FileSystem) (home : Text) (r : Request) : Except Config.LoadError Config := do
  let config ← Config.load fs home r.config
  return if r.strict then { config with loose := false } else config

/-- Tells that an importer is not there. -/
def importerNote (fs : FileSystem) (importer : Text) : Text :=
  if fs.leadsAnywhere (Path.absolute fs.cwd importer) then []
  else infoLine ("Importer ".toList ++ Note.plain importer ++
    " does not exist, resolving relative to its directory anyway".toList)

/-- The `glob` command. -/
def runGlob (fs : FileSystem) (config : Config) (expression importer : Text)
    (engine : Engine := Pattern.engine) : Outcome :=
  let resolver := CallSite.resolverOf config fs.isDirectory fs.cwd engine
  .ofLines ((globsOf config resolver expression (Path.absolute fs.cwd importer)).map fun (glob, globs) =>
    globLines glob globs)

/-- The `files` command. -/
def runFiles (fs : FileSystem) (config : Config) (verbose : Bool) (source importer : Text)
    (engine : Engine := Pattern.engine) : Outcome :=
  let resolver := CallSite.resolverOf config fs.isDirectory fs.cwd engine
  let run := CallSite.compile config resolver fs.matcher source (Path.absolute fs.cwd importer)
  (Outcome.ofLines (run.outcome.map filesOf)).after (Note.lines verbose run.notes)

/-- The `transform` command. -/
def runTransform (fs : FileSystem) (config : Config) (verbose : Bool) (importer : Text)
    (sources : List Text) (engine : Engine := Pattern.engine) : Outcome :=
  let resolver := CallSite.resolverOf config fs.isDirectory fs.cwd engine
  let run := Batch.compile config resolver fs.matcher sources (Path.absolute fs.cwd importer)
  let start := infoLine ("Processing ".toList ++ Text.ofNat sources.length ++ " call site(s) of ".toList ++
    importer ++ "...".toList)
  let told := start ++ Note.lines verbose run.notes
  match run.outcome with
  | .error f => (Outcome.fail (.failure f)).after told
  | .ok results =>
    let rejected := rejections sources results
    let lines := Outcome.ofLines (.ok (transformLines results))
    { lines with
      told := told ++ rejected.flatten
      trouble := if rejected = [] then none else some (.sitesFailed rejected.length) }

/-- The `init` command. -/
def runInit (fs : FileSystem) : Outcome × FileSystem :=
  if fs.leadsAnywhere Config.fileName then (.fail .starterExists, fs)
  else match Config.writeStarter fs Config.fileName with
    | .ok fs => ({ told := infoLine ("Created ".toList ++ Config.fileName) }, fs)
    | .error e => (.fail (.file e), fs)

/-- A command that needs a configuration and an importer. -/
def withSettings (fs : FileSystem) (home : Text) (r : Request) (importer : Text)
    (command : Config → Outcome) : Outcome :=
  match settings fs home r with
  | .error e => .fail (.config e)
  | .ok config => (command config).after (importerNote fs importer)

/-- **A request carried out**: what it comes to, and the file system afterwards. -/
def run (fs : FileSystem) (home input : Text) (r : Request) (engine : Engine := Pattern.engine) :
    Outcome × FileSystem :=
  match r.command with
  | .init => runInit fs
  | .glob expression importer =>
    (withSettings fs home r importer fun config => runGlob fs config expression importer engine, fs)
  | .files source importer =>
    (withSettings fs home r importer fun config => runFiles fs config r.verbose source importer engine, fs)
  | .transform importer named =>
    (withSettings fs home r importer fun config =>
      match sourcesOf named input with
      | [] => .fail .noSources
      | sources => runTransform fs config r.verbose importer sources engine, fs)

end VariableImport.CommandLine
