import VariableImport.Alias.Rule
import VariableImport.Path.Basic

/-!
# Alias/Resolver — a specifier is rewritten by the first rule that matches

A specifier is rewritten into a path relative to the importer by the first rule that matches, or
through the packages under `node_modules`.  A `Resolved` specifier keeps the heads that were
exchanged: `toSpecifier` exchanges them back.
-/

namespace VariableImport

/-- How a specifier was resolved. -/
inductive Resolved.Origin where
  | alias
  | bare
deriving DecidableEq, Repr

/-- The name of an origin. -/
def Resolved.Origin.name : Resolved.Origin → Text
  | .alias => "alias".toList
  | .bare => "bare".toList

/-- A specifier rewritten by one rule: with the heads cut off, specifier and path are alike. -/
structure Resolved where
  origin : Resolved.Origin
  rule : AliasRule
  importer : Text
  specifier : Text
  path : Text
  specifierHead : Text
  pathHead : Text
deriving DecidableEq, Repr

namespace Resolved

/-- A resolved path in the form in which the specifier was written. -/
def toSpecifier (r : Resolved) (path : Text) : Text :=
  match r.pathHead.isPrefixOf? path with
  | some tail => r.specifierHead ++ tail
  | none => path

/-- **Exchanging heads.** -/
theorem toSpecifier_append (r : Resolved) (tail : Text) :
    r.toSpecifier (r.pathHead ++ tail) = r.specifierHead ++ tail := by
  have : r.pathHead.isPrefixOf? (r.pathHead ++ tail) = some tail :=
    Text.isPrefixOf?_eq_some.2 rfl
  simp [toSpecifier, this]

end Resolved

/-- Rules in the order in which they are tried, the directory of packages, a probe for directories,
the working directory, and the engine for the rules that are regular expressions. -/
structure AliasResolver where
  rules : List AliasRule
  packages : Text
  probe : Text → Bool
  cwd : Text
  engine : Engine := Pattern.engine

namespace AliasResolver

/-- The resolver of a project with its root in a working directory. -/
def ofRoot (rules : List AliasRule) (root : Text) (probe : Text → Bool) (cwd : Text)
    (engine : Engine := Pattern.engine) : AliasResolver :=
  ⟨rules, Path.append (Path.absolute cwd root) "node_modules".toList, probe, cwd, engine⟩

/-- The part from `start` to `stop` of a specifier replaced by the text of a rule. -/
def substitute (origin : Resolved.Origin) (rule : AliasRule) (start stop : Nat)
    (specifier importer : Text) : Resolved where
  origin := origin
  rule := rule
  importer := importer
  specifier := specifier
  path := specifier.take start ++ rule.replacement ++ specifier.drop stop
  specifierHead := specifier.take stop
  pathHead := specifier.take start ++ rule.replacement

/-- The part from `start` to `stop` of a specifier taken away, and the rest placed in a directory,
which is given by the way to it.  Heads can be exchanged only if the specifier starts with the
part. -/
def place (rule : AliasRule) (way : Text) (start stop : Nat) (specifier importer : Text) :
    Resolved :=
  let rest := specifier.take start ++ specifier.drop stop
  let tail := if rest.head? = some '/' then rest.tail else rest
  { origin := .alias
    rule := rule
    importer := importer
    specifier := specifier
    path := way ++ '/' :: tail
    specifierHead := if start = 0 then specifier.take (specifier.length - tail.length) else []
    pathHead := if start = 0 then way ++ ['/'] else [] }

/-- A rule applied to the part of a specifier that it matches: a relative replacement is put in its
place, any other is a directory. -/
def apply (cwd : Text) (rule : AliasRule) (span : Nat × Nat) (specifier importer : Text) :
    Except Failure Resolved :=
  if rule.replacement.head? = some '.' then
    .ok (substitute .alias rule span.1 span.2 specifier importer)
  else match Path.relativeFrom? cwd importer rule.replacement with
    | none => .error .noTarget
    | some way => .ok (place rule way span.1 span.2 specifier importer)

/-- The first of some rules that matches, applied. -/
def firstMatch (engine : Engine) (cwd specifier importer : Text) :
    List AliasRule → Except Failure (Option Resolved)
  | [] => .ok none
  | rule :: rules => do
    match ← rule.span specifier engine with
    | some span => return some (← apply cwd rule span specifier importer)
    | none => firstMatch engine cwd specifier importer rules

/-- A specifier resolved by the rules. -/
def resolveAlias (r : AliasResolver) (specifier importer : Text) :
    Except Failure (Option Resolved) :=
  firstMatch r.engine r.cwd specifier importer r.rules

/-- The prefixes of a specifier made of whole segments before the first empty one, after those in
`done`. -/
def levelsFrom (done : Text) : List Text → List Text
  | [] => []
  | segment :: segments =>
    if segment = [] then [] else
      let level := if done = [] then segment else done ++ '/' :: segment
      level :: levelsFrom level segments

/-- The prefixes of a specifier that may name a package or a directory in one. -/
def levels (specifier : Text) : List Text := levelsFrom [] (Text.split '/' specifier)

/-- The way from the importer to the packages. -/
def wayToPackages (r : AliasResolver) (importer : Text) : Text :=
  Path.relativeify (Path.relative r.cwd (Path.dirname importer) r.packages)

/-- A bare specifier resolved by its longest prefix that is a directory among the packages. -/
def resolveBare (r : AliasResolver) (specifier importer : Text) : Option Resolved :=
  if specifier.head? = some '.' ∨ specifier.head? = some '/' then none
  else match (levels specifier).reverse.find? fun level => r.probe (Path.append r.packages level) with
    | none => none
    | some level =>
      let rule : AliasRule := { find := level, replacement := r.wayToPackages importer ++ '/' :: level }
      some (substitute .bare rule 0 level.length specifier importer)

/-- **A specifier resolved** by the rules, or else through the packages. -/
def resolve (r : AliasResolver) (specifier importer : Text) : Except Failure (Option Resolved) := do
  match ← r.resolveAlias specifier importer with
  | some found => return some found
  | none => return r.resolveBare specifier importer

end AliasResolver

end VariableImport
