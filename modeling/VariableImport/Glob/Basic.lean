import VariableImport.Alias.Resolver
import VariableImport.Expression.Basic

/-!
# Glob/Basic — an expression becomes a glob

An expression becomes the text that it would evaluate to, with a wildcard for every part that is not
known (`Glob.ofExpression`).  The glob is accepted if a directory relative to the importer bounds it
(`Glob.validate`); an expression without an unknown part is a fixed path.
-/

namespace VariableImport

namespace Glob

/-- The wildcard. -/
abbrev wildcard : Char := '*'

/-- A static fragment, which must not hold a wildcard. -/
def fragment (s : Text) : Except Cause Text :=
  if wildcard ∈ s then .error (.wildcardInLiteral s) else .ok s

/-- Static fragments one after another. -/
def fragments : List Text → Except Cause Text
  | [] => .ok []
  | s :: ss => do return (← fragment s) ++ (← fragments ss)

mutual

/-- **The raw glob of an expression.** -/
def ofExpression : Expression → Except Cause Text
  | .literal value => fragment value
  | .template quasis holes => ofTemplate quasis holes
  | .binary operator left right =>
    if operator = ['+'] then do return (← ofExpression left) ++ (← ofExpression right)
    else .error (.unsupportedOperator operator)
  | .concat receiver arguments => do return (← ofExpression receiver) ++ (← ofItems arguments)
  | .other .. => .ok [wildcard]

/-- The glob of fragments with expressions after them; expressions beyond the last fragment do not
count. -/
def ofTemplate : List Text → List Expression → Except Cause Text
  | [], _ => .ok []
  | quasis, [] => fragments quasis
  | quasi :: quasis, hole :: holes => do
    let head ← fragment quasi
    return head ++ (← ofExpression hole) ++ (← ofTemplate quasis holes)

/-- The glob of expressions one after another. -/
def ofItems : List Expression → Except Cause Text
  | [] => .ok []
  | e :: es => do return (← ofExpression e) ++ (← ofItems es)

end

/-- A glob with one wildcard for every run of wildcards. -/
def collapse : Text → Text
  | [] => []
  | c :: s => if c = wildcard ∧ s.head? = some wildcard then collapse s else c :: collapse s

/-- Whether a glob stands for several paths. -/
def isDynamic (glob : Text) : Bool :=
  decide (wildcard ∈ glob) && !glob.startsWith ['d', 'a', 't', 'a', ':']

/-- Whether a glob is a wildcard with an extension in the importer's own directory; a newline may
follow. -/
def isOwnDirectory (glob : Text) : Bool :=
  match glob with
  | '.' :: '/' :: '*' :: '.' :: rest =>
    let ext := Text.dropNewline rest
    !ext.isEmpty && ext.all Text.isWord
  | _ => false

/-- Refuses a glob that is not bounded by a directory relative to the importer. -/
def validate (glob source : Text) : Except ImportError Unit :=
  if glob.startsWith ['*'] then .error (.ofSource .unboundedWildcard source)
  else if glob.startsWith ['/'] then .error (.ofSource .absoluteImport source)
  else if !glob.startsWith ['.', '/'] && !glob.startsWith ['.', '.', '/'] then
    .error (.ofSource .bareImport source)
  else if isOwnDirectory glob then .error (.ofSource .ownDirectory source)
  else .ok ()

end Glob

/-- The glob of one call site: as the expression gives it, and as resolved and accepted; if it is
not dynamic it is a fixed path. -/
structure GlobPattern where
  raw : Text
  glob : Text
  dynamic : Bool
  resolved : Option Resolved
deriving DecidableEq, Repr

/-- **The glob of an expression**, resolved by a given resolver; the source is quoted in
rejections. -/
def GlobPattern.ofExpression (e : Expression) (source : Text)
    (resolver : Text → Except Failure (Option Resolved)) : Except Failure GlobPattern :=
  match Glob.ofExpression e with
  | .error cause => .error (.rejected { cause, context := some source })
  | .ok raw => do
    let resolved ← resolver raw
    let glob := (resolved.map Resolved.path).getD raw
    if Glob.isDynamic glob then
      let glob := Glob.collapse glob
      match Glob.validate glob source with
      | .error e => .error (.rejected e)
      | .ok () => return { raw, glob, dynamic := true, resolved }
    else return { raw, glob, dynamic := false, resolved }

end VariableImport
