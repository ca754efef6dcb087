import VariableImport.Glob.Basic

/-!
# Glob/Normal — a glob is reshaped into those that are searched

An accepted glob is reshaped into the globs that are searched: a slash is put before a wildcard that
lacks one, directories at any depth are let in (loosely), and the extensions that can be imported are
filled in where none is named.  Each step makes one glob into several; of equal ones the first is
kept.
-/

namespace VariableImport.Glob

/-- A glob with a slash before its last wildcard, and as it was: the wildcard may go on a name. -/
def repairSlash (glob : Text) : List Text :=
  match Text.cutLast '*' glob with
  | none => [glob]
  | some (head, tail) =>
    if head = [] ∨ head.getLast? = some '/' then [glob]
    else [head ++ '/' :: '*' :: tail, glob]

/-- A glob, and the one that lets in directories of any depth at its last wildcard; a glob that
holds a double wildcard is kept. -/
def expandDepth (glob : Text) : List Text :=
  if glob.contains ['*', '*'] then [glob]
  else match Text.cutLast '*' glob with
    | none => [glob]
    | some (head, tail) =>
      if head.getLast? = some '/' then [glob, head ++ '*' :: '*' :: '/' :: '*' :: tail]
      else if tail.head? = some '/' then [glob, head ++ '*' :: '/' :: '*' :: '*' :: tail]
      else [glob, head ++ '*' :: '/' :: '*' :: '*' :: '/' :: '*' :: tail]

/-- Whether the last component names an extension; one with a wildcard in it is none. -/
def hasExtension (glob : Text) : Bool :=
  let ext := Path.extension (Path.basename glob)
  !ext.isEmpty && !decide ('*' ∈ ext)

/-- Extensions as a group of alternatives. -/
def extensionGroup (extensions : List Text) : Text :=
  '.' :: '\x7b' :: Text.join [','] (extensions.map List.tail) ++ ['\x7d']

/-- A glob with the extensions filled in where it names none, and, unless it reaches them already,
with index files. -/
def inferExtension (extensions : List Text) (glob : Text) : List Text :=
  if hasExtension glob then [glob]
  else
    let group := extensionGroup extensions
    (glob ++ group) ::
      (if glob.contains ['*', '*'] then [] else [glob ++ '/' :: 'i' :: 'n' :: 'd' :: 'e' :: 'x' :: group])

/-- A step taken for every glob, of equal results the first. -/
def stepAll (step : Text → List Text) (globs : List Text) : List Text :=
  Text.distinct (globs.flatMap step)

/-- **The globs that are searched for an accepted glob.** -/
def normalize (glob : Text) (extensions : List Text) (loose : Bool) : List Text :=
  let repaired := repairSlash glob
  stepAll (inferExtension extensions) (if loose then stepAll expandDepth repaired else repaired)

/-- No glob is searched twice. -/
theorem nodup_normalize (glob : Text) (extensions : List Text) (loose : Bool) :
    (normalize glob extensions loose).Nodup :=
  Text.nodup_distinct _

example : normalize "./a/*.js".toList [] true = ["./a/*.js".toList, "./a/**/*.js".toList] := by
  decide +kernel

end VariableImport.Glob
