import VariableImport.Config.Basic
import VariableImport.Json.Basic

/-!
# Config/Validation — a value as a configuration, or its issues

A configuration read from a JSON value.  Every field that does not fit is an `Issue` with its place;
fields are taken in the order of `Config`, missing ones have their defaults, unknown ones are passed
over.  Extensions without a dot are found only once every field fits.
-/

namespace VariableImport

/-- What does not fit. -/
inductive Issue.Problem where
  | missing
  | notText
  | notList
  | notObject (wanted : Text)
  | notFlag
  | unreadableFlag
  | notCallable
  | undotted (extension : Text)
deriving DecidableEq, Repr

/-- A step to a place in a value. -/
inductive Issue.Step where
  | field (name : Text)
  | item (index : Nat)
deriving DecidableEq, Repr

/-- What does not fit, and where. -/
structure Issue where
  problem : Issue.Problem
  place : List Issue.Step
deriving DecidableEq, Repr

namespace Issue

/-- The name of a problem. -/
def Problem.name : Problem → Text
  | .missing => "missing".toList
  | .notText => "string_type".toList
  | .notList => "list_type".toList
  | .notObject _ => "model_type".toList
  | .notFlag => "bool_type".toList
  | .unreadableFlag => "bool_parsing".toList
  | .notCallable => "callable_type".toList
  | .undotted _ => "value_error".toList

/-- The wording of a problem. -/
def Problem.message : Problem → Text
  | .missing => "Field required".toList
  | .notText => "Input should be a valid string".toList
  | .notList => "Input should be a valid list".toList
  | .notObject wanted => "Input should be a valid dictionary or instance of ".toList ++ wanted
  | .notFlag => "Input should be a valid boolean".toList
  | .unreadableFlag => "Input should be a valid boolean, unable to interpret input".toList
  | .notCallable => "Input should be callable".toList
  | .undotted extension =>
    "Value error, extension '".toList ++ extension ++ "' must start with '.'".toList

end Issue

namespace Config

open Issue

/-- A value, or the issues of the places inside it. -/
abbrev Checked (α : Type) := Except (List Issue) α

/-- One problem at the place itself. -/
def fault {α : Type} (problem : Problem) : Checked α := .error [⟨problem, []⟩]

/-- The issues of a value as issues of what holds it. -/
def inside {α : Type} (step : Step) : Checked α → Checked α
  | .ok a => .ok a
  | .error issues => .error (issues.map fun i => { i with place := step :: i.place })

/-- Two values, or the issues of both. -/
def both {α β : Type} : Checked α → Checked β → Checked (α × β)
  | .ok a, .ok b => .ok (a, b)
  | .error e, .ok _ => .error e
  | .ok _, .error f => .error f
  | .error e, .error f => .error (e ++ f)

/-- All values, or the issues of all. -/
def all {α : Type} : List (Checked α) → Checked (List α)
  | [] => .ok []
  | x :: xs =>
    match both x (all xs) with
    | .ok (a, as) => .ok (a :: as)
    | .error e => .error e

/-- A text. -/
def text : Json → Checked Text
  | .text s => .ok s
  | _ => fault .notText

/-- The items of a list, each checked. -/
def list {α : Type} (item : Json → Checked α) : Json → Checked (List α)
  | .list xs => all (xs.zipIdx.map fun (x, i) => inside (.item i) (item x))
  | _ => fault .notList

/-! ## Flags -/

/-- Words that say yes. -/
def yesWords : List Text :=
  [['1'], ['o', 'n'], ['t'], ['t', 'r', 'u', 'e'], ['y'], ['y', 'e', 's']]

/-- Words that say no. -/
def noWords : List Text :=
  [['0'], ['o', 'f', 'f'], ['f'], ['f', 'a', 'l', 's', 'e'], ['n'], ['n', 'o']]

/-- The digits of a spelled number before and after its point, its sign left out, and its
exponent. -/
def parts (spelling : Text) : Text × Text × Int :=
  let body := if spelling.head? = some '-' then spelling.tail else spelling
  let mantissa := body.takeWhile fun c => c ≠ 'e' ∧ c ≠ 'E'
  let whole := mantissa.takeWhile (· ≠ '.')
  let power := (body.drop (mantissa.length + 1)).filter (· ≠ '+')
  let value (s : Text) : Nat := s.foldl (fun n c => n * 10 + (c.toNat - 48)) 0
  let exponent : Int := match power with
    | '-' :: ds => -(value ds : Int)
    | ds => value ds
  (whole, mantissa.drop (whole.length + 1), exponent)

/-- The absolute value of a spelled number if it is whole; very large ones are only told apart from
zero and one. -/
def whole? (spelling : Text) : Option Nat :=
  if spelling.any fun c => c = 'N' ∨ c = 'I' then none
  else
    let (whole, fraction, exponent) := parts spelling
    let value (s : Text) : Nat := s.foldl (fun n c => n * 10 + (c.toNat - 48)) 0
    let digits := whole ++ fraction
    let shift := exponent - fraction.length
    if value digits = 0 then some 0
    else if shift ≥ 0 then some (value digits * Nat.pow 10 (min shift.toNat 1))
    else
      let low := digits.drop (digits.length - (-shift).toNat)
      if value low = 0 then some (value (digits.take (digits.length - (-shift).toNat))) else none

/-- A yes or no: a flag, a zero or one, or one of a few words in any case. -/
def flag : Json → Checked Bool
  | .bool b => .ok b
  | .text s =>
    let word := s.map Char.toLower
    if word ∈ yesWords then .ok true else if word ∈ noWords then .ok false else fault .unreadableFlag
  | .number (.integer n) =>
    if n = 0 then .ok false else if n = 1 then .ok true else fault .unreadableFlag
  | .number (.decimal spelling) =>
    match whole? spelling with
    | none => fault .notFlag
    | some 0 => .ok false
    | some 1 => if spelling.head? = some '-' then fault .unreadableFlag else .ok true
    | some _ => fault .unreadableFlag
  | _ => fault .notFlag

/-- No value: hooks have none that could be written. -/
def noHook : Json → Checked Unit
  | .null => .ok ()
  | _ => fault .notCallable

/-! ## Objects -/

/-- A field, checked, or its default. -/
def fieldOr {α : Type} (name : String) (check : Json → Checked α) (default : α) (j : Json) :
    Checked α :=
  match j.get? name.toList with
  | some v => inside (.field name.toList) (check v)
  | none => .ok default

/-- A field that has to be there, checked. -/
def field {α : Type} (name : String) (check : Json → Checked α) (j : Json) : Checked α :=
  match j.get? name.toList with
  | some v => inside (.field name.toList) (check v)
  | none => .error [⟨.missing, [.field name.toList]⟩]

/-- A rule. -/
def rule (j : Json) : Checked AliasRule :=
  match j with
  | .object _ =>
    match both (field "find" text j) (both (field "replacement" text j) (fieldOr "regex" flag false j)) with
    | .ok (find, replacement, regex) => .ok { find, replacement, regex }
    | .error e => .error e
  | _ => fault (.notObject "AliasRule".toList)

/-- Refuses an extension without a dot. -/
def checkExtensions (config : Config) : Checked Config :=
  match config.extensions.find? (·.head? ≠ some '.') with
  | some ext => fault (.undotted ext)
  | none => .ok config

/-- **The configuration of a value**, or all that does not fit in it. -/
def ofJson (j : Json) : Checked Config :=
  match j with
  | .object _ =>
    match
      both (fieldOr "root" text ['.'] j) <|
      both (fieldOr "alias" (list rule) [] j) <|
      both (fieldOr "extensions" (list text) defaultExtensions j) <|
      both (fieldOr "loose" flag true j) <|
      both (fieldOr "include_node_modules" flag false j) <|
      both (fieldOr "filter" noHook () j) <|
      both (fieldOr "on_files" noHook () j) (fieldOr "on_resolve" noHook () j) with
    | .ok (root, «alias», extensions, loose, includePackages, _) =>
      checkExtensions { root, «alias», extensions, loose, includePackages }
    | .error e => .error e
  | _ => fault (.notObject "DynamicImportConfig".toList)

end Config

end VariableImport
