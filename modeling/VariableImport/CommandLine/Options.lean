import VariableImport.Text.CharClass

/-!
# CommandLine/Options — the words of a command line, sorted

A word is an operand or names an option: by its full name, by a beginning of it that no other option
shares, or with a value after `=`.  `Reading.ofWords` sorts the words of a command line; everything
after the separator `--` is an operand.
-/

namespace VariableImport.CommandLine

/-- The long names of the options of a command, except for `--help`, which every command has. -/
structure Options where
  /-- Options without a value. -/
  flags : List Text := []
  /-- Options with a value. -/
  valued : List Text := []

/-- The long name of the option that asks for help. -/
def helpName : Text := "--help".toList

/-- The word that ends the options. -/
def separator : Text := ['-', '-']

/-- The long names of all options. -/
def Options.names (o : Options) : List Text := helpName :: o.flags ++ o.valued

/-- What a word is. -/
inductive Word where
  | operand
  | help
  | flag (name : Text)
  | valued (name : Text) (value : Option Text)
  /-- It looks like an option and is none. -/
  | unknown
  /-- It gives a value to an option that has none. -/
  | misused
  /-- It is the beginning of several names. -/
  | ambiguous
deriving DecidableEq, Repr

namespace Word

/-- Whether a text is a minus and a number; a newline may follow. -/
def isNegative (s : Text) : Bool :=
  match s with
  | '-' :: body =>
    let body := Text.dropNewline body
    match Text.cutFirst '.' body with
    | none => !body.isEmpty && body.all Text.isDecimal
    | some (whole, fraction) =>
      whole.all Text.isDecimal && !fraction.isEmpty && fraction.all Text.isDecimal
  | _ => false

/-- A word that names no option. -/
def nameless (s : Text) : Word := if isNegative s ∨ ' ' ∈ s then .operand else .unknown

/-- The option of a given long name with the value that is written behind the name. -/
def named (o : Options) (name : Text) (value : Option Text) : Word :=
  if name ∈ o.valued then .valued name value
  else if value.isSome then .misused
  else if name ∈ o.flags then .flag name
  else .help

/-- A word that starts with two dashes. -/
def long (o : Options) (s : Text) : Word :=
  let (name, value) := match Text.cutFirst '=' s with
    | some (name, value) => (name, some value)
    | none => (s, none)
  if name ∈ o.names then named o name value
  else match o.names.filter (·.startsWith name) with
    | [] => nameless s
    | [full] => named o full value
    | _ => .ambiguous

/-- The characters behind `-h`: any number of further `h`, and none or some that are passed over. -/
def short (tail : Text) : Word :=
  match tail.dropWhile (· = 'h') with
  | '-' :: _ | '=' :: _ => .misused
  | _ => .help

/-- **What a word before the separator is.** -/
def ofText (o : Options) (s : Text) : Word :=
  match s with
  | '-' :: '-' :: _ => long o s
  | '-' :: 'h' :: tail => short tail
  | '-' :: _ :: _ => nameless s
  | _ => .operand

end Word

/-! ## Reading -/

/-- Why the words of a command line are no request. -/
inductive Stop where
  /-- They ask for help. -/
  | help
  /-- They do not fit. -/
  | misuse
deriving DecidableEq, Repr

/-- The words of a command line, sorted. -/
structure Reading where
  flags : List Text := []
  /-- Names and values of options, the last one first. -/
  values : List (Text × Text) := []
  operands : List Text := []
  /-- Whether the last of the words was an operand. -/
  endsInOperand : Bool := false
  /-- Whether there are unknown options. -/
  surplus : Bool := false
  /-- The words that are left: from the separator on, or from an operand on that ends the reading. -/
  rest : List Text := []
deriving DecidableEq, Repr

namespace Reading

/-- The last value of an option. -/
def value? (r : Reading) (name : Text) : Option Text := r.values.lookup name

/-- Reads words behind those already read, past operands or up to the first one. -/
def scan (o : Options) (past : Bool) (r : Reading) : List Text → Except Stop Reading
  | [] => .ok r
  | word :: words =>
    if word = separator then .ok { r with rest := word :: words }
    else match Word.ofText o word with
      | .operand =>
        if past then
          scan o past { r with operands := r.operands ++ [word], endsInOperand := true } words
        else .ok { r with rest := word :: words }
      | .help => .error .help
      | .misused | .ambiguous => .error .misuse
      | .unknown => scan o past { r with surplus := true, endsInOperand := false } words
      | .flag name => scan o past { r with flags := name :: r.flags, endsInOperand := false } words
      | .valued name (some value) =>
        scan o past { r with values := (name, value) :: r.values, endsInOperand := false } words
      | .valued name none =>
        match words with
        | [] => .error .misuse
        | value :: words =>
          if value = separator ∨ Word.ofText o value ≠ .operand then .error .misuse
          else scan o past { r with values := (name, value) :: r.values, endsInOperand := false } words

/-- **The words of a command line sorted**, past operands or up to the first one; an
ambiguous word before the separator is refused wherever it stands. -/
def ofWords (o : Options) (past : Bool) (words : List Text) : Except Stop Reading :=
  if (words.takeWhile (· ≠ separator)).any (Word.ofText o · = .ambiguous) then .error .misuse
  else scan o past {} words

/-- The operand of a command that takes one; the separator may stand beside it. -/
def only? (r : Reading) : Option Text :=
  if r.surplus then none
  else match r.operands, r.rest with
    | [s], [] => some s
    | [s], [_] => if r.endsInOperand then some s else none
    | [], [_, s] => some s
    | _, _ => none

/-- The first operand and the others of a command that takes one or more.  The separator beside the
first counts with it; otherwise, and once only, the separator is left out of the others. -/
def firstAndOthers? (r : Reading) : Option (Text × List Text) :=
  if r.surplus then none
  else match r.operands, r.rest with
    | s :: t :: ts, rest => some (s, t :: ts ++ rest.tail)
    | [s], rest => some (s, rest.tail.erase separator)
    | [], _ :: s :: ss => some (s, ss.erase separator)
    | [], _ => none

end Reading

end VariableImport.CommandLine
