import VariableImport.DispatchTable.Script
import VariableImport.Json.Display
import VariableImport.Glob.Basic

/-!
# CallSite/Note — computations that take notes

What is told while a call site is settled, and computations that take notes (`Logged`).  What a
computation comes to does not depend on its notes (`outcome_bind`).
-/

namespace VariableImport

/-- Something to tell. -/
inductive Note where
  | ignored (source : Text)
  | parsed (e : Expression)
  | resolved (origin : Resolved.Origin) (specifier path : Text)
  | globbed (glob : GlobPattern)
  | normalized (globs : List Text)
  | matched (count : Nat)
  | unmatched (source importer : Text)
  | collided (c : Collision)
  | rejected (e : ImportError)

namespace Note

/-- A text between single quotes, as it is. -/
def plain (s : Text) : Text := '\'' :: s ++ ['\'']

/-- The text of a note. -/
def message : Note → Text
  | .ignored source => "Ignored: ".toList ++ source
  | .parsed e => "Parsed ".toList ++ e.form ++ ": ".toList ++ e.describe
  | .resolved origin specifier path =>
    "Resolved ".toList ++ origin.name ++ " ".toList ++ plain specifier ++ " -> ".toList ++ plain path
  | .globbed glob =>
    "Glob: ".toList ++ plain glob.raw ++ " -> ".toList ++ plain glob.glob ++ " (valid=".toList ++
      (Json.bool glob.dynamic).display ++ ")".toList
  | .normalized globs => "Normalized globs: ".toList ++ (Json.texts globs).display
  | .matched count => "Matched ".toList ++ Text.ofNat count ++ " file(s)".toList
  | .unmatched source importer =>
    "no files matched: ".toList ++ source ++ "\n  file: ".toList ++ importer
  | .collided c =>
    plain c.specifier ++ " already maps to ".toList ++ c.kept ++ ", ".toList ++ c.dropped ++
      " not registered".toList
  | .rejected e => e.cause.kind.name ++ ": ".toList ++ e.cause.message

/-- Whether a note is a warning; other notes are told only on request. -/
def isWarning : Note → Bool
  | .unmatched .. => true
  | _ => false

/-- The line of a note. -/
def line (n : Note) : Text :=
  if n.isWarning then
    DispatchTable.tag ++ " \x1b[33m".toList ++ n.message ++ "\x1b[0m\n".toList
  else "\x1b[94mDEBUG:\x1b[0m ".toList ++ n.message ++ ['\n']

/-- The lines of the notes that are told. -/
def lines (verbose : Bool) (notes : List Note) : Text :=
  (notes.filter fun n => verbose || n.isWarning).flatMap line

end Note

/-- A computation that takes notes, also where it fails. -/
structure Logged (α : Type) where
  notes : List Note
  outcome : Except Failure α

namespace Logged

variable {α β : Type}

/-- A result without notes. -/
protected def pure (a : α) : Logged α := ⟨[], .ok a⟩

/-- A result or failure without notes. -/
def of (outcome : Except Failure α) : Logged α := ⟨[], outcome⟩

/-- One note. -/
def tell (n : Note) : Logged Unit := ⟨[n], .ok ()⟩

/-- Goes on with a result, if there is one. -/
protected def bind (x : Logged α) (f : α → Logged β) : Logged β :=
  match x.outcome with
  | .ok a => ⟨x.notes ++ (f a).notes, (f a).outcome⟩
  | .error e => ⟨x.notes, .error e⟩

instance : Monad Logged where
  pure := Logged.pure
  bind := Logged.bind

@[simp] theorem outcome_pure (a : α) : (pure a : Logged α).outcome = .ok a := rfl

@[simp] theorem outcome_of (r : Except Failure α) : (of r).outcome = r := rfl

@[simp] theorem outcome_tell (n : Note) : (tell n).outcome = .ok () := rfl

/-- **Outcomes compose without the notes.** -/
@[simp] theorem outcome_bind (x : Logged α) (f : α → Logged β) :
    (x >>= f).outcome = x.outcome >>= fun a => (f a).outcome := by
  show (Logged.bind x f).outcome = _
  unfold Logged.bind
  cases x.outcome <;> rfl

end Logged

end VariableImport
