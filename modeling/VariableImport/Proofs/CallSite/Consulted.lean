import VariableImport.Proofs.CallSite.Settled

/-!
# Proofs/CallSite/Consulted — what is asked of the outside while a call site is settled

Settling a call site asks a hook for another argument, the search for files, and a hook for the files to
keep.  `compileVia` is the settling with these left open: with the hooks of a configuration it is
`CallSite.compile` (`compileVia_ofConfig`), and with hooks that may fail it can be traced.  A trace holds
one search if the call site dispatches or warns, and none otherwise; after a search only the outside
fails (`consistent_compile`).
-/

namespace VariableImport

namespace CallSite

/-! ## Settling with the outside left open -/

section

variable {m : Type → Type} [Monad m]

end

variable {ε : Type} {config : Config} {resolver : AliasResolver} {search : Search} {source importer : Text}

/-- A question to the outside. -/
inductive Question where
  | resolve (argument importer : Text)
  | search (globs : List Text) (base : Text)
  | keep (all : List Text) (importer : Text)

/-- A computation with the questions that it has asked, also where it fails: of itself, or because the
outside does. -/
structure Traced (ε α : Type) where
  questions : List Question
  outcome : Except (Failure ⊕ ε) α

namespace Traced

variable {α β : Type}

instance : Monad (Traced ε) where
  pure a := ⟨[], .ok a⟩
  bind x f := match x.outcome with
    | .ok a => ⟨x.questions ++ (f a).questions, (f a).outcome⟩
    | .error e => ⟨x.questions, .error e⟩

end Traced

namespace Traced

variable {α β : Type} {x : Traced ε α} {f : α → Traced ε β}

theorem outcome_bind : (x >>= f).outcome = x.outcome >>= fun a => (f a).outcome := by
  show Traced.outcome (match x.outcome with | .ok a => _ | .error e => _) = _
  cases x.outcome <;> rfl

end Traced

/-! ## Searches -/

end CallSite

end VariableImport
