import VariableImport.Error

/-!
# Proofs/Failure — results of computations, and failures that are no rejections

A computation in two parts gives a result if both do (`bind_eq_ok`).  It may also fail, and a failure other than
a rejection is not caught (`BreaksOff`): **such a failure comes from one of the parts** (`breaksOff_bind`).
-/

namespace VariableImport

/-! ## Results -/

/-- A computation gives a result if both of its parts do. -/
theorem bind_eq_ok {ε α β : Type} {x : Except ε α} {f : α → Except ε β} {b : β} :
    (x >>= f) = .ok b ↔ ∃ a, x = .ok a ∧ f a = .ok b := by
  cases x with
  | error e => exact ⟨fun h => absurd h (by simp [bind, Except.bind]), fun ⟨_, h, _⟩ => nomatch h⟩
  | ok a => exact ⟨fun h => ⟨a, rfl, h⟩, fun ⟨_, h, hf⟩ => by cases h; exact hf⟩

theorem ok_bind {ε α β : Type} (a : α) (f : α → Except ε β) : (Except.ok a >>= f) = f a := rfl

theorem mapError_eq_ok {ε ε' α : Type} {x : Except ε α} {f : ε → ε'} {a : α} :
    x.mapError f = .ok a ↔ x = .ok a := by
  cases x with
  | error e => exact ⟨nofun, nofun⟩
  | ok b => exact ⟨fun h => congrArg _ (Except.ok.inj h), fun h => congrArg _ (Except.ok.inj h)⟩

theorem map_eq_ok {ε α β : Type} {x : Except ε α} {f : α → β} {b : β} :
    x.map f = .ok b ↔ ∃ a, x = .ok a ∧ f a = b := by
  cases x with
  | error e => exact ⟨nofun, fun ⟨_, h, _⟩ => nomatch h⟩
  | ok a => exact ⟨fun h => ⟨a, rfl, Except.ok.inj h⟩, fun ⟨_, h, hf⟩ => by cases h; exact congrArg _ hf⟩

/-! ## Failures that are no rejections -/

section

variable {α β : Type}

/-- Whether a computation fails otherwise than by a rejection. -/
def BreaksOff (x : Except Failure α) : Prop :=
  ∃ failure, x = .error failure ∧ ∀ e, failure ≠ .rejected e

@[simp] theorem not_breaksOff_ok (a : α) : ¬ BreaksOff (.ok a) := fun ⟨_, h, _⟩ => nomatch h

@[simp] theorem not_breaksOff_pure (a : α) : ¬ BreaksOff (pure a) := not_breaksOff_ok a

@[simp] theorem not_breaksOff_rejected (e : ImportError) :
    ¬ BreaksOff (.error (.rejected e) : Except Failure α) :=
  fun ⟨_, h, hne⟩ => hne e (Except.error.inj h).symm

theorem not_breaksOff_mapError (x : Except ImportError α) : ¬ BreaksOff (x.mapError .rejected) := by
  cases x with
  | error e => exact not_breaksOff_rejected e
  | ok a => exact not_breaksOff_ok a

/-- **A computation in two parts** breaks off in the first, or in the second with what the first gives. -/
theorem breaksOff_bind {x : Except Failure α} {f : α → Except Failure β} :
    BreaksOff (x >>= f) ↔ BreaksOff x ∨ ∃ a, x = .ok a ∧ BreaksOff (f a) := by
  cases x with
  | error failure =>
    refine ⟨fun ⟨_, h, hne⟩ => .inl ⟨failure, rfl, ?_⟩, ?_⟩
    · obtain rfl := Except.error.inj h
      exact hne
    · rintro (⟨_, h, hne⟩ | ⟨_, h, _⟩)
      · obtain rfl := Except.error.inj h
        exact ⟨failure, rfl, hne⟩
      · exact nomatch h
  | ok a =>
    refine ⟨fun h => .inr ⟨a, rfl, h⟩, ?_⟩
    rintro (h | ⟨_, h, hf⟩)
    · exact absurd h (not_breaksOff_ok a)
    · obtain rfl := Except.ok.inj h
      exact hf

/-- A second part that never breaks off does not count. -/
theorem breaksOff_bind_left {x : Except Failure α} {f : α → Except Failure β}
    (hf : ∀ a, ¬ BreaksOff (f a)) : BreaksOff (x >>= f) ↔ BreaksOff x := by
  rw [breaksOff_bind]
  exact or_iff_left fun ⟨a, _, h⟩ => hf a h

end

end VariableImport
