import VariableImport.Script.Token

/-!
# Script/Reader — readers find every way to read

A reader finds every way to read something at the start of a text, since what a character begins may
show only later.  It also keeps how far it came, for the place of an error.  `mem_bind` and its
companions say what the combinators find; proofs need no more of them.
-/

namespace VariableImport.Script

/-- What reading found: results with the text left after each, and the least length of text left at
any place that was reached. -/
structure Findings (α : Type) where
  found : List (α × Text)
  left : Nat

/-- A way to read things at the start of a text. -/
def Reader (α : Type) := Text → Findings α

namespace Reader

variable {α β : Type}

/-- Finds a given result without reading. -/
protected def pure (a : α) : Reader α := fun s => ⟨[(a, s)], s.length⟩

/-- Finds nothing. -/
def fail : Reader α := fun s => ⟨[], s.length⟩

/-- Goes on after every result. -/
protected def bind (p : Reader α) (f : α → Reader β) : Reader β := fun s =>
  let next := (p s).found.map fun (a, t) => f a t
  ⟨next.flatMap (·.found), next.foldl (fun n x => min n x.left) (p s).left⟩

instance : Monad Reader where
  pure := Reader.pure
  bind := Reader.bind

/-- What either reader finds, the first one's results first. -/
def orElse (p q : Reader α) : Reader α := fun s =>
  ⟨(p s).found ++ (q s).found, min (p s).left (q s).left⟩

instance : OrElse (Reader α) where
  orElse p q := p.orElse (q ())

/-- What the first reader finds, and what the second finds that ends where none of the first does. -/
def orWhereNot (p q : Reader α) : Reader α := fun s =>
  ⟨(p s).found ++ (q s).found.filter fun x => (p s).found.all (·.2.length != x.2.length),
    min (p s).left (q s).left⟩

/-- A token of a terminal, gaps before it passed over. -/
def token (terminal : Terminal) : Reader Text := fun s =>
  let found := (places s).filterMap terminal.scan
  ⟨found, (places s ++ found.map (·.2)).foldl (fun n t => min n t.length) s.length⟩

/-- The end of the text, gaps before it passed over. -/
def finish : Reader Unit := fun s =>
  ⟨(places s).filterMap fun t => if t = [] then some ((), t) else none,
    (places s).foldl (fun n t => min n t.length) s.length⟩

/-- A result, and every one reached from it by at most `n` steps. -/
def stepsWithin (step : α → Reader α) : Nat → α → Reader α
  | 0, a => Reader.pure a
  | n + 1, a => (Reader.pure a).orElse ((step a).bind (stepsWithin step n))

/-- A result, and every one reached from it by steps that each read some text. -/
def steps (step : α → Reader α) (a : α) : Reader α := fun s => stepsWithin step s.length a s

/-! ## What is found -/

theorem mem_pure {a b : α} {s t : Text} :
    (b, t) ∈ ((pure a : Reader α) s).found ↔ b = a ∧ t = s := by
  show (b, t) ∈ [(a, s)] ↔ _
  simp

theorem mem_bind {p : Reader α} {f : α → Reader β} {s u : Text} {b : β} :
    (b, u) ∈ ((p >>= f) s).found ↔ ∃ a t, (a, t) ∈ (p s).found ∧ (b, u) ∈ (f a t).found := by
  show (b, u) ∈ ((p s).found.map fun (a, t) => f a t).flatMap (·.found) ↔ _
  simp only [List.mem_flatMap, List.mem_map, Prod.exists]
  constructor
  · rintro ⟨x, ⟨a, t, h, rfl⟩, hb⟩
    exact ⟨a, t, h, hb⟩
  · rintro ⟨a, t, h, hb⟩
    exact ⟨f a t, ⟨a, t, h, rfl⟩, hb⟩

theorem mem_orElse {p q : Reader α} {s t : Text} {a : α} :
    (a, t) ∈ ((p <|> q) s).found ↔ (a, t) ∈ (p s).found ∨ (a, t) ∈ (q s).found :=
  List.mem_append

theorem mem_token {terminal : Terminal} {s t : Text} {a : Text} :
    (a, t) ∈ (token terminal s).found ↔ ∃ u ∈ places s, terminal.scan u = some (a, t) :=
  List.mem_filterMap

theorem mem_finish {s t : Text} {a : Unit} :
    (a, t) ∈ (finish s).found ↔ t = [] ∧ [] ∈ places s := by
  simp only [finish, List.mem_filterMap]
  constructor
  · rintro ⟨u, hu, h⟩
    split at h
    · next hn => cases h; exact ⟨hn, hn ▸ hu⟩
    · simp at h
  · rintro ⟨rfl, h⟩
    exact ⟨[], h, by simp⟩

end Reader

end VariableImport.Script
