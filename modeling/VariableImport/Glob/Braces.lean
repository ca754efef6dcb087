import VariableImport.Text.Basic

/-!
# Glob/Braces — groups of alternatives are replaced from the innermost on

A group of alternatives in braces stands for each of them.  Groups are replaced one at a time, the
leftmost that holds no other first, until no group is left; every replacement takes an opening brace
away.
-/

namespace VariableImport.Glob

/-- The text up to a closing brace with no brace in between, and the text after it. -/
def groupBody : Text → Option (Text × Text)
  | [] => none
  | c :: s =>
    if c = '\x7d' then some ([], s)
    else if c = '\x7b' then none
    else (groupBody s).map fun (body, rest) => (c :: body, rest)

/-- The leftmost group that holds no other: the text before it, inside and after it. -/
def findGroup : Text → Option (Text × Text × Text)
  | [] => none
  | c :: s =>
    match (if c = '\x7b' then groupBody s else none) with
    | some (body, rest) => some ([], body, rest)
    | none => (findGroup s).map fun (before, body, rest) => (c :: before, body, rest)

/-- The texts that a pattern with at most `n` opening braces stands for. -/
def expandWithin : Nat → Text → List Text
  | 0, pattern => [pattern]
  | n + 1, pattern =>
    match findGroup pattern with
    | none => [pattern]
    | some (before, body, rest) =>
      Text.distinct ((Text.split ',' body).flatMap fun option =>
        expandWithin n (before ++ option ++ rest))

/-- **The texts that a pattern stands for.** -/
def expandBraces (pattern : Text) : List Text := expandWithin (pattern.count '\x7b') pattern

theorem groupBody_eq_some {s body rest : Text} (h : groupBody s = some (body, rest)) :
    s = body ++ '\x7d' :: rest ∧ '\x7b' ∉ body ∧ '\x7d' ∉ body := by
  induction s generalizing body with
  | nil => simp [groupBody] at h
  | cons c s ih =>
    unfold groupBody at h
    split at h
    · next hc =>
      obtain ⟨rfl, rfl⟩ := Prod.mk.inj (Option.some.inj h)
      simp [hc]
    · next hc =>
      split at h
      · simp at h
      · next ho =>
        obtain ⟨⟨b, r⟩, hb, e⟩ := Option.map_eq_some_iff.1 h
        obtain ⟨rfl, rfl⟩ := Prod.mk.inj e
        obtain ⟨rfl, h1, h2⟩ := ih hb
        exact ⟨rfl, by simp [h1, Ne.symm ho], by simp [h2, Ne.symm hc]⟩

/-- **A group is text between braces that holds none.** -/
theorem findGroup_eq_some {s before body rest : Text}
    (h : findGroup s = some (before, body, rest)) :
    s = before ++ '\x7b' :: body ++ '\x7d' :: rest ∧ '\x7b' ∉ body ∧ '\x7d' ∉ body := by
  induction s generalizing before with
  | nil => simp [findGroup] at h
  | cons c s ih =>
    unfold findGroup at h
    split at h
    · next b r hb =>
      simp only [Option.some.injEq, Prod.mk.injEq] at h
      obtain ⟨rfl, rfl, rfl⟩ := h
      split at hb
      · next hc =>
        obtain ⟨rfl, h1, h2⟩ := groupBody_eq_some hb
        exact ⟨by simp [hc], h1, h2⟩
      · simp at hb
    · obtain ⟨⟨b, x, r⟩, hb, e⟩ := Option.map_eq_some_iff.1 h
      simp only [Prod.mk.injEq] at e
      obtain ⟨rfl, rfl, rfl⟩ := e
      obtain ⟨rfl, h1, h2⟩ := ih hb
      exact ⟨by simp, h1, h2⟩

example : expandBraces "a\x7bb,c\x7bd,e\x7d\x7d".toList = ["ab".toList, "acd".toList, "ace".toList] := by
  decide +kernel

end VariableImport.Glob
