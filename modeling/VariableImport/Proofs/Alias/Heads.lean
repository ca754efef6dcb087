import VariableImport.Alias.Resolver
import VariableImport.Proofs.CallSite.Dispatch

/-!
# Proofs/Alias/Heads — exchanged heads

Wherever a resolver keeps a head of the path it has found, specifier and path are alike behind their
heads (`sharesTail_resolve`).  Only a rule that takes a part out of the middle of a specifier
keeps none.
-/

namespace VariableImport

namespace AliasResolver

/-- Specifier and path are alike behind their heads. -/
def SharesTail (specifier : Text) (r : Resolved) : Prop :=
  ∃ tail, specifier = r.specifierHead ++ tail ∧ r.path = r.pathHead ++ tail

theorem sharesTail_substitute (origin : Resolved.Origin) (rule : AliasRule) (start stop : Nat)
    (specifier importer : Text) :
    SharesTail specifier (substitute origin rule start stop specifier importer) :=
  ⟨specifier.drop stop, (List.take_append_drop ..).symm, rfl⟩

/-- A directory takes the place of what a specifier starts with. -/
theorem sharesTail_place {rule : AliasRule} {way specifier importer : Text} {start stop : Nat}
    (h : (place rule way start stop specifier importer).pathHead ≠ []) :
    SharesTail specifier (place rule way start stop specifier importer) := by
  have hstart : start = 0 := by
    by_contra hne
    simp [place, hne] at h
  subst hstart
  obtain ⟨rest, hrest⟩ : ∃ rest, rest = specifier.take 0 ++ specifier.drop stop := ⟨_, rfl⟩
  obtain ⟨tail, htail⟩ : ∃ tail, tail = if rest.head? = some '/' then rest.tail else rest := ⟨_, rfl⟩
  have hsuffix : tail <:+ specifier := by
    have hdrop : rest <:+ specifier := hrest ▸ List.drop_suffix stop specifier
    rw [htail]
    split
    exacts [(List.tail_suffix _).trans hdrop, hdrop]
  obtain ⟨head, hhead⟩ := hsuffix
  have hlength : specifier.length - tail.length = head.length := by
    rw [← hhead, List.length_append]
    omega
  refine ⟨tail, ?_, ?_⟩
  · show specifier = specifier.take (specifier.length - _) ++ tail
    rw [← hrest, ← htail, hlength, ← hhead, List.take_left]
  · show way ++ '/' :: _ = (way ++ ['/']) ++ tail
    rw [← hrest, ← htail]
    simp

theorem sharesTail_apply {cwd : Text} {rule : AliasRule} {span : Nat × Nat}
    {specifier importer : Text} {r : Resolved} (h : apply cwd rule span specifier importer = .ok r)
    (hne : r.pathHead ≠ []) : SharesTail specifier r := by
  unfold apply at h
  split at h
  · obtain rfl := Except.ok.inj h
    exact sharesTail_substitute ..
  · split at h
    · simp at h
    · obtain rfl := Except.ok.inj h
      exact sharesTail_place hne

theorem sharesTail_firstMatch {engine : Engine} {cwd specifier importer : Text} {rules : List AliasRule}
    {r : Resolved} (h : firstMatch engine cwd specifier importer rules = .ok (some r))
    (hne : r.pathHead ≠ []) : SharesTail specifier r := by
  induction rules with
  | nil => simp [firstMatch] at h
  | cons rule rules ih =>
    unfold firstMatch at h
    obtain ⟨span, -, h⟩ := bind_eq_ok.mp h
    cases span with
    | none => exact ih h
    | some span =>
      obtain ⟨r', hr, h⟩ := bind_eq_ok.mp h
      obtain rfl := Option.some.inj (Except.ok.inj h)
      exact sharesTail_apply hr hne

/-- **A bare specifier is resolved** by the first of its prefixes, from the longest on, that is a directory
among the packages. -/
theorem resolveBare_eq_some {resolver : AliasResolver} {specifier importer : Text} {r : Resolved} :
    resolver.resolveBare specifier importer = some r ↔
      (specifier.head? ≠ some '.' ∧ specifier.head? ≠ some '/') ∧
      ∃ level, ((levels specifier).reverse.find? fun level =>
          resolver.probe (Path.append resolver.packages level)) = some level ∧
        substitute .bare { find := level, replacement := resolver.wayToPackages importer ++ '/' :: level }
          0 level.length specifier importer = r := by
  unfold resolveBare
  rw [← not_or]
  split
  · next hhead => exact iff_of_false (Option.some_ne_none r).symm fun h => h.1 hhead
  · next hbare =>
    rw [and_iff_right hbare]
    split
    · next hnone => simp [hnone]
    · next level hfind => simp [hfind]

theorem sharesTail_resolveBare {resolver : AliasResolver} {specifier importer : Text}
    {r : Resolved} (h : resolver.resolveBare specifier importer = some r) :
    SharesTail specifier r := by
  obtain ⟨-, level, -, rfl⟩ := resolveBare_eq_some.mp h
  exact sharesTail_substitute ..

/-- **Specifier and path are alike behind their heads** where a head of the path is kept. -/
theorem sharesTail_resolve {resolver : AliasResolver} {specifier importer : Text} {r : Resolved}
    (h : resolver.resolve specifier importer = .ok (some r)) (hne : r.pathHead ≠ []) :
    SharesTail specifier r := by
  unfold resolve at h
  obtain ⟨found, hfound, h⟩ := bind_eq_ok.mp h
  cases found with
  | some found =>
    obtain rfl := Option.some.inj (Except.ok.inj h)
    exact sharesTail_firstMatch hfound hne
  | none => exact sharesTail_resolveBare (Except.ok.inj h)

end AliasResolver

end VariableImport
