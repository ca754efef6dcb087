import VariableImport.Proofs.Alias.Exchange
import VariableImport.Proofs.Path.Way

/-!
# Proofs/Alias/Target — an alias keeps the file that is meant

A literal rule with an absolute replacement matches a specifier up to a slash, and what stands behind the
slash is placed in the replacement by the way to it (`apply_literal`).  That way leads from the directory
of the importer to the replacement, so that **the path and the replaced specifier mean one file**
(`resolve_target`), whatever dots and slashes stand in importer, replacement and specifier.
-/

namespace VariableImport

namespace AliasResolver

variable {resolver : AliasResolver} {rule : AliasRule} {engine : Engine} {cwd specifier importer : Text}
  {span : Nat × Nat} {r : Resolved}

/-- A literal rule matches what stands before a slash. -/
theorem exists_of_span_literal (hregex : rule.regex = false)
    (h : rule.span specifier engine = .ok (some span)) :
    span = (0, rule.find.length) ∧ ∃ tail, specifier = rule.find ++ '/' :: tail := by
  rw [AliasRule.span_literal hregex] at h
  split at h
  · next hstarts =>
    obtain ⟨tail, rfl⟩ := Text.startsWith_iff.mp hstarts
    exact ⟨(Option.some.inj (Except.ok.inj h)).symm, tail, by simp⟩
  · simp at h

/-- **The first rule that matches** makes the result, if it can be applied. -/
theorem resolve_of_isFirstMatch (hfirst : IsFirstMatch resolver.rules specifier rule resolver.engine)
    (happly : ∀ span, rule.span specifier resolver.engine = .ok (some span) →
      apply resolver.cwd rule span specifier importer = .ok r) :
    resolver.resolve specifier importer = .ok (some r) := by
  obtain ⟨before, after, span, hrules, hbefore, hspan⟩ := hfirst
  refine resolve_eq_some.mpr (.inl ?_)
  exact firstMatch_eq_some.mpr ⟨before, rule, after, span, hrules, hbefore, hspan, happly span hspan⟩

/-- **A literal rule with a directory** places what stands behind the slash in it. -/
theorem apply_literal {way tail : Text} (hdot : rule.replacement.head? ≠ some '.')
    (hway : Path.relativeFrom? cwd importer rule.replacement = some way) :
    ∃ r, apply cwd rule (0, rule.find.length) (rule.find ++ '/' :: tail) importer = .ok r ∧
      r.rule = rule ∧ r.path = way ++ '/' :: tail := by
  refine ⟨place rule way 0 rule.find.length (rule.find ++ '/' :: tail) importer, ?_, rfl, ?_⟩
  · rw [apply, if_neg hdot, hway]
  · simp [place]

/-- **An alias keeps the file that is meant**: the path that a literal rule with an absolute replacement
gives is explicit, and from the directory of the importer it leads where the replacement leads with the
rest of the specifier behind it. -/
theorem resolve_target (hfirst : IsFirstMatch resolver.rules specifier rule resolver.engine)
    (hregex : rule.regex = false) (himporter : Path.isAbsolute importer = true) (hreplacement : Path.isAbsolute rule.replacement = true) :
    ∃ r, resolver.resolve specifier importer = .ok (some r) ∧ r.rule = rule ∧ Path.IsExplicit r.path ∧
      Path.fromRoot (Path.append (Path.dirname importer) r.path) =
        Path.fromRoot (rule.replacement ++ specifier.drop rule.find.length) := by
  obtain ⟨_, _, _, _, _, hspan⟩ := id hfirst
  obtain ⟨-, tail, rfl⟩ := exists_of_span_literal hregex hspan
  obtain ⟨way, hway, hexplicit, htarget⟩ :
      ∃ way, Path.relativeFrom? resolver.cwd importer rule.replacement = some way ∧ _ ∧ _ :=
    Path.relativeFrom?_leads himporter hreplacement tail
  have hdot : rule.replacement.head? ≠ some '.' := by
    rw [beq_iff_eq.mp hreplacement]
    decide
  obtain ⟨r, happly, hrule, hpath⟩ := apply_literal hdot hway
  refine ⟨r, resolve_of_isFirstMatch hfirst fun span hspan => ?_, hrule, hpath ▸ hexplicit, ?_⟩
  · rw [(exists_of_span_literal hregex hspan).1]
    exact happly
  · rw [hpath, htarget, List.drop_left]

/-- A project with its sources behind an alias that is written with dots. -/
def dottedResolver : AliasResolver :=
  { rules := [{ find := ['@'], replacement := "/proj//lib/../src/.".toList }],
    packages := "/proj/node_modules".toList, probe := fun _ => false, cwd := ['/'] }

/-- Dots and slashes on all sides cancel. -/
theorem resolve_target_dotted :
    ∃ r, dottedResolver.resolve "@/../views//a.js".toList "/proj/./src/x/../main.js".toList = .ok (some r) ∧
      Path.IsExplicit r.path ∧
      Path.fromRoot (Path.append (Path.dirname "/proj/./src/x/../main.js".toList) r.path) =
        ["proj".toList, "views".toList, "a.js".toList] := by
  have hfirst : IsFirstMatch dottedResolver.rules "@/../views//a.js".toList
      { find := ['@'], replacement := "/proj//lib/../src/.".toList } :=
    ⟨[], [], (0, 1), rfl, fun _ hq => absurd hq List.not_mem_nil, by decide +kernel⟩
  have himporter : Path.isAbsolute "/proj/./src/x/../main.js".toList = true := by decide
  obtain ⟨r, hr, -, hexplicit, htarget⟩ := resolve_target hfirst rfl himporter (by decide)
  refine ⟨r, hr, hexplicit, htarget.trans ?_⟩
  decide +kernel

end AliasResolver

end VariableImport
