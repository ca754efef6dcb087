import VariableImport.Proofs.CallSite.StaticHead
import VariableImport.Proofs.Script.Commented

/-!
# Proofs/CallSite/Replacement — the call that replaces a dispatch

A call site that dispatches is replaced by a call of its dispatch function with the argument as it is
written.  The argument is an expression with its comments; in front of the parenthesis that is written
behind it, it is the same expression, unless a comment goes on there or the argument is the whole call
(`replacement_dispatch`).
-/

namespace VariableImport.CallSite

variable {config : Config} {resolver : AliasResolver} {search : Search} {source importer : Text}

/-! ## The argument of a dispatch -/

/-- Whether a configuration leaves the arguments of call sites as they are written. -/
def KeepsArguments (config : Config) : Prop := ∀ argument importer, config.onResolve argument importer = none

theorem overruled_eq (hconfig : KeepsArguments config) (argument : Text) :
    overruled config importer argument = argument := by
  unfold overruled
  rw [hconfig]

/-- The argument of a call site is the one that is planned for. -/
theorem argument_of_plan {argument : Text} {p : Plan} (hconfig : KeepsArguments config)
    (h : (plan config resolver source importer).outcome = .ok (argument, p)) :
    argument = Script.importArgument source := by
  rcases plan_eq_ok_iff.mp h with ⟨-, rfl, -⟩ | ⟨-, rfl, -⟩
  exacts [rfl, overruled_eq hconfig _]

/-- **The argument of a call site** is the text of the first argument of its source. -/
theorem argument_of_compile {site : CallSite} (hconfig : KeepsArguments config)
    (h : (compile config resolver search source importer).outcome = .ok site) :
    site.argument = Script.importArgument source := by
  have h := compile_eq_ok_iff.mp h
  cases h with
  | settled hplan => exact argument_of_plan hconfig hplan
  | searched hplan => exact argument_of_plan hconfig hplan

theorem trim_importArgument (source : Text) :
    Text.trim (Script.importArgument source) = Script.importArgument source := by
  unfold Script.importArgument
  split <;> exact Text.trim_trim _

/-! ## The replacement -/

/-- **The replacement of a dispatch** calls its function with the argument as it is written, and an import
of that argument is parsed into the expression that the call site was settled for. -/
theorem replacement_dispatch {s : NumberedSite} {name : Text} {glob : GlobPattern} {globs files : List Text}
    {table : DispatchTable} (hconfig : KeepsArguments config)
    (h : (compile config resolver search source importer).outcome = .ok s.site)
    (hv : s.site.verdict = .dispatch glob globs files table) (hname : s.functionName = some name)
    (hcommented : Script.IsCommented s.site.argument) :
    s.replacement = some (name ++ '(' :: (s.site.argument ++ [')'])) ∧
      ∃ e, Script.parse s.site.argument = .ok e ∧
        GlobPattern.ofExpression e source (fun raw => resolver.resolve raw importer) = .ok glob ∧
        Script.parse (Script.importText ++ '(' :: (s.site.argument ++ [')'])) = .ok e := by
  have hargument := argument_of_compile hconfig h
  refine ⟨?_, ?_⟩
  · simp only [NumberedSite.replacement, hv, hname, Option.map_some, List.append_assoc, List.cons_append]
  · obtain ⟨e, found, hparse, hglob, -⟩ := compile_dispatch h hv
    rw [overruled_eq hconfig, ← hargument] at hparse
    have htrim : Text.trim s.site.argument = s.site.argument := hargument ▸ trim_importArgument source
    exact ⟨e, hparse, hglob, (hcommented.parse_call htrim e).mpr hparse⟩

/-- Whether a run dispatches an argument. -/
def dispatchesArgument (argument : Text) (run : Logged CallSite) : Bool :=
  match run.outcome with
  | .ok site => decide (site.verdict.kind = .dispatch ∧ site.argument = argument)
  | _ => false

theorem exists_of_dispatchesArgument {argument : Text} {run : Logged CallSite}
    (h : dispatchesArgument argument run = true) : ∃ site glob globs files table, run.outcome = .ok site ∧
      site.verdict = .dispatch glob globs files table ∧ site.argument = argument := by
  unfold dispatchesArgument at h
  split at h
  · next site hrun =>
    obtain ⟨hkind, hargument⟩ := of_decide_eq_true h
    cases hv : site.verdict with
    | dispatch glob globs files table => exact ⟨site, glob, globs, files, table, hrun, hv, hargument⟩
    | _ => simp [hv, Verdict.kind] at hkind
  · simp at h

/-- A comment that ends goes with the argument. -/
theorem replacement_dispatch_commented :
    ∃ s : NumberedSite, (compileIn neighbours {} "import(`./a/${id}.js` /* one; two */)".toList
        "/p/main.js".toList).outcome = .ok s.site ∧
      s.replacement = some (DispatchTable.functionName 0 ++ "(`./a/${id}.js` /* one; two */)".toList) ∧
      ∃ e, Script.parse "import(`./a/${id}.js` /* one; two */)".toList = .ok e := by
  have h : dispatchesArgument "`./a/${id}.js` /* one; two */".toList
      (compileIn neighbours {} "import(`./a/${id}.js` /* one; two */)".toList "/p/main.js".toList) =
        true := by
    decide +kernel
  obtain ⟨site, glob, globs, files, table, h, hv, hargument⟩ := exists_of_dispatchesArgument h
  have hclose : Script.Closes " /* one; two */".toList :=
    .gap (by rfl) (by decide) (.gap (by rfl) (fun _ => by rfl) (.here rfl))
  have hcommented : Script.IsCommented site.argument := by
    have hA : Script.IsExpression "`./a/${id}.js`".toList := by
      decide +kernel
    have hboundary : Script.Boundary " /* one; two */".toList := by
      rintro c ⟨⟩
      exact .inl rfl
    have := hA.isCommented hboundary hclose
    rwa [hargument]
  obtain ⟨hreplacement, e, -, -, hparse⟩ :=
    replacement_dispatch (s := ⟨site, some 0⟩) (fun _ _ => rfl) h hv rfl hcommented
  rw [hargument] at hreplacement hparse
  exact ⟨⟨site, some 0⟩, h, hreplacement, e, hparse⟩

/-- A comment to the end of the line swallows the parenthesis that is written behind it. -/
theorem comment_swallows_parenthesis :
    ∃ s : NumberedSite, KeepsArguments {} ∧
      (∃ e, Script.parse "import(`./a/${id}.js` // one of them\n)".toList = .ok e) ∧
      (compileIn neighbours {} "import(`./a/${id}.js` // one of them\n)".toList
        "/p/main.js".toList).outcome = .ok s.site ∧ s.site.verdict.kind = .dispatch ∧
      s.site.argument = "`./a/${id}.js` // one of them".toList ∧
      s.replacement = some (DispatchTable.functionName 0 ++ "(`./a/${id}.js` // one of them)".toList) ∧
      ∀ e, Script.parse "import(`./a/${id}.js` // one of them)".toList ≠ .ok e := by
  have h : dispatchesArgument "`./a/${id}.js` // one of them".toList
      (compileIn neighbours {} "import(`./a/${id}.js` // one of them\n)".toList "/p/main.js".toList) =
        true := by
    decide +kernel
  have haccepted : (Script.parse "import(`./a/${id}.js` // one of them\n)".toList).toOption.isSome =
      true := by
    decide +kernel
  have hrejected : (Script.parse "import(`./a/${id}.js` // one of them)".toList).toOption = none := by
    decide +kernel
  obtain ⟨site, glob, globs, files, table, h, hv, hargument⟩ := exists_of_dispatchesArgument h
  refine ⟨⟨site, some 0⟩, fun _ _ => rfl, ?_, h, by rw [hv]; rfl, hargument, ?_, fun e he => ?_⟩
  · cases he : Script.parse "import(`./a/${id}.js` // one of them\n)".toList with
    | ok e => exact ⟨e, rfl⟩
    | error =>
      rw [he] at haccepted
      cases haccepted
  · simp only [NumberedSite.replacement, hv, hargument]
    rfl
  · rw [he] at hrejected
    cases hrejected

end VariableImport.CallSite
