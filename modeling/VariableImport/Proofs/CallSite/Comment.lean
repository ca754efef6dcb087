import VariableImport.Proofs.CallSite.StaticHead
import VariableImport.Proofs.Script.Inserted
import VariableImport.Proofs.Script.Rejection

/-!
# Proofs/CallSite/Comment — call sites with a comment more

Nothing but the expression of a call site decides what becomes of it: the source is only quoted in
rejections and notes (`finding_congr`).  So a comment between two tokens of a call changes nothing
(`compile_inserted`), where the argument is cut where it ends, also with the comment in it.
-/

namespace VariableImport

/-! ## What is found out -/

/-- A failure without the texts that it quotes: the kind of a rejection, or any other failure. -/
def Failure.gist : Failure → Kind ⊕ Failure
  | .rejected e => .inl e.cause.kind
  | failure => .inr failure

/-- Whether two computations come to the same, but for what their rejections quote. -/
def Agree {α : Type} (x y : Except Failure α) : Prop := x.mapError Failure.gist = y.mapError Failure.gist

namespace Agree

variable {α β : Type} {x y : Except Failure α}

theorem refl (x : Except Failure α) : Agree x x := rfl

/-- Agreement goes on from result to result. -/
theorem bind {f g : α → Except Failure β} (h : Agree x y) (hfg : ∀ a, Agree (f a) (g a)) :
    Agree (x >>= f) (y >>= g) := by
  cases x with
  | ok a =>
    cases y with
    | ok b =>
      obtain rfl := Except.ok.inj h
      exact hfg a
    | error => cases h
  | error e =>
    cases y with
    | ok b => cases h
    | error e' => exact congrArg Except.error (Except.error.inj h)

end Agree

/-- The bound of a glob does not depend on the source, but for what is quoted of it. -/
theorem Glob.agree_validate (glob source source' : Text) :
    Agree ((validate glob source').mapError .rejected) ((validate glob source).mapError .rejected) := by
  unfold validate
  split_ifs <;> rfl

/-- A glob does not depend on the source, but for what is quoted of it. -/
theorem GlobPattern.agree_ofExpression (e : Expression) (source source' : Text)
    (resolver : Text → Except Failure (Option Resolved)) :
    Agree (ofExpression e source' resolver) (ofExpression e source resolver) := by
  unfold ofExpression
  cases Glob.ofExpression e with
  | error cause => rfl
  | ok raw =>
    refine (Agree.refl _).bind fun resolved => ?_
    dsimp only
    generalize (resolved.map Resolved.path).getD raw = glob
    split
    · have h := Glob.agree_validate (Glob.collapse glob) source source'
      generalize Glob.validate (Glob.collapse glob) source' = x at h ⊢
      generalize Glob.validate (Glob.collapse glob) source = y at h ⊢
      cases x <;> cases y
      · exact congrArg Except.error (Except.error.inj h)
      · cases h
      · cases h
      · rfl
    · rfl

/-- A text that is no expression is rejected as one, whatever it is. -/
theorem Script.kind_of_parse {s : Text} {e : ImportError} (h : parse s = .error e) :
    e.cause.kind = .syntaxError := by
  obtain rfl | ⟨_, _, _, -, rfl⟩ := rejection_cases h <;> rfl

/-- **Texts that are parsed as the same expressions** agree. -/
theorem Script.agree_parse {s t : Text} (h : ∀ e, parse s = .ok e ↔ parse t = .ok e) :
    Agree ((parse s).mapError .rejected) ((parse t).mapError .rejected) := by
  cases hs : parse s with
  | ok e => rw [(h e).mp hs]; rfl
  | error e =>
    cases ht : parse t with
    | ok e' => cases hs.symm.trans ((h e').mpr ht)
    | error e' =>
      have hkind : e.cause.kind = e'.cause.kind := (kind_of_parse hs).trans (kind_of_parse ht).symm
      exact congrArg (Except.error ∘ Sum.inl) hkind

namespace CallSite

open Script (importArgument isIgnored)

variable {config : Config} {resolver : AliasResolver} {search : Search} {source source' importer : Text}

/-- **What is found out about a call site**: its verdict, or the kind of its rejection. -/
def finding (run : Logged CallSite) : Except (Kind ⊕ Failure) Verdict :=
  (run.outcome.map CallSite.verdict).mapError Failure.gist

/-- The verdict that a plan leads to. -/
def carryOut (config : Config) (search : Search) (source importer : Text) : Plan → Except Failure Verdict
  | .settled verdict => .ok verdict
  | .search glob globs => do
    let found ← search globs (Path.dirname importer)
    (settle config source importer glob globs found).outcome

/-- The verdict on a call site is that of its plan. -/
theorem verdict_compile (config : Config) (resolver : AliasResolver) (search : Search)
    (source importer : Text) :
    (compile config resolver search source importer).outcome.map CallSite.verdict =
      ((plan config resolver source importer).outcome.map Prod.snd >>=
        carryOut config search source importer) := by
  unfold compile
  rw [Logged.outcome_bind]
  cases (plan config resolver source importer).outcome with
  | error e => rfl
  | ok x =>
    obtain ⟨argument, p⟩ := x
    cases p with
    | settled verdict => rfl
    | search glob globs =>
      show Except.map CallSite.verdict (Logged.of (search globs (Path.dirname importer)) >>= _).outcome =
        search globs (Path.dirname importer) >>= _
      rw [Logged.outcome_bind, Logged.outcome_of]
      cases search globs (Path.dirname importer) with
      | error e => rfl
      | ok found =>
        show Except.map CallSite.verdict ((settle config source importer glob globs found) >>= _).outcome =
          (settle config source importer glob globs found).outcome
        rw [Logged.outcome_bind]
        cases (settle config source importer glob globs found).outcome <;> rfl

/-- No plan leads to another verdict in another source. -/
theorem carryOut_congr (p : Plan) :
    carryOut config search source' importer p = carryOut config search source importer p := by
  cases p with
  | settled verdict => rfl
  | search glob globs => simp only [carryOut, outcome_settle]

theorem agree_planExpression (e : Expression) :
    Agree (planExpression config resolver source' importer e).outcome
      (planExpression config resolver source importer e).outcome := by
  rw [outcome_planExpression, outcome_planExpression]
  refine (Agree.refl _).bind fun verdict => ?_
  cases verdict with
  | some verdict => rfl
  | none => exact (GlobPattern.agree_ofExpression e source source' _).bind fun glob => .refl _

/-- What parsing makes of an argument decides what is planned for it. -/
theorem agree_plan (hignored : isIgnored source' = isIgnored source)
    (hparse : ∀ e, Script.parse (overruled config importer (importArgument source')) = .ok e ↔
      Script.parse (overruled config importer (importArgument source)) = .ok e) :
    Agree ((plan config resolver source' importer).outcome.map Prod.snd)
      ((plan config resolver source importer).outcome.map Prod.snd) := by
  have hplan (s : Text) : (plan config resolver s importer).outcome.map Prod.snd =
      if isIgnored s then .ok (.settled .ignored) else
        (Script.parse (overruled config importer (importArgument s))).mapError .rejected >>= fun e =>
          (planExpression config resolver s importer e).outcome := by
    rw [outcome_plan]
    split
    · rfl
    · cases (Script.parse (overruled config importer (importArgument s))).mapError Failure.rejected with
      | error e => rfl
      | ok e =>
        rw [ok_bind, ok_bind]
        cases (planExpression config resolver s importer e).outcome <;> rfl
  rw [hplan, hplan, hignored]
  split
  · rfl
  · exact (Script.agree_parse hparse).bind agree_planExpression

/-- **What a source is parsed as decides what becomes of it.** -/
theorem finding_congr (hignored : isIgnored source' = isIgnored source)
    (hparse : ∀ e, Script.parse (overruled config importer (importArgument source')) = .ok e ↔
      Script.parse (overruled config importer (importArgument source)) = .ok e) :
    finding (compile config resolver search source' importer) =
      finding (compile config resolver search source importer) := by
  unfold finding
  rw [verdict_compile, verdict_compile]
  exact (agree_plan hignored hparse).bind fun p => carryOut_congr p ▸ .refl _

/-! ## A comment more -/

/-- An import of one of several modules, with a comment in front of its argument. -/
def importWith (k : Text) : Text := "import(".toList ++ (k ++ " `./a/${id}.js`)".toList)

theorem importWith_eq (k : Text) : importWith k =
    Script.callText [] [] (k ++ ([' '] ++ "`./a/${id}.js`".toList)) [')'] := by
  have e : importWith k = Script.importText ++ '(' :: (k ++ ([' '] ++ "`./a/${id}.js`".toList ++ [')'])) := by
    unfold importWith
    rfl
  rw [e]
  simp only [Script.callText, List.nil_append, List.append_assoc]

/-- The comment stands between two tokens of the import. -/
theorem inserted_importWith (k : Text) : Script.Inserted k (Text.trim (importWith []))
    (Text.trim (importWith k)) ([' '] ++ "`./a/${id}.js`".toList)
    (k ++ ([' '] ++ "`./a/${id}.js`".toList)) := by
  have htrim (k : Text) : Text.trim (importWith k) = importWith k := by
    refine Text.Solid.trim_eq ⟨⟨'i', rfl, by decide⟩, ⟨')', ?_, by decide⟩⟩
    have e (x : Text) : Script.callText [] [] x [')'] = Script.importText ++ '(' :: x ++ [')'] := by
      simp [Script.callText]
    rw [importWith_eq, e, List.getLast?_concat]
    rfl
  have hA : Script.IsExpression "`./a/${id}.js`".toList := by
    decide +kernel
  rw [htrim, htrim, importWith_eq, importWith_eq]
  exact Script.inserted_first (g := [' ']) .nil .nil (by decide) hA Script.isTail_close

/-- Whether a source is parsed as an expression. -/
theorem exists_parse {s : Text} (h : (Script.parse s).toOption.isSome = true) :
    ∃ e, Script.parse s = .ok e := by
  cases hs : Script.parse s with
  | ok e => exact ⟨e, rfl⟩
  | error =>
    rw [hs] at h
    cases h

/-- **A comment between two tokens of a call changes nothing** that is found out about it: not where the
argument is cut where it ends, also with the comment in it, and neither the mark of ignored imports nor a
hook makes a difference. -/
theorem compile_inserted {A A' k : Text} (hk : Script.IsBlockComment k)
    (h : Script.Inserted k (Text.trim source) (Text.trim source') A A')
    (hcut : Script.CutsArgument source A) (hcut' : A ≠ A' → Script.CutsArgument source' A')
    (hsound : (∃ e, Script.parse (importArgument source) = .ok e) → ∃ e, Script.parse source = .ok e)
    (hignored : isIgnored source' = isIgnored source)
    (hhook : config.onResolve (importArgument source') importer =
      config.onResolve (importArgument source) importer) :
    finding (compile config resolver search source' importer) =
      finding (compile config resolver search source importer) := by
  refine finding_congr hignored fun e => ?_
  have hparse := h.parse_importArgument hk hcut hcut' hsound e
  unfold overruled
  rw [hhook]
  split
  · exact hparse
  · exact hparse
  · rfl

/-- The name of a chunk in a comment does no harm. -/
theorem compile_inserted_chunk :
    finding (compileIn neighbours {} (importWith "/* webpackChunkName: \"[request]\" */".toList)
        "/p/main.js".toList) =
      finding (compileIn neighbours {} (importWith []) "/p/main.js".toList) := by
  have hk : Script.IsBlockComment "/* webpackChunkName: \"[request]\" */".toList :=
    ⟨" webpackChunkName: \"[request]\" ".toList, by decide +kernel, by decide +kernel⟩
  exact compile_inserted hk (inserted_importWith _) (by decide +kernel) (fun _ => by decide +kernel)
    (fun _ => exists_parse (by decide +kernel)) (by decide +kernel) rfl

/-- A comma in a comment cuts the argument there, and the rest of the comment is no expression. -/
theorem comma_cuts_argument :
    Script.IsBlockComment "/* a, b */".toList ∧
      (∃ A A', Script.Inserted "/* a, b */".toList (Text.trim (importWith []))
        (Text.trim (importWith "/* a, b */".toList)) A A') ∧
      isIgnored (importWith "/* a, b */".toList) = isIgnored (importWith []) ∧
      (∃ e, Script.parse (importWith "/* a, b */".toList) = .ok e) ∧
      (∃ verdict, finding (compileIn neighbours {} (importWith []) "/p/main.js".toList) = .ok verdict ∧
        verdict.kind = .dispatch) ∧
      finding (compileIn neighbours {} (importWith "/* a, b */".toList) "/p/main.js".toList) =
        .error (.inl .syntaxError) := by
  have hdispatch : dispatchesWith (fun _ files => files = ["./a/x.js".toList])
      (compileIn neighbours {} (importWith []) "/p/main.js".toList) = true := by decide +kernel
  obtain ⟨site, glob, globs, files, table, h, hv, hfiles⟩ := exists_of_dispatchesWith hdispatch
  refine ⟨⟨" a, b ".toList, by decide +kernel, by decide +kernel⟩, ⟨_, _, inserted_importWith _⟩,
    by decide +kernel, exists_parse (by decide +kernel), ⟨site.verdict, ?_, by rw [hv]; rfl⟩,
    by decide +kernel⟩
  rw [finding, h]
  rfl

end CallSite

end VariableImport
