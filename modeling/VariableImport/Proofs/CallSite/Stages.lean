import VariableImport.CallSite.Compile
import VariableImport.Proofs.Failure

/-!
# Proofs/CallSite/Stages — what the stages of a call site come to

A call site is read, planned, searched for and settled.  What a literal and an expression may come to is
listed with what lies behind it (`FromLiteral`, `FromExpression`), and so is a call site
(`FromSource`).  Each list is complete and holds nothing else (`ofLiteral_eq_ok_iff`,
`planExpression_eq_ok_iff`, `compile_eq_ok_iff`), so what is said of a result is said by its cases.
-/

namespace VariableImport

/-- Steps of a computation with notes give a result if both of them do. -/
theorem Logged.outcome_bind_eq_ok {α β : Type} {x : Logged α} {f : α → Logged β} {b : β} :
    (x >>= f).outcome = .ok b ↔ ∃ a, x.outcome = .ok a ∧ (f a).outcome = .ok b := by
  rw [outcome_bind, bind_eq_ok]

/-- A note changes no result. -/
theorem Logged.outcome_tell_bind {α : Type} (n : Note) (f : Unit → Logged α) :
    (tell n >>= f).outcome = (f ()).outcome := outcome_bind _ _

namespace CallSite

variable {config : Config} {resolver : AliasResolver} {search : Search} {source importer argument : Text}
  {e : Expression} {verdict? : Option Verdict} {p : Plan} {site : CallSite}

/-! ## Literals -/

/-- **What a literal comes to**: a plain path is imported as it is written, or by what it is resolved to.
Other literals and expressions come to nothing here. -/
inductive FromLiteral (resolver : AliasResolver) (importer : Text) : Expression → Option Verdict → Prop
  | asWritten {v : Text} (hv : Path.isPlain v = true) :
      FromLiteral resolver importer (.literal v) (some (.asWritten v))
  | redirected {v : Text} {r : Resolved} (hv : Path.isPlain v = false)
      (hr : resolver.resolve v importer = .ok (some r)) (hplain : Path.isPlain r.path = true) :
      FromLiteral resolver importer (.literal v) (some (.redirected r.path none))
  | left {v : Text} {resolved : Option Resolved} (hv : Path.isPlain v = false)
      (hresolved : resolver.resolve v importer = .ok resolved)
      (hplain : ∀ r ∈ resolved, Path.isPlain r.path = false) : FromLiteral resolver importer (.literal v) none
  | other {e : Expression} (he : ∀ v, e ≠ .literal v) : FromLiteral resolver importer e none

/-- What a literal is settled as once it is resolved. -/
def redirection : Option Resolved → Option Verdict
  | none => none
  | some r => if Path.isPlain r.path then some (.redirected r.path none) else none

/-- A literal is settled as it is written if it is plain, and else by what it is resolved to. -/
theorem outcome_ofLiteral (resolver : AliasResolver) (importer v : Text) :
    (ofLiteral resolver importer (.literal v)).outcome =
      if Path.isPlain v then .ok (some (.asWritten v))
      else resolver.resolve v importer >>= fun resolved => .ok (redirection resolved) := by
  unfold ofLiteral
  dsimp only
  split
  · rfl
  · rw [Logged.outcome_bind, Logged.outcome_of]
    refine congrArg _ (funext fun resolved => ?_)
    cases resolved with
    | none => rfl
    | some r =>
      dsimp only [redirection]
      split <;> rfl

theorem ofLiteral_of_ne (h : ∀ v, e ≠ .literal v) : (ofLiteral resolver importer e).outcome = .ok none := by
  cases e with
  | literal v => exact absurd rfl (h v)
  | _ => rfl

theorem ofLiteral_eq_ok_iff :
    (ofLiteral resolver importer e).outcome = .ok verdict? ↔ FromLiteral resolver importer e verdict? := by
  constructor
  · intro h
    cases e with
    | literal v =>
      rw [outcome_ofLiteral] at h
      split at h
      · next hv =>
        obtain rfl := Except.ok.inj h
        exact .asWritten hv
      · next hv =>
        have hv := Bool.not_eq_true _ ▸ hv
        obtain ⟨resolved, hr, h⟩ := bind_eq_ok.mp h
        obtain rfl := Except.ok.inj h
        cases resolved with
        | none => exact .left hv hr nofun
        | some r =>
          dsimp only [redirection]
          split
          · next hplain => exact .redirected hv hr hplain
          · next hplain => exact .left hv hr fun r' hr' => Option.some.inj hr' ▸ Bool.not_eq_true _ ▸ hplain
    | _ =>
      obtain rfl := Except.ok.inj h
      exact .other nofun
  · intro h
    cases h with
    | asWritten hv => rw [outcome_ofLiteral, if_pos hv]
    | redirected hv hr hplain => simp [outcome_ofLiteral, hv, hr, ok_bind, redirection, hplain]
    | @left v resolved hv hr hplain =>
      cases resolved with
      | none => simp [outcome_ofLiteral, hv, hr, ok_bind, redirection]
      | some r => simp [outcome_ofLiteral, hv, hr, ok_bind, redirection, hplain r rfl]
    | other he => exact ofLiteral_of_ne he

/-! ## Expressions -/

/-- **What an expression is planned for**: what it is settled as as a literal, or else what its glob says. -/
inductive FromExpression (config : Config) (resolver : AliasResolver) (source importer : Text) (e : Expression) :
    Plan → Prop
  | literal {verdict : Verdict} (h : (ofLiteral resolver importer e).outcome = .ok (some verdict)) :
      FromExpression config resolver source importer e (.settled verdict)
  | search {glob : GlobPattern} (h : (ofLiteral resolver importer e).outcome = .ok none)
      (hglob : GlobPattern.ofExpression e source (fun raw => resolver.resolve raw importer) = .ok glob)
      (hd : glob.dynamic = true) : FromExpression config resolver source importer e
        (.search glob (Glob.normalize glob.glob config.extensions config.loose))
  | redirected {glob : GlobPattern} (h : (ofLiteral resolver importer e).outcome = .ok none)
      (hglob : GlobPattern.ofExpression e source (fun raw => resolver.resolve raw importer) = .ok glob)
      (hd : glob.dynamic = false) (hplain : Path.isPlain glob.glob = true) :
      FromExpression config resolver source importer e (.settled (.redirected glob.glob (some glob)))
  | fixed {glob : GlobPattern} (h : (ofLiteral resolver importer e).outcome = .ok none)
      (hglob : GlobPattern.ofExpression e source (fun raw => resolver.resolve raw importer) = .ok glob)
      (hd : glob.dynamic = false) (hplain : Path.isPlain glob.glob = false) :
      FromExpression config resolver source importer e (.settled (.fixed glob))

/-- The plan for a glob. -/
def planOf (config : Config) (glob : GlobPattern) : Plan :=
  if glob.dynamic then .search glob (Glob.normalize glob.glob config.extensions config.loose)
  else if Path.isPlain glob.glob then .settled (.redirected glob.glob (some glob))
  else .settled (.fixed glob)

theorem outcome_planExpression (config : Config) (resolver : AliasResolver) (source importer : Text)
    (e : Expression) : (planExpression config resolver source importer e).outcome =
      (ofLiteral resolver importer e).outcome >>= fun
        | some verdict => .ok (.settled verdict)
        | none => GlobPattern.ofExpression e source (fun raw => resolver.resolve raw importer) >>= fun glob =>
            .ok (planOf config glob) := by
  unfold planExpression
  rw [Logged.outcome_bind]
  refine congrArg _ (funext fun verdict => ?_)
  cases verdict with
  | some verdict => rfl
  | none =>
    dsimp only
    rw [Logged.outcome_bind, Logged.outcome_of]
    refine congrArg _ (funext fun glob => ?_)
    rw [Logged.outcome_tell_bind]
    dsimp only [planOf]
    split
    · rfl
    · split <;> rfl

theorem planExpression_eq_ok_iff : (planExpression config resolver source importer e).outcome = .ok p ↔
    FromExpression config resolver source importer e p := by
  rw [outcome_planExpression]
  constructor
  · intro h
    obtain ⟨verdict, hliteral, h⟩ := bind_eq_ok.mp h
    cases verdict with
    | some verdict =>
      obtain rfl := Except.ok.inj h
      exact .literal hliteral
    | none =>
      obtain ⟨glob, hglob, h⟩ := bind_eq_ok.mp h
      obtain rfl := Except.ok.inj h
      unfold planOf
      split
      · next hd => exact .search hliteral hglob hd
      · next hd =>
        have hd := Bool.not_eq_true _ ▸ hd
        split
        · next hplain => exact .redirected hliteral hglob hd hplain
        · next hplain => exact .fixed hliteral hglob hd (Bool.not_eq_true _ ▸ hplain)
  · intro h
    cases h with
    | literal h => rw [h, ok_bind]
    | search h hglob hd => simp only [h, ok_bind, hglob, planOf, hd, if_true]
    | redirected h hglob hd hplain =>
      simp only [h, ok_bind, hglob, planOf, hd, hplain, if_true, Bool.false_eq_true, if_false]
    | fixed h hglob hd hplain => simp only [h, ok_bind, hglob, planOf, hd, hplain, Bool.false_eq_true, if_false]

/-! ## Sources -/

/-- The argument and plan of a source: it is left alone, or its argument is parsed. -/
theorem outcome_plan (config : Config) (resolver : AliasResolver) (source importer : Text) :
    (plan config resolver source importer).outcome =
      if Script.isIgnored source then .ok (Script.importArgument source, .settled .ignored)
      else (Script.parse (overruled config importer (Script.importArgument source))).mapError .rejected >>= fun e =>
        (planExpression config resolver source importer e).outcome >>= fun p =>
          .ok (overruled config importer (Script.importArgument source), p) := by
  unfold plan
  dsimp only
  split
  · rfl
  · rw [Logged.outcome_bind, Logged.outcome_of]
    refine congrArg _ (funext fun e => ?_)
    rw [Logged.outcome_tell_bind, Logged.outcome_bind]
    rfl

theorem plan_eq_ok_iff : (plan config resolver source importer).outcome = .ok (argument, p) ↔
    (Script.isIgnored source = true ∧ argument = Script.importArgument source ∧ p = .settled .ignored) ∨
      (Script.isIgnored source = false ∧ argument = overruled config importer (Script.importArgument source) ∧
        ∃ e, Script.parse argument = .ok e ∧ (planExpression config resolver source importer e).outcome = .ok p) := by
  rw [outcome_plan]
  split
  · next h =>
    simp only [h, true_and, Bool.true_eq_false, false_and, or_false, Except.ok.injEq, Prod.mk.injEq]
    exact and_congr eq_comm eq_comm
  · next h =>
    have h := Bool.not_eq_true _ ▸ h
    simp only [h, Bool.false_eq_true, false_and, false_or, true_and, bind_eq_ok, mapError_eq_ok, Except.ok.injEq,
      Prod.mk.injEq]
    constructor
    · rintro ⟨e, hparse, p', hp, rfl, rfl⟩
      exact ⟨rfl, e, hparse, hp⟩
    · rintro ⟨rfl, e, hparse, hp⟩
      exact ⟨e, hparse, p, hp, rfl, rfl⟩

/-- The verdict on a glob once files are found. -/
def verdictOnFiles (config : Config) (importer : Text) (glob : GlobPattern) (globs found : List Text) : Verdict :=
  let files := (config.onFiles (enumerate importer found) importer).getD (enumerate importer found)
  if files = [] then .unmatched glob globs
  else .dispatch glob globs files (DispatchTable.ofFiles files glob.resolved)

/-- **What was found settles a glob**, whatever it is. -/
theorem outcome_settle (config : Config) (source importer : Text) (glob : GlobPattern) (globs found : List Text) :
    (settle config source importer glob globs found).outcome =
      .ok (verdictOnFiles config importer glob globs found) := by
  unfold settle verdictOnFiles
  dsimp only
  rw [Logged.outcome_tell_bind]
  split <;> rfl

/-- **What becomes of a call site**: the verdict that is planned, or that on the files that are found. -/
inductive FromSource (config : Config) (resolver : AliasResolver) (search : Search) (source importer : Text) :
    CallSite → Prop
  | settled {argument : Text} {verdict : Verdict}
      (h : (plan config resolver source importer).outcome = .ok (argument, .settled verdict)) :
      FromSource config resolver search source importer ⟨source, argument, importer, verdict⟩
  | searched {argument : Text} {glob : GlobPattern} {globs found : List Text}
      (h : (plan config resolver source importer).outcome = .ok (argument, .search glob globs))
      (hfound : search globs (Path.dirname importer) = .ok found) :
      FromSource config resolver search source importer
        ⟨source, argument, importer, verdictOnFiles config importer glob globs found⟩

theorem compile_eq_ok_iff : (compile config resolver search source importer).outcome = .ok site ↔
    FromSource config resolver search source importer site := by
  unfold compile
  rw [Logged.outcome_bind_eq_ok]
  constructor
  · rintro ⟨⟨argument, p⟩, hplan, h⟩
    cases p with
    | settled verdict =>
      obtain rfl := Except.ok.inj h
      exact .settled hplan
    | search glob globs =>
      obtain ⟨found, hfound, h⟩ := Logged.outcome_bind_eq_ok.mp h
      rw [Logged.outcome_bind, outcome_settle, ok_bind] at h
      obtain rfl := Except.ok.inj h
      exact .searched hplan hfound
  · intro h
    cases h with
    | settled h => exact ⟨_, h, rfl⟩
    | searched h hfound =>
      refine ⟨_, h, Logged.outcome_bind_eq_ok.mpr ⟨_, hfound, ?_⟩⟩
      rw [Logged.outcome_bind, outcome_settle, ok_bind]
      rfl

end CallSite

end VariableImport
