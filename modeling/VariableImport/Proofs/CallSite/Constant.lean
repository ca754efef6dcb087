import VariableImport.Proofs.CallSite.Comment
import VariableImport.Proofs.CallSite.Redirect
import VariableImport.Proofs.CallSite.Replacement
import VariableImport.Proofs.Expression.Value

/-!
# Proofs/CallSite/Constant — one path, written in one piece or in several

A constant is an expression of literals only; its value is known (`Expression.constant`).  However a
constant is written, the glob of it is its value, so all constants with one value are planned alike.
Only a single literal may be settled before it is resolved: it agrees with the other constants unless
it is a plain path that resolves to another one (`outline_constant`).
-/

namespace VariableImport

/-! ## Constants -/

namespace Expression

mutual

/-- **The value of an expression of literals**: a literal, a template without holes, a sum of constants, or
a constant concatenated with constants. -/
def constant : Expression → Option Text
  | .literal value => some value
  | .template [quasi] [] => some quasi
  | .binary operator left right =>
    if operator = ['+'] then do return (← constant left) ++ (← constant right) else none
  | .concat receiver arguments => do return (← constant receiver) ++ (← constants arguments)
  | _ => none

/-- The value of constants one after another. -/
def constants : List Expression → Option Text
  | [] => some []
  | e :: es => do return (← constant e) ++ (← constants es)

end

/-- Whether an expression is one literal. -/
def isLiteral : Expression → Bool
  | .literal _ => true
  | _ => false

/-- Two values joined, where both are there. -/
theorem append_eq_some {x y : Option Text} {v : Text} (h : (do return (← x) ++ (← y)) = some v) :
    ∃ a b, x = some a ∧ y = some b ∧ v = a ++ b := by
  obtain ⟨a, ha, h⟩ := Option.bind_eq_some_iff.mp h
  obtain ⟨b, hb, h⟩ := Option.bind_eq_some_iff.mp h
  exact ⟨a, b, ha, hb, (Option.some.inj h).symm⟩

end Expression

open Expression

namespace Glob

theorem fragment_eq_self {s : Text} (h : wildcard ∉ s) : fragment s = .ok s := if_neg h

mutual

/-- **The glob of a constant is its value.** -/
theorem ofExpression_constant (e : Expression) {v : Text} (h : e.constant = some v) (hv : wildcard ∉ v) :
    ofExpression e = .ok v := by
  match e with
  | .literal value =>
    obtain rfl := Option.some.inj (by simpa only [constant] using h)
    exact fragment_eq_self hv
  | .template [quasi] [] =>
    obtain rfl := Option.some.inj (by simpa only [constant] using h)
    simp only [ofExpression, ofTemplate, fragments, fragment_eq_self hv]
    exact congrArg Except.ok (List.append_nil _)
  | .template [] holes => simp [constant] at h
  | .template [_] (_ :: _) => simp [constant] at h
  | .template (_ :: _ :: _) holes => simp [constant] at h
  | .binary operator left right =>
    rw [constant] at h
    split at h
    · next hop =>
      obtain ⟨a, b, ha, hb, rfl⟩ := append_eq_some h
      obtain ⟨hleft, hright⟩ : wildcard ∉ a ∧ wildcard ∉ b := by simpa using hv
      rw [ofExpression, if_pos hop, ofExpression_constant left ha hleft,
        ofExpression_constant right hb hright]
      rfl
    · cases h
  | .concat receiver arguments =>
    rw [constant] at h
    obtain ⟨a, b, ha, hb, rfl⟩ := append_eq_some h
    obtain ⟨hreceiver, harguments⟩ : wildcard ∉ a ∧ wildcard ∉ b := by simpa using hv
    rw [ofExpression, ofExpression_constant receiver ha hreceiver,
      ofItems_constants arguments hb harguments]
    rfl
  | .other .. => simp [constant] at h

theorem ofItems_constants (es : List Expression) {v : Text} (h : constants es = some v)
    (hv : wildcard ∉ v) : ofItems es = .ok v := by
  match es with
  | [] =>
    obtain rfl := Option.some.inj (by simpa only [constants] using h)
    rfl
  | e :: es =>
    rw [constants] at h
    obtain ⟨a, b, ha, hb, rfl⟩ := append_eq_some h
    obtain ⟨hhead, htail⟩ : wildcard ∉ a ∧ wildcard ∉ b := by simpa using hv
    rw [ofItems, ofExpression_constant e ha hhead, ofItems_constants es hb htail]
    rfl

end

end Glob

/-- A plain path holds no wildcard. -/
theorem Path.not_mem_of_isPlain {p : Text} (h : isPlain p = true) : Glob.wildcard ∉ p := by
  obtain ⟨w, hw, hp⟩ := Path.exists_of_isPlain h
  have hstar : Glob.wildcard ∉ w := fun hmem => absurd (hw _ hmem) (by decide)
  rcases hp with rfl | rfl
  · exact hstar
  · exact fun hmem => (List.mem_append.mp hmem).elim hstar (by decide)

namespace CallSite

open Script (importArgument isIgnored)

variable {config : Config} {resolver : AliasResolver} {search : Search} {source source' importer v : Text}

/-! ## What literals come to -/

theorem ofLiteral_of_isLiteral {e : Expression} (h : e.isLiteral = false) :
    (ofLiteral resolver importer e).outcome = .ok none := by
  cases e with
  | literal => cases h
  | _ => rfl

/-! ## What a parsed call site comes to -/

/-- The verdict on a call site that is parsed as an expression. -/
def verdictOn (config : Config) (resolver : AliasResolver) (search : Search) (source importer : Text)
    (e : Expression) : Except Failure Verdict :=
  (planExpression config resolver source importer e).outcome >>= carryOut config search source importer

/-- The verdict on a glob. -/
def verdictOnGlob (config : Config) (search : Search) (source importer : Text) (glob : GlobPattern) :
    Except Failure Verdict :=
  if glob.dynamic then
    carryOut config search source importer
      (.search glob (Glob.normalize glob.glob config.extensions config.loose))
  else if Path.isPlain glob.glob then .ok (.redirected glob.glob (some glob))
  else .ok (.fixed glob)

/-- The kind of a verdict and the one path that it imports, or the kind of a failure. -/
def outlineOf (x : Except Failure Verdict) : Except (Kind ⊕ Failure) (Verdict.Kind × Option Text) :=
  (x.map fun verdict => (verdict.kind, verdict.path)).mapError Failure.gist

/-- **The outline of a call site**: its kind and the one path that it imports. -/
def outline (run : Logged CallSite) : Except (Kind ⊕ Failure) (Verdict.Kind × Option Text) :=
  outlineOf (run.outcome.map CallSite.verdict)

theorem exists_of_outlineOf {x : Except Failure Verdict} {kind : Verdict.Kind} {path : Option Text}
    (h : outlineOf x = .ok (kind, path)) : ∃ verdict, x = .ok verdict ∧ verdict.path = path := by
  cases x with
  | ok verdict => exact ⟨verdict, rfl, (Prod.mk.inj (Except.ok.inj h)).2⟩
  | error e => cases h

theorem outlineOf_congr {x y : Except Failure Verdict} (h : Agree x y) : outlineOf x = outlineOf y := by
  cases x with
  | ok verdict =>
    cases y with
    | ok verdict' =>
      obtain rfl := Except.ok.inj h
      rfl
    | error => cases h
  | error e =>
    cases y with
    | ok => cases h
    | error e' => exact congrArg Except.error (Except.error.inj h)

/-- The expression that a call site is parsed as decides what becomes of it. -/
theorem verdict_of_parse {e : Expression} (resolver : AliasResolver) (search : Search) (importer : Text)
    (hconfig : KeepsArguments config) (hignored : isIgnored source = false)
    (hparse : Script.parse (importArgument source) = .ok e) :
    (compile config resolver search source importer).outcome.map CallSite.verdict =
      verdictOn config resolver search source importer e := by
  have hplan : (plan config resolver source importer).outcome.map Prod.snd =
      (planExpression config resolver source importer e).outcome := by
    simp only [outcome_plan, hignored, Bool.false_eq_true, if_false, overruled_eq hconfig, hparse,
      Except.mapError, ok_bind]
    cases (planExpression config resolver source importer e).outcome <;> rfl
  rw [verdict_compile, hplan]
  rfl

/-- A call site that is not parsed is rejected for that. -/
theorem compile_of_rejected {e : ImportError} (hconfig : KeepsArguments config)
    (hignored : isIgnored source = false) (hparse : Script.parse (importArgument source) = .error e) :
    (compile config resolver search source importer).outcome = .error (.rejected e) := by
  have hplan : (plan config resolver source importer).outcome = .error (.rejected e) := by
    simp only [outcome_plan, hignored, Bool.false_eq_true, if_false, overruled_eq hconfig, hparse,
      Except.mapError]
    rfl
  unfold compile
  rw [Logged.outcome_bind, hplan]
  rfl

/-- The source is only quoted. -/
theorem agree_verdictOn (e : Expression) :
    Agree (verdictOn config resolver search source' importer e)
      (verdictOn config resolver search source importer e) :=
  (agree_planExpression e).bind fun p => carryOut_congr p ▸ .refl _

/-- An expression that is settled as a literal. -/
theorem verdictOn_of_literal {e : Expression} {verdict : Verdict}
    (h : (ofLiteral resolver importer e).outcome = .ok (some verdict)) :
    verdictOn config resolver search source importer e = .ok verdict := by
  unfold verdictOn
  rw [outcome_planExpression, h]
  rfl

/-- A literal that cannot be resolved. -/
theorem verdictOn_of_failure {e : Expression} {f : Failure}
    (h : (ofLiteral resolver importer e).outcome = .error f) :
    verdictOn config resolver search source importer e = .error f := by
  unfold verdictOn
  rw [outcome_planExpression, h]
  rfl

/-- An expression that is not settled as a literal is settled by its glob. -/
theorem verdictOn_of_glob {e : Expression} (h : (ofLiteral resolver importer e).outcome = .ok none) :
    verdictOn config resolver search source importer e =
      (GlobPattern.ofExpression e source fun raw => resolver.resolve raw importer) >>=
        verdictOnGlob config search source importer := by
  unfold verdictOn
  rw [outcome_planExpression, h, ok_bind]
  cases GlobPattern.ofExpression e source (fun raw => resolver.resolve raw importer) with
  | error e => rfl
  | ok glob =>
    simp only [ok_bind]
    unfold verdictOnGlob planOf
    split
    · rfl
    · split <;> rfl

/-! ## What constants come to -/

/-- The glob of a path without wildcards, as it is resolved. -/
def globOfPath (source v : Text) (resolved : Except Failure (Option Resolved)) : Except Failure GlobPattern :=
  GlobPattern.ofExpression (.literal v) source fun _ => resolved

/-- The path of a value: resolved, if there is a resolution. -/
def pathOf (v : Text) (resolved : Option Resolved) : Text := (resolved.map Resolved.path).getD v

/-- A constant that is not settled as a literal is settled by its value. -/
theorem verdictOn_constant {e : Expression} (he : e.constant = some v) (hv : Glob.wildcard ∉ v)
    (h : (ofLiteral resolver importer e).outcome = .ok none) :
    verdictOn config resolver search source importer e =
      globOfPath source v (resolver.resolve v importer) >>=
        verdictOnGlob config search source importer := by
  have hliteral : Glob.ofExpression (.literal v) = .ok v := Glob.fragment_eq_self hv
  rw [verdictOn_of_glob h]
  unfold globOfPath GlobPattern.ofExpression
  rw [Glob.ofExpression_constant e he hv, hliteral]

/-- What is settled by a search is not one path. -/
theorem path_verdictOnFiles (glob : GlobPattern) (globs found : List Text) :
    (verdictOnFiles config importer glob globs found).path = none := by
  unfold verdictOnFiles
  dsimp only
  split <;> rfl

/-- A path without wildcards is imported if it is plain, and else left alone. -/
theorem outline_fixed (resolved : Option Resolved) (hv : Glob.wildcard ∉ v)
    (hpath : Glob.wildcard ∉ pathOf v resolved) :
    outlineOf (globOfPath source v (.ok resolved) >>= verdictOnGlob config search source importer) =
      .ok (if Path.isPlain (pathOf v resolved) then (.normal, some (pathOf v resolved))
        else (.skipped, none)) := by
  have hliteral : Glob.ofExpression (.literal v) = .ok v := Glob.fragment_eq_self hv
  have hfixed : Glob.isDynamic (pathOf v resolved) = false := by simp [Glob.isDynamic, hpath]
  unfold pathOf at hfixed ⊢
  unfold globOfPath GlobPattern.ofExpression
  simp only [hliteral, ok_bind, hfixed, Bool.false_eq_true, if_false, pure_bind]
  unfold verdictOnGlob
  simp only [Bool.false_eq_true, if_false]
  split <;> rfl

/-- A value that resolves to no plain path is imported by no path. -/
theorem outline_loose {resolved : Option Resolved} (hv : Glob.wildcard ∉ v)
    (hloose : Path.isPlain (pathOf v resolved) = false) (kind : Verdict.Kind) (p : Text) :
    outlineOf (globOfPath source v (.ok resolved) >>= verdictOnGlob config search source importer) ≠
      .ok (kind, some p) := by
  intro h
  obtain ⟨verdict, hverdict, hp⟩ := exists_of_outlineOf h
  obtain ⟨glob, hglob, hverdict⟩ := bind_eq_ok.mp hverdict
  unfold verdictOnGlob at hverdict
  split at hverdict
  · obtain ⟨found, -, hsettle⟩ := bind_eq_ok.mp hverdict
    rw [outcome_settle] at hsettle
    obtain rfl := Except.ok.inj hsettle
    rw [path_verdictOnFiles] at hp
    cases hp
  · next hd =>
    have hpath : glob.glob = pathOf v resolved := by
      have hliteral : Glob.ofExpression (.literal v) = .ok v := Glob.fragment_eq_self hv
      unfold globOfPath GlobPattern.ofExpression at hglob
      simp only [hliteral, ok_bind] at hglob
      split at hglob
      · split at hglob
        · cases hglob
        · obtain rfl := Except.ok.inj hglob
          exact absurd rfl hd
      · obtain rfl := Except.ok.inj hglob
        rfl
    rw [hpath, hloose] at hverdict
    obtain rfl := Except.ok.inj hverdict
    cases hp

/-- A plain value is imported as it is exactly if it is not resolved to another path. -/
theorem outline_plain_iff (hplain : Path.isPlain v = true) {resolved : Except Failure (Option Resolved)} :
    outlineOf (globOfPath source v resolved >>= verdictOnGlob config search source importer) =
        .ok (.normal, some v) ↔
      resolved = .ok none ∨ ∃ r, resolved = .ok (some r) ∧ r.path = v := by
  have hv := Path.not_mem_of_isPlain hplain
  constructor
  · intro h
    match resolved with
    | .error e =>
      unfold globOfPath GlobPattern.ofExpression at h
      rw [show Glob.ofExpression (.literal v) = .ok v from Glob.fragment_eq_self hv] at h
      cases h
    | .ok none => exact .inl rfl
    | .ok (some r) =>
      refine .inr ⟨r, rfl, ?_⟩
      cases hp : Path.isPlain (pathOf v (some r)) with
      | false => exact absurd h (outline_loose hv hp _ _)
      | true =>
        rw [outline_fixed (some r) hv (Path.not_mem_of_isPlain hp), if_pos hp] at h
        exact Option.some.inj (Prod.mk.inj (Except.ok.inj h)).2
  · rintro (rfl | ⟨r, rfl, hr⟩)
    · rw [outline_fixed none hv hv]
      exact congrArg Except.ok (if_pos hplain)
    · have hpath : pathOf v (some r) = v := hr
      rw [outline_fixed (some r) hv (hpath ▸ hv), hpath, if_pos hplain]

/-! ## One path, however it is written -/

/-- A literal that is a plain path is left as it is written. -/
theorem outline_asWritten (hplain : Path.isPlain v = true) :
    outlineOf (verdictOn config resolver search source importer (.literal v)) = .ok (.normal, some v) := by
  have hliteral := outcome_ofLiteral resolver importer v
  rw [if_pos hplain] at hliteral
  rw [verdictOn_of_literal hliteral]
  rfl

/-- A literal that is no plain path comes to what its value comes to. -/
theorem outline_literal (hplain : Path.isPlain v = false) (hv : Glob.wildcard ∉ v) :
    outlineOf (verdictOn config resolver search source importer (.literal v)) =
      outlineOf (globOfPath source v (resolver.resolve v importer) >>=
        verdictOnGlob config search source importer) := by
  have hconstant : (Expression.literal v).constant = some v := by rw [constant]
  have hliteral := outcome_ofLiteral resolver importer v
  rw [hplain, if_neg Bool.false_ne_true] at hliteral
  match hres : resolver.resolve v importer with
  | .error e =>
    rw [hres] at hliteral
    rw [verdictOn_of_failure hliteral]
    unfold globOfPath GlobPattern.ofExpression
    rw [show Glob.ofExpression (.literal v) = .ok v from Glob.fragment_eq_self hv]
    rfl
  | .ok none =>
    rw [hres] at hliteral
    rw [verdictOn_constant hconstant hv hliteral, hres]
  | .ok (some r) =>
    rw [hres, ok_bind, redirection] at hliteral
    split at hliteral
    · next hr =>
      rw [verdictOn_of_literal hliteral, outline_fixed (some r) hv (Path.not_mem_of_isPlain hr)]
      exact congrArg Except.ok (if_pos hr).symm
    · rw [verdictOn_constant hconstant hv hliteral, hres]

/-- What a constant comes to by its value alone. -/
theorem outline_of_parse {e : Expression} (hconfig : KeepsArguments config)
    (hignored : isIgnored source = false) (hparse : Script.parse (importArgument source) = .ok e)
    (he : e.constant = some v) (hv : Glob.wildcard ∉ v) :
    outline (compile config resolver search source importer) =
      if e.isLiteral && Path.isPlain v then .ok (.normal, some v)
      else outlineOf (globOfPath [] v (resolver.resolve v importer) >>=
        verdictOnGlob config search [] importer) := by
  have houtline : outline (compile config resolver search source importer) =
      outlineOf (verdictOn config resolver search [] importer e) := by
    rw [outline, verdict_of_parse resolver search importer hconfig hignored hparse]
    exact outlineOf_congr (agree_verdictOn e)
  rw [houtline]
  cases hlit : e.isLiteral with
  | false => rw [verdictOn_constant he hv (ofLiteral_of_isLiteral hlit)]; rfl
  | true =>
    obtain rfl : e = .literal v := by
      cases e with
      | literal value => rw [constant] at he; rw [Option.some.inj he]
      | _ => cases hlit
    cases hplain : Path.isPlain v with
    | true => exact outline_asWritten hplain
    | false => exact outline_literal hplain hv

/-- The value of the constant that a source holds, and whether that is one literal. -/
def constantIn (source : Text) : Option (Text × Bool) :=
  (Script.parse (importArgument source)).toOption.bind fun e => e.constant.map fun v => (v, e.isLiteral)

theorem exists_of_constantIn {literal : Bool} (h : constantIn source = some (v, literal)) :
    ∃ e, Script.parse (importArgument source) = .ok e ∧ e.constant = some v ∧ e.isLiteral = literal := by
  obtain ⟨e, he, h⟩ := Option.bind_eq_some_iff.mp h
  obtain ⟨v', hv', h⟩ := Option.map_eq_some_iff.mp h
  obtain ⟨rfl, hlit⟩ := Prod.mk.inj h
  refine ⟨e, ?_, hv', hlit⟩
  cases hparse : Script.parse (importArgument source) with
  | ok e' => rw [hparse] at he; exact congrArg Except.ok (Option.some.inj he)
  | error => rw [hparse] at he; cases he

/-- **Constants with one value** come to the same, unless just one of them is a literal and the value is a
plain path that resolves to another path or cannot be resolved: such a literal is left as it is written. -/
theorem outline_constant {e e' : Expression} (hconfig : KeepsArguments config)
    (hignored : isIgnored source = false) (hignored' : isIgnored source' = false)
    (hparse : Script.parse (importArgument source) = .ok e)
    (hparse' : Script.parse (importArgument source') = .ok e')
    (he : e.constant = some v) (he' : e'.constant = some v) (hv : Glob.wildcard ∉ v) :
    (outline (compile config resolver search source importer) =
        outline (compile config resolver search source' importer) ↔
      e.isLiteral = e'.isLiteral ∨ Path.isPlain v = false ∨ resolver.resolve v importer = .ok none ∨
        ∃ r, resolver.resolve v importer = .ok (some r) ∧ r.path = v) ∧
    (e.isLiteral = true → Path.isPlain v = true →
      outline (compile config resolver search source importer) = .ok (.normal, some v)) := by
  rw [outline_of_parse hconfig hignored hparse he hv, outline_of_parse hconfig hignored' hparse' he' hv]
  refine ⟨?_, fun hlit hplain => by rw [hlit, hplain]; rfl⟩
  cases hplain : Path.isPlain v with
  | false => simp
  | true =>
    have hiff : outlineOf (globOfPath [] v (resolver.resolve v importer) >>=
          verdictOnGlob config search [] importer) = .ok (.normal, some v) ↔
        resolver.resolve v importer = .ok none ∨ ∃ r, resolver.resolve v importer = .ok (some r) ∧ r.path = v :=
      outline_plain_iff hplain
    cases e.isLiteral <;> cases e'.isLiteral
    · simp
    · simpa using hiff
    · simpa [eq_comm] using hiff
    · simp

/-- A configuration with an alias for a directory. -/
def directoryAlias (find replacement : Text) : Config := { «alias» := [⟨find, replacement, false⟩] }

/-- An aliased path in one piece and concatenated. -/
theorem outline_constant_aliased :
    outline (compileIn neighbours (directoryAlias "@".toList "/p/a".toList) "import('@/x.js')".toList
        "/p/main.js".toList) =
      outline (compileIn neighbours (directoryAlias "@".toList "/p/a".toList)
        "import('@'.concat('/x', `.js`))".toList "/p/main.js".toList) := by
  have hliteral : constantIn "import('@/x.js')".toList = some ("@/x.js".toList, true) := by
    decide +kernel
  have hconcat : constantIn "import('@'.concat('/x', `.js`))".toList = some ("@/x.js".toList, false) := by
    decide +kernel
  obtain ⟨e, hparse, he, -⟩ := exists_of_constantIn hliteral
  obtain ⟨e', hparse', he', -⟩ := exists_of_constantIn hconcat
  exact (outline_constant (fun _ _ => rfl) (by decide +kernel) (by decide +kernel) hparse hparse' he he'
    (by decide)).1.mpr (.inr (.inl (by decide +kernel)))

/-- A relative literal is left as it is written, while the same path in backquotes is resolved. -/
theorem literal_stays_unresolved :
    KeepsArguments (directoryAlias "./a".toList "/p/b".toList) ∧
      constantIn "import('./a/x.js')".toList = some ("./a/x.js".toList, true) ∧
      constantIn "import(`./a/x.js`)".toList = some ("./a/x.js".toList, false) ∧
      outline (compileIn neighbours (directoryAlias "./a".toList "/p/b".toList) "import('./a/x.js')".toList
        "/p/main.js".toList) = .ok (.normal, some "./a/x.js".toList) ∧
      outline (compileIn neighbours (directoryAlias "./a".toList "/p/b".toList) "import(`./a/x.js`)".toList
        "/p/main.js".toList) = .ok (.normal, some "./b/x.js".toList) := by
  refine ⟨fun _ _ => rfl, ?_, ?_, ?_, ?_⟩
  all_goals decide +kernel

end CallSite

end VariableImport
