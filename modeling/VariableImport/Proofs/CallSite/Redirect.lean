import VariableImport.Proofs.CallSite.StaticHead
import VariableImport.Proofs.Script.StringLiteral

/-!
# Proofs/CallSite/Redirect — the import that replaces a fixed one

A call site that imports one file by another path is replaced by an import of that path, which stands
between the quotes as it is.  The path is plain, and plain text spells itself; only the newline that
a plain path may end with breaks the import (`parse_replacement`).
-/

namespace VariableImport

/-! ## Plain paths -/

namespace Path

/-- Plain characters stand between quotes as they are. -/
theorem verbatim_of_isPlainChar {w : Text} (hw : ∀ c ∈ w, isPlainChar c = true) :
    Script.Verbatim '"' w := by
  intro c hc
  have hplain := hw c hc
  refine ⟨?_, ?_, ?_⟩
  all_goals
    rintro rfl
    exact absurd hplain (by decide)

/-- A plain name is made of plain characters. -/
theorem isPlainChar_of_hasPlainName {s : Text} (h : hasPlainName s = true) :
    ∀ c ∈ s, isPlainChar c = true := by
  unfold hasPlainName at h
  split at h
  · next stem ext hcut =>
    obtain ⟨rfl, -⟩ := Text.cutLast_eq_some.mp hcut
    simp only [Bool.and_eq_true, List.all_eq_true] at h
    obtain ⟨⟨⟨-, hstem⟩, -⟩, hext⟩ := h
    intro c hc
    rcases List.mem_append.mp hc with hc | hc
    · exact hstem c hc
    · rcases List.mem_cons.mp hc with rfl | hc
      · rfl
      · simp [isPlainChar, hext c hc]
  · simp at h

/-- The text without a newline at its end, with the newline or without. -/
theorem eq_dropNewline_or (s : Text) :
    s = Text.dropNewline s ∨ s = Text.dropNewline s ++ ['\n'] := by
  unfold Text.dropNewline
  split
  · next h =>
    obtain ⟨t, rfl⟩ := List.getLast?_eq_some_iff.mp h
    exact .inr (by simp)
  · exact .inl rfl

/-- **A plain path** is made of plain characters, and a newline may follow. -/
theorem exists_of_isPlain {p : Text} (h : isPlain p = true) :
    ∃ w, (∀ c ∈ w, isPlainChar c = true) ∧ (p = w ∨ p = w ++ ['\n']) := by
  have hbehind (head : Text) {rest : Text} (hhead : ∀ c ∈ head, isPlainChar c = true)
      (h : hasPlainName (Text.dropNewline rest) = true) :
      ∃ w, (∀ c ∈ w, isPlainChar c = true) ∧ (head ++ rest = w ∨ head ++ rest = w ++ ['\n']) := by
    refine ⟨head ++ Text.dropNewline rest, fun c hc => ?_, ?_⟩
    · exact (List.mem_append.mp hc).elim (hhead c) (isPlainChar_of_hasPlainName h c)
    · rw [List.append_assoc, List.append_right_inj, List.append_right_inj]
      exact eq_dropNewline_or rest
  unfold isPlain at h
  split at h
  · exact hbehind ['.', '/'] (List.all_eq_true.mp (by decide)) h
  · exact hbehind ['.', '.', '/'] (List.all_eq_true.mp (by decide)) h
  · simp at h

end Path

namespace CallSite

variable {config : Config} {resolver : AliasResolver} {search : Search} {source importer : Text}

/-! ## Redirected call sites -/

theorem isPlain_of_ofLiteral {e : Expression} {path : Text} {glob : Option GlobPattern}
    (h : (ofLiteral resolver importer e).outcome = .ok (some (.redirected path glob))) :
    Path.isPlain path = true := by
  have h := ofLiteral_eq_ok_iff.mp h
  cases h with
  | redirected _ _ hplain => exact hplain

theorem isPlain_of_planExpression {e : Expression} {path : Text} {glob : Option GlobPattern}
    (h : (planExpression config resolver source importer e).outcome =
      .ok (.settled (.redirected path glob))) : Path.isPlain path = true := by
  have h := planExpression_eq_ok_iff.mp h
  cases h with
  | literal h => exact isPlain_of_ofLiteral h
  | redirected _ _ _ hplain => exact hplain

theorem verdictOnFiles_ne_redirected {glob : GlobPattern} {globs found : List Text} {path : Text}
    {glob' : Option GlobPattern} :
    verdictOnFiles config importer glob globs found ≠ .redirected path glob' := by
  unfold verdictOnFiles
  dsimp only
  split <;> nofun

/-- **A call site is redirected to a plain path only.** -/
theorem isPlain_of_redirected {site : CallSite} {path : Text} {glob : Option GlobPattern}
    (h : (compile config resolver search source importer).outcome = .ok site)
    (hv : site.verdict = .redirected path glob) : Path.isPlain path = true := by
  have h := compile_eq_ok_iff.mp h
  cases h with
  | @settled argument verdict hplan =>
    obtain rfl : verdict = .redirected path glob := hv
    obtain ⟨e, -, hexpr⟩ : ∃ e, _ ∧ _ := (plan_eq_ok hplan).resolve_left nofun
    exact isPlain_of_planExpression hexpr
  | searched => exact absurd hv verdictOnFiles_ne_redirected

/-! ## The replacement -/

/-- The import of a path is one of the path between quotes. -/
theorem importOf_eq (path : Text) :
    importOf path = Script.importText ++ '(' :: (Script.quote path ++ [')']) := by
  have hbefore : "import(\"".toList = Script.importText ++ ['(', '"'] := rfl
  have hbehind : "\")".toList = ['"', ')'] := rfl
  unfold importOf Script.quote
  simp only [hbefore, hbehind, List.append_assoc, List.cons_append, List.nil_append]

/-- **The replacement of a normal import** is parsed as the literal of its path, unless the path ends with
a newline; then it is not parsed. -/
theorem parse_replacement {s : NumberedSite} {text : Text}
    (h : (compile config resolver search source importer).outcome = .ok s.site)
    (hkind : s.site.verdict.kind = .normal) (htext : s.replacement = some text) :
    ∃ path, s.site.verdict.path = some path ∧ text = importOf path ∧
      (path.getLast? ≠ some '\n' → Script.parse text = .ok (.literal path)) ∧
      (path.getLast? = some '\n' → ∀ e, Script.parse text ≠ .ok e) := by
  unfold NumberedSite.replacement at htext
  split at htext
  · next path glob hv =>
    obtain rfl := Option.some.inj htext
    obtain ⟨w, hw, hpath⟩ := Path.exists_of_isPlain (isPlain_of_redirected h hv)
    have hverbatim := Path.verbatim_of_isPlainChar hw
    refine ⟨path, by rw [hv]; rfl, rfl, fun hlast => ?_, fun hlast e => ?_⟩
    · obtain rfl : path = w := hpath.resolve_right fun e => hlast (by rw [e, List.getLast?_concat])
      rw [importOf_eq]
      exact Script.parse_quoted hverbatim
    · obtain rfl : path = w ++ ['\n'] := by
        refine hpath.resolve_left fun e => ?_
        exact (hverbatim '\n' (List.mem_of_getLast? (e ▸ hlast))).2.2 rfl
      rw [importOf_eq]
      exact Script.parse_newline hverbatim [] e
  · next hv =>
    rw [hv] at hkind
    simp [Verdict.kind] at hkind
  · simp at htext

/-- Whether a run redirects to a path. -/
def redirectsTo (path : Text) (run : Logged CallSite) : Bool :=
  match run.outcome with
  | .ok { verdict := .redirected p _, .. } => p == path
  | _ => false

theorem exists_of_redirectsTo {path : Text} {run : Logged CallSite} (h : redirectsTo path run = true) :
    ∃ site glob, run.outcome = .ok site ∧ site.verdict = .redirected path glob := by
  unfold redirectsTo at h
  split at h
  · next source argument importer p glob hrun =>
    obtain rfl := beq_iff_eq.mp h
    exact ⟨_, glob, hrun, rfl⟩
  · simp at h

/-- A path put together from parts is imported in one piece. -/
theorem parse_replacement_joined :
    ∃ s : NumberedSite, (compileIn neighbours {} "import('./a' + '.js')".toList
      "/p/main.js".toList).outcome = .ok s.site ∧ s.replacement = some (importOf "./a.js".toList) ∧
      Script.parse (importOf "./a.js".toList) = .ok (.literal "./a.js".toList) := by
  have h : redirectsTo "./a.js".toList
      (compileIn neighbours {} "import('./a' + '.js')".toList "/p/main.js".toList) = true := by
    decide +kernel
  obtain ⟨site, glob, h, hv⟩ := exists_of_redirectsTo h
  have hreplacement : (NumberedSite.mk site none).replacement = some (importOf "./a.js".toList) := by
    simp only [NumberedSite.replacement, hv]
  obtain ⟨path, hpath, -, hparse, -⟩ :=
    parse_replacement (s := ⟨site, none⟩) h (by rw [hv]; rfl) hreplacement
  rw [hv] at hpath
  obtain rfl : "./a.js".toList = path := Option.some.inj hpath
  exact ⟨⟨site, none⟩, h, hreplacement, hparse (by decide)⟩

/-- A newline that is spelled at the end of a path breaks the import that is written for it. -/
theorem newline_breaks_replacement :
    ∃ s : NumberedSite, (compileIn neighbours {} "import('./a' + '.js\\n')".toList
      "/p/main.js".toList).outcome = .ok s.site ∧ s.site.verdict.kind = .normal ∧
      s.site.verdict.path = some "./a.js\n".toList ∧
      s.replacement = some (importOf "./a.js\n".toList) ∧
      ∀ e, Script.parse (importOf "./a.js\n".toList) ≠ .ok e := by
  have h : redirectsTo "./a.js\n".toList
      (compileIn neighbours {} "import('./a' + '.js\\n')".toList "/p/main.js".toList) = true := by
    decide +kernel
  obtain ⟨site, glob, h, hv⟩ := exists_of_redirectsTo h
  refine ⟨⟨site, none⟩, h, by rw [hv]; rfl, by rw [hv]; rfl, ?_, ?_⟩
  · simp only [NumberedSite.replacement, hv]
  · have hplain : ∀ c ∈ "./a.js".toList, Path.isPlainChar c = true :=
      List.all_eq_true.mp (by decide)
    have htext : "./a.js\n".toList = "./a.js".toList ++ ['\n'] := by decide
    rw [importOf_eq, htext]
    exact Script.parse_newline (Path.verbatim_of_isPlainChar hplain) []

end CallSite

end VariableImport
