import VariableImport.Proofs.Script.ImportCall

/-!
# Proofs/Script/ImportArgument — the text of the first argument stands for the call

An import call without comments is seen without parsing, the text of its first argument is cut out
without parsing, and this text is parsed as the call is (`importCall_iff_argument`).  What may differ is
the second argument, which the text leaves behind: a call is rejected if its second argument is
(`parse_unsound_options`).
-/

namespace VariableImport.Script

open Reader Scan

variable {source s t A : Text} {B : Option Text} {e : Expression}

/-! ## Parsing -/

theorem parse_eq_ok : parse source = .ok e ↔ ∃ tree r,
    (Script.source (Text.trim source)).found.head? = some (tree, r) ∧ tree.toExpression = some e := by
  unfold parse
  dsimp only
  cases (Script.source (Text.trim source)).found with
  | nil => simp
  | cons x l =>
    obtain ⟨tree, r⟩ := x
    cases h : tree.toExpression <;> simp [h]

/-- An expression is parsed as its first reading. -/
theorem IsExpression.parse_eq_ok (hA : IsExpression A) :
    parse A = .ok e ↔ (firstReading A).bind Tree.toExpression = some e := by
  rw [Script.parse_eq_ok, hA.solid.trim_eq, hA.head?_found]
  obtain ⟨tree, htree⟩ := exists_firstReading hA
  simp [htree, Source.toExpression]

/-- **A source without comments** that is parsed, but not as an import call, is an expression. -/
theorem isExpression_of_parse (htrim : Text.trim A = A) (hclean : Clean {} A)
    (hcall : (importCall A).found = []) (h : parse A = .ok e) : IsExpression A := by
  obtain ⟨x, r, hhead, -⟩ := Script.parse_eq_ok.mp h
  rw [htrim, source_eq, found_orElse_bind, found_bind_nil hcall, List.nil_append] at hhead
  obtain ⟨y, t, hy, hend⟩ := mem_bind.mp (List.mem_of_head? hhead)
  obtain ⟨tree, t', htree, hpure⟩ := mem_bind.mp hy
  obtain ⟨-, rfl⟩ := mem_pure.mp hpure
  obtain ⟨_, u, hfinish, -⟩ := mem_bind.mp hend
  obtain ⟨ws, hws, hspells⟩ := (recognizes_expression A t).mp ⟨tree, htree⟩
  have hf := leads_expressions [] false ws hws
  obtain ⟨hblank, hruns⟩ := runs_of_spells_clean (m := ⟨[], false⟩) isStack_nil hf hclean hspells
  -- only blanks are left, and no blank stands at the end
  obtain ⟨g, hg, rfl⟩ :=
    blankGap_of_placesWithin isStack_nil (mem_finish.mp hfinish).2 (hruns.clean.mp hclean)
  obtain ⟨v, d, hA, -⟩ := hblank.exists_last BlankGap.suffix hf (ne_nil_of_mem_expressions hws)
  have hsolid : Text.Solid A := by
    refine htrim ▸ (Text.trim_eq_nil_or_solid A).resolve_left fun hnil => ?_
    rw [htrim, hA] at hnil
    simp at hnil
  obtain rfl : g = [] := by
    by_contra hne
    obtain ⟨c, hc, hnot⟩ := hsolid.2
    rw [hA, List.append_nil, List.getLast?_append_of_ne_nil _ (List.cons_ne_nil d g),
      List.getLast?_cons, List.getLast?_eq_some_getLast hne] at hc
    obtain rfl := Option.some.inj hc
    cases (isBlank_of_isGapBlank (hg _ (List.getLast_mem hne))).symm.trans hnot
  refine ⟨⟨ws, hws, hblank⟩, fun c hc => ?_⟩
  obtain ⟨d, hd, hsolid⟩ := hsolid.1
  exact isGapBlank_of_not_isBlank (Option.some.inj (hc.symm.trans hd) ▸ hsolid)

theorem IsCall.first (h : IsCall s A B) : IsExpression A := by
  cases h with
  | mk _ _ hA _ => exact hA

theorem IsCall.second (h : IsCall s A B) : ∀ b ∈ B, IsExpression b := by
  cases h with
  | mk _ _ _ ht =>
    cases ht with
    | last => exact fun b hb => nomatch hb
    | options _ _ hB _ => exact fun b hb => Option.some.inj hb ▸ hB

/-- **An import call** is parsed as its first argument, if its second one is sound as well. -/
theorem IsCall.parse_eq_ok (h : IsCall (Text.trim source) A B) :
    parse source = .ok e ↔ parse A = .ok e ∧ ∀ b ∈ B, ∃ e', parse b = .ok e' := by
  obtain ⟨tree, htree⟩ := exists_firstReading h.first
  rw [Script.parse_eq_ok, h.head?_found, h.first.parse_eq_ok, htree]
  cases B with
  | none => simp [Source.toExpression]
  | some b =>
    have hb := h.second b rfl
    obtain ⟨options, hoptions⟩ := exists_firstReading hb
    have hsound : (∀ c ∈ some b, ∃ e', parse c = .ok e') ↔ options.toExpression.isSome = true := by
      simp [hb.parse_eq_ok, hoptions, Option.isSome_iff_exists]
    have hcall : (Source.importCall tree (some options)).toExpression =
        options.toExpression.bind fun _ => tree.toExpression := rfl
    rw [hsound, Option.bind_some, hoptions]
    simp only [Option.map_some, Option.some.injEq, Prod.mk.injEq, Option.bind_some]
    constructor
    · rintro ⟨_, _, ⟨rfl, -⟩, h⟩
      obtain ⟨e', he', h⟩ := Option.bind_eq_some_iff.mp (hcall ▸ h)
      exact ⟨h, Option.isSome_iff_exists.mpr ⟨e', he'⟩⟩
    · rintro ⟨h, hsome⟩
      obtain ⟨e', he'⟩ := Option.isSome_iff_exists.mp hsome
      exact ⟨_, _, ⟨rfl, rfl⟩, by rw [hcall, he', Option.bind_some, h]⟩

/-! ## Looking at the text -/

/-- Blanks do not hide a call behind them. -/
theorem callFrom_append {g : Text} (hg : Text.AllBlank g) (h : callFrom false s = true) :
    callFrom false (g ++ s) = true := by
  induction g with
  | nil => exact h
  | cons b g ih =>
    have hb := hg b (List.mem_cons_self ..)
    rw [List.cons_append, callFrom, Text.isWord_of_isBlank hb,
      ih fun c hc => hg c (List.mem_cons_of_mem _ hc), Bool.or_true]

/-- What stands before the closing parenthesis of a call begins with a comma, if not at the end. -/
theorem CallEnd.exists_init (h : CallEnd t) : ∃ g v, Blanks g ∧ (∀ c ∈ v.head?, c = ',') ∧
    t = g ++ v ++ [')'] := by
  cases h with
  | @close g hg => exact ⟨g, [], hg, fun _ hc => absurd hc (by simp), by rw [List.append_nil]⟩
  | @comma g g' hg hg' => exact ⟨g, ',' :: g', hg, fun c hc => (Option.some.inj hc).symm, by simp⟩

theorem CallTail.exists_init (h : CallTail B t) : ∃ g v, Blanks g ∧ (∀ c ∈ v.head?, c = ',') ∧
    t = g ++ v ++ [')'] := by
  cases h with
  | last h => exact h.exists_init
  | @options g g' B t hg hg' hB h =>
    obtain ⟨x, v, -, -, rfl⟩ := h.exists_init
    exact ⟨g, ',' :: (g' ++ (B ++ (x ++ v))), hg, fun c hc => (Option.some.inj hc).symm, by simp⟩

/-- **The first argument** of a call is everything before a comma outside or the end. -/
theorem firstArgument_eq {g g' v : Text} (hA : IsExpression A) (hg : Blanks g) (hg' : Blanks g')
    (hv : ∀ c ∈ v.head?, c = ',') : firstArgument {} (g ++ (A ++ (g' ++ v))) = g ++ (A ++ g') := by
  have hk : Boundary (g' ++ v) := by
    refine Ends.boundary ⟨v, ⟨g', hg', rfl⟩, fun c hc => .inl (hv c hc)⟩
  have hruns : Runs {} (g ++ (A ++ (g' ++ v))) {} v :=
    (runs_blanks isStack_nil hg _).trans ((hA.runs hk).trans (runs_blanks isStack_nil hg' v))
  obtain ⟨w, hw, hfirst⟩ := hruns.firstArgument
  have hnil : firstArgument {} v = [] := by
    cases v with
    | nil => rfl
    | cons c v =>
      obtain rfl := hv c rfl
      rfl
  rw [hfirst, hnil, List.append_nil]
  refine (List.append_left_inj v).mp ?_
  rw [← hw]
  simp

/-- The outside of a call: what its parentheses hold, and what comes of it as a first argument. -/
theorem IsCall.exists_text (h : IsCall s A B) : ∃ g x g₁ g₂, Blanks g ∧ Blanks g₁ ∧ Blanks g₂ ∧
    s = importText ++ (g ++ '(' :: (x ++ [')'])) ∧ firstArgument {} x = g₁ ++ (A ++ g₂) := by
  cases h with
  | @mk g g' A t B hg hg' hA ht =>
    obtain ⟨g₂, v, hg₂, hv, rfl⟩ := ht.exists_init
    exact ⟨g, g' ++ (A ++ (g₂ ++ v)), g', g₂, hg, hg', hg₂, by simp,
      firstArgument_eq hA hg' hg₂ hv⟩

/-- Behind blanks and in front of them a text begins with the word of imports. -/
theorem trimLeft_call {b g u : Text} (hb : Text.AllBlank b) :
    Text.trimLeft (b ++ (importText ++ (g ++ '(' :: u))) = importText ++ (g ++ '(' :: u) :=
  Text.trimLeft_append hb (c := 'i') (by decide) _

theorem startsCall_append {g u : Text} (hg : Blanks g) :
    startsCall (importText ++ (g ++ '(' :: u)) = true := by
  unfold startsCall
  rw [Text.isPrefixOf?_eq_some.mpr rfl]
  dsimp only
  rw [Text.trimLeft_append hg.allBlank (by decide)]
  rfl

/-- **An import call is seen** without parsing. -/
theorem hasDynamicImport_of_isCall (h : IsCall (Text.trim source) A B) :
    hasDynamicImport source = true := by
  obtain ⟨b, b', hb, -, hsource⟩ := Text.exists_trim source
  obtain ⟨g, x, -, -, hg, -, -, htrim, -⟩ := h.exists_text
  have hcall : callFrom false (importText ++ (g ++ '(' :: (x ++ [')'] ++ b'))) = true := by
    show (!false && startsCall (importText ++ _) || _) = true
    rw [startsCall_append hg]
    rfl
  rw [hsource, htrim, hasDynamicImport]
  simpa using callFrom_append hb hcall

/-- **The text of the first argument** of an import call is found without parsing. -/
theorem importArgument_of_isCall (h : IsCall (Text.trim source) A B) : importArgument source = A := by
  obtain ⟨b, b', hb, hb', hsource⟩ := Text.exists_trim source
  obtain ⟨g, x, g₁, g₂, hg, hg₁, hg₂, htrim, hfirst⟩ := h.exists_text
  have hinner : inner? source = some x := by
    have e : source = b ++ (importText ++ (g ++ '(' :: (x ++ [')'] ++ b'))) := by
      rw [hsource, htrim]
      simp
    have hleft := Text.trimLeft_append hg.allBlank (c := '(') (by decide) (x ++ [')'] ++ b')
    have hright := Text.trimRight_append hb' (c := ')') (by decide) x
    unfold inner?
    rw [e, trimLeft_call hb, Text.isPrefixOf?_eq_some.mpr rfl]
    dsimp only
    rw [hleft]
    show (if (Text.trimRight (x ++ [')'] ++ b')).getLast? = some ')' then _ else none) = some x
    rw [hright, List.getLast?_concat, if_pos rfl, List.dropLast_concat]
  rw [importArgument, hinner]
  show Text.trim (firstArgument {} x) = A
  rw [hfirst, ← List.append_assoc]
  exact Text.trim_solid hg₁.allBlank hg₂.allBlank h.first.solid

/-- **An import call and its first argument.**  The call is seen, its first argument is what is found
without parsing, and the one is parsed as the other, unless the second argument is not sound. -/
theorem importCall_iff_argument (h : IsCall (Text.trim source) A B) :
    hasDynamicImport source = true ∧ importArgument source = A ∧
      ∀ e, parse source = .ok e ↔
        parse (importArgument source) = .ok e ∧ ∀ b ∈ B, ∃ e', parse b = .ok e' := by
  have hargument := importArgument_of_isCall h
  exact ⟨hasDynamicImport_of_isCall h, hargument, fun e => hargument ▸ h.parse_eq_ok⟩

/-- Commas and quotes nested in a template end no argument. -/
theorem importCall_iff_argument_nested :
    IsCall (Text.trim " import(`./$\x7bf(\"a,b\", '`')\x7d.js`, options ,)\n".toList)
        "`./$\x7bf(\"a,b\", '`')\x7d.js`".toList (some "options".toList) ∧
      importArgument " import(`./$\x7bf(\"a,b\", '`')\x7d.js`, options ,)\n".toList =
        "`./$\x7bf(\"a,b\", '`')\x7d.js`".toList := by
  have htail : CallTail (some "options".toList)
      ([] ++ ',' :: ([' '] ++ ("options".toList ++ ([' '] ++ ',' :: ([] ++ [')']))))) :=
    .options (by decide) (by decide) (by decide +kernel) (.comma (by decide) (by decide))
  have hcall : IsCall (Text.trim " import(`./$\x7bf(\"a,b\", '`')\x7d.js`, options ,)\n".toList)
      "`./$\x7bf(\"a,b\", '`')\x7d.js`".toList (some "options".toList) := by
    have htext : Text.trim " import(`./$\x7bf(\"a,b\", '`')\x7d.js`, options ,)\n".toList =
        importText ++ ([] ++ '(' :: ([] ++ ("`./$\x7bf(\"a,b\", '`')\x7d.js`".toList ++
          ([] ++ ',' :: ([' '] ++ ("options".toList ++ ([' '] ++ ',' :: ([] ++ [')'])))))))) := by
      decide +kernel
    exact htext ▸ .mk (by decide) (by decide) (by decide +kernel) htail
  exact ⟨hcall, (importCall_iff_argument hcall).2.1⟩

/-- Whether a text is read as the literal of a text. -/
def readsLiteral (w s : Text) : Bool :=
  match parse s with
  | .ok (.literal v) => v = w
  | _ => false

theorem parse_of_readsLiteral {w s : Text} (h : readsLiteral w s = true) : parse s = .ok (.literal w) := by
  unfold readsLiteral at h
  split at h
  · next hv => rw [hv, of_decide_eq_true h]
  · simp at h

/-- A second argument that spells a code point beyond Unicode has the call rejected, and not the text
of its first argument. -/
theorem parse_unsound_options :
    IsCall (Text.trim "import('./a.js', '\\u\x7b110000\x7d')".toList) "'./a.js'".toList
        (some "'\\u\x7b110000\x7d'".toList) ∧
      parse (importArgument "import('./a.js', '\\u\x7b110000\x7d')".toList) =
        .ok (.literal "./a.js".toList) ∧
      ∀ e, parse "import('./a.js', '\\u\x7b110000\x7d')".toList ≠ .ok e := by
  have htail : CallTail (some "'\\u\x7b110000\x7d'".toList)
      ([] ++ ',' :: ([' '] ++ ("'\\u\x7b110000\x7d'".toList ++ ([] ++ [')'])))) :=
    .options (by decide) (by decide) (by decide +kernel) (.close (by decide))
  have hcall : IsCall (Text.trim "import('./a.js', '\\u\x7b110000\x7d')".toList)
      "'./a.js'".toList (some "'\\u\x7b110000\x7d'".toList) := by
    have htext : Text.trim "import('./a.js', '\\u\x7b110000\x7d')".toList =
        importText ++ ([] ++ '(' :: ([] ++ ("'./a.js'".toList ++
          ([] ++ ',' :: ([' '] ++ ("'\\u\x7b110000\x7d'".toList ++ ([] ++ [')']))))))) := by
      decide +kernel
    exact htext ▸ .mk (by decide) (by decide) (by decide +kernel) htail
  have hfirst : readsLiteral "./a.js".toList
      (importArgument "import('./a.js', '\\u\x7b110000\x7d')".toList) = true := by
    decide +kernel
  have hwhole : (parse "import('./a.js', '\\u\x7b110000\x7d')".toList).toOption = none := by
    decide +kernel
  refine ⟨hcall, parse_of_readsLiteral hfirst, fun e he => ?_⟩
  rw [he] at hwhole
  cases hwhole

end VariableImport.Script
