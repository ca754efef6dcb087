import VariableImport.Proofs.Script.SteadyGrammar

/-!
# Proofs/Script/Commented — expressions with comments

An expression may have comments between its tokens, before and behind them (`IsCommented`).  Without them
it is an alike text, and still one in front of a closing parenthesis, if no comment goes on there
(`exists_uncomments`).  So a call with it is parsed as the expression is (`IsCommented.parse_call`).
-/

namespace VariableImport.Script

variable {s t u v w r A : Text} {p : Option Char} {ws : List Terminal} {τ : Terminal}

/-! ## In front of a parenthesis -/

theorem boundary_close : Boundary [')'] := fun _ hc => .inr (.inr (.inl (Option.some.inj hc).symm))

theorem afterBlock_close (h : afterBlock (u ++ [')']) = some v) : ∃ w, afterBlock u = some w := by
  fun_induction afterBlock u with
  | case1 u => exact ⟨u, rfl⟩
  | case2 c u hu ih =>
    have hnext : c = '*' → ∀ t, u ++ [')'] ≠ '/' :: t := by
      intro hc t e
      cases u with
      | nil => exact absurd (List.cons.inj e).1 (by decide)
      | cons d u => exact hu u hc (congrArg (· :: u) (List.cons.inj e).1)
    rw [List.cons_append, afterBlock.eq_2 c (u ++ [')']) fun t hc e => hnext hc t e] at h
    exact ih h
  | case3 => simp [afterBlock] at h

/-- Where no gap begins none begins in front of a parenthesis. -/
theorem gap?_close : gap? (u ++ [')']) = none ↔ gap? u = none := by
  have plain {c : Char} {t : Text} (hline : ∀ v, c = '/' → t = '/' :: v → False)
      (hblock : ∀ v, c = '/' → t = '*' :: v → False) :
      gap? (c :: t ++ [')']) = if isGapBlank c then some ((t ++ [')']).dropWhile isGapBlank) else none := by
    have hnext {d : Char} (hd : d ≠ ')') (h : ∀ v, c = '/' → t = d :: v → False) (v : Text) (hc : c = '/')
        (e : t ++ [')'] = d :: v) : False := by
      cases t with
      | nil => exact hd (List.cons.inj e).1.symm
      | cons d' t => exact h t hc (congrArg (· :: t) (List.cons.inj e).1)
    exact gap?.eq_3 c (t ++ [')']) (hnext (by decide) hline) (hnext (by decide) hblock)
  fun_cases gap? u with
  | case1 t => exact iff_of_false (Option.some_ne_none _) (Option.some_ne_none _)
  | case2 t =>
    show afterBlock (t ++ [')']) = none ↔ _
    rcases afterBlock_append boundary_close t with ⟨r, ht, hk⟩ | ⟨ht, -⟩
    · simp [ht, hk]
    · refine iff_of_true (Option.eq_none_iff_forall_ne_some.mpr fun v hv => ?_) ht
      obtain ⟨w, hw⟩ := afterBlock_close hv
      cases hw.symm.trans ht
  | case3 c t hline hblock hc =>
    rw [plain hline hblock, if_pos hc]
    simp
  | case4 c t hline hblock hc => rw [plain hline hblock, if_neg hc]
  | case5 => exact iff_of_true rfl rfl

/-- A gap that something follows is passed over in front of a parenthesis. -/
theorem gap?_append_close (h : gap? s = some t) (ht : t ≠ []) : gap? (s ++ [')']) = some (t ++ [')']) := by
  rcases gap?_append boundary_close s with ⟨r, hr, hk⟩ | ⟨hnil, -⟩
  · rwa [← Option.some.inj (hr.symm.trans h)]
  · exact absurd (hnil t h) ht

theorem Skips.ne_nil (h : Skips s u) (hu : u ≠ []) : s ≠ [] := by
  rintro rfl
  exact hu (List.suffix_nil.mp h.suffix)

/-- Gaps that something follows are passed over in front of a parenthesis. -/
theorem Skips.append_close (h : Skips s u) (hu : u ≠ []) : Skips (s ++ [')']) (u ++ [')']) := by
  induction h with
  | here h => exact .here (gap?_close.mpr h)
  | @gap s t u hgap hslash h ih =>
    obtain ⟨c, v, rfl, -⟩ := head_of_gap? hgap
    exact .gap (gap?_append_close hgap (h.ne_nil hu)) (fun hc => gap?_close.mpr (hslash hc)) (ih hu)

/-- **Whether nothing but gaps that end stands behind a token**: a parenthesis may follow. -/
def Closes (r : Text) : Prop := Skips (r ++ [')']) [')']

theorem Skips.of_close (h : Skips s u) (hu : u = [')']) (hs : s = r ++ [')']) : Skips r [] := by
  induction h generalizing r with
  | here h =>
    obtain rfl : r = [] := by simpa using hs.symm.trans hu
    exact .here rfl
  | @gap s t u hgap hslash h ih =>
    subst hu hs
    obtain ⟨r', rfl⟩ := h.suffix
    have hr : gap? r = some r' := by
      obtain ⟨x, hx⟩ : ∃ x, gap? r = some x := by
        rw [← Option.ne_none_iff_exists']
        intro hnone
        cases hgap.symm.trans (gap?_close.mpr hnone)
      rcases gap?_append boundary_close r with ⟨y, hy, hk⟩ | ⟨hnil, hlen⟩
      · rw [hy, List.append_cancel_right (Option.some.inj (hk.symm.trans hgap))]
      · have := hlen _ hgap
        obtain rfl : r' = [] := List.eq_nil_of_length_eq_zero (by simp at this; simpa using this)
        rw [hx, hnil x hx]
    obtain ⟨c, v, rfl, -⟩ := head_of_gap? hr
    exact .gap hr (fun hc => gap?_close.mp (hslash hc)) (ih rfl rfl)

theorem Closes.skips (h : Closes r) : Skips r [] := Skips.of_close h rfl rfl

/-! ## Tokens in pieces -/

theorem plain_of_mem_words (hτ : τ.isToken = true) {c : Char} (h : c :: v ∈ τ.words) :
    c ∉ openings ∧ ∀ d ∈ v, isPlain d = true := by
  have all {words : List Text} (hwords : (words.all fun w =>
      w.head?.any (!openings.contains ·) && w.tail.all isPlain) = true) (h : c :: v ∈ words) :
      c ∉ openings ∧ ∀ d ∈ v, isPlain d = true := by
    simpa using List.all_eq_true.mp hwords _ h
  cases τ with
  | mark d =>
    obtain ⟨rfl, rfl⟩ := List.cons.inj (List.mem_singleton.mp h)
    exact ⟨not_mem_openings hτ, fun _ hc => absurd hc List.not_mem_nil⟩
  | quoted q => exact absurd h List.not_mem_nil
  | _ => exact all (by decide) h

/-- **A token is a piece**, with plain characters behind it if it is longer than a character. -/
theorem exists_piece_of_scan (hτ : τ.isToken = true) {a : Text} (h : τ.scan s = some (a, t)) :
    ∃ w v, Piece w ∧ (∀ c ∈ v, isPlain c = true) ∧ s = w ++ (v ++ t) := by
  obtain ⟨x, hlexeme, rfl⟩ := exists_lexeme_of_scan h
  have hnil : ∀ c ∈ ([] : Text), isPlain c = true := fun _ hc => absurd hc List.not_mem_nil
  cases hlexeme with
  | word hw =>
    obtain ⟨c, v, rfl⟩ := List.exists_cons_of_ne_nil (ne_nil_of_mem_words hw)
    obtain ⟨hc, hv⟩ := plain_of_mem_words hτ hw
    exact ⟨[c], v, .char hc, hv, rfl⟩
  | @quoted q _ ha =>
    have hq : q = '\'' ∨ q = '"' := by simpa [Terminal.isToken] using hτ
    have hback : q ≠ '\\' := by rcases hq with rfl | rfl <;> decide
    exact ⟨_, [], .string hq ((quotedBody_eq_some_iff hback).mpr ⟨ha, rfl⟩), hnil, rfl⟩
  | @part _ o opens _ hpart ha =>
    have ho : o = '`' ∨ o = '\x7d' := by cases τ <;> cases hpart <;> decide
    exact ⟨_, [], .template ho (templateBody_eq_some_iff.mpr ⟨ha, by rw [List.append_nil]⟩), hnil, rfl⟩
  | @number c u hc hu =>
    refine ⟨[c], u, .plain (isPlain_of_isDecimal hc), fun d hd => ?_, rfl⟩
    rcases hu d hd with hd | rfl
    exacts [isPlain_of_isDecimal hd, by decide]
  | @name c u hc hu =>
    exact ⟨[c], u, .plain (isPlain_of_inName (inName_of_startsName hc)),
      fun d hd => isPlain_of_inName (hu d hd), rfl⟩

theorem isToken_of_follow {m m' : Mode} (hf : m.follow τ = some m') : τ.isToken = true := by
  have hf := Mode.follows_of_follow hf
  cases τ with
  | mark c => exact List.all_eq_true.mp (by decide : Mode.punctuation.all isPlain = true) c hf.mem_punctuation
  | quoted q => rcases hf.isQuote with rfl | rfl <;> rfl
  | _ => rfl

section Behind

variable {c : Char} (hv : ∀ d ∈ v, isPlain d = true)

include hv

/-- Plain characters one after another. -/
theorem Alike.chars (h : Alike (c :: v).getLast? s t) : Alike (some c) (v ++ s) (v ++ t) := by
  induction v generalizing c with
  | nil => exact h
  | cons d v ih =>
    have hd := hv d (List.mem_cons_self ..)
    have hrest := ih (fun e he => hv e (List.mem_cons_of_mem _ he)) (c := d) (by simpa using h)
    exact .piece (.plain hd) (.here (gap?_of_isPlain hd _)) (.here (gap?_of_isPlain hd _)) (fun _ _ => rfl)
      (fun _ _ => rfl) hrest

theorem later_chars (s t : Text) : Later (v ++ s, v ++ t) (s, t) := by
  induction v with
  | nil => exact .refl
  | cons d v ih =>
    have hd := hv d (List.mem_cons_self ..)
    have hstep : Together (d :: v ++ s, d :: v ++ t) (v ++ s, v ++ t) :=
      ⟨[d], .plain hd, .here (gap?_of_isPlain hd (v ++ s)), .here (gap?_of_isPlain hd (v ++ t))⟩
    exact .head hstep (ih fun e he => hv e (List.mem_cons_of_mem _ he))

/-- A piece and plain characters behind it. -/
theorem Alike.behind (hw : Piece w) (h : Alike (w ++ v).getLast? s t) :
    Alike w.getLast? (v ++ s) (v ++ t) := by
  obtain ⟨x, c, rfl⟩ := List.eq_nil_or_concat w |>.resolve_left hw.ne_nil
  rw [List.concat_eq_append, List.getLast?_concat]
  refine Alike.chars hv ?_
  simpa [List.getLast?_append, List.getLast?_cons] using h

/-- **A token is found in an alike text** with what goes together left. -/
theorem scan_of_alike (hτ : τ.isToken = true) (hw : Piece w) (h : Alike (w ++ v).getLast? s t) {a : Text}
    (hscan : τ.scan (w ++ (v ++ s)) = some (a, s)) : τ.scan (w ++ (v ++ t)) = some (a, t) := by
  have hmatched := scan_alike hτ hw (h.behind hv hw)
  rw [hscan] at hmatched
  generalize hx : τ.scan (w ++ (v ++ t)) = x at hmatched
  cases hmatched with
  | @some _ y hy =>
    obtain ⟨b, r⟩ := y
    obtain ⟨rfl, hlater⟩ : a = b ∧ Later (v ++ s, v ++ t) (s, r) := hy
    have hlen : r.length = t.length := (hlater.length_eq_iff (later_chars hv s t)).mp rfl
    obtain ⟨x, -, hr⟩ := exists_of_scan hx
    have hrt : r <:+ t := List.suffix_of_suffix_length_le ⟨x, hr.symm⟩
      ⟨w ++ v, by rw [List.append_assoc]⟩ hlen.le
    rw [hrt.eq_of_length hlen]

end Behind

/-! ## Without the comments -/

/-- No token goes on with a parenthesis. -/
theorem joins_close (c : Char) : joins c [')'] = false := by
  have hwords : ∀ w ∈ longWords, ')' ∉ w := by decide
  have hadjacent : adjacent c ')' = false := by
    refine List.any_eq_false.mpr fun w hw h => hwords w hw ?_
    have hmem : (c, ')') ∈ w.zip w.tail := by simpa using h
    exact List.mem_of_mem_tail (List.of_mem_zip hmem).2
  have hname : inName ')' = false := by decide
  have hdecimal : Text.isDecimal ')' = false := by decide
  simp [joins, hadjacent, hname, hdecimal]

/-- Whether a token goes on behind a character in both texts, if it does in one. -/
def Touch (p : Option Char) (s u s₀ u₀ : Text) : Prop :=
  (p.any (joins · s) = true → s = u → s₀ = u₀) ∧ (p.any (joins · s₀) = true → s₀ = u₀ → s = u)

theorem touch_of_not_joins {s u s₀ u₀ : Text} (h : ∀ x, p.any (joins · x) = false) : Touch p s u s₀ u₀ :=
  ⟨fun hj => absurd ((h s).symm.trans hj) Bool.false_ne_true,
    fun hj => absurd ((h s₀).symm.trans hj) Bool.false_ne_true⟩

/-- **Whether a text without comments goes together with another**, behind gaps and in front of a
parenthesis. -/
structure Uncomments (ws : List Terminal) (u u₀ : Text) : Prop where
  gap?_eq : gap? u = none
  gap?_eq' : gap? u₀ = none
  spells : Spells BlankGap ws u₀ []
  alike {p : Option Char} {s s₀ : Text} (hs : Skips s u) (hs₀ : Skips s₀ u₀) (h : Touch p s u s₀ u₀) :
    Alike p s s₀
  alike_close {p : Option Char} {s s₀ : Text} (hs : Skips s (u ++ [')'])) (hs₀ : Skips s₀ (u₀ ++ [')']))
    (h : Touch p s (u ++ [')']) s₀ (u₀ ++ [')'])) : Alike p s s₀

/-- Where no gap begins no blank stands. -/
theorem isGapBlank_of_gap? (hu : gap? u = none) : ∀ c ∈ u.head?, isGapBlank c = false := by
  intro c hc
  obtain ⟨v, rfl⟩ := List.head?_eq_some_iff.mp hc
  by_contra hb
  have hb := Bool.not_eq_false _ ▸ hb
  have hslash : c ≠ '/' := by
    rintro rfl
    exact absurd hb (by decide)
  rw [gap?.eq_3 c v (fun _ h => absurd h hslash) fun _ h => absurd h hslash, if_pos hb] at hu
  cases hu

/-- Blanks are passed over. -/
theorem Skips.of_blankGap (h : BlankGap s u) (hu : gap? u = none) : Skips s u := by
  obtain ⟨g, hg, rfl⟩ := h
  cases g with
  | nil => exact .here hu
  | cons c g =>
    refine .gap (gap?_blanks hg (isGapBlank_of_gap? hu)) (fun hc => ?_) (.here hu)
    obtain rfl : c = '/' := Option.some.inj hc
    exact absurd (hg _ (List.mem_cons_self ..)) (by decide)

/-- A blank is passed over. -/
theorem skips_blank (hu : gap? u = none) : Skips (' ' :: u) u := .of_blankGap ⟨[' '], by decide, rfl⟩ hu

/-- A token of a spelling with blanks alone starts no gap. -/
theorem gap?_of_scan {m m₁ m' : Mode} {a : Text} (hτ : m.follow τ = some m₁)
    (hf : m₁.followAll ws = some m') (hop : m'.operand = false) (hscan : τ.scan s = some (a, t))
    (h : Spells BlankGap ws t r) : gap? s = none := by
  refine gap?_eq_none (Scan.startsComment_of_scan hτ hf hop hscan h) fun c hc => ?_
  obtain ⟨y, rfl⟩ := List.head?_eq_some_iff.mp hc
  exact isGapBlank_of_not_isBlank (isBlank_of_scan hτ hscan)

/-- The end of a text. -/
theorem uncomments_nil : Uncomments [] [] [] where
  gap?_eq := rfl
  gap?_eq' := rfl
  spells := .nil []
  alike hs hs₀ _ := .done hs hs₀
  alike_close hs hs₀ h := .piece (.char (by decide)) hs hs₀ h.1 h.2 (.done (.here rfl) (.here rfl))

/-- **A token in front of a text** that goes together with one without comments. -/
theorem Uncomments.cons {m m₁ m' : Mode} {a : Text} (hτ : m.follow τ = some m₁)
    (hf : m₁.followAll ws = some m') (hop : m'.operand = false) (hu : gap? u = none)
    (hscan : τ.scan u = some (a, t)) (htv : Skips t v) (hclose : Skips (t ++ [')']) (v ++ [')']))
    {v₀ : Text} (h : Uncomments ws v v₀) : ∃ u₀, Uncomments (τ :: ws) u u₀ := by
  obtain ⟨w, x, hw, hx, rfl⟩ := exists_piece_of_scan (isToken_of_follow hτ) hscan
  -- blanks stand where gaps stood, except at the end
  obtain ⟨t₀, hspells, halike, halike'⟩ : ∃ t₀, Spells BlankGap ws t₀ [] ∧ (∀ p, Alike p t t₀) ∧
      ∀ p, Alike p (t ++ [')']) (t₀ ++ [')']) := by
    have hv₀ : Skips (v₀ ++ [')']) (v₀ ++ [')']) := .here (gap?_close.mpr h.gap?_eq')
    by_cases htouch : t = v ∨ ws = []
    · have hend {p : Option Char} {k : Text} (hk : ∀ c, joins c k = false)
          (hj : p.any (joins · (v₀ ++ k)) = true) : t = v := by
        refine htouch.resolve_right fun e => ?_
        obtain rfl : v₀ = [] := (spells_nil.mp (e ▸ h.spells)).symm
        cases p with
        | none => cases hj
        | some c => cases (hk c).symm.trans hj
      refine ⟨v₀, h.spells, fun p => h.alike htv (.here h.gap?_eq') ⟨fun _ _ => rfl, fun hj _ => ?_⟩,
        fun p => h.alike_close hclose hv₀ ⟨fun _ _ => rfl, fun hj _ => ?_⟩⟩
      · exact hend (k := []) (fun _ => rfl) (by rwa [List.append_nil])
      · rw [hend joins_close hj]
    · obtain ⟨hne, hws⟩ := not_or.mp htouch
      have hlonger (k : Text) : ' ' :: v₀ ++ k ≠ v₀ ++ k := fun e => by simpa using congrArg List.length e
      refine ⟨' ' :: v₀, Spells.behind (g := [' ']) (by decide) hws h.spells, fun p => ?_, fun p => ?_⟩
      · refine h.alike htv (skips_blank h.gap?_eq') ⟨fun _ e => absurd e hne, fun _ e => ?_⟩
        exact absurd e (by simp)
      · refine h.alike_close hclose (skips_blank (gap?_close.mpr h.gap?_eq')) ⟨fun _ e => ?_, fun _ e => ?_⟩
        · exact absurd (List.append_cancel_right e) hne
        · exact absurd e (hlonger _)
  have hscan₀ := scan_of_alike hx (isToken_of_follow hτ) hw (halike _) hscan
  have hgap₀ : gap? (w ++ (x ++ t₀)) = none := gap?_of_scan hτ hf hop hscan₀ hspells
  refine ⟨w ++ (x ++ t₀), hu, hgap₀, .cons ⟨[], blanks_nil, rfl⟩ hscan₀ hspells, fun hs hs₀ h => ?_,
    fun hs hs₀ h => ?_⟩
  · exact .piece hw hs hs₀ h.1 h.2 ((halike _).behind hx hw)
  · simp only [List.append_assoc] at hs hs₀ h
    exact .piece hw hs hs₀ h.1 h.2 ((halike' _).behind hx hw)

/-- **A spelling with comments goes together with one without them.** -/
theorem exists_uncomments {m m' : Mode} (hf : m.followAll ws = some m') (hop : m'.operand = false)
    (h : Spells Skips ws s r) (hr : Closes r) :
    ∃ u u₀, Skips s u ∧ Skips (s ++ [')']) (u ++ [')']) ∧ Uncomments ws u u₀ := by
  induction h generalizing m with
  | nil => exact ⟨[], [], hr.skips, hr, uncomments_nil⟩
  | cons hskip hscan h ih =>
    obtain ⟨m₁, hτ, hws⟩ := Mode.exists_follow hf
    obtain ⟨v, v₀, htv, hclose, hv⟩ := ih hws hr
    obtain ⟨u₀, hu₀⟩ := hv.cons hτ hws hop hskip.gap?_eq hscan htv hclose
    have hne := List.ne_nil_of_length_pos (lt_of_le_of_lt (Nat.zero_le _) (length_lt_of_scan hscan))
    exact ⟨_, u₀, hskip, hskip.append_close hne, hu₀⟩

/-! ## Expressions with comments -/

/-- **Whether a text is an expression with comments**: gaps may stand between its tokens, before and
behind them.  No comment stands right behind a division, and none goes on behind the text. -/
def IsCommented (A : Text) : Prop := ∃ ws ∈ expressions, ∃ r, Spells Skips ws A r ∧ Closes r

/-- Between the tokens of a spelling with blanks alone every gap is passed over. -/
theorem spells_skips {m m' : Mode} (hf : m.followAll ws = some m') (hop : m'.operand = false)
    (h : Spells BlankGap ws s r) : Spells Skips ws s r := by
  induction h generalizing m with
  | nil => exact .nil _
  | cons hgap hscan h ih =>
    obtain ⟨m₁, hτ, hws⟩ := Mode.exists_follow hf
    exact .cons (.of_blankGap hgap (gap?_of_scan hτ hws hop hscan h)) hscan (ih hws)

/-- **An expression without comments** may have comments that end behind it. -/
theorem IsExpression.isCommented (hA : IsExpression A) (hr : Boundary r) (hclose : Closes r) :
    IsCommented (A ++ r) := by
  obtain ⟨ws, hws, h⟩ := hA.spells_append hr
  exact ⟨ws, hws, r, spells_skips (leads_expressions [] false ws hws) rfl h, hclose⟩

theorem joins_open (s : Text) : joins '(' s = false := by
  have hwords : ∀ w ∈ longWords, '(' ∉ w := by decide
  have hadjacent (d : Char) : adjacent '(' d = false := by
    refine List.any_eq_false.mpr fun w hw h => hwords w hw ?_
    have hmem : ('(', d) ∈ w.zip w.tail := by simpa using h
    exact (List.of_mem_zip hmem).1
  have hname : inName '(' = false := by decide
  have hdecimal : Text.isDecimal '(' = false := by decide
  cases s <;> simp [joins, hadjacent, hname, hdecimal]

/-- **A call of an expression with comments** is parsed as the expression is. -/
theorem IsCommented.parse_call (hA : IsCommented A) (htrim : Text.trim A = A) (e : Expression) :
    parse (importText ++ '(' :: (A ++ [')'])) = .ok e ↔ parse A = .ok e := by
  obtain ⟨ws, hws, r, hspells, hr⟩ := hA
  have hf := leads_expressions [] false ws hws
  obtain ⟨u, u₀, hs, hclose, h⟩ := exists_uncomments hf rfl hspells hr
  have hu₀ : IsExpression u₀ := ⟨⟨ws, hws, h.spells⟩, isGapBlank_of_gap? h.gap?_eq'⟩
  have halike : Alike none (Text.trim A) (Text.trim u₀) := by
    rw [htrim, hu₀.solid.trim_eq]
    exact h.alike hs (.here h.gap?_eq') (touch_of_not_joins fun _ => rfl)
  have htrim_call (x : Text) : Text.trim (importText ++ '(' :: (x ++ [')'])) =
      importText ++ '(' :: (x ++ [')']) := by
    refine Text.Solid.trim_eq ⟨⟨'i', rfl, by decide⟩, ⟨')', ?_, by decide⟩⟩
    rw [← List.cons_append, ← List.append_assoc, List.getLast?_concat]
    rfl
  have hcall : Alike none (Text.trim (importText ++ '(' :: (A ++ [')'])))
      (Text.trim (importText ++ '(' :: (u₀ ++ [')']))) := by
    rw [htrim_call, htrim_call]
    have hbehind : Alike (some '(') (A ++ [')']) (u₀ ++ [')']) :=
      h.alike_close hclose (.here (gap?_close.mpr h.gap?_eq')) (touch_of_not_joins joins_open)
    refine .piece (w := ['i']) (.char (by decide)) (.here rfl) (.here rfl) (fun hj => absurd hj Bool.false_ne_true)
      (fun hj => absurd hj Bool.false_ne_true) ?_
    exact Alike.chars (c := 'i') (v := ['m', 'p', 'o', 'r', 't', '('])
      (List.all_eq_true.mp (by decide)) hbehind
  have hplain : IsCall (Text.trim (importText ++ '(' :: (u₀ ++ [')']))) u₀ none := by
    rw [htrim_call]
    exact .mk (g := []) blanks_nil blanks_nil hu₀ (.last (.close (g := []) blanks_nil))
  rw [parse_alike hcall, hplain.parse_eq_ok, ← parse_alike halike]
  exact and_iff_left fun b hb => nomatch hb

end VariableImport.Script
