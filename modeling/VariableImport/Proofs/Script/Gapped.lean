import VariableImport.Proofs.Script.Commented

/-!
# Proofs/Script/Gapped — tokens with gaps that end

A gap may be given by its own text, blanks and comments that end in it (`Ended`), and tokens may stand
behind such gaps (`CommentGap`).  What they spell is alike when what follows it is (`Spells.alike`), so it
may go on otherwise (`Spells.rescan`), and blanks may stand for its gaps (`Spells.exists_blanks`).
-/

namespace VariableImport.Script

variable {s t u v w x y g g' k : Text} {p : Option Char} {ws : List Terminal} {τ : Terminal}

/-! ## Gaps that end -/

/-- **Whether a text is blanks and comments** that end in it.  A comment to the end of its line does not
begin with a third slash or a star, which may be read as a comment behind a division. -/
inductive Ended : Text → Prop
  | nil : Ended []
  | blank {c : Char} {g : Text} (hc : isGapBlank c = true) (h : Ended g) : Ended (c :: g)
  | line {body g : Text} (hbody : '\n' ∉ body) (hfirst : startsComment ('/' :: body) = false)
      (h : Ended g) : Ended ('/' :: '/' :: (body ++ '\n' :: g))
  | block {body g : Text} (hbody : ¬ ['*', '/'] <:+: body) (h : Ended g) :
      Ended ('/' :: '*' :: (body ++ '*' :: '/' :: g))

/-- Whether a text is one block comment. -/
def IsBlockComment (k : Text) : Prop :=
  ∃ body, ¬ ['*', '/'] <:+: body ∧ k = '/' :: '*' :: (body ++ ['*', '/'])

theorem Ended.append (hg : Ended g) (hg' : Ended g') : Ended (g ++ g') := by
  induction hg with
  | nil => exact hg'
  | blank hc _ ih => exact .blank hc ih
  | line hbody hfirst _ ih =>
    have := Ended.line hbody hfirst ih
    simpa using this
  | block hbody _ ih =>
    have := Ended.block hbody ih
    simpa using this

theorem IsBlockComment.ended (hk : IsBlockComment k) : Ended k := by
  obtain ⟨body, hbody, rfl⟩ := hk
  exact .block hbody .nil

theorem IsBlockComment.ne_nil (hk : IsBlockComment k) : k ≠ [] := by
  obtain ⟨body, -, rfl⟩ := hk
  exact List.cons_ne_nil _ _

theorem Blanks.ended (hg : Blanks g) : Ended g := by
  induction g with
  | nil => exact .nil
  | cons c g ih => exact .blank (hg c List.mem_cons_self) (ih fun d hd => hg d (List.mem_cons_of_mem _ hd))

/-- A block comment ends at its first closing mark. -/
theorem afterBlock_body {body : Text} (h : ¬ ['*', '/'] <:+: body) (t : Text) :
    afterBlock (body ++ '*' :: '/' :: t) = some t := by
  induction body with
  | nil => rfl
  | cons c body ih =>
    have hnext : c = '*' → ∀ v, body ++ '*' :: '/' :: t ≠ '/' :: v := by
      rintro rfl v e
      cases body with
      | nil => exact absurd (List.cons.inj e).1 (by decide)
      | cons d body =>
        obtain rfl : d = '/' := (List.cons.inj e).1
        exact h ⟨[], body, rfl⟩
    rw [List.cons_append, afterBlock.eq_2 c _ fun v hc e => hnext hc v e]
    exact ih fun hin => h (hin.trans (List.infix_cons (List.infix_refl _)))

/-- A line comment ends at its line end. -/
theorem dropWhile_line {body : Text} (h : '\n' ∉ body) (t : Text) :
    (body ++ '\n' :: t).dropWhile (fun c => decide (c ≠ '\n')) = '\n' :: t := by
  rw [List.dropWhile_append_of_pos fun c hc => decide_eq_true (ne_of_mem_of_not_mem hc h)]
  exact List.dropWhile_cons_of_neg (by simp)

theorem gap?_cons_blank {c : Char} (hc : isGapBlank c = true) (t : Text) :
    gap? (c :: t) = some (t.dropWhile isGapBlank) := by
  have hslash : c ≠ '/' := by
    rintro rfl
    exact absurd hc (by decide)
  rw [gap?.eq_3 c t (fun _ h => absurd h hslash) fun _ h => absurd h hslash, if_pos hc]

/-- **A blank more** is passed over as well. -/
theorem Skips.blank {c : Char} (hc : isGapBlank c = true) (h : Skips s u) : Skips (c :: s) u := by
  have hslash (d : Char) (v : Text) : (c :: v).head? = some '/' → gap? v = none := fun e => by
    obtain rfl : c = '/' := Option.some.inj e
    exact absurd hc (by decide)
  have hgap := gap?_cons_blank hc s
  cases s with
  | nil => exact .gap hgap (hslash c _) h
  | cons d s =>
    by_cases hd : isGapBlank d = true
    -- the blanks go on, and are one gap with this one
    · rw [List.dropWhile_cons_of_pos hd] at hgap
      cases h with
      | here hs => cases hs.symm.trans (gap?_cons_blank hd s)
      | gap hgap' _ h =>
        obtain rfl := Option.some.inj (hgap'.symm.trans (gap?_cons_blank hd s))
        exact .gap hgap (hslash c _) h
    · rw [List.dropWhile_cons_of_neg hd] at hgap
      exact .gap hgap (hslash c _) h

theorem gap?_slash (h : startsComment ('/' :: t) = false) : gap? ('/' :: t) = none :=
  gap?_eq_none h fun _ hc => Option.some.inj hc ▸ by decide

/-- Nothing but the start of a line is looked at behind two slashes. -/
theorem startsComment_line {body : Text} (h : startsComment ('/' :: body) = false) (t : Text) :
    startsComment ('/' :: (body ++ '\n' :: t)) = false := by
  cases body with
  | nil => rfl
  | cons c body => exact h

/-- **Gaps that end are passed over**, and those behind them. -/
theorem Ended.skips (hg : Ended g) (h : Skips s u) : Skips (g ++ s) u := by
  induction hg with
  | nil => exact h
  | blank hc _ ih => exact ih.blank hc
  | @line body g hbody hfirst _ ih =>
    have hgap : gap? ('/' :: '/' :: (body ++ '\n' :: g) ++ s) = some ('\n' :: (g ++ s)) := by
      have := congrArg some (dropWhile_line hbody (g ++ s))
      simpa [gap?] using this
    refine .gap hgap (fun _ => ?_) (ih.blank (by decide))
    have := gap?_slash (startsComment_line hfirst (g ++ s))
    simpa using this
  | @block body g hbody _ ih =>
    have hgap : gap? ('/' :: '*' :: (body ++ '*' :: '/' :: g) ++ s) = some (g ++ s) := by
      have := afterBlock_body hbody (g ++ s)
      simpa [gap?] using this
    exact .gap hgap (fun _ => gap?_of_isPlain (by decide) _) ih

/-! ## Tokens behind gaps -/

/-- **A gap that ends before a token** that begins no comment. -/
def CommentGap (s u : Text) : Prop := startsComment u = false ∧ ∃ g, Ended g ∧ s = g ++ u

theorem CommentGap.suffix (h : CommentGap s u) : u <:+ s := by
  obtain ⟨-, g, -, rfl⟩ := h
  exact List.suffix_append _ _

/-- Where a token stands no gap begins. -/
theorem gap?_of_token (hτ : τ.isToken = true) {a : Text} (hscan : τ.scan u = some (a, t))
    (h : startsComment u = false) : gap? u = none := by
  refine gap?_eq_none h fun c hc => ?_
  obtain ⟨v, rfl⟩ := List.head?_eq_some_iff.mp hc
  by_contra hb
  obtain ⟨-, rfl⟩ := eq_multiplicative_of_starts hτ (.inl (Bool.not_eq_false _ ▸ hb)) (starts_of_scan hscan)
  exact hb (by decide)

/-- Whether no comment begins at a slash that ends a text, if what follows it changes. -/
def KeepsSlash (x t t' : Text) : Prop :=
  x.getLast? = some '/' → startsComment ('/' :: t) = false → startsComment ('/' :: t') = false

/-- A text begins a comment by its first two characters. -/
theorem startsComment_append (hy : y ≠ []) (h : startsComment (y ++ s) = false) (ht : KeepsSlash y s t) :
    startsComment (y ++ t) = false := by
  obtain ⟨c, v, rfl⟩ := List.exists_cons_of_ne_nil hy
  by_cases hc : c = '/'
  · subst hc
    cases v with
    | nil => exact ht rfl h
    | cons d v => exact h
  · exact Scan.startsComment_of_ne hc _

/-- **A piece behind gaps**, in both texts or in neither. -/
theorem Alike.behind_gaps (hw : Piece w) (hg : Ended g) (hg' : Ended g') (hgg : g = [] ↔ g' = [])
    (hs : gap? (w ++ s) = none) (ht : gap? (w ++ t) = none) (h : Alike w.getLast? s t) :
    Alike p (g ++ (w ++ s)) (g' ++ (w ++ t)) := by
  refine .piece hw (hg.skips (.here hs)) (hg'.skips (.here ht)) (fun _ e => ?_) (fun _ e => ?_) h
  · rw [hgg.mp (List.append_left_eq_self.mp e), List.nil_append]
  · rw [hgg.mpr (List.append_left_eq_self.mp e), List.nil_append]

/-- What stands before alike texts does not matter where no token goes on. -/
theorem Alike.front (h : Alike p s t) : Alike none s t := by
  cases h with
  | done hs ht => exact .done hs ht
  | piece hw hs ht _ _ h =>
    exact .piece hw hs ht (fun h => absurd h Bool.false_ne_true) (fun h => absurd h Bool.false_ne_true) h

/-- **The first token** that a text spells, with the gap before it. -/
structure FirstToken (τ : Terminal) (ws : List Terminal) (g w v x t a : Text) : Prop where
  gap : Ended g
  piece : Piece w
  plain : ∀ c ∈ v, isPlain c = true
  startsComment_eq : startsComment (w ++ (v ++ x) ++ t) = false
  scan : τ.scan (w ++ (v ++ (x ++ t))) = some (a, x ++ t)
  rest : Spells CommentGap ws (x ++ t) t

theorem Spells.exists_firstToken (hτ : τ.isToken = true) (h : Spells CommentGap (τ :: ws) (x ++ t) t) :
    ∃ g w v y a, x = g ++ (w ++ (v ++ y)) ∧ FirstToken τ ws g w v y t a := by
  generalize hs : x ++ t = s at h
  cases h with
  | @cons _ _ _ u a t' _ hgap hscan h =>
    obtain ⟨hcomment, g, hg, rfl⟩ := hgap
    obtain ⟨y, rfl⟩ := h.suffix CommentGap.suffix
    obtain ⟨w, v, hw, hv, rfl⟩ := exists_piece_of_scan hτ hscan
    obtain rfl : x = g ++ (w ++ (v ++ y)) := (List.append_left_inj t).mp (by simpa using hs)
    exact ⟨g, w, v, y, a, rfl, hg, hw, hv, by simpa using hcomment, hscan, h⟩

namespace FirstToken

variable {a t' : Text} (h : FirstToken τ ws g w v x t a)

include h

theorem ne_nil : w ++ (v ++ x) ≠ [] := fun e => h.piece.ne_nil (List.append_eq_nil_iff.mp e).1

theorem getLast?_eq : (g ++ (w ++ (v ++ x))).getLast? = x.getLast?.or (w ++ v).getLast? := by
  rw [List.getLast?_append_of_ne_nil _ h.ne_nil, ← List.append_assoc, List.getLast?_append]

/-- What stands before a text that follows the token ends with the token, or behind it. -/
theorem getLast?_or : (g ++ (w ++ (v ++ x))).getLast?.or p = x.getLast?.or (w ++ v).getLast? := by
  obtain ⟨c, hc⟩ := Option.ne_none_iff_exists'.mp (mt List.getLast?_eq_none_iff.mp h.ne_nil)
  rw [← h.getLast?_eq, List.getLast?_append_of_ne_nil _ h.ne_nil, hc, Option.some_or]

theorem keepsSlash (hk : KeepsSlash (g ++ (w ++ (v ++ x))) t t') : KeepsSlash x t t' :=
  fun e => hk (by rw [h.getLast?_eq, e, Option.some_or])

/-- The token begins no comment still if what follows changes. -/
theorem startsComment_eq' (hk : KeepsSlash (g ++ (w ++ (v ++ x))) t t') :
    startsComment (w ++ (v ++ (x ++ t'))) = false := by
  have := startsComment_append h.ne_nil h.startsComment_eq
    fun e => hk ((List.getLast?_append_of_ne_nil _ h.ne_nil).trans e)
  simpa using this

/-- The token begins no gap still if what follows changes. -/
theorem gap?_eq (hτ : τ.isToken = true) (hk : KeepsSlash (g ++ (w ++ (v ++ x))) t t') :
    gap? (w ++ (v ++ (x ++ t'))) = none := by
  refine gap?_eq_none (h.startsComment_eq' hk) ?_
  have := isGapBlank_of_gap? (gap?_of_token hτ h.scan (by simpa using h.startsComment_eq))
  rwa [List.head?_append_of_ne_nil _ h.piece.ne_nil] at this ⊢

end FirstToken

/-- **What tokens spell is alike if what follows it is.** -/
theorem Spells.alike {t₁ t₂ : Text} (hws : ∀ τ ∈ ws, τ.isToken = true)
    (h : Spells CommentGap ws (x ++ t) t) (h₁ : KeepsSlash x t t₁) (h₂ : KeepsSlash x t t₂)
    (ht : Alike (x.getLast?.or p) t₁ t₂) : Alike p (x ++ t₁) (x ++ t₂) := by
  induction ws generalizing x p with
  | nil =>
    obtain rfl : x = [] := List.append_left_eq_self.mp (spells_nil.mp h).symm
    exact ht
  | cons τ ws ih =>
    have hτ := hws τ List.mem_cons_self
    obtain ⟨g, w, v, y, a, rfl, hfirst⟩ := h.exists_firstToken hτ
    have hrest : Alike (w ++ v).getLast? (y ++ t₁) (y ++ t₂) :=
      ih (fun τ hτ => hws τ (List.mem_cons_of_mem _ hτ)) hfirst.rest (hfirst.keepsSlash h₁)
        (hfirst.keepsSlash h₂) (hfirst.getLast?_or ▸ ht)
    simp only [List.append_assoc]
    exact .behind_gaps hfirst.piece hfirst.gap hfirst.gap Iff.rfl (hfirst.gap?_eq hτ h₁)
      (hfirst.gap?_eq hτ h₂) (hrest.behind hfirst.plain hfirst.piece)

/-- **Tokens are read the same** in front of an alike text. -/
theorem Spells.rescan {t' : Text} (hws : ∀ τ ∈ ws, τ.isToken = true)
    (h : Spells CommentGap ws (x ++ t) t) (hslash : KeepsSlash x t t') (ht : Alike x.getLast? t t') :
    Spells CommentGap ws (x ++ t') t' := by
  induction ws generalizing x with
  | nil =>
    obtain rfl : x = [] := List.append_left_eq_self.mp (spells_nil.mp h).symm
    exact .nil _
  | cons τ ws ih =>
    have hτ := hws τ List.mem_cons_self
    obtain ⟨g, w, v, y, a, rfl, hfirst⟩ := h.exists_firstToken hτ
    have hws' : ∀ τ ∈ ws, τ.isToken = true := fun τ hτ => hws τ (List.mem_cons_of_mem _ hτ)
    have hkeeps := hfirst.keepsSlash hslash
    have hrest : Alike (w ++ v).getLast? (y ++ t) (y ++ t') :=
      hfirst.rest.alike hws' (fun _ h => h) hkeeps (hfirst.getLast?_eq ▸ ht)
    have hy : Alike y.getLast? t t' := by
      rw [hfirst.getLast?_eq] at ht
      cases hlast : y.getLast? with
      | none => exact ht.front
      | some c => rwa [hlast, Option.some_or] at ht
    simp only [List.append_assoc]
    exact .cons ⟨hfirst.startsComment_eq' hslash, g, hfirst.gap, rfl⟩
      (scan_of_alike hfirst.plain hτ hfirst.piece hrest hfirst.scan) (ih hws' hfirst.rest hkeeps hy)

/-! ## Blanks for gaps -/

/-- A blank for a gap that is there. -/
def blankFor (g : Text) : Text := if g = [] then [] else [' ']

theorem blanks_blankFor (g : Text) : Blanks (blankFor g) := by
  unfold blankFor
  split <;> decide

theorem blankFor_eq_nil : blankFor g = [] ↔ g = [] := by
  unfold blankFor
  split <;> simp_all

/-- **Blanks may stand for the gaps** before the tokens of a text, also if only gaps follow it. -/
theorem Spells.exists_blanks {m m' : Mode} {t₀ t₁ : Text} (hf : m.followAll ws = some m')
    (hop : m'.operand = false) (h : Spells CommentGap ws (x ++ t) t) (ht : ∀ p, Alike p t t₀)
    (ht₁ : Skips t₁ []) (hk : KeepsSlash x t t₁) :
    ∃ x₀, Spells BlankGap ws (x₀ ++ t₀) t₀ ∧ (∀ p, Alike p (x ++ t) (x₀ ++ t₀)) ∧
      ∀ p, Alike p (x ++ t₁) x₀ := by
  induction ws generalizing x m with
  | nil =>
    obtain rfl : x = [] := List.append_left_eq_self.mp (spells_nil.mp h).symm
    exact ⟨[], .nil _, ht, fun _ => .done ht₁ (.here rfl)⟩
  | cons τ ws ih =>
    obtain ⟨m₁, hτ, hws⟩ := Mode.exists_follow hf
    have htoken := isToken_of_follow hτ
    obtain ⟨g, w, v, y, a, rfl, hfirst⟩ := h.exists_firstToken htoken
    obtain ⟨y₀, hspells, halike, halike'⟩ := ih hws hfirst.rest (hfirst.keepsSlash hk)
    have hscan := scan_of_alike hfirst.plain htoken hfirst.piece (halike _) hfirst.scan
    have hstart := Scan.startsComment_of_scan hτ hws hop hscan hspells
    have hgap : gap? (w ++ (v ++ (y₀ ++ t₀))) = none := gap?_of_scan hτ hws hop hscan hspells
    have hgap' : gap? (w ++ (v ++ y₀)) = none := by
      have hne : w ++ (v ++ y₀) ≠ [] := fun e => hfirst.piece.ne_nil (List.append_eq_nil_iff.mp e).1
      have := startsComment_append (s := t₀) (t := []) hne (by simpa using hstart) fun _ _ => rfl
      refine gap?_eq_none (by simpa using this) ?_
      have hhead := isGapBlank_of_gap? hgap
      rwa [List.head?_append_of_ne_nil _ hfirst.piece.ne_nil] at hhead ⊢
    have hblank := (blanks_blankFor g).ended
    refine ⟨blankFor g ++ (w ++ (v ++ y₀)), ?_, fun p => ?_, fun p => ?_⟩
    · simp only [List.append_assoc]
      exact .cons ⟨_, blanks_blankFor g, rfl⟩ hscan hspells
    · simp only [List.append_assoc]
      exact .behind_gaps hfirst.piece hfirst.gap hblank blankFor_eq_nil.symm
        (hfirst.gap?_eq htoken fun _ h => h) hgap ((halike _).behind hfirst.plain hfirst.piece)
    · simp only [List.append_assoc]
      exact .behind_gaps hfirst.piece hfirst.gap hblank blankFor_eq_nil.symm (hfirst.gap?_eq htoken hk)
        hgap' ((halike' _).behind hfirst.plain hfirst.piece)

/-! ## Trimming -/

theorem trimRight_append (s t : Text) : Text.trimRight (s ++ t) =
    if Text.trimRight t = [] then Text.trimRight s else s ++ Text.trimRight t := by
  simp only [Text.trimRight, List.reverse_append, List.dropWhile_append, List.reverse_eq_nil_iff,
    List.isEmpty_iff]
  split
  · rfl
  · rw [List.reverse_append, List.reverse_reverse]

/-- Behind a character that is no blank only the text after it is trimmed. -/
theorem trimRight_of_last {c : Char} (hc : Text.isBlank c = false) (s t : Text) :
    Text.trimRight (s ++ [c] ++ t) = s ++ [c] ++ Text.trimRight t := by
  rw [trimRight_append]
  split
  · next h =>
    have := Text.trimRight_append (g := []) (fun _ hd => absurd hd List.not_mem_nil) hc s
    rw [h, List.append_nil]
    rwa [List.append_nil] at this
  · rfl

theorem Ended.trimLeft (hg : Ended g) : Ended (Text.trimLeft g) := by
  induction hg with
  | nil => exact .nil
  | blank hc _ ih =>
    rw [Text.trimLeft, List.dropWhile_cons_of_pos (isBlank_of_isGapBlank hc)]
    exact ih
  | line hbody hfirst h => exact .line hbody hfirst h
  | block hbody h => exact .block hbody h

/-- A gap that ends is passed over without the blanks at its end as well. -/
theorem Ended.skips_trimRight (hg : Ended g) : Skips (Text.trimRight g) [] := by
  induction hg with
  | nil => exact .here rfl
  | @blank c g hc _ ih =>
    rw [← List.singleton_append, trimRight_append]
    split
    · have : Text.trimRight [c] = [] := by simp [Text.trimRight, isBlank_of_isGapBlank hc]
      rw [this]
      exact .here rfl
    · exact ih.blank hc
  | @line body g hbody hfirst _ ih =>
    have e : '/' :: '/' :: (body ++ '\n' :: g) = ['/'] ++ ['/'] ++ (body ++ ('\n' :: g)) := rfl
    rw [e, trimRight_of_last (by decide), trimRight_append]
    split
    -- the comment loses its line end, and blanks before it
    · obtain ⟨b, -, hb⟩ := Text.exists_trimRight body
      have hgap : gap? ('/' :: '/' :: Text.trimRight body) = some [] := by
        have hdrop : (Text.trimRight body).dropWhile (fun c => decide (c ≠ '\n')) = [] :=
          List.dropWhile_eq_nil_iff.mpr fun c hc => decide_eq_true fun e =>
            hbody (hb ▸ List.mem_append_left _ (e ▸ hc))
        exact congrArg some hdrop
      refine .gap hgap (fun _ => gap?_slash ?_) (.here rfl)
      cases h : Text.trimRight body with
      | nil => rfl
      | cons c b' =>
        rw [hb, h] at hfirst
        exact hfirst
    · next hne =>
      have hblank : Text.trimRight ('\n' :: g) = '\n' :: Text.trimRight g := by
        rw [← List.singleton_append, trimRight_append] at hne ⊢
        split at hne
        · exact absurd rfl hne
        · next h => exact if_neg h
      have := (Ended.line hbody hfirst .nil).skips ih
      rw [hblank]
      simpa using this
  | @block body g hbody _ ih =>
    have e : '/' :: '*' :: (body ++ '*' :: '/' :: g) = '/' :: '*' :: (body ++ ['*']) ++ ['/'] ++ g := by simp
    rw [e, trimRight_of_last (by decide)]
    have := (Ended.block hbody .nil).skips ih
    simpa using this

/-- Terminals that lead from mode to mode are tokens. -/
theorem isToken_of_mem {m m' : Mode} (hf : m.followAll ws = some m') (hτ : τ ∈ ws) : τ.isToken = true := by
  induction ws generalizing m with
  | nil => exact absurd hτ List.not_mem_nil
  | cons σ ws ih =>
    obtain ⟨m₁, hσ, hws⟩ := Mode.exists_follow hf
    rcases List.mem_cons.mp hτ with rfl | hτ
    · exact isToken_of_follow hσ
    · exact ih hws hτ

/-- In front of a character that is no blank only the text before it is trimmed. -/
theorem trimLeft_of_head {c : Char} (hc : Text.isBlank c = false) (s t : Text) :
    Text.trimLeft (s ++ c :: t) = Text.trimLeft s ++ c :: t := by
  have hself : (c :: t).dropWhile Text.isBlank = c :: t := List.dropWhile_cons_of_neg (by simp [hc])
  rw [Text.trimLeft, List.dropWhile_append]
  split
  · next h => rw [hself, Text.trimLeft, List.isEmpty_iff.mp h, List.nil_append]
  · rfl

theorem startsComment_prefix (h : startsComment ('/' :: (s ++ t)) = false) :
    startsComment ('/' :: s) = false := by
  cases s with
  | nil => rfl
  | cons c s => exact h

/-- **Trimming** takes only blanks of the gaps before and behind tokens. -/
theorem Spells.trim_alike {m m' : Mode} {q : Text} (hf : m.followAll ws = some m') (hne : ws ≠ [])
    (h : Spells CommentGap ws (x ++ t) t) (hq : Ended q) (hk : KeepsSlash x t q) :
    Alike none (Text.trim (x ++ q)) (x ++ q) := by
  obtain ⟨τ, ws, rfl⟩ := List.exists_cons_of_ne_nil hne
  obtain ⟨z, d, hlast, hd⟩ := h.exists_last CommentGap.suffix hf hne
  obtain ⟨m₁, hτ, hws⟩ := Mode.exists_follow hf
  have htoken := isToken_of_follow hτ
  obtain ⟨g, w, v, y, a, rfl, hfirst⟩ := h.exists_firstToken htoken
  obtain ⟨z', hz⟩ : ∃ z', w ++ (v ++ y) = z' ++ [d] := by
    refine List.getLast?_eq_some_iff.mp ?_
    have hz : g ++ (w ++ (v ++ y)) = z ++ [d] := (List.append_left_inj t).mp (by simpa using hlast)
    rw [← List.getLast?_append_of_ne_nil g hfirst.ne_nil, hz, List.getLast?_concat]
  have htrim : Text.trim (g ++ (w ++ (v ++ y)) ++ q) =
      Text.trimLeft g ++ (w ++ (v ++ (y ++ Text.trimRight q))) := by
    obtain ⟨c, w', rfl⟩ := List.exists_cons_of_ne_nil hfirst.piece.ne_nil
    have e (k : Text) : c :: (w' ++ (v ++ (y ++ k))) = z' ++ [d] ++ k := by
      rw [← hz]
      simp
    calc Text.trim (g ++ (c :: w' ++ (v ++ y)) ++ q)
        = Text.trimRight (Text.trimLeft (g ++ c :: (w' ++ (v ++ (y ++ q))))) := by
          rw [Text.trim]
          simp
      _ = Text.trimRight (Text.trimLeft g ++ z' ++ [d] ++ q) := by
          rw [trimLeft_of_head (isBlank_of_scan hτ hfirst.scan), e]
          simp
      _ = Text.trimLeft g ++ (c :: (w' ++ (v ++ (y ++ Text.trimRight q)))) := by
          rw [trimRight_of_last hd, e]
          simp
  have hkeeps : KeepsSlash (g ++ (w ++ (v ++ y))) t (Text.trimRight q) := by
    obtain ⟨b, -, hb⟩ := Text.exists_trimRight q
    exact fun e h => startsComment_prefix (hb ▸ hk e h)
  have hbehind : Alike (w ++ v).getLast? (y ++ Text.trimRight q) (y ++ q) :=
    hfirst.rest.alike (fun τ hτ => isToken_of_mem hws hτ) (hfirst.keepsSlash hkeeps) (hfirst.keepsSlash hk)
      (.done hq.skips_trimRight (by simpa using hq.skips (s := []) (.here rfl)))
  rw [htrim]
  simp only [List.append_assoc]
  exact .piece hfirst.piece (hfirst.gap.trimLeft.skips (.here (hfirst.gap?_eq htoken hkeeps)))
    (hfirst.gap.skips (.here (hfirst.gap?_eq htoken hk))) (fun h => absurd h Bool.false_ne_true)
    (fun h => absurd h Bool.false_ne_true) (hbehind.behind hfirst.plain hfirst.piece)

end VariableImport.Script
