import VariableImport.Proofs.Script.Boundary

/-!
# Proofs/Script/Piece — the parts of a text that no gap divides

Behind its gaps (`Skips`) a text goes on with a `Piece`: a character, a string, or a part of a template.  A text
has one first piece (`Piece.unique`), and pieces are read with anything after them.
-/

namespace VariableImport.Script

/-! ## Gaps that are passed over -/

/-- **A text goes on after its gaps**: all of them are passed over, and no comment among them can be
taken for a division. -/
inductive Skips : Text → Text → Prop
  | here {s : Text} (h : gap? s = none) : Skips s s
  | gap {s t u : Text} (hgap : gap? s = some t) (hslash : s.head? = some '/' → gap? s.tail = none)
      (h : Skips t u) : Skips s u

variable {c : Char} {s t u v w : Text}

theorem Skips.gap?_eq (h : Skips s u) : gap? u = none := by
  induction h with
  | here h => exact h
  | gap _ _ _ ih => exact ih

theorem Skips.suffix (h : Skips s u) : u <:+ s := by
  induction h with
  | here => exact List.suffix_rfl
  | gap hgap _ _ ih => exact ih.trans (gap?_suffix hgap).1

theorem Skips.unique (h : Skips s u) (h' : Skips s v) : u = v := by
  induction h with
  | here h =>
    cases h' with
    | here => rfl
    | gap hgap => cases hgap.symm.trans h
  | gap hgap _ _ ih =>
    cases h' with
    | here h => cases hgap.symm.trans h
    | gap hgap' _ h' => exact ih (Option.some.inj (hgap'.symm.trans hgap) ▸ h')

/-- Where no gap begins nothing is passed over. -/
theorem Skips.eq (h : Skips s u) (hs : gap? s = none) : u = s := h.unique (.here hs)

/-! ## Pieces -/

/-- The characters that quotes begin with. -/
def openings : List Char := ['\'', '"', '`', '\x7d']

/-- Whether a character stands in code without starting a gap or quotes. -/
def isPlain (c : Char) : Bool := !isGapBlank c && c != '/' && !openings.contains c

theorem gap?_of_isPlain (hc : isPlain c = true) (s : Text) : gap? (c :: s) = none := by
  simp only [isPlain, Bool.and_eq_true, Bool.not_eq_true', bne_iff_ne] at hc
  obtain ⟨⟨hblank, hslash⟩, -⟩ := hc
  rw [gap?.eq_3 c s (fun _ h => absurd h hslash) fun _ h => absurd h hslash, if_neg (by simp [hblank])]

/-- **A part of a text without gaps**: a character, a string, or a part of a template. -/
inductive Piece : Text → Prop
  | char {c : Char} (hc : c ∉ openings) : Piece [c]
  | string {q : Char} {s body : Text} (hq : q = '\'' ∨ q = '"')
      (h : quotedBody q s = some (body, [])) : Piece (q :: s)
  | template {o : Char} {s body : Text} {opens : Bool} (ho : o = '`' ∨ o = '\x7d')
      (h : templateBody s = some (body, opens, [])) : Piece (o :: s)

/-- Characters of a class without the others stand in code by themselves. -/
theorem isPlain_of_class {P : Char → Bool}
    (hP : ([' ', '\t', '\x0c', '\r', '\n', '/'] ++ openings).all (!P ·) = true) (hc : P c = true) :
    isPlain c = true := by
  have hne {d : Char} (hd : d ∈ [' ', '\t', '\x0c', '\r', '\n', '/'] ++ openings) : c ≠ d := by
    rintro rfl
    simpa [hc] using List.all_eq_true.mp hP c hd
  simp only [isPlain, isGapBlank, openings, Bool.and_eq_true, Bool.not_eq_true', Bool.or_eq_false_iff,
    beq_eq_false_iff_ne, bne_iff_ne, List.contains_eq_mem, decide_eq_false_iff_not, List.mem_cons,
    List.not_mem_nil, or_false, not_or]
  refine ⟨⟨⟨⟨⟨⟨?_, ?_⟩, ?_⟩, ?_⟩, ?_⟩, ?_⟩, ?_, ?_, ?_, ?_⟩
  all_goals exact hne (by decide)

theorem not_mem_openings (hc : isPlain c = true) : c ∉ openings := by
  simp_all [isPlain]

theorem Piece.plain (hc : isPlain c = true) : Piece [c] := .char (not_mem_openings hc)

theorem Piece.ne_nil (hw : Piece w) : w ≠ [] := by
  cases hw <;> exact List.cons_ne_nil _ _

/-- A string is read with anything after it. -/
theorem quotedBody_rest {q : Char} (hq : q = '\'' ∨ q = '"') {s body r : Text}
    (h : quotedBody q s = some (body, r)) (k : Text) : quotedBody q (s ++ k) = some (body, r ++ k) := by
  have hback : q ≠ '\\' := by rcases hq with rfl | rfl <;> decide
  obtain ⟨hbody, rfl⟩ := isQuoted_of_quotedBody h
  exact (quotedBody_eq_some_iff hback).mpr ⟨hbody, by simp⟩

/-- A part of a template is read with anything after it. -/
theorem templateBody_rest {s body r : Text} {opens : Bool} (h : templateBody s = some (body, opens, r))
    (k : Text) : templateBody (s ++ k) = some (body, opens, r ++ k) := by
  obtain ⟨hbody, rfl⟩ := isRaw_of_templateBody h
  exact templateBody_eq_some_iff.mpr ⟨hbody, by simp⟩

/-- The text after the first piece of a text. -/
def afterPiece : Text → Option Text
  | [] => none
  | c :: s =>
    if c = '\'' ∨ c = '"' then (quotedBody c s).map Prod.snd
    else if c = '`' ∨ c = '\x7d' then (templateBody s).map (·.2.2)
    else some s

theorem Piece.afterPiece_append (hw : Piece w) (s : Text) : afterPiece (w ++ s) = some s := by
  cases hw with
  | char hc =>
    simp only [openings, List.mem_cons, List.not_mem_nil, or_false, not_or] at hc
    simp [afterPiece, hc]
  | string hq h => rw [List.cons_append, afterPiece, if_pos hq, quotedBody_rest hq h]; rfl
  | @template o _ _ _ ho h =>
    have hne : ¬ (o = '\'' ∨ o = '"') := by rcases ho with rfl | rfl <;> decide
    rw [List.cons_append, afterPiece, if_neg hne, if_pos ho, templateBody_rest h]
    rfl

/-- A text has one first piece. -/
theorem Piece.unique (hw : Piece w) (hv : Piece v) (h : w ++ s = v ++ t) : w = v ∧ s = t := by
  have hst : s = t := by
    have := hw.afterPiece_append s
    rw [h, hv.afterPiece_append t] at this
    exact (Option.some.inj this).symm
  subst hst
  exact ⟨List.append_cancel_right h, rfl⟩

end VariableImport.Script
