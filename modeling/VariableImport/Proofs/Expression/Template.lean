import VariableImport.Expression.Template

/-!
# Proofs/Expression/Template — a template keeps its parts

`Template.ofParts` puts a fragment before, between and after the expressions.  Read off by turns, its
fragments and expressions are the parts again, with adjacent texts run together and but for empty texts
(`keepsParts_ofParts`).  Parts that stand by turns already are taken as they are
(`ofParts_alternating`).
-/

namespace VariableImport.Template

variable {parts : List Part}

/-- Fragments and expressions by turns, as they stand in a template. -/
def interleave : List Text → List Expression → List Part
  | [], holes => holes.map .hole
  | quasi :: quasis, [] => (quasi :: quasis).map .static
  | quasi :: quasis, hole :: holes => .static quasi :: .hole hole :: interleave quasis holes

/-- Parts with adjacent texts run together. -/
def merge : List Part → List Part
  | [] => []
  | .static text :: parts =>
    match merge parts with
    | .static next :: rest => .static (text ++ next) :: rest
    | rest => .static text :: rest
  | .hole e :: parts => .hole e :: merge parts

/-- Whether a part is an empty text. -/
def Part.isEmpty : Part → Bool
  | .static text => text.isEmpty
  | .hole _ => false

/-- Parts but for empty texts. -/
def dropEmpty (parts : List Part) : List Part := parts.filter (!·.isEmpty)

/-- **Whether a template keeps some parts**: it has one fragment more than expressions, and both by turns
are the parts with adjacent texts run together, but for empty texts. -/
def KeepsParts (parts : List Part) (e : Expression) : Prop :=
  ∃ quasis holes, e = .template quasis holes ∧ quasis.length = holes.length + 1 ∧
    dropEmpty (interleave quasis holes) = dropEmpty (merge parts)

/-! ## Pieces -/

/-- Expressions with the fragments after them as parts. -/
def behind (pieces : List (Expression × Text)) : List Part :=
  pieces.flatMap fun piece => [.hole piece.1, .static piece.2]

theorem interleave_pieces (first : Text) (pieces : List (Expression × Text)) :
    interleave (first :: pieces.map Prod.snd) (pieces.map Prod.fst) = .static first :: behind pieces := by
  induction pieces generalizing first with
  | nil => rfl
  | cons piece pieces ih =>
    show .static first :: .hole piece.1 :: interleave (piece.2 :: _) _ = _
    rw [ih]
    rfl

theorem dropEmpty_hole (e : Expression) (parts : List Part) :
    dropEmpty (.hole e :: parts) = .hole e :: dropEmpty parts := rfl

theorem dropEmpty_static (text : Text) (parts : List Part) :
    dropEmpty (.static text :: parts) = (if text = [] then [] else [.static text]) ++ dropEmpty parts := by
  cases text <;> rfl

/-- A text in front of parts that begin with none stays apart. -/
theorem merge_static (h : ∀ next rest, merge parts ≠ .static next :: rest) (text : Text) :
    merge (.static text :: parts) = .static text :: merge parts := by
  rw [merge]
  split
  · next hparts => exact absurd hparts (h _ _)
  · rfl

/-- **Merged parts begin with the first fragment**, unless it is empty and stands for no text. -/
theorem merge_cases (parts : List Part) :
    (∃ rest, merge parts = .static (pieces parts).1 :: rest ∧
      dropEmpty rest = dropEmpty (behind (pieces parts).2)) ∨
    (pieces parts).1 = [] ∧ (∀ next rest, merge parts ≠ .static next :: rest) ∧
      dropEmpty (merge parts) = dropEmpty (behind (pieces parts).2) := by
  induction parts with
  | nil => exact .inr ⟨rfl, fun _ _ h => by simp [merge] at h, rfl⟩
  | cons part parts ih =>
    cases part with
    | static text =>
      rcases ih with ⟨rest, hmerge, hrest⟩ | ⟨hfirst, hnone, hrest⟩
      · refine .inl ⟨rest, ?_, hrest⟩
        rw [merge, hmerge]
        rfl
      · refine .inl ⟨merge parts, ?_, hrest⟩
        rw [merge_static hnone, pieces, hfirst, List.append_nil]
    | hole e =>
      refine .inr ⟨rfl, fun _ _ h => by simp [merge] at h, ?_⟩
      have hbehind : behind (pieces (.hole e :: parts)).2 =
          .hole e :: .static (pieces parts).1 :: behind (pieces parts).2 := rfl
      rw [merge, dropEmpty_hole, hbehind, dropEmpty_hole, dropEmpty_static]
      rcases ih with ⟨rest, hmerge, hrest⟩ | ⟨hfirst, -, hrest⟩
      · rw [hmerge, dropEmpty_static, hrest]
      · rw [hrest, hfirst]
        rfl

/-- **A template keeps its parts.** -/
theorem keepsParts_ofParts (parts : List Part) : KeepsParts parts (ofParts parts) := by
  refine ⟨_, _, rfl, by simp, ?_⟩
  rw [interleave_pieces, dropEmpty_static]
  rcases merge_cases parts with ⟨rest, hmerge, hrest⟩ | ⟨hfirst, -, hrest⟩
  · rw [hmerge, dropEmpty_static, hrest]
  · rw [hrest, hfirst]
    rfl

/-- **Parts by turns** are the fragments and expressions of their template. -/
theorem ofParts_alternating (first : Text) (pairs : List (Expression × Text)) :
    ofParts (.static first :: behind pairs) =
      .template (first :: pairs.map Prod.snd) (pairs.map Prod.fst) := by
  have hpieces : pieces (behind pairs) = ([], pairs) := by
    induction pairs with
    | nil => rfl
    | cons pair pairs ih =>
      show pieces (.hole pair.1 :: .static pair.2 :: behind pairs) = _
      simp [pieces, ih]
  simp [ofParts, pieces, hpieces]

end VariableImport.Template
