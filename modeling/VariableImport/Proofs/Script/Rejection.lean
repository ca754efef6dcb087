import VariableImport.Proofs.Text.Blank
import VariableImport.Proofs.Text.Lines
import VariableImport.Script.Parse

/-!
# Proofs/Script/Rejection — where a rejection points

A source is rejected without a place, or at a character of its trimmed form (`rejection_cases`); either way it is
quoted as it is given.  So blanks in front of a source leave the line and the column that are told as they are, while
they move the character.  **The two agree exactly** if there are no blanks, or no newline is among them and the
character stands behind the first line (`rejected_behind_blanks`).
-/

namespace VariableImport.Script

open Text (AllBlank isBlank lineColumn)

variable {s t w before : Text} {e : ImportError} {line column : ℤ}

/-! ## Places of characters -/

/-- **Whether a line and a column are those of the character behind `before`.** -/
def PointsTo (s : Text) (line column : ℤ) (before : Text) : Prop :=
  (∃ c rest, s = before ++ c :: rest) ∧
    ((lineColumn before).1 : ℤ) = line ∧ ((lineColumn before).2 : ℤ) = column

/-- The character at a place. -/
theorem pointsTo_take {place : ℕ} (h : place < s.length) :
    PointsTo s (lineColumn (s.take place)).1 (lineColumn (s.take place)).2 (s.take place) :=
  ⟨⟨s[place], s.drop (place + 1), by rw [← List.drop_eq_getElem_cons h, List.take_append_drop]⟩, rfl, rfl⟩

theorem PointsTo.isPrefix (h : PointsTo s line column before) : before <+: s := by
  obtain ⟨⟨c, rest, rfl⟩, -⟩ := h
  exact List.prefix_append ..

/-- **A line and a column point to one character at most.** -/
theorem PointsTo.unique {b : Text} (h : PointsTo s line column before) (hb : PointsTo s line column b) :
    b = before := by
  refine Text.eq_of_lineColumn_eq hb.isPrefix h.isPrefix (Prod.ext ?_ ?_)
  · exact Int.ofNat_inj.mp (hb.2.1.trans h.2.1.symm)
  · exact Int.ofNat_inj.mp (hb.2.2.trans h.2.2.symm)

/-- A longer text has the character at the same place. -/
theorem PointsTo.of_prefix (hst : s <+: t) (h : PointsTo s line column before) :
    PointsTo t line column before := by
  obtain ⟨⟨c, rest, rfl⟩, hplace⟩ := h
  obtain ⟨v, rfl⟩ := hst
  exact ⟨⟨c, rest ++ v, by rw [List.append_assoc, List.cons_append]⟩, hplace⟩

/-- **Text in front of a character** keeps its line and its column if there is none, or if it has no newline and
the character stands behind the first line. -/
theorem PointsTo.append_iff (h : PointsTo s line column before) :
    PointsTo (w ++ s) line column (w ++ before) ↔ w = [] ∨ '\n' ∉ w ∧ 1 < line := by
  obtain ⟨⟨c, rest, rfl⟩, rfl, rfl⟩ := h
  have hplace : PointsTo (w ++ (before ++ c :: rest)) (lineColumn before).1 (lineColumn before).2
      (w ++ before) ↔ lineColumn (w ++ before) = lineColumn before := by
    rw [PointsTo, and_iff_right ⟨c, rest, (List.append_assoc ..).symm⟩, Int.ofNat_inj, Int.ofNat_inj,
      Prod.ext_iff]
  rw [hplace, Text.lineColumn_append_eq_right_iff, ← Text.one_lt_line_iff (t := before)]
  exact or_congr_right (and_congr_right fun _ => Int.ofNat_lt.symm)

/-! ## Rejections -/

/-- **Whether a source is rejected at a line and a column**, and quoted as it is given. -/
def RejectedAt (s : Text) (line column : ℤ) : Prop :=
  parse s = .error ⟨.syntaxError (some line) (some column), some s⟩

instance (s : Text) (line column : ℤ) : Decidable (RejectedAt s line column) :=
  decidable_of_iff
    ((match parse s with
      | .error e => decide (e = ⟨.syntaxError (some line) (some column), some s⟩)
      | .ok _ => false) = true)
    (by unfold RejectedAt; cases parse s <;> simp)

theorem stallFrom_lt {reached place pending found : ℕ} (h : stallFrom reached place pending s = some found) :
    found < place + s.length := by
  induction s generalizing place pending with
  | nil => simp [stallFrom] at h
  | cons c s ih =>
    unfold stallFrom at h
    extract_lets pending' at h
    split at h
    · obtain rfl := Option.some.inj h
      simp
    · have := ih h
      rw [List.length_cons]
      omega

/-- **Reading breaks off at a character.** -/
theorem stall_lt {left place : ℕ} (h : stall s left = some place) : place < s.length := by
  simpa using stallFrom_lt h

/-- A rejected source is told without a place, or with that of a character of its trimmed form. -/
theorem rejection_cases (h : parse s = .error e) :
    e = ⟨.syntaxError none none, some s⟩ ∨ ∃ line column before,
      PointsTo (Text.trim s) line column before ∧ e = ⟨.syntaxError (some line) (some column), some s⟩ := by
  unfold parse at h
  dsimp only at h
  split at h
  · obtain rfl := Except.error.inj h
    unfold rejection
    split
    · exact .inl rfl
    · next place hplace => exact .inr ⟨_, _, _, pointsTo_take (stall_lt hplace), rfl⟩
  · split at h
    · cases h
    · exact .inl (Except.error.inj h).symm

/-- **What is parsed is the trimmed form**: a source with the same one is rejected alike, and quoted itself. -/
theorem parse_eq_error_of_trim (ht : Text.trim t = Text.trim s) (h : parse s = .error e) :
    parse t = .error { e with context := some t } := by
  unfold parse at h ⊢
  dsimp only at h ⊢
  rw [ht]
  split at h
  · obtain rfl := Except.error.inj h
    unfold rejection
    split <;> rfl
  · split at h
    · cases h
    · obtain rfl := Except.error.inj h
      rfl

/-! ## Blanks in front -/

/-- **A rejection points into the source without the blanks in front.**  A source that begins with no blank and is
rejected at a line and a column is rejected at one of its characters.  With blanks in front it is rejected at the
same line and column, and quoted with the blanks.  In what is quoted they are those of the same character exactly if
there are no blanks, or no newline is among them and the character stands behind the first line. -/
theorem rejected_behind_blanks (hs : ∀ c ∈ s.head?, isBlank c = false) (hw : AllBlank w)
    (h : parse s = .error e) (hplace : e.cause = .syntaxError (some line) (some column)) :
    ∃ before, (∀ b, PointsTo s line column b ↔ b = before) ∧ RejectedAt (w ++ s) line column ∧
      (PointsTo (w ++ s) line column (w ++ before) ↔ w = [] ∨ '\n' ∉ w ∧ 1 < line) := by
  obtain rfl | ⟨_, _, before, hpoints, rfl⟩ := rejection_cases h
  · simp at hplace
  · obtain ⟨hline, hcolumn⟩ := Cause.syntaxError.inj hplace
    obtain rfl := Option.some.inj hline
    obtain rfl := Option.some.inj hcolumn
    have hpoints := hpoints.of_prefix (Text.trim_prefix hs)
    have hrejected : RejectedAt (w ++ s) _ _ := parse_eq_error_of_trim (Text.trim_append hw s) h
    exact ⟨before, fun b => ⟨hpoints.unique, fun hb => hb ▸ hpoints⟩, hrejected, hpoints.append_iff⟩

/-- Indentation in front of a source that breaks off on its second line. -/
theorem rejected_behind_blanks_indented :
    AllBlank "\t ".toList ∧ RejectedAt "'./a/' +\n) id".toList 2 1 ∧
      RejectedAt "\t './a/' +\n) id".toList 2 1 ∧
      PointsTo "\t './a/' +\n) id".toList 2 1 "\t './a/' +\n".toList := by
  have hhead : ∀ c ∈ "'./a/' +\n) id".toList.head?, isBlank c = false := fun c hc => by
    obtain rfl : '\'' = c := Option.some.inj hc
    rfl
  have hblank : AllBlank "\t ".toList := by simp [AllBlank, isBlank]
  have hrejected : RejectedAt "'./a/' +\n) id".toList 2 1 := by
    decide +kernel
  have hpoints : PointsTo "'./a/' +\n) id".toList 2 1 "'./a/' +\n".toList :=
    ⟨⟨')', [' ', 'i', 'd'], rfl⟩, rfl, rfl⟩
  obtain ⟨before, hplace, hbehind, hiff⟩ := rejected_behind_blanks hhead hblank hrejected rfl
  obtain rfl := (hplace _).mp hpoints
  exact ⟨hblank, hrejected, hbehind, hiff.mpr (.inr ⟨by decide, by decide⟩)⟩

/-- **Blanks in front are not counted**: a newline moves the character that a source breaks off at to another line,
and spaces move it along its line, while the line and the column that are told stay the same. -/
theorem blanks_not_counted :
    RejectedAt "'./a/' id".toList 1 8 ∧ PointsTo "'./a/' id".toList 1 8 "'./a/' ".toList ∧
      (RejectedAt "\n'./a/' id".toList 1 8 ∧ PointsTo "\n'./a/' id".toList 2 8 "\n'./a/' ".toList ∧
        ¬ PointsTo "\n'./a/' id".toList 1 8 "\n'./a/' ".toList) ∧
      RejectedAt "  './a/' id".toList 1 8 ∧ PointsTo "  './a/' id".toList 1 10 "  './a/' ".toList ∧
        ¬ PointsTo "  './a/' id".toList 1 8 "  './a/' ".toList := by
  have hplain : RejectedAt "'./a/' id".toList 1 8 := by
    decide +kernel
  have hbehind {w : Text} (hw : AllBlank w) : RejectedAt (w ++ "'./a/' id".toList) 1 8 :=
    parse_eq_error_of_trim (Text.trim_append hw _) hplain
  refine ⟨hplain, ⟨⟨'i', ['d'], rfl⟩, rfl, rfl⟩, ⟨?_, ⟨⟨'i', ['d'], rfl⟩, rfl, rfl⟩, fun h => ?_⟩,
    ?_, ⟨⟨'i', ['d'], rfl⟩, rfl, rfl⟩, fun h => ?_⟩
  · exact hbehind (w := ['\n']) (by simp [AllBlank, isBlank])
  · exact absurd h.2.1 (by decide)
  · exact hbehind (w := [' ', ' ']) (by simp [AllBlank, isBlank])
  · exact absurd h.2.2 (by decide)

end VariableImport.Script
