import Mathlib.Data.List.Basic
import Mathlib.Data.List.TakeWhile
import VariableImport.Text.Lines

/-!
# Proofs/Text/Lines — the lines of texts that are put together

A text without line breaks is a line (`lines_eq_singleton`).  A newline behind a character that ends no
line is a cut: the lines before it and those behind it are the lines of the whole (`lines_append_newline`).
A line and a column are those of one place of a text at most (`eq_of_lineColumn_eq`); text in front of a place
moves them, unless it holds no newline and the place stands behind one (`lineColumn_append_eq_right_iff`).
-/

namespace VariableImport.Text

variable {c : Char} {s t : Text} {ws : List Text}

/-- The first character of a line. -/
theorem lines_cons (hc : isLineBreak c = false) (s : Text) :
    lines (c :: s) = (c :: (lines s).headD []) :: (lines s).tail := by
  rw [lines, if_neg (by simp [hc])]
  · cases lines s <;> rfl
  · rintro t rfl
    exact absurd hc (by decide)

/-- A carriage return is one break with the newline behind it. -/
theorem lines_return (s : Text) : lines ('\r' :: '\n' :: s) = lines ('\n' :: s) := rfl

/-- Any other line break ends a line. -/
theorem lines_break (hc : isLineBreak c = true) (hpair : ¬ (c = '\r' ∧ s.head? = some '\n')) :
    lines (c :: s) = [] :: lines s := by
  rw [lines, if_pos hc]
  rintro t rfl rfl
  exact hpair ⟨rfl, rfl⟩

theorem lines_ne_nil (hs : s ≠ []) : lines s ≠ [] := by
  fun_cases lines s with
  | case1 => exact absurd rfl hs
  | _ => simp

/-- **A text without line breaks is one line.** -/
theorem lines_eq_singleton (hs : s ≠ []) (hbreaks : ∀ c ∈ s, isLineBreak c = false) : lines s = [s] := by
  induction s with
  | nil => exact absurd rfl hs
  | cons c s ih =>
    rw [lines_cons (hbreaks c (List.mem_cons_self ..))]
    cases s with
    | nil => rfl
    | cons d s =>
      rw [ih (List.cons_ne_nil d s) fun e he => hbreaks e (List.mem_cons_of_mem _ he)]
      rfl

/-- Whether the last character of a text ends no line. -/
def EndsInLine (s : Text) : Prop := ∃ c ∈ s.getLast?, isLineBreak c = false

theorem EndsInLine.ne_nil (hs : EndsInLine s) : s ≠ [] := by
  rintro rfl
  obtain ⟨c, hlast, -⟩ := hs
  simp at hlast

theorem EndsInLine.append (s : Text) (ht : EndsInLine t) : EndsInLine (s ++ t) := by
  obtain ⟨c, hlast, hc⟩ := ht
  exact ⟨c, List.mem_getLast?_append_of_mem_getLast? hlast, hc⟩

theorem endsInLine_of_forall (hs : s ≠ []) (hbreaks : ∀ c ∈ s, isLineBreak c = false) : EndsInLine s :=
  ⟨s.getLast hs, List.getLast?_eq_some_getLast hs, hbreaks _ (List.getLast_mem hs)⟩

/-- What follows the first character ends in a line as well, unless it is empty. -/
theorem EndsInLine.tail (h : EndsInLine (c :: s)) : s = [] ∧ isLineBreak c = false ∨ EndsInLine s := by
  obtain ⟨d, hlast, hd⟩ := h
  cases s with
  | nil =>
    obtain rfl : c = d := by simpa using hlast
    exact .inl ⟨rfl, hd⟩
  | cons e s => exact .inr ⟨d, List.getLast?_cons_cons ▸ hlast, hd⟩

/-- **A newline behind a line** cuts it off. -/
theorem lines_append_newline (hs : EndsInLine s) (t : Text) :
    lines (s ++ '\n' :: t) = lines s ++ lines t := by
  induction s with
  | nil => exact absurd rfl hs.ne_nil
  | cons c s ih =>
    rcases hs.tail with ⟨rfl, hc⟩ | hs
    · have hcut : lines ('\n' :: t) = [] :: lines t := lines_break (by decide) fun h => absurd h.1 (by decide)
      rw [List.singleton_append, lines_cons hc, hcut, lines_cons hc]
      rfl
    · have ih := ih hs
      cases hc : isLineBreak c with
      | false =>
        obtain ⟨w, ws, hw⟩ := List.exists_cons_of_ne_nil (lines_ne_nil hs.ne_nil)
        rw [List.cons_append, lines_cons hc, ih, lines_cons hc, hw]
        rfl
      | true =>
        by_cases hpair : c = '\r' ∧ s.head? = some '\n'
        · obtain ⟨rfl, hhead⟩ := hpair
          obtain ⟨s, rfl⟩ := List.head?_eq_some_iff.mp hhead
          rw [List.cons_append, List.cons_append, lines_return, lines_return]
          exact ih
        · have hpair' : ¬ (c = '\r' ∧ (s ++ '\n' :: t).head? = some '\n') := by
            obtain ⟨d, s, rfl⟩ := List.exists_cons_of_ne_nil hs.ne_nil
            exact hpair
          rw [List.cons_append, lines_break hc hpair', ih, lines_break hc hpair]
          rfl

/-- **Texts on lines of their own** have their lines in order. -/
theorem lines_join (h : ∀ w ∈ ws, EndsInLine w) : lines (join ['\n'] ws) = ws.flatMap lines := by
  induction ws with
  | nil => rfl
  | cons w ws ih =>
    have ih := ih fun v hv => h v (List.mem_cons_of_mem _ hv)
    cases ws with
    | nil => simp
    | cons v ws =>
      rw [join_cons_cons, List.append_assoc, List.singleton_append,
        lines_append_newline (h w (List.mem_cons_self ..)), ih]
      rfl

theorem EndsInLine.join (h : ∀ w ∈ ws, EndsInLine w) (hws : ws ≠ []) : EndsInLine (join ['\n'] ws) := by
  induction ws with
  | nil => exact absurd rfl hws
  | cons w ws ih =>
    cases ws with
    | nil => exact h w (List.mem_singleton_self w)
    | cons v ws =>
      rw [join_cons_cons]
      exact .append _ (ih (fun u hu => h u (List.mem_cons_of_mem _ hu)) (List.cons_ne_nil v ws))

/-! ## Lines and columns -/

/-- **Behind a newline** text in front moves the line and keeps the column. -/
theorem lineColumn_append_of_mem (s : Text) (h : '\n' ∈ t) :
    lineColumn (s ++ t) = (s.count '\n' + (lineColumn t).1, (lineColumn t).2) := by
  have hstop : (t.reverse.takeWhile (· ≠ '\n')).length ≠ t.reverse.length := fun hall => by
    have hself := (List.takeWhile_prefix (· ≠ '\n')).eq_of_length hall
    have := List.takeWhile_eq_self_iff.mp hself '\n' (List.mem_reverse.mpr h)
    simp at this
  rw [lineColumn, List.count_append, List.reverse_append, List.takeWhile_append, if_neg hstop]
  rfl

/-- **On the first line** text in front gives its own line and moves the column. -/
theorem lineColumn_append_of_not_mem (s : Text) (h : '\n' ∉ t) :
    lineColumn (s ++ t) = ((lineColumn s).1, (lineColumn s).2 + t.length) := by
  have hall : ∀ c ∈ t.reverse, decide (c ≠ '\n') = true := fun c hc =>
    decide_eq_true fun hn => h (List.mem_reverse.mp (hn ▸ hc))
  rw [lineColumn, List.count_append, List.count_eq_zero.mpr h, List.reverse_append,
    List.takeWhile_append_of_pos hall, List.length_append, List.length_reverse]
  exact Prod.ext rfl (by simp only [lineColumn]; omega)

/-- The lines behind the first begin at a newline. -/
theorem one_lt_line_iff : 1 < (lineColumn t).1 ↔ '\n' ∈ t := by
  rw [lineColumn, Nat.lt_add_left_iff_pos, List.count_pos_iff]

/-- A place and one behind it have a line and a column in common only if nothing lies between. -/
theorem lineColumn_append_eq_left_iff : lineColumn (s ++ t) = lineColumn s ↔ t = [] := by
  refine ⟨fun h => ?_, fun h => by rw [h, List.append_nil]⟩
  by_cases ht : '\n' ∈ t
  · rw [lineColumn_append_of_mem s ht] at h
    have hline : s.count '\n' + (lineColumn t).1 = s.count '\n' + 1 := congrArg Prod.fst h
    have := one_lt_line_iff.mpr ht
    omega
  · rw [lineColumn_append_of_not_mem s ht] at h
    exact List.length_eq_zero_iff.mp (Nat.add_eq_left.mp (congrArg Prod.snd h))

/-- **A line and a column are those of one place of a text at most.** -/
theorem eq_of_lineColumn_eq {u : Text} (hs : s <+: u) (ht : t <+: u) (h : lineColumn s = lineColumn t) :
    s = t := by
  rcases List.prefix_or_prefix_of_prefix hs ht with ⟨v, rfl⟩ | ⟨v, rfl⟩
  · rw [lineColumn_append_eq_left_iff.mp h.symm, List.append_nil]
  · rw [lineColumn_append_eq_left_iff.mp h, List.append_nil]

/-- **Text in front of a place** keeps its line and its column if there is none, or if it has no newline
and the place lies behind one. -/
theorem lineColumn_append_eq_right_iff :
    lineColumn (s ++ t) = lineColumn t ↔ s = [] ∨ '\n' ∉ s ∧ '\n' ∈ t := by
  by_cases ht : '\n' ∈ t
  · rw [lineColumn_append_of_mem s ht, Prod.ext_iff, and_iff_left rfl, Nat.add_eq_right,
      List.count_eq_zero, and_iff_left ht]
    exact ⟨.inr, fun h => h.elim (fun hs => hs ▸ List.not_mem_nil) id⟩
  · have hfront : lineColumn t = ((lineColumn []).1, (lineColumn []).2 + t.length) :=
      lineColumn_append_of_not_mem [] ht
    have hiff : lineColumn (s ++ t) = lineColumn t ↔ lineColumn s = lineColumn [] := by
      rw [lineColumn_append_of_not_mem s ht, hfront, Prod.ext_iff, Prod.ext_iff, Nat.add_right_cancel_iff]
    rw [hiff, or_iff_left fun h => ht h.2]
    exact lineColumn_append_eq_left_iff (s := [])

end VariableImport.Text
