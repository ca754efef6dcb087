/-!
# Text/Basic — a text is a list of characters

A text is a list of characters, so that every function on it is a recursion that a proof can
follow.  This module holds the operations shared by paths, globs and scripts; the main statements
are that splitting loses nothing (`split_ne_nil`, `intercalate_split`) and that a cut at the last
occurrence of a character is exactly that (`cutLast_eq_some`).
-/

namespace VariableImport

/-- A text: its characters in order. -/
abbrev Text := List Char

instance : LawfulBEq Text := inferInstance

namespace Text

/-! ## Joining and splitting -/

/-- The words between the occurrences of a separator; `n` separators give `n + 1` words. -/
def split (sep : Char) : Text → List Text
  | [] => [[]]
  | c :: s =>
    if c = sep then [] :: split sep s
    else match split sep s with
      | [] => [[c]]
      | w :: ws => (c :: w) :: ws

theorem split_ne_nil (sep : Char) : ∀ s, split sep s ≠ []
  | [] => by simp [split]
  | c :: s => by
    unfold split
    by_cases h : c = sep
    · simp [h]
    · cases split sep s <;> simp [h]

/-- Texts joined with a separator between them. -/
def join (sep : Text) : List Text → Text
  | [] => []
  | [w] => w
  | w :: v :: ws => w ++ sep ++ join sep (v :: ws)

@[simp] theorem join_nil (sep : Text) : join sep [] = [] := rfl

@[simp] theorem join_singleton (sep w : Text) : join sep [w] = w := rfl

@[simp] theorem join_cons_cons (sep w v : Text) (ws : List Text) :
    join sep (w :: v :: ws) = w ++ sep ++ join sep (v :: ws) := rfl

/-- Splitting loses nothing. -/
theorem join_split (sep : Char) (s : Text) : join [sep] (split sep s) = s := by
  induction s with
  | nil => rfl
  | cons c s ih =>
    unfold split
    by_cases h : c = sep
    · cases hs : split sep s with
      | nil => exact absurd hs (split_ne_nil sep s)
      | cons w ws => rw [hs] at ih; simp [h, ih]
    · cases hs : split sep s with
      | nil => exact absurd hs (split_ne_nil sep s)
      | cons w ws =>
        rw [hs] at ih
        cases ws with
        | nil => simpa [h] using ih
        | cons v ws => simpa [h] using ih

/-- The words of a split hold no separator. -/
theorem not_mem_of_mem_split {sep : Char} {s w : Text} (h : w ∈ split sep s) : sep ∉ w := by
  induction s generalizing w with
  | nil =>
    have : w = [] := by simpa [split] using h
    simp [this]
  | cons c s ih =>
    unfold split at h
    by_cases hc : c = sep
    · rw [if_pos hc] at h
      rcases List.mem_cons.1 h with h | h
      · simp [h]
      · exact ih h
    · rw [if_neg hc] at h
      cases hs : split sep s with
      | nil => exact absurd hs (split_ne_nil sep s)
      | cons v vs =>
        rw [hs] at h ih
        rcases List.mem_cons.1 h with h | h
        · have := ih (List.mem_cons_self ..)
          simpa [h, this] using fun e => hc e.symm
        · exact ih (List.mem_cons_of_mem _ h)

/-! ## Cutting at a character -/

/-- The text before and after the first occurrence of a character. -/
def cutFirst (x : Char) : Text → Option (Text × Text)
  | [] => none
  | c :: s => if c = x then some ([], s) else (cutFirst x s).map fun (h, t) => (c :: h, t)

/-- The text before and after the last occurrence of a character. -/
def cutLast (x : Char) : Text → Option (Text × Text)
  | [] => none
  | c :: s =>
    match cutLast x s with
    | some (h, t) => some (c :: h, t)
    | none => if c = x then some ([], s) else none

theorem cutLast_eq_none {x : Char} {s : Text} : cutLast x s = none ↔ x ∉ s := by
  induction s with
  | nil => simp [cutLast]
  | cons c s ih =>
    unfold cutLast
    cases hs : cutLast x s with
    | none =>
      have := ih.1 hs
      by_cases hc : c = x
      · simp [hc]
      · simpa [hc, this] using fun e => hc e.symm
    | some p =>
      have : x ∈ s := Classical.byContradiction fun hn => by simp [ih.2 hn] at hs
      simp [this]

theorem cutLast_eq_some {x : Char} {s h t : Text} :
    cutLast x s = some (h, t) ↔ s = h ++ x :: t ∧ x ∉ t := by
  induction s generalizing h with
  | nil => simp [cutLast]
  | cons c s ih =>
    unfold cutLast
    cases hs : cutLast x s with
    | none =>
      have hx := cutLast_eq_none.1 hs
      by_cases hc : c = x
      · subst hc
        cases h with
        | nil => simp; exact fun e => e ▸ hx
        | cons d h =>
          simp only [↓reduceIte, Option.some.injEq, Prod.mk.injEq, List.nil_eq, reduceCtorEq,
            false_and, List.cons_append, List.cons.injEq, false_iff, not_and, Decidable.not_not]
          rintro ⟨-, e⟩
          exact absurd (e ▸ List.mem_append_right _ (List.mem_cons_self ..)) hx
      · cases h with
        | nil => simp [hc]
        | cons d h =>
          simp only [if_neg hc, reduceCtorEq, List.cons_append, List.cons.injEq, false_iff, not_and]
          rintro ⟨-, e⟩
          exact absurd (e ▸ List.mem_append_right _ (List.mem_cons_self ..)) hx
    | some p =>
      obtain ⟨a, b⟩ := p
      cases h with
      | nil =>
        have : x ∈ s := Classical.byContradiction fun hn => by simp [cutLast_eq_none.2 hn] at hs
        simp only [Option.some.injEq, Prod.mk.injEq, reduceCtorEq, false_and, List.nil_append,
          List.cons.injEq, false_iff, not_and, Decidable.not_not]
        rintro ⟨-, rfl⟩
        exact this
      | cons d h =>
        have := @ih h
        rw [hs] at this
        simp only [Option.some.injEq, Prod.mk.injEq] at this
        simp only [Option.some.injEq, Prod.mk.injEq, List.cons.injEq, List.cons_append, and_assoc]
        rw [this]

/-! ## Heads, tails and replacement -/

/-- Whether a text begins with another. -/
def startsWith (s head : Text) : Bool := head.isPrefixOf s

/-- Whether a text ends with another. -/
def endsWith (s tail : Text) : Bool := tail.isSuffixOf s

theorem startsWith_iff {s head : Text} : s.startsWith head = true ↔ ∃ t, s = head ++ t := by
  simp only [startsWith, List.isPrefixOf_iff_prefix, List.IsPrefix]
  exact ⟨fun ⟨t, h⟩ => ⟨t, h.symm⟩, fun ⟨t, h⟩ => ⟨t, h.symm⟩⟩

section

variable {α : Type} [BEq α] (a b : α) (head s : List α)

@[simp] theorem nil_isPrefixOf? : List.isPrefixOf? [] s = some s := by cases s <;> rfl

@[simp] theorem cons_isPrefixOf?_nil : (a :: head).isPrefixOf? [] = none := rfl

@[simp] theorem cons_isPrefixOf?_cons :
    (a :: head).isPrefixOf? (b :: s) = if a == b then head.isPrefixOf? s else none := rfl

end

/-- `isPrefixOf?` gives what follows a head. -/
theorem isPrefixOf?_eq_some {α : Type} [BEq α] [LawfulBEq α] {head s tail : List α} :
    head.isPrefixOf? s = some tail ↔ s = head ++ tail := by
  induction head generalizing s with
  | nil => simp [eq_comm]
  | cons a head ih =>
    cases s with
    | nil => simp
    | cons b s =>
      by_cases h : a = b
      · simp [h, ih]
      · simp [h, Ne.symm h]

/-- Whether a text occurs inside another. -/
def contains (s part : Text) : Bool :=
  match s with
  | [] => part.isEmpty
  | c :: s => part.isPrefixOf (c :: s) || contains s part

/-- Whether some tail of the text, the whole and the empty one included, satisfies a test. -/
def anyTail (p : Text → Bool) : Text → Bool
  | [] => p []
  | c :: s => p (c :: s) || anyTail p s

/-- Replaces the occurrences of a non-empty text from left to right; `skip` characters of the last
occurrence are still to be passed over. -/
private def replaceFrom (old new : Text) : Nat → Text → Text
  | _, [] => []
  | skip + 1, _ :: s => replaceFrom old new skip s
  | 0, c :: s =>
    if old.isPrefixOf (c :: s) then new ++ replaceFrom old new (old.length - 1) s
    else c :: replaceFrom old new 0 s

/-- Every occurrence of one text replaced by another, from left to right without overlap; the empty
text occurs before every character and at the end. -/
def replace (s old new : Text) : Text :=
  if old.isEmpty then new ++ s.flatMap (fun c => c :: new) else replaceFrom old new 0 s

private theorem replaceFrom_skip (old new : Text) (part s : Text) :
    replaceFrom old new part.length (part ++ s) = replaceFrom old new 0 s := by
  induction part with
  | nil => rfl
  | cons c part ih => exact ih

section

variable {old : Text} (h : old ≠ []) (new : Text)

include h

theorem replace_nil : replace [] old new = [] := by
  rw [replace, if_neg (by simpa using h)]
  rfl

/-- An occurrence at the start is replaced. -/
theorem replace_append_self (s : Text) : replace (old ++ s) old new = new ++ replace s old new := by
  obtain ⟨c, rest, rfl⟩ := List.exists_cons_of_ne_nil h
  have hocc : (c :: rest).isPrefixOf (c :: (rest ++ s)) = true :=
    List.isPrefixOf_iff_prefix.mpr ⟨s, rfl⟩
  simp only [replace, List.isEmpty_cons, Bool.false_eq_true, if_false]
  rw [List.cons_append, replaceFrom, if_pos hocc]
  exact congrArg (new ++ ·) (replaceFrom_skip (c :: rest) new rest s)

/-- A character that starts no occurrence is kept. -/
theorem replace_cons {c : Char} {s : Text} (hocc : ¬ old <+: c :: s) :
    replace (c :: s) old new = c :: replace s old new := by
  have hempty : old.isEmpty = false := by simpa using h
  simp only [replace, hempty, Bool.false_eq_true, if_false]
  rw [replaceFrom, if_neg fun hprefix => hocc (List.isPrefixOf_iff_prefix.mp hprefix)]

end

/-! ## Lists without repetition -/

/-- A member put behind a list that does not hold it yet. -/
def addNew {α : Type} [BEq α] (seen : List α) (x : α) : List α :=
  if seen.contains x then seen else seen ++ [x]

/-- Keeps the first occurrence of every member, in order. -/
def distinct {α : Type} [BEq α] (xs : List α) : List α := xs.foldl addNew []

section

variable {α : Type} [BEq α] [LawfulBEq α]

theorem mem_addNew {seen : List α} {x y : α} : y ∈ addNew seen x ↔ y ∈ seen ∨ y = x := by
  unfold addNew
  split
  · next h =>
    refine ⟨.inl, ?_⟩
    rintro (hy | rfl)
    · exact hy
    · exact List.contains_iff_mem.1 h
  · simp

theorem nodup_addNew {seen : List α} (h : seen.Nodup) (x : α) : (addNew seen x).Nodup := by
  unfold addNew
  split
  · exact h
  · next hx =>
    refine List.nodup_append.2 ⟨h, by simp, fun a ha b hb => ?_⟩
    rintro rfl
    exact hx (List.contains_iff_mem.2 (List.mem_singleton.1 hb ▸ ha))

theorem mem_foldl_addNew {xs seen : List α} {y : α} :
    y ∈ xs.foldl addNew seen ↔ y ∈ seen ∨ y ∈ xs := by
  induction xs generalizing seen with
  | nil => simp
  | cons x xs ih => rw [List.foldl_cons, ih, mem_addNew, List.mem_cons, or_assoc]

/-- **Nothing is lost or invented.** -/
theorem mem_distinct {xs : List α} {y : α} : y ∈ distinct xs ↔ y ∈ xs := by
  rw [distinct, mem_foldl_addNew]
  simp

/-- **No member is kept twice.** -/
theorem nodup_distinct (xs : List α) : (distinct xs).Nodup := by
  have go (xs seen : List α) (h : seen.Nodup) : (xs.foldl addNew seen).Nodup := by
    induction xs generalizing seen with
    | nil => exact h
    | cons x xs ih => exact ih _ (nodup_addNew h x)
  exact go xs [] List.nodup_nil

end

/-! ## Order and numerals -/

/-- Order by code point: a shorter text comes before its extensions. -/
def le : Text → Text → Bool
  | [], _ => true
  | _ :: _, [] => false
  | a :: s, b :: t => a.val < b.val || (a == b && le s t)

/-- Sorted by code point, equal members kept once. -/
def sortedSet (xs : List Text) : List Text :=
  distinct (xs.mergeSort le)

/-- The decimal numeral of a natural number. -/
def ofNat (n : Nat) : Text := (toString n).toList

/-- The decimal numeral of an integer. -/
def ofInt (n : Int) : Text := (toString n).toList

/-- The value of a hexadecimal digit. -/
def hexValue? (c : Char) : Option Nat :=
  if '0' ≤ c ∧ c ≤ '9' then some (c.toNat - 48)
  else if 'a' ≤ c ∧ c ≤ 'f' then some (c.toNat - 87)
  else if 'A' ≤ c ∧ c ≤ 'F' then some (c.toNat - 55)
  else none

/-- Whether a character is a hexadecimal digit. -/
def isHex (c : Char) : Bool := (hexValue? c).isSome

/-- The number written by hexadecimal digits, the most significant first. -/
def ofHex (s : Text) : Nat := s.foldl (fun n c => n * 16 + (hexValue? c).getD 0) 0

/-- The lower-case hexadecimal digit of a number below sixteen. -/
def hexDigit (d : Nat) : Char := if d < 10 then Char.ofNat (48 + d) else Char.ofNat (87 + d)

/-- The last `width` hexadecimal digits of a number, the most significant first. -/
def toHex : Nat → Nat → Text
  | 0, _ => []
  | width + 1, n => toHex width (n / 16) ++ [hexDigit (n % 16)]

end Text

end VariableImport
