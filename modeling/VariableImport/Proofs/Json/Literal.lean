import VariableImport.Json.Printer
import VariableImport.Json.Reader
import VariableImport.Proofs.Text.Hexadecimal

/-!
# Proofs/Json/Literal — string literals and what they read back as

A character is written in one of four ways (`writtenAs_encodeChar`), each of printable ASCII
(`bounds_of_mem_encodeText`).  **A literal reads back as its text**, whatever follows it
(`string_flatMap`): the two units of a character beyond the first plane are taken together.
-/

namespace VariableImport.Json

variable {c : Char} {n : ℕ} {s t : Text}

/-! ## The ways to write a character -/

/-- The characters that have an escape of one letter, each behind its letter. -/
def letterEscapes : List (Char × Char) :=
  [('"', '"'), ('\\', '\\'), ('n', '\n'), ('r', '\r'), ('t', '\t'), ('f', '\x0c'), ('b', '\x08')]

/-- The first of the two units of a character beyond the first plane. -/
def highUnit (c : Char) : ℕ := 0xd800 + (c.toNat - 0x10000) / 0x400

/-- The second of the two units of a character beyond the first plane. -/
def lowUnit (c : Char) : ℕ := 0xdc00 + (c.toNat - 0x10000) % 0x400

/-- **The ways to write a character** in a string literal. -/
inductive WrittenAs (c : Char) : Text → Prop
  | plain (hquote : c ≠ '"') (hback : c ≠ '\\') (hlow : 32 ≤ c.toNat) (hhigh : c.toNat ≤ 126) : WrittenAs c [c]
  | letter {e : Char} (h : (e, c) ∈ letterEscapes) : WrittenAs c ['\\', e]
  | unit (h : c.toNat < 0x10000) : WrittenAs c (escapeUnit c.toNat)
  | pair (h : 0x10000 ≤ c.toNat) : WrittenAs c (escapeUnit (highUnit c) ++ escapeUnit (lowUnit c))

theorem writtenAs_encodeChar (c : Char) : WrittenAs c (encodeChar c) := by
  unfold encodeChar
  split
  case h_8 hquote hback _ _ _ _ _ =>
    dsimp only
    split
    · next h => exact .plain hquote hback h.1 h.2
    · split
      · next h => exact .unit h
      · next h => exact .pair (Nat.le_of_not_lt h)
  all_goals exact .letter (by decide)

theorem bounds_of_mem_escapeUnit (hc : c ∈ escapeUnit n) : 32 ≤ c.toNat ∧ c.toNat ≤ 126 := by
  rw [escapeUnit, List.mem_cons, List.mem_cons] at hc
  rcases hc with rfl | rfl | hc
  · decide
  · decide
  · have := Text.bounds_of_isHex (List.all_eq_true.mp (Text.all_isHex_toHex 4 n) c hc)
    omega

/-- A character is written in printable ASCII. -/
theorem WrittenAs.bounds {w : Text} (h : WrittenAs c w) {d : Char} (hd : d ∈ w) :
    32 ≤ d.toNat ∧ d.toNat ≤ 126 := by
  cases h with
  | plain hquote hback hlow hhigh => exact List.mem_singleton.mp hd ▸ ⟨hlow, hhigh⟩
  | @letter e h =>
    have hletters : ∀ p ∈ letterEscapes, 32 ≤ p.1.toNat ∧ p.1.toNat ≤ 126 := by decide
    rcases List.mem_cons.mp hd with rfl | hd
    · decide
    · exact List.mem_singleton.mp hd ▸ hletters _ h
  | unit h => exact bounds_of_mem_escapeUnit hd
  | pair h => exact (List.mem_append.mp hd).elim bounds_of_mem_escapeUnit bounds_of_mem_escapeUnit

/-- **A literal is printable ASCII.** -/
theorem bounds_of_mem_encodeText (hc : c ∈ encodeText s) : 32 ≤ c.toNat ∧ c.toNat ≤ 126 := by
  rw [encodeText, List.cons_append, List.mem_cons, List.mem_append, List.mem_flatMap,
    List.mem_singleton] at hc
  rcases hc with rfl | ⟨d, -, hd⟩ | rfl
  · decide
  · exact (writtenAs_encodeChar d).bounds hd
  · decide

/-! ## Units -/

/-- A character is no surrogate. -/
theorem toNat_bounds (c : Char) : c.toNat < 0xd800 ∨ 0xdfff < c.toNat ∧ c.toNat < 0x110000 := c.valid

theorem charOf_toNat (c : Char) : charOf c.toNat = c := by
  rw [charOf, if_pos (toNat_bounds c)]
  exact Char.ofNat_toNat c

theorem unit?_toHex (hn : n < 0x10000) (t : Text) : unit? (Text.toHex 4 n ++ t) = some n := by
  have htake : (Text.toHex 4 n ++ t).take 4 = Text.toHex 4 n :=
    List.take_left' (Text.length_toHex 4 n)
  rw [unit?, htake, if_pos ⟨Text.length_toHex 4 n, Text.all_isHex_toHex 4 n⟩, Text.ofHex_toHex hn]

theorem drop_toHex (n : ℕ) (t : Text) : (Text.toHex 4 n ++ t).drop 4 = t :=
  List.drop_left' (Text.length_toHex 4 n)

/-- Text follows four digits that are not the end. -/
theorem not_length_toHex_le (n : ℕ) (ht : t ≠ []) : ¬ (Text.toHex 4 n ++ t).length ≤ 4 := by
  have := List.length_pos_iff.mpr ht
  rw [List.length_append, Text.length_toHex]
  omega

/-- A unit that is no surrogate reads back as its character. -/
theorem unitEscape_unit (hc : c.toNat < 0x10000) (ht : t ≠ []) :
    unitEscape (Text.toHex 4 c.toNat ++ t) = .ok (c, t) := by
  have hplain : ¬ (0xd800 ≤ c.toNat ∧ c.toNat < 0xdc00) := by
    have := toNat_bounds c
    omega
  rw [unitEscape, if_neg (not_length_toHex_le _ ht), unit?_toHex hc]
  dsimp only
  rw [if_neg hplain, drop_toHex, charOf_toNat]

/-- **Two units** beyond the first plane read back as one character. -/
theorem unitEscape_pair (hc : 0x10000 ≤ c.toNat) (ht : t ≠ []) :
    unitEscape (Text.toHex 4 (highUnit c) ++ (escapeUnit (lowUnit c) ++ t)) = .ok (c, t) := by
  have hbounds := toNat_bounds c
  have hhigh : 0xd800 ≤ highUnit c ∧ highUnit c < 0xdc00 := by
    unfold highUnit
    omega
  have hlow : 0xdc00 ≤ lowUnit c ∧ lowUnit c < 0xe000 := by
    unfold lowUnit
    omega
  have hvalue : 0x10000 + (highUnit c - 0xd800) * 0x400 + (lowUnit c - 0xdc00) = c.toNat := by
    unfold highUnit lowUnit
    omega
  rw [unitEscape, if_neg (not_length_toHex_le _ (by simp [escapeUnit])), unit?_toHex (by omega)]
  dsimp only
  rw [if_pos hhigh, drop_toHex]
  simp only [escapeUnit, List.cons_append]
  rw [if_neg (not_length_toHex_le _ ht), unit?_toHex (by omega)]
  dsimp only
  rw [if_pos hlow, drop_toHex, hvalue, charOf_toNat]

/-! ## Reading back -/

theorem stringBody_unitEscape {u : Text} (h : unitEscape s = .ok (c, u)) (opening n : ℕ) :
    stringBody opening (n + 1) ('\\' :: 'u' :: s) =
      (stringBody opening n u).map fun (ds, rest) => (c :: ds, rest) := by
  rw [stringBody.eq_4, if_neg (by decide), if_pos rfl, h]
  show (stringBody opening n u >>= fun (ds, rest) => pure (c :: ds, rest)) = _
  cases stringBody opening n u <;> rfl

/-- **A written character is read** as the character, whatever follows it. -/
theorem stringBody_writtenAs {w : Text} (h : WrittenAs c w) (opening n : ℕ) (ht : t ≠ []) :
    stringBody opening (n + 1) (w ++ t) =
      (stringBody opening n t).map fun (ds, rest) => (c :: ds, rest) := by
  cases h with
  | plain hquote hback hlow hhigh =>
    rw [List.singleton_append, stringBody.eq_def]
    dsimp only
    rw [if_neg hquote, if_neg hback, if_neg (Nat.not_lt.mpr hlow)]
    cases stringBody opening n t <;> rfl
  | @letter e h =>
    have hletters : ∀ p ∈ letterEscapes, p.1 ≠ 'u' ∧ escaped? p.1 = some p.2 := by decide
    obtain ⟨hu, he⟩ := hletters _ h
    rw [List.cons_append, List.singleton_append, stringBody.eq_5 opening n '\\' e t hu,
      if_neg (by decide), if_pos rfl, he]
    cases stringBody opening n t <;> rfl
  | unit h =>
    exact stringBody_unitEscape (unitEscape_unit h ht) opening n
  | pair h =>
    rw [escapeUnit, List.append_assoc]
    exact stringBody_unitEscape (unitEscape_pair h ht) opening n

theorem stringBody_flatMap (opening : ℕ) (hn : s.length < n) (t : Text) :
    stringBody opening n (s.flatMap encodeChar ++ '"' :: t) = .ok (s, t) := by
  induction s generalizing n with
  | nil =>
    obtain ⟨n, rfl⟩ := Nat.exists_eq_add_one.mpr (Nat.zero_lt_of_lt hn)
    rw [List.flatMap_nil, List.nil_append, stringBody.eq_def]
    rfl
  | cons c s ih =>
    obtain ⟨n, rfl⟩ := Nat.exists_eq_add_one.mpr (Nat.zero_lt_of_lt hn)
    rw [List.flatMap_cons, List.append_assoc, stringBody_writtenAs (writtenAs_encodeChar c) _ _ (by simp),
      ih (Nat.lt_of_succ_lt_succ hn)]
    rfl

/-- Nothing is written shorter than it is. -/
theorem length_le_length_flatMap (s : Text) : s.length ≤ (s.flatMap encodeChar).length := by
  induction s with
  | nil => exact Nat.le_refl 0
  | cons c s ih =>
    have hc : 0 < (encodeChar c).length := by
      cases hw : encodeChar c with
      | nil => exact absurd (hw ▸ writtenAs_encodeChar c) (by rintro ⟨⟩)
      | cons d w => exact Nat.succ_pos _
    rw [List.flatMap_cons, List.length_append, List.length_cons]
    omega

/-- **A literal reads back as its text**, whatever follows it. -/
theorem string_flatMap (s t : Text) : string (s.flatMap encodeChar ++ '"' :: t) = .ok (s, t) := by
  have hlength := length_le_length_flatMap s
  refine stringBody_flatMap _ ?_ t
  rw [List.length_append, List.length_cons]
  omega

end VariableImport.Json
