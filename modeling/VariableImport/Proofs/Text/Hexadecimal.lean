import Mathlib.Algebra.Group.Nat.Defs
import Mathlib.Data.List.Induction
import VariableImport.Text.Basic

/-!
# Proofs/Text/Hexadecimal — numbers and their hexadecimal digits

A number is written with as many digits as are asked for (`length_toHex`), and reads back if these are
enough for it (`ofHex_toHex`).  Digits write a number below a power of sixteen (`ofHex_lt`).
-/

namespace VariableImport.Text

theorem hexValue?_hexDigit {d : ℕ} (h : d < 16) : hexValue? (hexDigit d) = some d := by
  revert d
  decide

theorem isHex_hexDigit {d : ℕ} (h : d < 16) : isHex (hexDigit d) = true := by
  rw [isHex, hexValue?_hexDigit h]
  rfl

/-- Hexadecimal digits are printable ASCII. -/
theorem bounds_of_isHex {c : Char} (h : isHex c = true) : 48 ≤ c.toNat ∧ c.toNat ≤ 102 := by
  have hlow (a : Char) : a ≤ c ↔ a.toNat ≤ c.toNat := Iff.rfl
  have hhigh (a : Char) : c ≤ a ↔ c.toNat ≤ a.toNat := Iff.rfl
  unfold isHex hexValue? at h
  simp only [hlow, hhigh] at h
  have h0 : '0'.toNat = 48 := rfl
  have h9 : '9'.toNat = 57 := rfl
  have ha : 'a'.toNat = 97 := rfl
  have hf : 'f'.toNat = 102 := rfl
  have hA : 'A'.toNat = 65 := rfl
  have hF : 'F'.toNat = 70 := rfl
  split at h
  · omega
  · split at h
    · omega
    · split at h
      · omega
      · simp at h

theorem length_toHex (width n : ℕ) : (toHex width n).length = width := by
  induction width generalizing n with
  | zero => rfl
  | succ width ih => rw [toHex, List.length_append, ih, List.length_singleton]

theorem all_isHex_toHex (width n : ℕ) : (toHex width n).all isHex = true := by
  induction width generalizing n with
  | zero => rfl
  | succ width ih =>
    rw [toHex, List.all_append, ih, List.all_cons, isHex_hexDigit (Nat.mod_lt n (by decide))]
    rfl

theorem hexValue?_lt {c : Char} (h : isHex c = true) : (hexValue? c).getD 0 < 16 := by
  have hbounds := bounds_of_isHex h
  have hlow (a : Char) : a ≤ c ↔ a.toNat ≤ c.toNat := Iff.rfl
  have hhigh (a : Char) : c ≤ a ↔ c.toNat ≤ a.toNat := Iff.rfl
  have h9 : '9'.toNat = 57 := rfl
  have hF : 'F'.toNat = 70 := rfl
  unfold hexValue?
  simp only [hlow, hhigh]
  split
  · rw [Option.getD_some]
    omega
  · split
    · rw [Option.getD_some]
      omega
    · split
      · rw [Option.getD_some]
        omega
      · decide

theorem ofHex_concat (s : Text) (c : Char) : ofHex (s ++ [c]) = ofHex s * 16 + (hexValue? c).getD 0 := by
  rw [ofHex, List.foldl_append]
  rfl

/-- **Hexadecimal digits read back** as the number that they write. -/
theorem ofHex_toHex {width n : ℕ} (h : n < 16 ^ width) : ofHex (toHex width n) = n := by
  induction width generalizing n with
  | zero =>
    obtain rfl : n = 0 := by simpa using h
    rfl
  | succ width ih =>
    have hdiv : n / 16 < 16 ^ width := Nat.div_lt_of_lt_mul (by rwa [Nat.mul_comm, ← Nat.pow_succ])
    rw [toHex, ofHex_concat, ih hdiv, hexValue?_hexDigit (Nat.mod_lt n (by decide))]
    exact Nat.div_add_mod' n 16

/-- Each digit takes a number up to sixteen times as far. -/
theorem ofHex_lt {w : Text} (h : w.all isHex = true) : ofHex w < 16 ^ w.length := by
  induction w using List.reverseRecOn with
  | nil => exact Nat.one_pos
  | append_singleton w c ih =>
    rw [List.all_append, Bool.and_eq_true, List.all_cons, Bool.and_eq_true] at h
    have hw := ih h.1
    have hc := hexValue?_lt h.2.1
    rw [ofHex_concat, List.length_append, List.length_singleton, Nat.pow_succ]
    omega

end VariableImport.Text
