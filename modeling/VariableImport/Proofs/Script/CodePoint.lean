import VariableImport.Proofs.Failure
import VariableImport.Proofs.Script.Grammatical
import VariableImport.Proofs.Script.LineEnd

/-!
# Proofs/Script/CodePoint — the code points that a text spells by their numbers

`escapes` lists the numbers of all escapes that start anywhere in a text.  A literal is decoded if the
numbers in it are in the range of Unicode (`exists_unescape`), so that a text with a reading is parsed if its
numbers are (`exists_parse_of_readings`).  A number in the range that is no character's, a surrogate, is
decoded to the replacement character: **without surrogates strings are decoded to what they spell**
(`decodesExactly`).
-/

namespace VariableImport.Script

variable {c : Char} {e : Expression} {k n : ℕ} {s t u w given : Text} {ws : List Token}

/-! ## The numbers in a text -/

/-- The number of the escape at the start of a text, if one by number stands there. -/
def escapeAt? : Text → Option ℕ
  | '\\' :: 'u' :: s => ((braced? s).or (hexDigits? 4 s)).map Text.ofHex
  | '\\' :: 'x' :: s => (hexDigits? 2 s).map Text.ofHex
  | _ => none

/-- The numbers of the escapes that start anywhere in a text. -/
def escapes (s : Text) : List ℕ := s.tails.filterMap escapeAt?

/-- **Whether a text spells a surrogate**, which is no character. -/
def SpellsSurrogate (s : Text) : Prop := ∃ n ∈ escapes s, 0xd800 ≤ n ∧ n ≤ 0xdfff

instance (s : Text) : Decidable (SpellsSurrogate s) :=
  inferInstanceAs (Decidable (∃ n ∈ escapes s, _))

theorem mem_escapes : n ∈ escapes s ↔ ∃ u, u <:+ s ∧ escapeAt? u = some n := by
  simp [escapes, List.mem_filterMap, List.mem_tails]

theorem hexDigits?_prefix (h : hexDigits? n s = some w) (t : Text) : hexDigits? n (s ++ t) = some w := by
  obtain ⟨⟨v, rfl⟩, hlength, hhex⟩ := hexDigits?_eq_some h
  rw [List.append_assoc, hexDigits?_append hlength hhex]

/-- **An escape is read** with anything behind it. -/
theorem escapeAt?_prefix (h : escapeAt? s = some n) (t : Text) : escapeAt? (s ++ t) = some n := by
  unfold escapeAt? at h
  split at h
  · next s =>
    obtain ⟨w, hw, rfl⟩ := Option.map_eq_some_iff.mp h
    change ((braced? (s ++ t)).or (hexDigits? 4 (s ++ t))).map Text.ofHex = _
    refine Option.map_eq_some_iff.mpr ⟨w, ?_, rfl⟩
    rcases Option.or_eq_some_iff.mp hw with hw | ⟨-, hw⟩
    · obtain ⟨⟨v, rfl⟩, hne, hhex⟩ := braced?_eq_some hw
      rw [List.cons_append, List.append_assoc, List.cons_append, braced?_braces hne hhex, Option.some_or]
    · obtain ⟨⟨v, rfl⟩, hlength, hhex⟩ := hexDigits?_eq_some hw
      rw [List.append_assoc, braced?_digits hlength hhex, hexDigits?_append hlength hhex, Option.none_or]
  · next s =>
    obtain ⟨w, hw, rfl⟩ := Option.map_eq_some_iff.mp h
    exact Option.map_eq_some_iff.mpr ⟨w, hexDigits?_prefix hw t, rfl⟩
  · cases h

/-- **A part of a text** spells what the text spells. -/
theorem escapes_of_part (h : u <:+: s) (hn : n ∈ escapes u) : n ∈ escapes s := by
  obtain ⟨v, hv, hat⟩ := mem_escapes.mp hn
  obtain ⟨x, y, rfl⟩ := h
  obtain ⟨z, rfl⟩ := hv
  exact mem_escapes.mpr ⟨v ++ y, ⟨x ++ z, by simp⟩, escapeAt?_prefix hat y⟩

/-! ## Decoding -/

/-- **What an escape spells**: nothing, the code point of its number, or what its letter names. -/
theorem escape_cases (c : Char) (t : Text) :
    (∃ n, escapeAt? ('\\' :: c :: t) = some n ∧ (escape c t).1 = codePoint n) ∨
      (escape c t).1 = .ok [] ∨ (escape c t).1 = .ok [named c] := by
  unfold escape
  split
  · next hu =>
    subst hu
    split
    · next digits _ hdigits => exact .inl ⟨_, by simp [escapeAt?, hdigits], rfl⟩
    · next digits hbraces hdigits => exact .inl ⟨_, by simp [escapeAt?, hbraces, hdigits], rfl⟩
    · exact .inr (.inr rfl)
  · split
    · next hx =>
      subst hx
      split
      · next digits hdigits => exact .inl ⟨_, by simp [escapeAt?, hdigits], rfl⟩
      · exact .inr (.inr rfl)
    · split
      · exact .inr (.inl rfl)
      · split
        · exact .inr (.inl rfl)
        · exact .inr (.inr rfl)

theorem escapes_cons (h : n ∈ escapes s) : n ∈ escapes (c :: s) :=
  escapes_of_part (List.suffix_cons c s).isInfix h

theorem exists_unescapeFrom (k : ℕ) (h : ∀ n ∈ escapes s, n < 0x110000) :
    ∃ t, unescapeFrom k s = .ok t := by
  fun_induction unescapeFrom k s with
  | case1 => exact ⟨[], rfl⟩
  | case2 k c s ih => exact ih fun n hn => h n (escapes_cons hn)
  | case3 c s spelled skip hescape ih =>
    obtain ⟨t, ht⟩ := ih fun n hn => h n (escapes_cons (escapes_cons hn))
    obtain ⟨v, hv⟩ : ∃ v, spelled = .ok v := by
      have hfst : (escape c s).1 = spelled := by rw [hescape]
      rcases escape_cases c s with ⟨n, hat, hn⟩ | hn | hn
      · exact hfst ▸ hn ▸ exists_codePoint (h n (mem_escapes.mpr ⟨_, List.suffix_rfl, hat⟩))
      · exact ⟨_, hfst.symm.trans hn⟩
      · exact ⟨_, hfst.symm.trans hn⟩
    exact ⟨v ++ t, by rw [hv, ht]; rfl⟩
  | case4 c s hne ih =>
    obtain ⟨t, ht⟩ := ih fun n hn => h n (escapes_cons hn)
    exact ⟨c :: t, by rw [ht]; rfl⟩

/-- **A literal is decoded** if its numbers are in the range of Unicode. -/
theorem exists_unescape (h : ∀ n ∈ escapes s, n < 0x110000) : ∃ t, unescape s = .ok t :=
  exists_unescapeFrom 0 h

/-- The character that stands for a surrogate. -/
def replacement : Char := '\ufffd'

/-- A number is decoded to the replacement character if it is that character's, or a surrogate. -/
theorem eq_of_codePoint (h : codePoint n = .ok t) (hmem : replacement ∈ t) :
    n = 0xfffd ∨ 0xd800 ≤ n ∧ n ≤ 0xdfff := by
  unfold codePoint at h
  split at h
  · next hvalid =>
    obtain rfl := Except.ok.inj h
    have hnumber : (Char.ofNat n).toNat = n := by
      rw [Char.ofNat, dif_pos hvalid]
      rfl
    exact .inl (hnumber.symm.trans (congrArg Char.toNat (List.mem_singleton.mp hmem).symm))
  · next hvalid =>
    split at h
    · exact .inr (by simp only [Nat.isValidChar] at hvalid; omega)
    · cases h

theorem SpellsSurrogate.cons (h : SpellsSurrogate s) : SpellsSurrogate (c :: s) :=
  h.imp fun _ hn => hn.imp_left escapes_cons

/-- What is behind a character says where the replacement character comes from. -/
theorem replacement_cons (h : replacement ∈ s ∨ 0xfffd ∈ escapes s) :
    replacement ∈ c :: s ∨ 0xfffd ∈ escapes (c :: s) :=
  h.imp (List.mem_cons_of_mem _) escapes_cons

/-- Only the replacement character names itself. -/
theorem eq_of_named (h : replacement ∈ [named c]) : c = replacement := by
  have h := List.mem_singleton.mp h
  unfold named at h
  split at h
  case h_8 => exact h.symm
  all_goals exact absurd h (by decide)

/-- What an escape in front of a text spells. -/
theorem mem_replacement_escape (hspells : ¬ SpellsSurrogate ('\\' :: c :: s)) (h : (escape c s).1 = .ok t)
    (hmem : replacement ∈ t) : replacement ∈ '\\' :: c :: s ∨ 0xfffd ∈ escapes ('\\' :: c :: s) := by
  rcases escape_cases c s with ⟨n, hat, hn⟩ | hn | hn
  · have hn' : n ∈ escapes ('\\' :: c :: s) := mem_escapes.mpr ⟨_, List.suffix_rfl, hat⟩
    rcases eq_of_codePoint (hn.symm.trans h) hmem with rfl | hsurrogate
    · exact .inr hn'
    · exact absurd ⟨n, hn', hsurrogate⟩ hspells
  · obtain rfl := Except.ok.inj (hn.symm.trans h)
    cases hmem
  · obtain rfl := Except.ok.inj (hn.symm.trans h)
    exact .inl (by simp [eq_of_named hmem])

theorem mem_replacement_unescapeFrom (hspells : ¬ SpellsSurrogate s) (h : unescapeFrom k s = .ok t)
    (hmem : replacement ∈ t) : replacement ∈ s ∨ 0xfffd ∈ escapes s := by
  fun_induction unescapeFrom k s generalizing t with
  | case1 =>
    obtain rfl := Except.ok.inj h
    exact absurd hmem List.not_mem_nil
  | case2 k c s ih => exact replacement_cons (ih (mt SpellsSurrogate.cons hspells) h hmem)
  | case3 c s spelled skip hescape ih =>
    obtain ⟨v, hv, h⟩ := bind_eq_ok.mp h
    obtain ⟨u, hu, rfl⟩ := map_eq_ok.mp h
    rcases List.mem_append.mp hmem with hmem | hmem
    · exact mem_replacement_escape hspells (by rw [hescape, hv]) hmem
    · exact replacement_cons (replacement_cons
        (ih (mt SpellsSurrogate.cons (mt SpellsSurrogate.cons hspells)) hu hmem))
  | case4 c s hne ih =>
    obtain ⟨u, hu, rfl⟩ := map_eq_ok.mp h
    rcases List.mem_cons.mp hmem with rfl | hmem
    · exact .inl (List.mem_cons_self ..)
    · exact replacement_cons (ih (mt SpellsSurrogate.cons hspells) hu hmem)

/-- **Whether the strings in a text are decoded to what they spell**: the replacement character, which
surrogates are decoded to as well, comes only from where it is written or spelled by its own number. -/
def DecodesExactly (s : Text) : Prop :=
  ∀ body t, body <:+: s → unescape body = .ok t → replacement ∈ t → replacement ∈ body ∨ 0xfffd ∈ escapes body

/-- **Without surrogates** strings are decoded to what they spell. -/
theorem decodesExactly (h : ¬ SpellsSurrogate s) : DecodesExactly s := fun _ _ hbody ht hmem =>
  mem_replacement_unescapeFrom (fun ⟨n, hn, hsurrogate⟩ => h ⟨n, escapes_of_part hbody hn, hsurrogate⟩) ht hmem

/-! ## Parsing -/

/-- The body of a string is a part of the text that it is read from. -/
theorem infix_of_scan {q : Char} {body r : Text} (h : (Terminal.quoted q).scan u = some (body, r)) :
    body <:+: u := by
  obtain ⟨w, hw, rfl⟩ := exists_lexeme_of_scan h
  cases hw with
  | word hw => exact absurd hw List.not_mem_nil
  | quoted _ => exact ⟨[q], [q] ++ r, by simp⟩
  | part hpart => cases hpart

/-- **The strings of a text** spell what the text spells. -/
theorem allInRange_of_escapes {r : Text} (h : Splits AnyGap ws s r) (hrange : ∀ n ∈ escapes s, n < 0x110000) :
    AllInRange ws := by
  induction h with
  | nil => exact allInRange_nil
  | @cons τ a ws s u t r hgap hscan _ ih =>
    have hu : u <:+ s := Gap.suffix hgap
    obtain ⟨w, -, rfl⟩ := exists_of_scan hscan
    refine allInRange_cons.mpr ⟨?_, ih fun n hn => ?_⟩
    · rintro q rfl
      exact exists_unescape fun n hn => hrange n (escapes_of_part ((infix_of_scan hscan).trans hu.isInfix) hn)
    · exact hrange n (escapes_of_part ((List.suffix_append w t).trans hu).isInfix hn)

theorem infix_of_trim (s : Text) : Text.trim s <:+: s := by
  obtain ⟨g, g', -, -, h⟩ := Text.exists_trim s
  exact ⟨g, g', by rw [List.append_assoc]; exact h.symm⟩

/-- **A text with a reading is parsed** if its numbers are in the range of Unicode. -/
theorem exists_parse_of_readings (h : (source (Text.trim given)).found ≠ [])
    (hrange : ∀ n ∈ escapes given, n < 0x110000) : ∃ e, parse given = .ok e := by
  obtain ⟨ws, x, r, ⟨hx, r', hs, -⟩, hhead⟩ := exists_reading h
  exact (exists_parse_of_head hx hhead).mpr (allInRange_of_escapes hs fun n hn =>
    hrange n (escapes_of_part (infix_of_trim given) hn))

end VariableImport.Script
