import VariableImport.Proofs.Script.Cut

/-!
# Proofs/Script/Inserted — a comment between two tokens of a call

A block comment may be inserted between two tokens of an import call that may have comments already
(`Inserted`).  The two calls are alike, so they are parsed as the same expression; and if the first
argument is cut where it ends in both, what is cut is too (`Inserted.parse_importArgument`).
-/

namespace VariableImport.Script

open Computability Scan

variable {A A' Q S S' g g' g₁ k lead q r s t v x y source source' : Text} {p : Option Char} {e : Expression}
  {ts₁ ts₂ ws ws₁ ws₂ : List Terminal}

/-! ## Places between tokens -/

/-- **A place between two tokens**: behind the tokens `ws₁`, which stand in `x`, and part of the gap
behind them, with the tokens `ws₂` in `v` after it.  No token goes on here, and no slash stands here. -/
structure Between (ws₁ ws₂ : List Terminal) (x g v r : Text) : Prop where
  before : Spells CommentGap ws₁ (x ++ (g ++ v)) (g ++ v)
  gap : Ended g
  behind : Spells CommentGap ws₂ v r
  apart : x.getLast?.any (joins · (g ++ v)) = false
  slash : x.getLast? = some '/' → g ≠ []

/-- **A comment more** in a gap. -/
theorem Alike.comment (hg : Ended g) (hk : IsBlockComment k) (h : Alike none v v)
    (hp : p.any (joins · (g ++ v)) = false) : Alike p (g ++ v) (g ++ (k ++ v)) := by
  have hskips {u : Text} (hu : Skips v u) : Skips (g ++ (k ++ v)) u := hg.skips (hk.ended.skips hu)
  cases h with
  | done hs => exact .done (hg.skips hs) (hskips hs)
  | @piece _ w _ _ s' t' hw hs ht _ _ h =>
    refine .piece hw (hg.skips hs) (hskips ht) (fun hj => ?_) (fun _ e => ?_) h
    · rw [hp] at hj
      cases hj
    · have hle := hs.suffix.length_le
      rw [hs.unique ht, ← e] at hle
      have := List.length_pos_of_ne_nil hk.ne_nil
      simp only [List.length_append] at hle
      omega

namespace Between

variable (h : Between ws₁ ws₂ x g v r) (hk : IsBlockComment k)

include h

theorem keepsSlash (u : Text) : KeepsSlash x (g ++ v) (g ++ u) := by
  intro hx hv
  obtain ⟨c, g', rfl⟩ := List.exists_cons_of_ne_nil (h.slash hx)
  exact hv

include hk

/-- **A comment at the place** makes an alike text. -/
theorem alike (hws : ∀ τ ∈ ws₁, τ.isToken = true) (hv : Alike none v v)
    (hp : x = [] → p.any (joins · (g ++ v)) = false) :
    Alike p (x ++ (g ++ v)) (x ++ (g ++ (k ++ v))) := by
  refine h.before.alike hws (fun _ h => h) (h.keepsSlash _) (.comment h.gap hk hv ?_)
  cases hx : x.getLast? with
  | none => exact hp (List.getLast?_eq_none_iff.mp hx)
  | some c =>
    have := h.apart
    rwa [hx] at this

/-- **A comment at the place** hides none of the tokens before it. -/
theorem rescan (hws : ∀ τ ∈ ws₁, τ.isToken = true) (hv : Alike none v v) :
    Spells CommentGap ws₁ (x ++ (g ++ (k ++ v))) (g ++ (k ++ v)) :=
  h.before.rescan hws (h.keepsSlash _) (.comment h.gap hk hv h.apart)

end Between

/-! ## Comments in arguments -/

/-- Tokens on both sides of a gap. -/
theorem spaced_append (h₁ : Spells CommentGap ws₁ (x ++ (g ++ (y ++ (q ++ Q)))) (g ++ (y ++ (q ++ Q))))
    (hg : Ended g) (h₂ : Spells CommentGap ws₂ (y ++ (q ++ Q)) (q ++ Q)) (hq : Ended q) :
    Spaced (ws₁ ++ ws₂) (x ++ (g ++ (y ++ q))) Q := by
  by_cases hne : ws₂ = []
  · subst hne
    obtain rfl : y = [] := List.append_left_eq_self.mp (spells_nil.mp h₂).symm
    refine ⟨x, g ++ q, by simp, hg.append hq, ?_⟩
    rw [List.append_nil, List.append_assoc]
    exact h₁
  · refine ⟨x ++ (g ++ y), q, by simp, hq, ?_⟩
    have := spells_append.mpr ⟨_, h₁, h₂.behind_gap hg hne⟩
    simpa using this

theorem joins_prefix {c : Char} (h : joins c (s ++ t) = false) : joins c s = false := by
  cases s with
  | nil => rfl
  | cons d s =>
    cases s with
    | nil =>
      simp only [joins, List.cons_append, List.nil_append, Bool.or_eq_false_iff] at h ⊢
      simp [h]
    | cons e s => exact h

/-- **Arguments are alike** if a comment is inserted in one of them. -/
theorem Between.argument_alike (hws : ws₁ ++ ws₂ ∈ expressions)
    (h : Between ws₁ ws₂ x g (y ++ (q ++ Q)) (q ++ Q)) (hq : Ended q) (hk : IsBlockComment k) :
    Alike none (x ++ (g ++ (y ++ q))) (x ++ (g ++ (k ++ (y ++ q)))) := by
  have htokens : ∀ τ ∈ ws₁ ++ ws₂, τ.isToken = true :=
    fun _ => isToken_of_mem (leads_expressions [] false _ hws)
  have hskips : Skips q [] := by simpa using hq.skips (s := []) (.here rfl)
  have hself : Alike none (y ++ q) (y ++ q) :=
    h.behind.alike (fun τ hτ => htokens τ (List.mem_append_right _ hτ)) (fun _ => startsComment_prefix)
      (fun _ => startsComment_prefix) (.done hskips hskips)
  refine h.before.alike (fun τ hτ => htokens τ (List.mem_append_left _ hτ)) (h.keepsSlash _)
    (h.keepsSlash _) (.comment h.gap hk hself ?_)
  have hapart := h.apart
  cases hx : x.getLast? with
  | none => rfl
  | some c =>
    rw [hx, Option.any_some] at hapart
    refine joins_prefix (t := Q) ?_
    simpa using hapart

namespace Between

variable (h : Between ws₁ ws₂ x g (y ++ (q ++ Q)) (q ++ Q)) (hws : ws₁ ++ ws₂ ∈ expressions)
  (hq : Ended q) (hQ : IsTail Q)

include h hws hq hQ

theorem alike_behind : Alike none (y ++ (q ++ Q)) (y ++ (q ++ Q)) := by
  obtain ⟨-, ts, hts, r, hspells, hr⟩ := hQ
  exact h.behind.alike_self
    (fun _ hτ => isToken_of_mem (leads_expressions [] false _ hws) (List.mem_append_right _ hτ))
    (.gaps hq hq Iff.rfl fun _ => (tail_alike hts hspells hr).self)

/-- **An argument with a comment at the place** is one still. -/
theorem spaced (hk : IsBlockComment k) : Spaced (ws₁ ++ ws₂) (x ++ (g ++ (k ++ (y ++ q)))) Q := by
  have hbefore := h.rescan hk
    (fun _ hτ => isToken_of_mem (leads_expressions [] false _ hws) (List.mem_append_left _ hτ))
    (h.alike_behind hws hq hQ)
  rw [← List.append_assoc g] at hbefore
  have := spaced_append hbefore (h.gap.append hk.ended) h.behind hq
  rwa [List.append_assoc g] at this

end Between

/-! ## Calls with a comment more -/

/-- **A comment inserted between two tokens of an import call**: behind the word of imports, in the gaps
of the first argument, or behind it.  `A` is the text of the first argument, and `A'` that with the
comment. -/
inductive Inserted (k : Text) : Text → Text → Text → Text → Prop
  | word {lead g g' A Q : Text} {ws : List Terminal} (hlead : Ended lead) (hg : Ended g) (hg' : Ended g')
      (hws : ws ∈ expressions) (hA : Spaced ws A Q) (hQ : IsTail Q) :
      Inserted k (callText lead (g ++ g') A Q) (callText lead (g ++ (k ++ g')) A Q) A A
  | argument {lead g₀ x g y q Q : Text} {ws₁ ws₂ : List Terminal} (hlead : Ended lead) (hg₀ : Ended g₀)
      (hws : ws₁ ++ ws₂ ∈ expressions) (h : Between ws₁ ws₂ x g (y ++ (q ++ Q)) (q ++ Q)) (hq : Ended q)
      (hQ : IsTail Q) :
      Inserted k (callText lead g₀ (x ++ (g ++ (y ++ q))) Q) (callText lead g₀ (x ++ (g ++ (k ++ (y ++ q)))) Q)
        (x ++ (g ++ (y ++ q))) (x ++ (g ++ (k ++ (y ++ q))))
  | behind {lead g₀ A x g v r : Text} {ws ts₁ ts₂ : List Terminal} (hlead : Ended lead) (hg₀ : Ended g₀)
      (hws : ws ∈ expressions) (hA : Spaced ws A (x ++ (g ++ v))) (hts : ts₁ ++ ts₂ ∈ callTails)
      (hts₁ : ts₁ ≠ []) (hts₂ : ts₂ ≠ []) (h : Between ts₁ ts₂ x g v r) (hr : Skips r []) :
      Inserted k (callText lead g₀ A (x ++ (g ++ v))) (callText lead g₀ A (x ++ (g ++ (k ++ v)))) A A

/-- A token goes on with plain characters alone. -/
theorem isPlain_of_joins {c d : Char} (h : joins c (d :: s) = true) : isPlain d = true := by
  simp only [joins, Bool.or_eq_true, Bool.and_eq_true, beq_iff_eq] at h
  rcases h with (((h | ⟨-, h⟩) | ⟨-, h⟩) | ⟨⟨-, rfl⟩, -⟩) | ⟨-, h⟩
  · obtain ⟨w, hw, h⟩ := List.any_eq_true.mp h
    have hmem : (c, d) ∈ w.zip w.tail := by simpa using h
    exact (longWords_spec w hw).2.2 d (List.mem_of_mem_tail (List.of_mem_zip hmem).2)
  · exact isPlain_of_inName h
  · exact isPlain_of_isDecimal h
  · decide
  · exact isPlain_of_isDecimal h

/-- No token goes on into a gap. -/
theorem joins_gap {c : Char} (hg : Ended g) (ht : joins c t = false) : joins c (g ++ t) = false := by
  have start {d : Char} (hd : isPlain d = false) (u : Text) : joins c (d :: u) = false := by
    by_contra h
    rw [isPlain_of_joins (Bool.not_eq_false _ ▸ h)] at hd
    cases hd
  cases hg with
  | nil => exact ht
  | blank hd => exact start (by simp [isPlain, hd]) _
  | line => exact start (by decide) _
  | block => exact start (by decide) _

/-- A comment in front of the first argument. -/
theorem inserted_first (hlead : Ended lead) (hg₁ : Ended g₁) (hg : Blanks g) (hA : IsExpression A)
    (hQ : IsTail Q) : Inserted k (callText lead g₁ (g ++ A) Q) (callText lead g₁ (k ++ (g ++ A)) Q)
      (g ++ A) (k ++ (g ++ A)) := by
  have hboundary : Boundary Q := fun c hc => .inr ((hQ.1 c hc).imp_right .inl)
  obtain ⟨ws, hws, hspells⟩ := hA.exists_spells hg hboundary
  have hbehind : Spells CommentGap ws (g ++ A ++ ([] ++ Q)) ([] ++ Q) := by
    have := spells_commentGap (leads_expressions [] false ws hws) rfl hspells
    simpa using this
  have hplace : Between [] ws [] [] (g ++ A ++ ([] ++ Q)) ([] ++ Q) :=
    ⟨.nil _, .nil, hbehind, rfl, fun h => absurd h (by simp)⟩
  have := Inserted.argument (k := k) hlead hg₁ (show [] ++ ws ∈ expressions from hws) hplace .nil hQ
  simpa using this

/-- **A comment between two tokens** makes an alike call. -/
theorem Inserted.alike (hk : IsBlockComment k) (h : Inserted k S S' A A') : Alike none S S' := by
  cases h with
  | @word lead g g' A Q ws hlead hg hg' hws hA hQ =>
    obtain ⟨-, ts, hts, r, hspells, hr⟩ := hQ
    have hcall : Alike none (g' ++ '(' :: (A ++ Q)) (g' ++ '(' :: (A ++ Q)) :=
      alike_open hg' hg' Iff.rfl (hA.alike_append hws (fun _ => (tail_alike hts hspells hr).self) rfl)
    have hjoins : joins 't' (g ++ (g' ++ '(' :: (A ++ Q))) = false :=
      joins_gap hg (joins_gap hg' rfl)
    have := alike_word hlead hlead (.comment hg hk hcall hjoins)
    simpa only [callText, List.append_assoc] using this
  | @argument lead g₀ x g y q Q ws₁ ws₂ hlead hg₀ hws h hq hQ =>
    have := h.alike hk (p := some '(')
      (fun _ hτ => isToken_of_mem (leads_expressions [] false _ hws) (List.mem_append_left _ hτ))
      (h.alike_behind hws hq hQ) fun _ => joins_open _
    have := alike_word hlead hlead (alike_open hg₀ hg₀ Iff.rfl this)
    simpa only [callText, List.append_assoc] using this
  | @behind lead g₀ A x g v r ws ts₁ ts₂ hlead hg₀ hws hA hts hts₁ hts₂ h hr =>
    have htokens : ∀ τ ∈ ts₁ ++ ts₂, τ.isToken = true := fun _ => isToken_of_mem (leads_callTails _ hts)
    have hx := h.before.ne_nil hts₁
    have hv : Alike none v v := by
      obtain ⟨z, rfl⟩ := h.behind.suffix CommentGap.suffix
      exact h.behind.alike_self (fun τ hτ => htokens τ (List.mem_append_right _ hτ)) (alike_of_skips hr)
    have hQ (p : Option Char) : Alike p (x ++ (g ++ v)) (x ++ (g ++ (k ++ v))) :=
      h.alike hk (fun τ hτ => htokens τ (List.mem_append_left _ hτ)) hv fun e => absurd e hx
    have hhead : (x ++ (g ++ v)).head? = (x ++ (g ++ (k ++ v))).head? := by
      rw [List.head?_append_of_ne_nil _ hx, List.head?_append_of_ne_nil _ hx]
    have := alike_word hlead hlead (alike_open hg₀ hg₀ Iff.rfl (hA.alike_append hws hQ hhead))
    simpa only [callText, List.append_assoc] using this

/-! ## Parsing -/

/-- Calls with the comment and without it are parsed alike. -/
theorem Inserted.parse_iff (hk : IsBlockComment k) (h : Inserted k (Text.trim source) (Text.trim source') A A') :
    parse source' = .ok e ↔ parse source = .ok e :=
  parse_of_readings (h.alike hk).readings_eq.symm

/-- **A comment behind the word of imports** hides the call, which is parsed as a whole. -/
theorem parse_importArgument_word (hk : IsBlockComment k) (hg : Ended g) (hg' : Ended g') (hlead : Ended lead)
    (hS : Text.trim source = callText lead (g ++ g') A Q)
    (hS' : Text.trim source' = callText lead (g ++ (k ++ g')) A Q) (hws : ws ∈ expressions)
    (hA : Spaced ws A Q) (hQ : IsTail Q) (hcut : CutsArgument source A)
    (hsound : (∃ e, parse (importArgument source) = .ok e) → ∃ e, parse source = .ok e)
    (hparse : parse source' = .ok e ↔ parse source = .ok e) :
    parse (importArgument source') = .ok e ↔ parse (importArgument source) = .ok e := by
  have hunseen : ¬ IsSeen lead (g ++ (k ++ g')) Q := by
    rintro ⟨-, hblank, -⟩
    obtain ⟨body, -, rfl⟩ := hk
    exact absurd (hblank '/' (by simp)) (by decide)
  rw [parse_importArgument_of_not_isSeen hS' hlead (hg.append (hk.ended.append hg')) hQ.ne_nil hunseen, hparse]
  exact (parse_importArgument_of_call hS hlead (hg.append hg') hws hA hQ hcut hsound).symm

/-- **A comment in the first argument** makes an alike argument, where that is cut. -/
theorem parse_importArgument_argument (hk : IsBlockComment k) (hlead : Ended lead) (hg₁ : Ended g₁)
    (hS : Text.trim source = callText lead g₁ (x ++ (g ++ (y ++ q))) Q)
    (hS' : Text.trim source' = callText lead g₁ (x ++ (g ++ (k ++ (y ++ q)))) Q)
    (hws : ws₁ ++ ws₂ ∈ expressions) (h : Between ws₁ ws₂ x g (y ++ (q ++ Q)) (q ++ Q)) (hq : Ended q)
    (hQ : IsTail Q) (hcut : CutsArgument source (x ++ (g ++ (y ++ q))))
    (hcut' : CutsArgument source' (x ++ (g ++ (k ++ (y ++ q)))))
    (hparse : parse source' = .ok e ↔ parse source = .ok e) :
    parse (importArgument source') = .ok e ↔ parse (importArgument source) = .ok e := by
  by_cases hseen : IsSeen lead g₁ Q
  · rw [importArgument_of_isSeen hS hlead hg₁ hQ.ne_nil hcut hseen,
      importArgument_of_isSeen hS' hlead hg₁ hQ.ne_nil hcut' hseen]
    refine parse_of_readings ?_
    have hA := spaced_append h.before h.gap h.behind hq
    have hA' := h.spaced hws hq hQ hk
    rw [Text.trim_trim, Text.trim_trim, (hA.trim_alike hws).readings_eq,
      (hA'.trim_alike hws).readings_eq, (h.argument_alike hws hq hk).readings_eq]
  · rw [parse_importArgument_of_not_isSeen hS hlead hg₁ hQ.ne_nil hseen,
      parse_importArgument_of_not_isSeen hS' hlead hg₁ hQ.ne_nil hseen]
    exact hparse

/-- **A comment behind the first argument** leaves that as it is. -/
theorem parse_importArgument_behind (hlead : Ended lead) (hg₁ : Ended g₁)
    (hS : Text.trim source = callText lead g₁ A (x ++ (g ++ v)))
    (hS' : Text.trim source' = callText lead g₁ A (x ++ (g ++ (k ++ v)))) (hx : x ≠ []) (hv : v ≠ [])
    (hcut : CutsArgument source A) (hparse : parse source' = .ok e ↔ parse source = .ok e) :
    parse (importArgument source') = .ok e ↔ parse (importArgument source) = .ok e := by
  have hlast (x g : Text) : (x ++ (g ++ v)).getLast? = v.getLast? := by
    rw [← List.append_assoc, List.getLast?_append_of_ne_nil _ hv]
  obtain ⟨c, x', rfl⟩ := List.exists_cons_of_ne_nil hx
  have hseen_iff : IsSeen lead g₁ (c :: x' ++ (g ++ (k ++ v))) ↔ IsSeen lead g₁ (c :: x' ++ (g ++ v)) := by
    rw [IsSeen, IsSeen, hlast, ← List.append_assoc g, hlast]
  have hcut' : CutsArgument source' A := by
    refine .of_tail hS hS' hlead hg₁ (by simp [hv]) ?_ hcut
    show (x' ++ (g ++ v)).getLast? = (x' ++ (g ++ (k ++ v))).getLast?
    rw [hlast, ← List.append_assoc g, hlast]
  by_cases hseen : IsSeen lead g₁ (c :: x' ++ (g ++ v))
  · rw [importArgument_of_isSeen hS hlead hg₁ (List.cons_ne_nil _ _) hcut hseen,
      importArgument_of_isSeen hS' hlead hg₁ (List.cons_ne_nil _ _) hcut' (hseen_iff.mpr hseen)]
  · rw [parse_importArgument_of_not_isSeen hS hlead hg₁ (List.cons_ne_nil _ _) hseen,
      parse_importArgument_of_not_isSeen hS' hlead hg₁ (List.cons_ne_nil _ _) (mt hseen_iff.mp hseen)]
    exact hparse

/-- **A comment between two tokens does not change what the argument is parsed as**, if the argument is
cut where it ends, also with the comment in it, and the second argument is no less sound than the first. -/
theorem Inserted.parse_importArgument (hk : IsBlockComment k)
    (h : Inserted k (Text.trim source) (Text.trim source') A A') (hcut : CutsArgument source A)
    (hcut' : A ≠ A' → CutsArgument source' A')
    (hsound : (∃ e, parse (importArgument source) = .ok e) → ∃ e, parse source = .ok e) (e : Expression) :
    parse (importArgument source') = .ok e ↔ parse (importArgument source) = .ok e := by
  have hparse : parse source' = .ok e ↔ parse source = .ok e := h.parse_iff hk
  generalize hS : Text.trim source = S at h
  generalize hS' : Text.trim source' = S' at h
  cases h with
  | word hlead hg hg' hws hA hQ =>
    exact parse_importArgument_word hk hg hg' hlead hS hS' hws hA hQ hcut hsound hparse
  | argument hlead hg₀ hws h hq hQ =>
    exact parse_importArgument_argument hk hlead hg₀ hS hS' hws h hq hQ hcut
      (hcut' (by simp [hk.ne_nil])) hparse
  | behind hlead hg₀ hws hA hts hts₁ hts₂ h hr =>
    refine parse_importArgument_behind hlead hg₀ hS hS' (h.before.ne_nil hts₁) ?_ hcut hparse
    obtain ⟨z, rfl⟩ := h.behind.suffix CommentGap.suffix
    exact fun e => h.behind.ne_nil hts₂ (List.append_eq_nil_iff.mp e).1

end VariableImport.Script
