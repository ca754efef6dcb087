import Mathlib.Data.List.Forall2
import VariableImport.Proofs.Script.SameToken
import VariableImport.Proofs.Script.ImportArgument

/-!
# Proofs/Script/Steady — readers that pass over gaps alike

A reader is `Steady` if it finds the same in alike texts, in the same order, and leaves alike texts: a gap hides
no token (`steady_token`), and one reader after another, or instead of another, is steady as they are.
-/

namespace VariableImport.Script

open Reader

variable {α β : Type} {s t u v : Text} {τ : Terminal}

/-! ## Tokens behind gaps -/

/-- Whether a text is what is left of a comment whose first slash was taken for a division. -/
def IsStub (s : Text) : Prop := gap? s = none ∧ ∃ c ∈ s.head?, c = '/' ∨ c = '*'

/-- A gap begins with a blank or a slash. -/
theorem head_of_gap? (h : gap? s = some t) : ∃ c u, s = c :: u ∧ (isGapBlank c = true ∨ c = '/') := by
  unfold gap? at h
  split at h
  · exact ⟨_, _, rfl, .inr rfl⟩
  · exact ⟨_, _, rfl, .inr rfl⟩
  · next c u _ _ =>
    split at h
    · next hc => exact ⟨c, u, rfl, .inl hc⟩
    · simp at h
  · simp at h

/-- The characters that a gap may start with. -/
def gapStarts : List Char := [' ', '\t', '\x0c', '\r', '\n', '/']

/-- Only a division starts where a gap does. -/
theorem eq_multiplicative_of_starts (hτ : τ.isToken = true) {c : Char} (hc : isGapBlank c = true ∨ c = '/')
    (h : τ.starts c = true) : τ = .multiplicative ∧ c = '/' := by
  have hplain : isPlain c = false := by
    rcases hc with hc | rfl
    · simp [isPlain, hc]
    · decide
  have hmem : c ∈ gapStarts := by
    rcases hc with hc | rfl
    · simp only [isGapBlank, Bool.or_eq_true, beq_iff_eq] at hc
      rcases hc with (((rfl | rfl) | rfl) | rfl) | rfl <;> decide
    · decide
  have other (hstarts : (gapStarts.all fun d => !τ.starts d) = true) :
      τ = .multiplicative ∧ c = '/' := by
    have := List.all_eq_true.mp hstarts c hmem
    simp [h] at this
  cases τ with
  | mark d =>
    obtain rfl : c = d := beq_iff_eq.mp h
    cases hplain.symm.trans hτ
  | quoted q =>
    obtain rfl : c = q := beq_iff_eq.mp h
    have hq : c = '\'' ∨ c = '"' := by simpa [Terminal.isToken] using hτ
    rcases hq with rfl | rfl <;> exact absurd hmem (by decide)
  | multiplicative =>
    refine ⟨rfl, ?_⟩
    rcases hc with hc | rfl
    · have hblanks : (gapStarts.all fun d => !Terminal.multiplicative.starts d || d == '/') = true := by
        decide
      have := List.all_eq_true.mp hblanks c hmem
      simpa [h] using this
    · rfl
  | _ => exact other (by decide)

/-- Where a gap begins a token other than a division does not. -/
theorem scan_of_gap (hτ : τ.isToken = true) (hne : τ ≠ .multiplicative) (h : gap? s = some t) :
    τ.scan s = none := by
  obtain ⟨c, u, rfl, hc⟩ := head_of_gap? h
  refine scan_eq_none ?_ u
  by_contra hstarts
  exact hne (eq_multiplicative_of_starts hτ hc (Bool.not_eq_false _ ▸ hstarts)).1

/-- What a division at the start of a gap leaves is a stub. -/
theorem isStub_of_scan (hτ : τ.isToken = true) (hgap : gap? s = some t)
    (hslash : s.head? = some '/' → gap? s.tail = none) {x : Text × Text} (h : τ.scan s = some x) :
    τ = .multiplicative ∧ IsStub x.2 := by
  obtain ⟨c, u, rfl, hc⟩ := head_of_gap? hgap
  obtain ⟨rfl, rfl⟩ := eq_multiplicative_of_starts hτ hc (starts_of_scan (t := x.2) h)
  obtain ⟨hmem, e⟩ := oneOf_eq (t := x.2) h
  obtain rfl : x.2 = u := by
    simp only [multiplicativeWords, List.mem_cons, List.not_mem_nil, or_false] at hmem
    rcases hmem with hx | hx | hx
    all_goals simp [hx] at e
    exact e.symm
  refine ⟨rfl, hslash rfl, ?_⟩
  unfold gap? at hgap
  split at hgap
  · next e => exact ⟨'/', by rw [(List.cons.inj e).2]; rfl, .inl rfl⟩
  · next e => exact ⟨'*', by rw [(List.cons.inj e).2]; rfl, .inr rfl⟩
  · next e =>
    rw [← (List.cons.inj e).1, if_neg (by decide)] at hgap
    cases hgap
  · next e => cases e

/-- **A token behind gaps** is found where they end, and before it only divisions that leave a stub. -/
theorem found_token_skips (hτ : τ.isToken = true) (h : Skips s u) : ∃ l,
    (token τ s).found = l ++ (τ.scan u).toList ∧ ∀ x ∈ l, τ = .multiplicative ∧ IsStub x.2 := by
  show ∃ l, (places s).filterMap τ.scan = l ++ _ ∧ _
  have within (n : ℕ) (hn : s.length ≤ n) : ∃ l, (placesWithin n s).filterMap τ.scan =
      l ++ (τ.scan u).toList ∧ ∀ x ∈ l, τ = .multiplicative ∧ IsStub x.2 := by
    induction h generalizing n with
    | @here s hs =>
      refine ⟨[], ?_, fun _ hx => absurd hx List.not_mem_nil⟩
      cases n with
      | zero => cases hx : τ.scan s <;> simp [placesWithin, hx]
      | succ n => rw [tokens_succ, hs, Option.elim_none, List.append_nil, List.nil_append]
    | @gap s t u hgap hslash _ ih =>
      have hlt := (gap?_suffix hgap).2
      cases n with
      | zero => omega
      | succ n =>
        obtain ⟨l, hl, hstub⟩ := ih n (by omega)
        refine ⟨(τ.scan s).toList ++ l, ?_, fun x hx => ?_⟩
        · rw [tokens_succ, hgap, Option.elim_some, hl, List.append_assoc]
        · rcases List.mem_append.mp hx with hx | hx
          · exact isStub_of_scan hτ hgap hslash (Option.mem_toList.mp hx)
          · exact hstub x hx
  exact within _ le_rfl

/-- The end of the text behind gaps. -/
theorem found_finish_skips (h : Skips s u) : (finish s).found = if u = [] then [((), [])] else [] := by
  show (places s).filterMap _ = _
  have within (n : ℕ) (hn : s.length ≤ n) : ((placesWithin n s).filterMap fun t =>
      if t = [] then some ((), t) else none) = if u = [] then [((), [])] else [] := by
    induction h generalizing n with
    | @here s hs =>
      have hself : placesWithin n s = [s] := by cases n <;> simp [placesWithin, hs]
      rw [hself]
      by_cases hnil : s = [] <;> simp [hnil]
    | @gap s t u hgap hslash _ ih =>
      have hlt := (gap?_suffix hgap).2
      cases n with
      | zero => omega
      | succ n =>
        have hne : s ≠ [] := by
          rintro rfl
          simp at hlt
        rw [placesWithin, hgap, List.filterMap_cons_none (by rw [if_neg hne])]
        exact ih n (by omega)
  exact within _ le_rfl

/-! ## Readers -/

/-- **Whether a reader finds the same in alike texts**, and leaves texts that go together. -/
def Steady (p : Reader α) : Prop := ∀ c s t, Alike c s t →
  List.Forall₂ (fun x y => x.1 = y.1 ∧ Later (s, t) (x.2, y.2)) (p s).found (p t).found

variable {p q : Reader α} {f : α → Reader β}

theorem steady_pure (a : α) : Steady (pure a : Reader α) :=
  fun _ _ _ _ => .cons ⟨rfl, .refl⟩ .nil

theorem steady_fail : Steady (fail : Reader α) := fun _ _ _ _ => .nil

/-- **Reading one after another.** -/
theorem Steady.bind (hp : Steady p) (hf : ∀ a, Steady (f a)) : Steady (p >>= f) := by
  intro c s t h
  rw [found_bind, found_bind]
  refine List.rel_flatMap (hp c s t h) fun x y ⟨ha, hxy⟩ => ?_
  obtain ⟨d, h'⟩ := h.later hxy
  rw [ha]
  exact (hf y.1 d _ _ h').imp fun _ _ hr => ⟨hr.1, hxy.trans hr.2⟩

/-- Results may be changed. -/
theorem Steady.map (hp : Steady p) (f : α → β) : Steady (p >>= fun a => pure (f a)) :=
  hp.bind fun a => steady_pure (f a)

theorem Steady.orElse (hp : Steady p) (hq : Steady q) : Steady (p <|> q) :=
  fun c s t h => List.rel_append (hp c s t h) (hq c s t h)

/-- Whether a text of a length is left is the same for alike texts. -/
theorem all_length_ne_iff {l l' : List (α × Text)} {x y : Text}
    (hl : List.Forall₂ (fun x y => x.1 = y.1 ∧ Later (s, t) (x.2, y.2)) l l') (hxy : Later (s, t) (x, y)) :
    (l.all (·.2.length != x.length)) = l'.all (·.2.length != y.length) := by
  induction hl with
  | nil => rfl
  | cons h _ ih =>
    have hne := not_congr (h.2.length_eq_iff hxy)
    rw [List.all_cons, List.all_cons, ih, Bool.eq_iff_iff.mpr (bne_iff_ne.trans (hne.trans bne_iff_ne.symm))]

/-- What is preferred in a text is what is preferred in an alike one. -/
theorem Steady.orWhereNot (hp : Steady p) (hq : Steady q) : Steady (p.orWhereNot q) := by
  intro c s t h
  refine List.rel_append (hp c s t h) (List.rel_filter (fun x y hxy => ?_) (hq c s t h))
  exact Bool.eq_iff_iff.mp (all_length_ne_iff (hp c s t h) hxy.2)

/-- **Tokens of alike texts** are the same, but for divisions that leave a stub. -/
theorem tokens_alike (hτ : τ.isToken = true) {c : Option Char} (h : Alike c s t) : ∃ l m l' m',
    (token τ s).found = l ++ m ∧ (token τ t).found = l' ++ m' ∧
      (∀ x ∈ l ++ l', τ = .multiplicative ∧ IsStub x.2) ∧
      List.Forall₂ (fun x y => x.1 = y.1 ∧ Later (s, t) (x.2, y.2)) m m' := by
  have both {u v : Text} (hs : Skips s u) (ht : Skips t v) (hm : List.Forall₂ (fun x y => x.1 = y.1 ∧
      Later (s, t) (x.2, y.2)) (τ.scan u).toList (τ.scan v).toList) : ∃ l m l' m',
      (token τ s).found = l ++ m ∧ (token τ t).found = l' ++ m' ∧
        (∀ x ∈ l ++ l', τ = .multiplicative ∧ IsStub x.2) ∧
        List.Forall₂ (fun x y => x.1 = y.1 ∧ Later (s, t) (x.2, y.2)) m m' := by
    obtain ⟨l, hl, hstub⟩ := found_token_skips hτ hs
    obtain ⟨l', hl', hstub'⟩ := found_token_skips hτ ht
    exact ⟨l, _, l', _, hl, hl', fun x hx => (List.mem_append.mp hx).elim (hstub x) (hstub' x), hm⟩
  cases h with
  | done hs ht =>
    have hnone : τ.scan [] = none := by
      cases hx : τ.scan [] with
      | none => rfl
      | some x => exact absurd (length_lt_of_scan (t := x.2) hx) (Nat.not_lt_zero _)
    exact both hs ht (by rw [hnone]; exact .nil)
  | @piece _ w _ _ s' t' hw hs ht _ _ h =>
    refine both hs ht ?_
    have hscan := scan_alike hτ hw h
    generalize τ.scan (w ++ s') = x at hscan ⊢
    generalize τ.scan (w ++ t') = y at hscan ⊢
    cases hscan with
    | some hxy => exact .cons ⟨hxy.1, .head ⟨w, hw, hs, ht⟩ hxy.2⟩ .nil
    | none => exact .nil

/-- **A token**, if it is no division. -/
theorem steady_token (hτ : τ.isToken = true) (hne : τ ≠ .multiplicative) : Steady (token τ) := by
  intro c s t h
  obtain ⟨l, m, l', m', hs, ht, hstub, hm⟩ := tokens_alike hτ h
  obtain ⟨rfl, rfl⟩ : l = [] ∧ l' = [] := List.append_eq_nil_iff.mp
    (List.eq_nil_iff_forall_not_mem.mpr fun x hx => hne (hstub x hx).1)
  rw [hs, ht]
  exact hm

/-- **A division**, if nothing is found where it leaves a stub. -/
theorem steady_multiplicative {f : Text → Reader β} (hf : ∀ a, Steady (f a))
    (hstub : ∀ a u, IsStub u → (f a u).found = []) : Steady (token .multiplicative >>= f) := by
  intro c s t h
  obtain ⟨l, m, l', m', hs, ht, hl, hm⟩ := tokens_alike (τ := .multiplicative) rfl h
  have silent {k : List (Text × Text)} (hk : ∀ x ∈ k, IsStub x.2) :
      k.flatMap (fun x => (f x.1 x.2).found) = [] :=
    List.flatMap_eq_nil_iff.mpr fun x hx => hstub x.1 x.2 (hk x hx)
  rw [found_bind, found_bind, hs, ht, List.flatMap_append, List.flatMap_append,
    silent fun x hx => (hl x (List.mem_append_left _ hx)).2,
    silent fun x hx => (hl x (List.mem_append_right _ hx)).2, List.nil_append, List.nil_append]
  refine List.rel_flatMap hm fun x y ⟨ha, hxy⟩ => ?_
  obtain ⟨d, h'⟩ := h.later hxy
  rw [ha]
  exact (hf y.1 d _ _ h').imp fun _ _ hr => ⟨hr.1, hxy.trans hr.2⟩

/-! ## Steps -/

variable {step : α → Reader α}

/-- Without a context nothing is cut. -/
theorem cut_nil_iff {l l' : List (α × Text)} : Cut [] l l' ↔ l = l' := by
  have hbefore : before [] = (id : α × Text → α × Text) := by
    funext x
    simp [before]
  rw [Cut, List.filter_eq_self.mpr fun x _ => by simp [leaves], hbefore, List.map_id]

theorem cuts_self {n d : ℕ} (h : Takes d p) : Cuts [] [] n d p p :=
  ⟨fun u _ _ => cut_nil_iff.mpr (by rw [List.append_nil, List.nil_append]), h, h⟩

/-- More steps than a text has characters find no more. -/
theorem found_stepsWithin (h : ∀ a, Takes 1 (step a)) {n : ℕ} (hn : s.length ≤ n) (a : α) :
    (stepsWithin step n a s).found = (steps step a s).found := by
  have := cut_stepsWithin (k := []) (fun a => cuts_self (h a)) (Nat.lt_succ_self s.length) hn le_rfl a
  rw [List.append_nil] at this
  exact cut_nil_iff.mp this

theorem Steady.stepsWithin (h : ∀ a, Steady (step a)) (n : ℕ) (a : α) : Steady (stepsWithin step n a) := by
  induction n generalizing a with
  | zero => exact steady_pure a
  | succ n ih => exact (steady_pure a).orElse ((h a).bind ih)

/-- **Steps**, as many as there is room for in either text. -/
theorem Steady.steps (h : ∀ a, Steady (step a)) (htakes : ∀ a, Takes 1 (step a)) (a : α) :
    Steady (steps step a) := by
  intro c s t hst
  have := Steady.stepsWithin h (max s.length t.length) a c s t hst
  rwa [found_stepsWithin htakes (le_max_left ..), found_stepsWithin htakes (le_max_right ..)] at this

end VariableImport.Script
