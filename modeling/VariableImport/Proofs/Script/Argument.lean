import VariableImport.Proofs.Script.Embedding
import VariableImport.Proofs.Script.Scanner

/-!
# Proofs/Script/Argument — where an argument ends

An argument is an expression as a text (`IsExpression`), with something after it that can only end it
(`Ends`).  Of all the ways to read an expression where an argument stands, those after which the text
may end or go on with a comma or a closing parenthesis take just the argument (`eq_of_mem_expression`):
the scan of characters passes over neither mark, and it stands where every reading stands.  So reading
on finds first what the first reading of the argument alone leads to (`head?_expression_bind`).
-/

namespace VariableImport.Script

open Reader Scan

/-! ## Arguments and what ends them -/

/-- Whether a text is an expression, with blanks alone between its tokens. -/
structure IsExpression (A : Text) : Prop where
  spells : ∃ ws ∈ expressions, Spells BlankGap ws A []
  head : ∀ c ∈ A.head?, isGapBlank c = false

/-- Whether a text is at its end, a comma or a closing parenthesis. -/
def Stops (u : Text) : Prop := ∀ c ∈ u.head?, c = ',' ∨ c = ')'

/-- Whether nothing but blanks stands before the end, a comma or a closing parenthesis. -/
def Ends (t : Text) : Prop := ∃ u, BlankGap t u ∧ Stops u

variable {A g s t r : Text}

/-- Whether a text is at its end or at a mark that a scan cannot pass outside. -/
def Halts (u : Text) : Prop := ∀ c ∈ u.head?, c = ',' ∨ c = ')' ∨ c = '\x7d'

theorem Stops.halts {u : Text} (h : Stops u) : Halts u := fun c hc => (h c hc).imp_right .inl

theorem Halts.boundary {u : Text} (hu : Halts u) (h : BlankGap t u) : Boundary t := by
  obtain ⟨g, hg, rfl⟩ := h
  intro c hc
  cases g with
  | nil => exact .inr (hu c hc)
  | cons b g =>
    obtain rfl := Option.some.inj hc
    exact .inl (hg b (List.mem_cons_self ..))

theorem Ends.boundary (h : Ends t) : Boundary t := by
  obtain ⟨u, hgap, hu⟩ := h
  exact hu.halts.boundary hgap

theorem isStack_nil : IsStack [] := fun _ hd => absurd hd List.not_mem_nil

namespace IsExpression

theorem ne_nil (hA : IsExpression A) : A ≠ [] := by
  rintro rfl
  obtain ⟨ws, hws, h⟩ := hA.spells
  have := h.length_le BlankGap.suffix
  have := List.length_pos_of_ne_nil (ne_nil_of_mem_expressions hws)
  simp only [List.length_nil] at *
  omega

/-- An expression before what ends it. -/
theorem spells_append (hA : IsExpression A) (ht : Boundary t) :
    ∃ ws ∈ expressions, Spells BlankGap ws (A ++ t) t := by
  obtain ⟨ws, hws, h⟩ := hA.spells
  exact ⟨ws, hws, h.append ht (leads_expressions [] false ws hws)⟩

/-- The scan passes over an expression, whatever marks are to come. -/
theorem runs_of_isStack {S : List Char} (hA : IsExpression A) (hS : IsStack S) (ht : Boundary t) :
    Runs (inCode S) (A ++ t) (inCode S) t := by
  obtain ⟨ws, hws, h⟩ := hA.spells_append ht
  exact runs_of_spells (m := ⟨S, false⟩) hS (leads_expressions S false ws hws) rfl h

theorem runs (hA : IsExpression A) (ht : Boundary t) : Runs {} (A ++ t) {} t :=
  hA.runs_of_isStack isStack_nil ht

/-- An expression ends with a token. -/
theorem exists_last (hA : IsExpression A) : ∃ v d, A = v ++ [d] ∧ Text.isBlank d = false := by
  obtain ⟨ws, hws, h⟩ := hA.spells
  exact h.exists_last BlankGap.suffix (leads_expressions [] false ws hws)
    (ne_nil_of_mem_expressions hws)

/-- The first token of an expression stands at its start. -/
theorem exists_scan (hA : IsExpression A) : ∃ τ m' a u, (⟨[], true⟩ : Mode).follow τ = some m' ∧
    τ.scan A = some (a, u) := by
  obtain ⟨ws, hws, h⟩ := hA.spells
  have hf := leads_expressions [] true ws hws
  cases h with
  | nil => exact absurd rfl (ne_nil_of_mem_expressions hws)
  | cons hgap hscan h =>
    obtain ⟨m', hτ, -⟩ := Mode.exists_follow hf
    obtain rfl := hgap.eq hA.head
    exact ⟨_, m', _, _, hτ, hscan⟩

theorem solid (hA : IsExpression A) : Text.Solid A := by
  obtain ⟨τ, m', a, u, hτ, hscan⟩ := hA.exists_scan
  obtain ⟨c, v, rfl⟩ := List.exists_cons_of_ne_nil hA.ne_nil
  obtain ⟨w, d, e, hd⟩ := hA.exists_last
  refine ⟨⟨c, rfl, isBlank_of_scan hτ hscan⟩, ⟨d, ?_, hd⟩⟩
  rw [e]
  simp

theorem exists_cons (hA : IsExpression A) (ht : Boundary t) : ∃ c u, A ++ t = c :: u ∧
    Text.isBlank c = false ∧ c ≠ ',' ∧ c ≠ ')' ∧ startsComment (c :: u) = false := by
  obtain ⟨τ, m', a, v, hτ, hscan⟩ := hA.exists_scan
  obtain ⟨c, w, rfl⟩ := List.exists_cons_of_ne_nil hA.ne_nil
  have hlt : t.length < (c :: w ++ t).length := by
    rw [List.length_append, List.length_cons]
    omega
  obtain ⟨d, u, e, houtside, hcomment⟩ := (hA.runs ht).exists_cons hlt
  obtain ⟨rfl, rfl⟩ := List.cons.inj e
  exact ⟨c, w ++ t, rfl, isBlank_of_scan hτ hscan, (houtside rfl).1, (houtside rfl).2.1, hcomment rfl rfl⟩

end IsExpression

/-! ## Readings in place -/

/-- Of two places that a scan reaches, one that only blanks part from a mark it cannot pass is not
before one that a token ends at. -/
theorem length_le_of_runs (hr : Runs {} s {} r) (hrs : ∃ u, BlankGap r u ∧ Halts u) (ht : Runs {} s {} t)
    (hlast : ∃ v d, s = v ++ d :: t ∧ Text.isBlank d = false) : r.length ≤ t.length := by
  by_contra hlt
  have hrt : Runs {} r {} t := hr.of_suffix ht (by omega)
  obtain ⟨u, ⟨g, hg, rfl⟩, hu⟩ := hrs
  have hgu : Runs {} (g ++ u) {} u := runs_blanks isStack_nil hg u
  rcases Nat.lt_or_ge t.length u.length with h | h
  -- the scan would pass the mark
  · obtain ⟨c, v, rfl, houtside, -⟩ := (hgu.of_suffix hrt h.le).exists_cons h
    rcases hu c rfl with rfl | rfl | rfl
    · exact (houtside rfl).1 rfl
    · exact (houtside rfl).2.1 rfl
    · exact (houtside rfl).2.2 rfl
  -- the token would end with a blank
  · obtain ⟨v, d, e, hd⟩ := hlast
    obtain ⟨w, hw⟩ := hr.suffix
    obtain ⟨p, hp⟩ := hrt.suffix
    have hpg : ∀ c ∈ p, c ∈ g := by
      rcases List.append_eq_append_iff.mp hp with ⟨x, rfl, -⟩ | ⟨x, rfl, hx⟩
      · exact fun c hc => List.mem_append_left _ hc
      · have := congrArg List.length hx
        rw [List.length_append] at this
        obtain rfl := List.eq_nil_of_length_eq_zero (show x.length = 0 by omega)
        simp
    have hpne : p ≠ [] := by
      rintro rfl
      exact absurd (congrArg List.length hp) (by simp at hlt ⊢; omega)
    have hdp : d ∈ p := by
      have hvd : v ++ [d] = w ++ p := by
        refine (List.append_left_inj t).mp ?_
        rw [List.append_assoc, List.append_assoc, hp, hw, e]
        rfl
      have hlast := congrArg List.getLast? hvd
      rw [List.getLast?_concat, List.getLast?_append_of_ne_nil _ hpne] at hlast
      exact List.mem_of_getLast? hlast.symm
    rw [isBlank_of_isGapBlank (hg d (hpg d hdp))] at hd
    simp at hd

/-- **A reading that halts takes just the expression**, in a text that no comment begins in, whatever
marks are to come. -/
theorem eq_of_mem_of_halts {S : List Char} (hS : IsStack S) (hA : IsExpression A) (hg : Blanks g)
    (ht : ∃ u, BlankGap t u ∧ Halts u) (hc : Clean (inCode S) (g ++ (A ++ t))) {e : Tree}
    (h : (e, r) ∈ (expression (g ++ (A ++ t))).found) (hr : ∃ u, Gap r u ∧ Halts u) : r = t := by
  have hboundary : Boundary t := ht.elim fun u h => h.2.boundary h.1
  have hst : Runs {} (g ++ (A ++ t)) {} t := (runs_blanks isStack_nil hg _).trans (hA.runs hboundary)
  have hlast : ∃ v d, g ++ (A ++ t) = v ++ d :: t ∧ Text.isBlank d = false := by
    obtain ⟨v, d, rfl, hd⟩ := hA.exists_last
    exact ⟨g ++ v, d, by simp, hd⟩
  obtain ⟨ws, hws, hsr⟩ := (recognizes_expression _ r).mp ⟨e, h⟩
  have hf := leads_expressions [] false ws hws
  obtain ⟨hblank, hclean⟩ :=
    runs_of_spells_clean (m := ⟨S, false⟩) hS (leads_expressions S false ws hws) hc hsr
  have hruns : Runs {} (g ++ (A ++ t)) {} r :=
    runs_of_spells (m := ⟨[], false⟩) isStack_nil hf rfl hblank
  have hlast' := hblank.exists_last BlankGap.suffix hf (ne_nil_of_mem_expressions hws)
  obtain ⟨u, hu, hhalts⟩ := hr
  have hrs : BlankGap r u := blankGap_of_placesWithin hS hu (hclean.clean.mp hc)
  have hle := length_le_of_runs hruns ⟨u, hrs, hhalts⟩ hst hlast
  have hle' := length_le_of_runs hst ht hruns hlast'
  exact (List.suffix_of_suffix_length_le hruns.suffix hst.suffix hle).eq_of_length (by omega)

/-- Whether a gap may end a text, or lead to a comma or a closing parenthesis. -/
def MayEnd (r : Text) : Prop := ∃ u, Gap r u ∧ Stops u

/-- **A reading that may end takes just the argument.** -/
theorem eq_of_mem_expression (hA : IsExpression A) (hg : Blanks g) (ht : Ends t) (hc : Clean {} t)
    {e : Tree} (h : (e, r) ∈ (expression (g ++ (A ++ t))).found) (hr : MayEnd r) : r = t := by
  have hst : Runs {} (g ++ (A ++ t)) {} t := (runs_blanks isStack_nil hg _).trans (hA.runs ht.boundary)
  exact eq_of_mem_of_halts isStack_nil hA hg (ht.imp fun _ h => ⟨h.1, h.2.halts⟩) (hst.clean.mpr hc) h
    (hr.imp fun _ h => ⟨h.1, h.2.halts⟩)

/-! ## The first reading -/

/-- The first reading of a whole text as an expression. -/
def firstReading (A : Text) : Option Tree :=
  ((expression A).found.find? fun x => x.2 = []).map Prod.fst

/-- An expression has a reading. -/
theorem exists_firstReading (hA : IsExpression A) : ∃ e, firstReading A = some e := by
  obtain ⟨ws, hws, h⟩ := hA.spells
  have hgap := h.of_blankGap (leads_expressions [] false ws hws)
  obtain ⟨e, he⟩ := (recognizes_expression A []).mpr ⟨ws, hws, hgap⟩
  have hsome : ((expression A).found.find? fun x => x.2 = []).isSome = true :=
    List.find?_isSome.mpr ⟨(e, []), he, by simp⟩
  obtain ⟨x, hx⟩ := Option.isSome_iff_exists.mp hsome
  exact ⟨x.1, by rw [firstReading, hx]; rfl⟩

/-- **An expression as a text** is one that no comment begins in and that is read as an expression. -/
theorem isExpression_iff : IsExpression A ↔ A.head?.all (!isGapBlank ·) = true ∧ Clean {} A ∧
    (firstReading A).isSome = true := by
  have hall : A.head?.all (!isGapBlank ·) = true ↔ ∀ c ∈ A.head?, isGapBlank c = false := by
    simp [Option.all_eq_true]
  rw [hall]
  constructor
  · intro hA
    have hruns := hA.runs (t := []) fun _ h => nomatch h
    rw [List.append_nil] at hruns
    exact ⟨hA.head, hruns.clean.mpr trivial, Option.isSome_iff_exists.mpr (exists_firstReading hA)⟩
  · rintro ⟨hhead, hclean, hsome⟩
    obtain ⟨e, he⟩ := Option.isSome_iff_exists.mp hsome
    obtain ⟨⟨e, r⟩, hx, -⟩ := Option.map_eq_some_iff.mp he
    obtain rfl : r = [] := by simpa using List.find?_some hx
    obtain ⟨ws, hws, h⟩ := (recognizes_expression A []).mp ⟨e, List.mem_of_find?_eq_some hx⟩
    have hf := leads_expressions [] false ws hws
    exact ⟨⟨ws, hws, (runs_of_spells_clean (m := ⟨[], false⟩) isStack_nil hf hclean h).1⟩, hhead⟩

instance (A : Text) : Decidable (IsExpression A) := decidable_of_iff _ isExpression_iff.symm

/-- **The first reading in place** of those that take just the argument is the first one alone. -/
theorem find?_expression (hA : IsExpression A) (hg : Blanks g) (ht : Boundary t) :
    (expression (g ++ (A ++ t))).found.find? (fun x => x.2 = t) =
      (firstReading A).map fun e => (e, t) := by
  have hbehind : Behind g A := by
    obtain ⟨c, v, rfl⟩ := List.exists_cons_of_ne_nil hA.ne_nil
    exact .inr ⟨c, rfl, hA.head c rfl⟩
  have hcut := cut_expression hg ht hbehind
  have hleaves (l : List (Tree × Text)) :
      l.find? (fun x => x.2 = t) = (l.filter (leaves t)).find? fun x => x.2 = t := by
    rw [List.find?_filter]
    refine congrArg (List.find? · l) (funext fun x => ?_)
    by_cases h : x.2 = t <;> simp [h, leaves]
  have hbefore : ((fun x : Tree × Text => decide (x.2 = t)) ∘ before t) =
      fun x => decide (x.2 = []) := by
    funext x
    simp [before]
  rw [hleaves, hcut, List.find?_map, hbefore, firstReading, Option.map_map]
  cases h : (expression A).found.find? fun x => decide (x.2 = []) with
  | none => rfl
  | some x =>
    have hx : x.2 = [] := by simpa using List.find?_some h
    simp [before, hx]

/-- Going on after results of which only those with a property lead anywhere. -/
theorem head?_flatMap {γ δ : Type} {l : List γ} {F : γ → List δ} {P : γ → Bool} {y : γ → δ}
    (hout : ∀ x ∈ l, P x = false → F x = []) (hin : ∀ x, P x = true → (F x).head? = some (y x)) :
    (l.flatMap F).head? = (l.find? P).map y := by
  induction l with
  | nil => rfl
  | cons x l ih =>
    have ih := ih fun z hz => hout z (List.mem_cons_of_mem _ hz)
    rw [List.flatMap_cons, List.head?_append]
    cases hx : P x with
    | true => rw [hin x hx, List.find?_cons_of_pos hx]; rfl
    | false =>
      rw [hout x (List.mem_cons_self ..) hx, List.find?_cons_of_neg (by simp [hx]), ih]
      rfl

/-- **Reading on after an expression** finds first what its first reading alone leads to, if nothing is
found behind a reading that takes more or less than the expression. -/
theorem head?_bind_of_unique {β : Type} {F : Tree → Reader β} {y : Tree → β × Text}
    (hA : IsExpression A) (hg : Blanks g) (ht : Boundary t)
    (hunique : ∀ e r, (e, r) ∈ (expression (g ++ (A ++ t))).found → (F e r).found ≠ [] → r = t)
    (hin : ∀ e, (F e t).found.head? = some (y e)) :
    ((expression >>= F) (g ++ (A ++ t))).found.head? = (firstReading A).map y := by
  rw [found_bind]
  have := head?_flatMap (l := (expression (g ++ (A ++ t))).found)
    (F := fun x => (F x.1 x.2).found) (P := fun x => x.2 = t) (y := fun x => y x.1) ?_ ?_
  · rw [this, find?_expression hA hg ht, Option.map_map]
    rfl
  · rintro ⟨e, r⟩ hx hne
    by_contra hfound
    exact absurd (hunique e r hx hfound) (by simpa using hne)
  · rintro ⟨e, r⟩ hx
    obtain rfl : r = t := by simpa using hx
    exact hin e

/-- **Reading on after an argument** finds first what the first reading of the argument alone leads
to, if nothing is found where the text could not end. -/
theorem head?_expression_bind {β : Type} {F : Tree → Reader β} {y : Tree → β × Text}
    (hA : IsExpression A) (hg : Blanks g) (ht : Ends t) (hc : Clean {} t)
    (hout : ∀ e r, (F e r).found ≠ [] → MayEnd r) (hin : ∀ e, (F e t).found.head? = some (y e)) :
    ((expression >>= F) (g ++ (A ++ t))).found.head? = (firstReading A).map y :=
  head?_bind_of_unique hA hg ht.boundary
    (fun e r hx hfound => eq_of_mem_expression hA hg ht hc hx (hout e r hfound)) hin

/-! ## Marks behind blanks -/

theorem gap?_eq_none (hcomment : startsComment s = false) (hs : ∀ c ∈ s.head?, isGapBlank c = false) :
    gap? s = none := by
  fun_cases gap? s with
  | case1 => simp [startsComment] at hcomment
  | case2 => simp [startsComment] at hcomment
  | case3 c t _ _ hc =>
    rw [hs c rfl] at hc
    simp at hc
  | case4 => rfl
  | case5 => rfl

/-- Behind blanks a token stands in one place only. -/
theorem found_token {m m' : Mode} {τ : Terminal} (hf : m.follow τ = some m') (hg : Blanks g)
    (hcomment : startsComment s = false) (hs : ∀ c ∈ s.head?, isGapBlank c = false) :
    (token τ (g ++ s)).found = (τ.scan s).toList := by
  have hgap := gap?_eq_none hcomment hs
  have hhere (n : ℕ) : (placesWithin n s).filterMap τ.scan = (τ.scan s).toList := by
    cases n with
    | zero => cases h : τ.scan s <;> simp [placesWithin, h]
    | succ n => rw [tokens_succ, hgap, Option.elim_none, List.append_nil]
  cases g with
  | nil => exact hhere _
  | cons b g =>
    have hscan : τ.scan (b :: g ++ s) = none := scan_blank hf (hg b (List.mem_cons_self ..)) _
    show (places (b :: g ++ s)).filterMap τ.scan = _
    rw [places, List.cons_append, List.length_cons, tokens_succ, ← List.cons_append, hscan,
      gap?_blanks hg hs]
    exact hhere _

end VariableImport.Script
