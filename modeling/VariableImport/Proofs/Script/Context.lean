import VariableImport.Proofs.Script.Boundary

/-!
# Proofs/Script/Context — reading in front of a context is reading alone

A reader `Cuts` another from a context if, in front of the context, the one finds what the other finds
alone, in the same order, and besides only results that go into the context.  Every reader of the
grammar cuts itself (`cuts_expression`), with blanks before its text, and whatever room for nesting
the longer text gives.
-/

namespace VariableImport.Script

open Reader

variable {α β : Type} {g k : Text}

/-! ## Gaps -/

theorem afterBlock_append (hk : Boundary k) (u : Text) :
    (∃ r, afterBlock u = some r ∧ afterBlock (u ++ k) = some (r ++ k)) ∨
      (afterBlock u = none ∧ ∀ r, afterBlock (u ++ k) = some r → r.length ≤ k.length) := by
  fun_induction afterBlock u with
  | case1 u => exact .inl ⟨u, rfl, rfl⟩
  | case2 c u hu ih =>
    have hnext : c = '*' → ∀ t, u ++ k ≠ '/' :: t := by
      intro hc t e
      cases u with
      | nil =>
        rw [List.nil_append] at e
        subst e
        exact absurd (hk.mem rfl) (by decide)
      | cons d u => exact hu u hc (congrArg (· :: u) (List.cons.inj e).1)
    rw [List.cons_append, afterBlock.eq_2 c (u ++ k) fun t hc e => hnext hc t e]
    exact ih
  | case3 => exact .inr ⟨rfl, fun r h => (afterBlock_suffix h).length_le⟩

/-- Characters of a class passed over in front of a context: before it or into it. -/
theorem dropWhile_context (p : Char → Bool) (u : Text) :
    (u ++ k).dropWhile p = u.dropWhile p ++ k ∨
      (u.dropWhile p = [] ∧ ((u ++ k).dropWhile p).length ≤ k.length) := by
  rw [List.dropWhile_append]
  split
  · next h =>
    exact .inr ⟨List.isEmpty_iff.mp h, (List.dropWhile_suffix p).length_le⟩
  · exact .inl rfl

/-- **A gap in front of a context** ends before it, or nothing is left in front of the context. -/
theorem gap?_append (hk : Boundary k) (u : Text) :
    (∃ r, gap? u = some r ∧ gap? (u ++ k) = some (r ++ k)) ∨
      ((∀ r, gap? u = some r → r = []) ∧ ∀ r, gap? (u ++ k) = some r → r.length ≤ k.length) := by
  have passed {p : Char → Bool} {t : Text} (hu : gap? u = some (t.dropWhile p))
      (huk : gap? (u ++ k) = some ((t ++ k).dropWhile p)) :
      (∃ r, gap? u = some r ∧ gap? (u ++ k) = some (r ++ k)) ∨
        ((∀ r, gap? u = some r → r = []) ∧ ∀ r, gap? (u ++ k) = some r → r.length ≤ k.length) := by
    rcases dropWhile_context p t with h | ⟨hnil, hle⟩
    · exact .inl ⟨_, hu, h ▸ huk⟩
    · refine .inr ⟨fun r hr => ?_, fun r hr => ?_⟩
      · rw [← Option.some.inj (hu.symm.trans hr), hnil]
      · rwa [← Option.some.inj (huk.symm.trans hr)]
  have plain {c : Char} {t : Text} (hline : ∀ v, c = '/' → t = '/' :: v → False)
      (hblock : ∀ v, c = '/' → t = '*' :: v → False) :
      gap? (c :: t ++ k) = if isGapBlank c then some ((t ++ k).dropWhile isGapBlank) else none := by
    have hnext {d : Char} (hd : d ∉ boundaries) (h : ∀ v, c = '/' → t = d :: v → False) (v : Text)
        (hc : c = '/') (e : t ++ k = d :: v) : False := by
      cases t with
      | nil =>
        rw [List.nil_append] at e
        subst e
        exact hd (hk.mem rfl)
      | cons e' t => exact h t hc (congrArg (· :: t) (List.cons.inj e).1)
    exact gap?.eq_3 c (t ++ k) (hnext (by decide) hline) (hnext (by decide) hblock)
  fun_cases gap? u with
  | case1 t => exact passed rfl rfl
  | case2 t =>
    rcases afterBlock_append hk t with h | ⟨hnone, hle⟩
    · exact .inl h
    · exact .inr ⟨fun r h => absurd (hnone.symm.trans h) (by simp), hle⟩
  | case3 c t hline hblock hc =>
    have hu : gap? (c :: t) = some (t.dropWhile isGapBlank) := by
      rw [gap?.eq_3 c t hline hblock, if_pos hc]
    rw [← hu]
    exact passed hu ((plain hline hblock).trans (if_pos hc))
  | case4 c t hline hblock hc =>
    refine .inr ⟨fun r h => by simp at h, fun r h => ?_⟩
    rw [plain hline hblock, if_neg hc] at h
    simp at h
  | case5 => exact .inr ⟨fun r h => by simp at h, fun r h => (gap?_suffix h).1.length_le⟩

/-! ## Results -/

/-- **Whether results in front of a context** that do not go into it are the given ones. -/
def Cut (k : Text) (l l' : List (α × Text)) : Prop := l.filter (leaves k) = l'.map (before k)

variable {l₁ l₂ l₁' l₂' : List (α × Text)}

theorem Cut.append (h₁ : Cut k l₁ l₁') (h₂ : Cut k l₂ l₂') : Cut k (l₁ ++ l₂) (l₁' ++ l₂') := by
  unfold Cut
  rw [List.filter_append, List.map_append, h₁, h₂]

/-- Results that go into the context do not count. -/
theorem cut_nil (h : ∀ x ∈ l₁, x.2.length < k.length) : Cut k l₁ ([] : List (α × Text)) := by
  refine List.filter_eq_nil_iff.mpr fun x hx => ?_
  have := h x hx
  simp only [leaves, decide_eq_true_eq]
  omega

theorem Cut.of_option {x y : Option (α × Text)} (h : x.filter (leaves k) = y.map (before k)) :
    Cut k x.toList y.toList := by
  unfold Cut
  rw [← Option.toList_filter, h, Option.toList_map]

theorem Cut.mem_before (h : Cut k l₁ l₁') {x : α × Text} (hx : x ∈ l₁') : before k x ∈ l₁ := by
  have : before k x ∈ l₁.filter (leaves k) := h ▸ List.mem_map_of_mem hx
  exact (List.mem_filter.mp this).1

theorem Cut.exists_before (h : Cut k l₁ l₁') {y : α × Text} (hy : y ∈ l₁)
    (hl : leaves k y = true) : ∃ x ∈ l₁', before k x = y := by
  have : y ∈ l₁.filter (leaves k) := List.mem_filter.mpr ⟨hy, hl⟩
  rw [h] at this
  exact List.mem_map.mp this

/-- Reading goes on after every result. -/
theorem Cut.flatMap (h : Cut k l₁ l₁') {F F' : α × Text → List (β × Text)}
    (hF : ∀ x ∈ l₁', Cut k (F (before k x)) (F' x))
    (hshort : ∀ x, ∀ y ∈ F x, y.2.length ≤ x.2.length) : Cut k (l₁.flatMap F) (l₁'.flatMap F') := by
  have hcut : ∀ x ∈ l₁, leaves k x = false → (F x).filter (leaves k) = [] := by
    intro x hx hl
    refine List.filter_eq_nil_iff.mpr fun y hy => ?_
    have := hshort x y hy
    simp only [leaves, decide_eq_false_iff_not, decide_eq_true_eq] at hl ⊢
    omega
  have hfilter : l₁.flatMap (fun x => (F x).filter (leaves k)) =
      (l₁.filter (leaves k)).flatMap fun x => (F x).filter (leaves k) := by
    clear h
    induction l₁ with
    | nil => rfl
    | cons x l ih =>
      have ih := ih fun y hy => hcut y (List.mem_cons_of_mem _ hy)
      cases hx : leaves k x with
      | true => rw [List.filter_cons_of_pos hx, List.flatMap_cons, List.flatMap_cons, ih]
      | false =>
        rw [List.filter_cons_of_neg (by simp [hx]), List.flatMap_cons, ih,
          hcut x (List.mem_cons_self ..) hx, List.nil_append]
  unfold Cut
  rw [List.filter_flatMap, hfilter, h, List.flatMap_map, List.map_flatMap]
  exact List.flatMap_congr fun x hx => hF x hx

/-! ## Tokens -/

variable {m m' : Mode} {τ : Terminal}

/-- A token leaves less than the text that it was sought in. -/
theorem length_lt_of_mem_places {n : ℕ} {s : Text} {x : Text × Text}
    (h : x ∈ (placesWithin n s).filterMap τ.scan) : x.2.length < s.length := by
  obtain ⟨u, hu, hx⟩ := List.mem_filterMap.mp h
  exact (length_lt_of_scan hx).trans_le (suffix_of_mem_placesWithin hu).length_le

/-- The end of a text holds no token. -/
theorem places_nil (τ : Terminal) (n : ℕ) : (placesWithin n []).filterMap τ.scan = [] :=
  List.eq_nil_iff_forall_not_mem.mpr fun _ h => absurd (length_lt_of_mem_places h) (Nat.not_lt_zero _)

/-- A token is sought here, and where a gap ends. -/
theorem tokens_succ (τ : Terminal) (n : ℕ) (s : Text) :
    (placesWithin (n + 1) s).filterMap τ.scan = (τ.scan s).toList ++
      (gap? s).elim [] fun r => (placesWithin n r).filterMap τ.scan := by
  rw [placesWithin, List.filterMap_cons]
  cases τ.scan s <;> cases gap? s <;> rfl

/-- **The tokens in front of a context.** -/
theorem cut_places (hk : Boundary k) (hf : m.follow τ = some m') {n n' : ℕ} {u : Text}
    (hn : u.length ≤ n) (hn' : u.length ≤ n') :
    Cut k ((placesWithin n (u ++ k)).filterMap τ.scan) ((placesWithin n' u).filterMap τ.scan) := by
  have hnil (n n' : ℕ) : Cut k ((placesWithin n ([] ++ k)).filterMap τ.scan)
      ((placesWithin n' []).filterMap τ.scan) := by
    rw [places_nil]
    exact cut_nil fun x hx => length_lt_of_mem_places hx
  induction n generalizing u n' with
  | zero =>
    obtain rfl := List.eq_nil_of_length_eq_zero (Nat.le_zero.mp hn)
    exact hnil _ _
  | succ n ih =>
    cases n' with
    | zero =>
      obtain rfl := List.eq_nil_of_length_eq_zero (Nat.le_zero.mp hn')
      exact hnil _ _
    | succ n' =>
      rw [tokens_succ, tokens_succ]
      refine (Cut.of_option (scan_append hk hf u)).append ?_
      rcases gap?_append hk u with ⟨r, hu, huk⟩ | ⟨hu, huk⟩
      · have := (gap?_suffix hu).2
        rw [hu, huk]
        exact ih (by omega) (by omega)
      · have hright : ((gap? u).elim [] fun r => (placesWithin n' r).filterMap τ.scan) = [] := by
          cases h : gap? u with
          | none => rfl
          | some r => exact hu r h ▸ places_nil τ n'
        rw [hright]
        refine cut_nil fun x hx => ?_
        cases h : gap? (u ++ k) with
        | none =>
          rw [h] at hx
          exact absurd hx List.not_mem_nil
        | some r =>
          rw [h] at hx
          exact (length_lt_of_mem_places hx).trans_le (huk r h)

/-! ## Readers -/

/-- Whether a reader takes at least so many characters off a text. -/
def Takes (d : ℕ) (p : Reader α) : Prop := ∀ s, ∀ x ∈ (p s).found, x.2.length + d ≤ s.length

/-- Whether a text may stand behind blanks that are not its own. -/
def Behind (g u : Text) : Prop := g = [] ∨ ∃ c ∈ u.head?, isGapBlank c = false

/-- **Whether a reader cuts another from a context**: between the blanks `g` and the context `k` the
one finds in a text of less than `n` characters what the other finds in the text alone.  Both take
`d` characters at least. -/
structure Cuts (g k : Text) (n d : ℕ) (p q : Reader α) : Prop where
  cut : ∀ u, u.length < n → Behind g u → Cut k (p (g ++ (u ++ k))).found (q u).found
  takes : Takes d p
  takes' : Takes d q

variable {n n' d e : ℕ} {p p' q q' : Reader α} {f f' : α → Reader β}

theorem Cuts.of_le (h : Cuts g k n d p p') (hn : n' ≤ n) : Cuts g k n' d p p' :=
  ⟨fun u hu => h.cut u (hu.trans_le hn), h.takes, h.takes'⟩

theorem Takes.of_le (h : Takes d p) (he : e ≤ d) : Takes e p := by
  intro s x hx
  have := h s x hx
  omega

theorem Cuts.of_takes (h : Cuts g k n d p p') (he : e ≤ d) : Cuts g k n e p p' :=
  ⟨h.cut, h.takes.of_le he, h.takes'.of_le he⟩

theorem takes_fail (d : ℕ) : Takes d (fail : Reader α) := fun _ _ hx => absurd hx List.not_mem_nil

theorem Takes.pure (a : α) : Takes 0 (pure a : Reader α) := by
  intro s x hx
  obtain ⟨-, e⟩ := mem_pure.mp hx
  rw [e, Nat.add_zero]

theorem cuts_pure (n : ℕ) (a : α) : Cuts [] k n 0 (pure a : Reader α) (pure a) := by
  refine ⟨fun u _ _ => ?_, .pure a, .pure a⟩
  exact List.filter_cons_of_pos (leaves_before k (a, u))

theorem Takes.token (τ : Terminal) : Takes 1 (token τ) :=
  fun _ _ hx => length_lt_of_mem_places hx

/-- **A token**, with blanks before it. -/
theorem cuts_token (hg : Blanks g) (hk : Boundary k) (hf : m.follow τ = some m') (n : ℕ) :
    Cuts g k n 1 (token τ) (token τ) := by
  refine ⟨fun u _ hu => ?_, .token τ, .token τ⟩
  cases g with
  | nil => exact cut_places hk hf (by simp) le_rfl
  | cons b g =>
    obtain h | ⟨c, hc, hcb⟩ := hu
    · simp at h
    obtain ⟨v, rfl⟩ := List.head?_eq_some_iff.mp hc
    have hscan : τ.scan (b :: g ++ (c :: v ++ k)) = none :=
      scan_blank hf (hg b (List.mem_cons_self ..)) _
    have hgap : gap? (b :: g ++ (c :: v ++ k)) = some (c :: v ++ k) :=
      gap?_blanks hg fun d hd => by rwa [← Option.some.inj hd]
    show Cut k ((places (b :: g ++ (c :: v ++ k))).filterMap τ.scan) ((places (c :: v)).filterMap τ.scan)
    rw [places, List.cons_append, List.length_cons, tokens_succ, ← List.cons_append, hscan, hgap]
    have hlen : (c :: v).length ≤ (g ++ (c :: v ++ k)).length := by
      rw [List.length_append, List.length_append]
      omega
    exact cut_places hk hf hlen le_rfl

theorem Takes.bind (hp : Takes d p) (hf : ∀ a, Takes e (f a)) : Takes d (p >>= f) := by
  rintro s ⟨b, u⟩ hx
  obtain ⟨a, t, ha, hb⟩ := mem_bind.mp hx
  have := hp s _ ha
  have := hf a t _ hb
  dsimp only at *
  omega

theorem found_bind (p : Reader α) (f : α → Reader β) (s : Text) :
    ((p >>= f) s).found = (p s).found.flatMap fun x => (f x.1 x.2).found :=
  List.flatMap_map ..

theorem Cut.bind {s u : Text} (h : Cut k (p s).found (p' u).found)
    (hf : ∀ x ∈ (p' u).found, Cut k (f x.1 (x.2 ++ k)).found (f' x.1 x.2).found)
    (hshort : ∀ a, Takes e (f a)) : Cut k ((p >>= f) s).found ((p' >>= f') u).found := by
  rw [found_bind, found_bind]
  refine h.flatMap hf fun x y hy => ?_
  have := hshort x.1 x.2 y hy
  omega

/-- Reading on where less than `n'` characters are left. -/
theorem Cuts.bind_of_lt (hp : Cuts g k n d p p') (hf : ∀ a, Cuts [] k n' e (f a) (f' a))
    (hn : n ≤ n' + d) : Cuts g k n d (p >>= f) (p' >>= f') := by
  refine ⟨fun u hu hgu => ?_, hp.takes.bind fun a => (hf a).takes,
    hp.takes'.bind fun a => (hf a).takes'⟩
  refine (hp.cut u hu hgu).bind (fun x hx => ?_) fun a => (hf a).takes
  have := hp.takes' u x hx
  exact (hf x.1).cut x.2 (by omega) (.inl rfl)

/-- **Reading one after another.** -/
theorem Cuts.bind (hp : Cuts g k n d p p') (hf : ∀ a, Cuts [] k n e (f a) (f' a)) :
    Cuts g k n d (p >>= f) (p' >>= f') :=
  hp.bind_of_lt hf (Nat.le_add_right n d)

/-- Reading on where a character was taken. -/
theorem Cuts.next (hp : Cuts g k (n + 1) 1 p p') (hf : ∀ a, Cuts [] k n e (f a) (f' a)) :
    Cuts g k (n + 1) 1 (p >>= f) (p' >>= f') :=
  hp.bind_of_lt hf le_rfl

/-- Results may be changed. -/
theorem Cuts.map (hp : Cuts g k n d p p') (f : α → β) :
    Cuts g k n d (p >>= fun a => pure (f a)) (p' >>= fun a => pure (f a)) :=
  hp.bind fun a => cuts_pure n (f a)

theorem Takes.orElse (hp : Takes d p) (hq : Takes d q) : Takes d (p <|> q) := by
  intro s x hx
  rcases mem_orElse.mp hx with hx | hx
  exacts [hp s x hx, hq s x hx]

theorem Cuts.orElse (hp : Cuts g k n d p p') (hq : Cuts g k n d q q') :
    Cuts g k n d (p <|> q) (p' <|> q') :=
  ⟨fun u hu hgu => (hp.cut u hu hgu).append (hq.cut u hu hgu), hp.takes.orElse hq.takes,
    hp.takes'.orElse hq.takes'⟩

theorem Takes.orWhereNot (hp : Takes d p) (hq : Takes d q) : Takes d (p.orWhereNot q) := by
  intro s x hx
  rcases List.mem_append.mp hx with hx | hx
  exacts [hp s x hx, hq s x (List.mem_filter.mp hx).1]

/-- What is preferred in front of a context is what is preferred without it. -/
theorem Cuts.orWhereNot (hp : Cuts g k n d p p') (hq : Cuts g k n d q q') :
    Cuts g k n d (p.orWhereNot q) (p'.orWhereNot q') := by
  refine ⟨fun u hu hgu => (hp.cut u hu hgu).append ?_, hp.takes.orWhereNot hq.takes,
    hp.takes'.orWhereNot hq.takes'⟩
  have hpc := hp.cut u hu hgu
  have hqc := hq.cut u hu hgu
  have hall (x : α × Text) : (p (g ++ (u ++ k))).found.all (·.2.length != (before k x).2.length) =
      (p' u).found.all (·.2.length != x.2.length) := by
    rw [Bool.eq_iff_iff, List.all_eq_true, List.all_eq_true]
    simp only [bne_iff_ne, before, List.length_append]
    constructor
    · intro h y hy
      have := h _ (hpc.mem_before hy)
      simp only [before, List.length_append] at this
      omega
    -- a result that leaves the context comes from one without it, and no other is as long
    · intro h y hy
      cases hl : leaves k y with
      | true =>
        obtain ⟨z, hz, rfl⟩ := hpc.exists_before hy hl
        have := h z hz
        rw [before, List.length_append]
        omega
      | false =>
        simp only [leaves, decide_eq_false_iff_not] at hl
        omega
  unfold Cut at hqc ⊢
  rw [List.filter_comm, hqc, List.filter_map]
  exact congrArg _ (List.filter_congr fun x _ => hall x)

variable {step step' : α → Reader α}

theorem Takes.stepsWithin (h : ∀ a, Takes 1 (step a)) (j : ℕ) (a : α) :
    Takes 0 (stepsWithin step j a) := by
  induction j generalizing a with
  | zero => exact .pure a
  | succ j ih =>
    refine (Takes.pure a).orElse fun s x hx => ?_
    have := (h a).bind (fun b => ih b) s x hx
    omega

/-- No step, and results that are shorter. -/
theorem exists_found_stepsWithin (h : ∀ a, Takes 1 (step a)) (j : ℕ) (a : α) (s : Text) :
    ∃ l, (stepsWithin step j a s).found = (a, s) :: l ∧ ∀ x ∈ l, x.2.length < s.length := by
  cases j with
  | zero => exact ⟨[], rfl, fun _ hx => absurd hx List.not_mem_nil⟩
  | succ j => exact ⟨_, rfl, (h a).bind (fun b => .stepsWithin h j b) s⟩

/-- Without a text in front of the context there is no step. -/
theorem cut_stepsWithin_nil (h : ∀ a, Takes 1 (step a)) (h' : ∀ a, Takes 1 (step' a)) (j j' : ℕ)
    (a : α) : Cut k (stepsWithin step j a k).found (stepsWithin step' j' a []).found := by
  obtain ⟨l, hl, hshort⟩ := exists_found_stepsWithin h j a k
  obtain ⟨l', hl', hshort'⟩ := exists_found_stepsWithin h' j' a []
  obtain rfl : l' = [] :=
    List.eq_nil_iff_forall_not_mem.mpr fun x hx => absurd (hshort' x hx) (Nat.not_lt_zero _)
  have hnone : Cut k [(a, k)] [(a, [])] := (cuts_pure 1 a).cut [] Nat.one_pos (.inl rfl)
  rw [hl, hl']
  exact hnone.append (cut_nil hshort)

/-- **Steps**, as many as a text has characters or more. -/
theorem cut_stepsWithin (h : ∀ a, Cuts [] k n 1 (step a) (step' a)) {j j' : ℕ} {u : Text}
    (hn : u.length < n) (hj : u.length ≤ j) (hj' : u.length ≤ j') (a : α) :
    Cut k (stepsWithin step j a (u ++ k)).found (stepsWithin step' j' a u).found := by
  have htakes (a : α) : Takes 1 (step a) := (h a).takes
  have htakes' (a : α) : Takes 1 (step' a) := (h a).takes'
  induction j generalizing j' u a with
  | zero =>
    obtain rfl := List.eq_nil_of_length_eq_zero (Nat.le_zero.mp hj)
    exact cut_stepsWithin_nil htakes htakes' _ _ a
  | succ j ih =>
    cases j' with
    | zero =>
      obtain rfl := List.eq_nil_of_length_eq_zero (Nat.le_zero.mp hj')
      exact cut_stepsWithin_nil htakes htakes' _ _ a
    | succ j' =>
      refine ((cuts_pure n a).cut u hn (.inl rfl)).append ?_
      refine ((h a).cut u hn (.inl rfl)).bind (fun x hx => ?_) fun b => .stepsWithin htakes j b
      have := htakes' a u x hx
      exact ih (by omega) (by omega) (by omega) x.1

theorem cuts_steps (h : ∀ a, Cuts [] k n 1 (step a) (step' a)) (a : α) :
    Cuts [] k n 0 (steps step a) (steps step' a) :=
  ⟨fun u hu _ => cut_stepsWithin h hu (by simp) le_rfl a,
    fun s => Takes.stepsWithin (fun a => (h a).takes) s.length a s,
    fun s => Takes.stepsWithin (fun a => (h a).takes') s.length a s⟩

end VariableImport.Script
