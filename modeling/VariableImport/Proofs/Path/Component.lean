import VariableImport.Proofs.FileSystem.Named

/-!
# Proofs/Path/Component — the components of a path

Components are what stands between slashes, however many (`components_append_replicate`).  A base ends
in one (`IsBase.getLast?_split`), and slashes behind it are stripped (`stripSlashes_append_replicate`).
-/

namespace VariableImport

namespace Path

theorem components_append (s t : Text) : components (s ++ '/' :: t) = components s ++ components t := by
  rw [components, Text.split_append_cons, List.filter_append]
  rfl

theorem components_of_isName {n : Text} (hn : IsName n) : components n = [n] := by
  rw [components, Text.split_of_not_mem hn.2]
  simp [hn.1]

/-- Slashes more or less between two texts part no components. -/
theorem components_append_replicate (s t : Text) (k : ℕ) :
    components (s ++ (List.replicate (k + 1) '/' ++ t)) = components s ++ components t := by
  induction k generalizing s with
  | zero => exact components_append s t
  | succ k ih =>
    calc components (s ++ (List.replicate (k + 2) '/' ++ t))
        = components ((s ++ ['/']) ++ (List.replicate (k + 1) '/' ++ t)) := by
          rw [List.replicate_succ]
          simp
      _ = components (s ++ '/' :: []) ++ components t := ih _
      _ = components s ++ components t := by
          rw [components_append]
          simp [components, Text.split]

theorem isName_of_mem_components {p c : Text} (h : c ∈ components p) : IsName c :=
  FileSystem.isName_of_mem_components h

theorem infix_of_mem_components {p c : Text} (h : c ∈ components p) : c <:+: p :=
  Text.infix_of_mem_split (List.mem_filter.mp h).1

/-- **Text without a slash** goes on with the last component of a base. -/
theorem IsBase.exists_components_append {s : Text} (hs : IsBase s) :
    ∃ init last, ∀ e, '/' ∉ e → components (s ++ e) = init ++ [last ++ e] := by
  by_cases hslash : '/' ∈ s
  · obtain ⟨head, name, -, rfl, hname⟩ := Text.exists_cutLast hslash
    have hne : name ≠ [] := by
      rintro rfl
      exact hs.2 (by simp)
    refine ⟨components head, name, fun e he => ?_⟩
    have hn : IsName (name ++ e) := ⟨by simp [hne], by simp [hname, he]⟩
    rw [List.append_assoc, List.cons_append, components_append, components_of_isName hn]
  · refine ⟨[], s, fun e he => ?_⟩
    exact components_of_isName ⟨by simp [hs.1], by simp [hslash, he]⟩

/-- Behind a slash begins a component. -/
theorem components_append_slash (s t : Text) :
    components (s ++ ['/'] ++ t) = components (s ++ ['/']) ++ components t := by
  have hnil : components [] = [] := by simp [components, Text.split]
  rw [List.append_assoc, List.singleton_append, components_append, components_append, hnil,
    List.append_nil]

/-- Text without a slash before the first component goes on to it. -/
theorem exists_components_cons {x : Char} (hx : x ≠ '/') (s : Text) :
    ∃ c cs, (∀ w, '/' ∉ w → components (w ++ x :: s) = (w ++ x :: c) :: cs) ∧ ∀ d ∈ c :: cs, d <:+: s := by
  obtain ⟨c, cs, hsplit, hs, hcs⟩ := exists_eq_append_trail s
  have hc : '/' ∉ c := hcs c (List.mem_cons_self ..)
  refine ⟨c, cs.filter (!·.isEmpty), fun w hw => ?_, fun d hd => ?_⟩
  · have htext : w ++ x :: s = (w ++ x :: c) ++ trail cs := by
      rw [hs]
      simp
    rw [components, htext, split_append_trail _ fun d hd => hcs d (List.mem_cons_of_mem _ hd),
      Text.split_of_not_mem (by simp [hw, hc, hx.symm] : '/' ∉ w ++ x :: c)]
    simp
  · have hmem : d ∈ Text.split '/' s → d <:+: s := Text.infix_of_mem_split
    refine hmem ?_
    rw [hsplit]
    rcases List.mem_cons.mp hd with rfl | hd
    · exact List.mem_cons_self ..
    · exact List.mem_cons_of_mem _ (List.mem_filter.mp hd).1

/-- A base ends in a component. -/
theorem IsBase.getLast?_split {p : Text} (hp : IsBase p) : (Text.split '/' p).getLast? ≠ some [] := by
  by_cases hslash : '/' ∈ p
  · obtain ⟨head, name, -, rfl, hname⟩ := Text.exists_cutLast hslash
    rw [Text.split_append_cons, Text.split_of_not_mem hname, List.getLast?_concat]
    rintro hnil
    obtain rfl := Option.some.inj hnil
    exact hp.2 (by simp)
  · rw [Text.split_of_not_mem hslash]
    exact fun hnil => hp.1 (Option.some.inj hnil)

theorem IsBase.drop {p : Text} (hp : IsBase p) {n : ℕ} (hn : n < p.length) : IsBase (p.drop n) := by
  refine ⟨by simpa using hn, ?_⟩
  rw [List.getLast?_drop, if_neg (by omega)]
  exact hp.2

theorem IsBase.append {p : Text} (hp : IsBase p) (s : Text) : IsBase (s ++ p) := by
  refine ⟨by simp [hp.1], ?_⟩
  rw [List.getLast?_append_of_ne_nil _ hp.1]
  exact hp.2

theorem IsBase.of_append {s t : Text} (h : IsBase (s ++ t)) (ht : t ≠ []) : IsBase t := by
  refine ⟨ht, ?_⟩
  have := h.2
  rwa [List.getLast?_append_of_ne_nil _ ht] at this

theorem stripSlashes_append_replicate {p : Text} (hp : IsBase p) (k : ℕ) :
    stripSlashes (p ++ List.replicate k '/') = p := by
  have hall : (p ++ List.replicate k '/').all (· == '/') = false := by
    rw [List.all_eq_false]
    exact ⟨p.getLast hp.1, List.mem_append_left _ (List.getLast_mem hp.1),
      fun h => hp.2 (by simpa [List.getLast?_eq_some_getLast hp.1] using h)⟩
  obtain ⟨hbase, j, hj⟩ := exists_eq_stripSlashes hall
  generalize stripSlashes (p ++ List.replicate k '/') = q at hbase hj
  have hbegins {x y : Text} (hx : IsBase x) {i j : ℕ}
      (h : x ++ List.replicate i '/' = y ++ List.replicate j '/') : x <+: y := by
    rcases List.prefix_or_prefix_of_prefix (List.prefix_append x _)
      (h ▸ List.prefix_append y (List.replicate j '/')) with hxy | ⟨z, rfl⟩
    · exact hxy
    · rw [List.append_assoc, List.append_right_inj] at h
      rcases List.eq_nil_or_concat z with rfl | ⟨z, c, rfl⟩
      · simp
      · have hc : c ∈ List.replicate j '/' := h ▸ by simp
        exact absurd (by simp [(List.mem_replicate.mp hc).2]) hx.2
  exact ((hbegins hp hj).eq_of_length_le (hbegins hbase hj.symm).length_le).symm

/-- What begins with dots and ends in a slash is a base with slashes. -/
theorem exists_explicit_base {dots a : Text} (hdots : dots = here ∨ dots = up)
    (h : dots ++ ['/'] <+: a ++ ['/']) : ∃ q k, IsBase q ∧ IsExplicit (q ++ ['/']) ∧
      stripSlashes (a ++ ['/']) = q ∧ a ++ ['/'] = q ++ List.replicate (k + 1) '/' := by
  have hall : (a ++ ['/']).all (· == '/') = false := by
    rw [List.all_eq_false]
    refine ⟨'.', h.subset ?_, by decide⟩
    rcases hdots with rfl | rfl <;> simp
  obtain ⟨hbase, k, hk⟩ := exists_eq_stripSlashes hall
  cases k with
  | zero =>
    have hlast := hbase.2
    rw [List.replicate_zero, List.append_nil] at hk
    rw [← hk] at hlast
    simp at hlast
  | succ k =>
    have hdotsbase : IsBase dots := by rcases hdots with rfl | rfl <;> exact ⟨by simp, by decide⟩
    have hexplicit : IsExplicit (dots ++ ['/']) := by
      rcases hdots with rfl | rfl
      exacts [.inl (List.prefix_refl _), .inr (List.prefix_refl _)]
    exact ⟨_, k, hbase, hexplicit.mono (hdotsbase.prefix_of_le_replicate (hk ▸ h)), rfl, hk⟩

/-- Names behind a base have a slash each. -/
theorem count_trail {names : List Text} (h : ∀ n ∈ names, IsName n) :
    (trail names).count '/' = names.length := by
  induction names with
  | nil => rfl
  | cons n names ih =>
    have hn : n.count '/' = 0 := List.count_eq_zero.mpr (h n (List.mem_cons_self ..)).2
    rw [trail_cons, List.count_append, List.count_cons_self, hn,
      ih fun m hm => h m (List.mem_cons_of_mem _ hm), List.length_cons]
    omega

end Path

end VariableImport
