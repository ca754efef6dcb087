import VariableImport.Proofs.Glob.Nested
import VariableImport.Proofs.Text.Distinct

/-!
# Proofs/Glob/Alternation — alternatives in alternatives

Groups of a nested pattern are replaced from the innermost on, so an option comes to stand beside others before
its own group is reached.  What carries the proof is that **nested text behind a text without a group may be
replaced by its choices first** (`Nested.mem_expandBraces_iff`).

* What a pattern stands for are texts without a group, at least one of them and none twice.
* A nested pattern stands for its choices, and where no group lies in another they are found in the order in
  which they are chosen from the left (`expandBraces_choices`).
-/

namespace VariableImport.Glob

open Text (split distinct)

variable {s t before : Text}

/-! ## Texts of a pattern -/

theorem holdsGroup_append : HoldsGroup (s ++ t) ↔
    HoldsGroup s ∨ HoldsGroup t ∨ '\x7b' ∈ s ∧ '\x7d' ∈ t := by
  induction s with
  | nil => simp [HoldsGroup]
  | cons c s ih =>
    rw [List.cons_append, holdsGroup_cons, ih, holdsGroup_cons, List.mem_append, List.mem_cons]
    grind

/-- Only a closing brace makes a group behind a text without one. -/
theorem not_holdsGroup_append (hs : ¬ HoldsGroup s) (ht : '\x7d' ∉ t) : ¬ HoldsGroup (s ++ t) := by
  rw [holdsGroup_append]
  rintro (h | h | ⟨-, h⟩)
  · exact hs h
  · exact ht (List.Sublist.subset h (by simp))
  · exact ht h

/-- **No group is left.** -/
theorem not_holdsGroup_of_mem_expandBraces (h : t ∈ expandBraces s) : ¬ HoldsGroup t := by
  induction s using replacing_induction with
  | settled s hs =>
    rw [expandBraces_of_findGroup_none hs, List.mem_singleton] at h
    rw [h]
    exact findGroup_eq_none_iff.mp hs
  | replaced s before body rest hs ih =>
    rw [expandBraces_of_findGroup hs, Text.mem_distinct, List.mem_flatMap] at h
    obtain ⟨x, hx, h⟩ := h
    exact ih x hx h

theorem nodup_expandBraces (s : Text) : (expandBraces s).Nodup := by
  cases h : findGroup s with
  | none =>
    rw [expandBraces_of_findGroup_none h]
    exact List.nodup_singleton s
  | some found =>
    rw [expandBraces_of_findGroup h]
    exact Text.nodup_distinct _

/-! ## What is chosen -/

theorem IsLiteral.of_inner {inner : Bool} {c : Char} (h : IsLiteral true c) : IsLiteral inner c :=
  ⟨h.1, h.2.1, fun _ => h.2.2 rfl⟩

mutual

/-- Every character of a choice stands for itself. -/
theorem Nested.isLiteral_of_mem_choices {inner : Bool} (p : Nested inner) {t : Text} (ht : t ∈ p.choices) :
    ∀ c ∈ t, IsLiteral inner c := by
  match p with
  | .done =>
    rw [Nested.choices, List.mem_singleton] at ht
    simp [ht]
  | .char c h rest =>
    rw [Nested.choices, List.mem_map] at ht
    obtain ⟨u, hu, rfl⟩ := ht
    exact List.forall_mem_cons.mpr ⟨h, rest.isLiteral_of_mem_choices hu⟩
  | .group options rest =>
    rw [Nested.choices, List.mem_flatMap] at ht
    obtain ⟨u, hu, ht⟩ := ht
    obtain ⟨v, hv, rfl⟩ := List.mem_map.mp ht
    exact List.forall_mem_append.mpr ⟨fun c hc => (options.isLiteral_of_mem_choices hu c hc).of_inner,
      rest.isLiteral_of_mem_choices hv⟩

theorem Options.isLiteral_of_mem_choices (p : Options) {t : Text} (ht : t ∈ p.choices) :
    ∀ c ∈ t, IsLiteral true c := by
  match p with
  | .last option => exact option.isLiteral_of_mem_choices ht
  | .more option options =>
    rcases List.mem_append.mp ht with ht | ht
    · exact option.isLiteral_of_mem_choices ht
    · exact options.isLiteral_of_mem_choices ht

end

mutual

theorem Nested.choices_ne_nil {inner : Bool} (p : Nested inner) : p.choices ≠ [] := by
  match p with
  | .done => exact List.cons_ne_nil _ _
  | .char c h rest => exact List.map_eq_nil_iff.not.mpr rest.choices_ne_nil
  | .group options rest =>
    obtain ⟨u, hu⟩ := List.exists_mem_of_ne_nil _ options.choices_ne_nil
    obtain ⟨v, hv⟩ := List.exists_mem_of_ne_nil _ rest.choices_ne_nil
    exact List.ne_nil_of_mem (List.mem_flatMap.mpr ⟨u, hu, List.mem_map_of_mem hv⟩)

theorem Options.choices_ne_nil (p : Options) : p.choices ≠ [] := by
  match p with
  | .last option => exact option.choices_ne_nil
  | .more option options => exact List.append_ne_nil_of_left_ne_nil option.choices_ne_nil _

end

/-- Nothing becomes a group by a choice behind it. -/
theorem not_holdsGroup_append_of_isLiteral {inner : Bool} (hb : ¬ HoldsGroup before)
    (ht : ∀ c ∈ t, IsLiteral inner c) : ¬ HoldsGroup (before ++ t) :=
  not_holdsGroup_append hb fun hmem => (ht _ hmem).2.1 rfl

/-! ## Choices made first -/

/-- Options that have been chosen from, each with its comma behind it. -/
def written (words : List Text) : Text := words.flatMap (· ++ [','])

theorem written_concat (words : List Text) (w : Text) : written (words ++ [w]) = written words ++ (w ++ [',']) := by
  rw [written, List.flatMap_append, List.flatMap_singleton]
  rfl

theorem split_written {words : List Text} {w : Text} (hwords : ∀ v ∈ words, ',' ∉ v) (hw : ',' ∉ w) :
    split ',' (written words ++ w) = words ++ [w] := by
  induction words with
  | nil => exact Text.split_of_not_mem hw
  | cons v words ih =>
    obtain ⟨hv, hwords⟩ := List.forall_mem_cons.mp hwords
    rw [written, List.flatMap_cons, List.append_assoc, List.append_assoc, List.singleton_append,
      Text.split_append_cons, Text.split_of_not_mem hv, ← written, ih hwords]
    rfl

/-- Words and their commas hold nothing but literals and commas. -/
theorem not_mem_written {words : List Text} (hwords : ∀ w ∈ words, ∀ c ∈ w, IsLiteral true c) {x : Char}
    (hx : ¬ IsLiteral true x) (hcomma : x ≠ ',') : x ∉ written words := by
  rw [written, List.mem_flatMap]
  rintro ⟨w, hw, hmem⟩
  rcases List.mem_append.mp hmem with hmem | hmem
  · exact hx (hwords w hw x hmem)
  · exact hcomma (List.mem_singleton.mp hmem)

/-- One of several, each with others before and behind it. -/
theorem exists_mem_around {α : Type} {before after xs : List α} {p : α → Prop} (hne : xs ≠ []) :
    (∃ m ∈ xs, ∃ x ∈ before ++ m :: after, p x) ↔ ∃ x ∈ before ++ (xs ++ after), p x := by
  obtain ⟨m, hm⟩ := List.exists_mem_of_ne_nil _ hne
  simp only [List.mem_append, List.mem_cons]
  constructor
  · rintro ⟨m, hm, x, hx | rfl | hx, hp⟩
    · exact ⟨x, .inl hx, hp⟩
    · exact ⟨x, .inr (.inl hm), hp⟩
    · exact ⟨x, .inr (.inr hx), hp⟩
  · rintro ⟨x, hx | hx | hx, hp⟩
    · exact ⟨m, hm, x, .inl hx, hp⟩
    · exact ⟨x, hx, x, .inr (.inl rfl), hp⟩
    · exact ⟨m, hm, x, .inr (.inr hx), hp⟩

/-- A group of words is replaced by each of them. -/
theorem mem_expandBraces_written {words : List Text} {w r : Text} (hb : ¬ HoldsGroup before)
    (hwords : ∀ v ∈ words, ∀ c ∈ v, IsLiteral true c) (hw : ∀ c ∈ w, IsLiteral true c) :
    t ∈ expandBraces (before ++ '\x7b' :: (written words ++ w) ++ '\x7d' :: r) ↔
      ∃ x ∈ words ++ [w], t ∈ expandBraces (before ++ x ++ r) := by
  have hout {x : Char} (hx : ¬ IsLiteral true x) (hcomma : x ≠ ',') : x ∉ written words ++ w := by
    rw [List.mem_append, not_or]
    exact ⟨not_mem_written hwords hx hcomma, fun hmem => hx (hw x hmem)⟩
  rw [expandBraces_of_findGroup (findGroup_append hb (hout (by decide) (by decide)) (hout (by decide) (by decide))),
    split_written (fun v hv hmem => (hwords v hv _ hmem).2.2 rfl rfl) fun hmem => (hw _ hmem).2.2 rfl rfl,
    Text.mem_distinct, List.mem_flatMap]

mutual

/-- **Nested text behind a text without a group** may be replaced by its choices first. -/
theorem Nested.mem_expandBraces_iff {inner : Bool} (p : Nested inner) {before : Text}
    (hb : ¬ HoldsGroup before) (r : Text) :
    t ∈ expandBraces (before ++ p.text ++ r) ↔ ∃ m ∈ p.choices, t ∈ expandBraces (before ++ m ++ r) := by
  match p with
  | .done => simp [Nested.text, Nested.choices]
  | .char c h rest =>
    have hc : ∀ d ∈ [c], IsLiteral inner d := by simpa using h
    have := rest.mem_expandBraces_iff (not_holdsGroup_append_of_isLiteral hb hc) r
    simpa [Nested.text, Nested.choices] using this
  | .group options rest =>
    have hrest (u : Text) (hu : u ∈ options.choices) := rest.mem_expandBraces_iff
      (not_holdsGroup_append_of_isLiteral hb (options.isLiteral_of_mem_choices hu)) r
    calc t ∈ expandBraces (before ++ (Nested.group options rest : Nested inner).text ++ r)
        ↔ t ∈ expandBraces (before ++ '\x7b' :: (written [] ++ options.text) ++ '\x7d' :: (rest.text ++ r)) := by
          simp [Nested.text, written]
      _ ↔ ∃ u ∈ options.choices, t ∈ expandBraces (before ++ u ++ rest.text ++ r) := by
          rw [options.mem_expandBraces_iff hb (by simp), List.nil_append]
          simp only [List.append_assoc]
      _ ↔ ∃ u ∈ options.choices, ∃ v ∈ rest.choices, t ∈ expandBraces (before ++ u ++ v ++ r) :=
          exists_congr fun u => and_congr_right (hrest u)
      _ ↔ ∃ m ∈ (Nested.group options rest : Nested inner).choices, t ∈ expandBraces (before ++ m ++ r) := by
          simp [Nested.choices]

/-- **A group is chosen from** option by option, `words` being what has been chosen before. -/
theorem Options.mem_expandBraces_iff (p : Options) {before : Text} (hb : ¬ HoldsGroup before)
    {words : List Text} (hwords : ∀ w ∈ words, ∀ c ∈ w, IsLiteral true c) (r : Text) :
    t ∈ expandBraces (before ++ '\x7b' :: (written words ++ p.text) ++ '\x7d' :: r) ↔
      ∃ m ∈ words ++ p.choices, t ∈ expandBraces (before ++ m ++ r) := by
  -- the brace that opens this group has no closing one before the next option, so that is chosen from first
  have hopened : ¬ HoldsGroup (before ++ '\x7b' :: written words) := not_holdsGroup_append hb <| by
    rw [List.mem_cons, not_or]
    exact ⟨by decide, not_mem_written hwords (by decide) (by decide)⟩
  match p with
  | .last option =>
    calc t ∈ expandBraces (before ++ '\x7b' :: (written words ++ option.text) ++ '\x7d' :: r)
        ↔ ∃ m ∈ option.choices,
            t ∈ expandBraces (before ++ '\x7b' :: (written words ++ m) ++ '\x7d' :: r) := by
          simpa using option.mem_expandBraces_iff hopened ('\x7d' :: r)
      _ ↔ ∃ m ∈ option.choices, ∃ x ∈ words ++ [m], t ∈ expandBraces (before ++ x ++ r) :=
          exists_congr fun m => and_congr_right fun hm =>
            mem_expandBraces_written hb hwords (option.isLiteral_of_mem_choices hm)
      _ ↔ ∃ x ∈ words ++ (option.choices ++ []), t ∈ expandBraces (before ++ x ++ r) :=
          exists_mem_around option.choices_ne_nil
      _ ↔ ∃ x ∈ words ++ (Options.last option).choices, t ∈ expandBraces (before ++ x ++ r) := by
          rw [List.append_nil, Options.choices]
  | .more option options =>
    have hchosen (m : Text) (hm : m ∈ option.choices) : ∀ w ∈ words ++ [m], ∀ c ∈ w, IsLiteral true c :=
      List.forall_mem_append.mpr ⟨hwords, by simpa using option.isLiteral_of_mem_choices hm⟩
    calc t ∈ expandBraces (before ++ '\x7b' :: (written words ++ (Options.more option options).text) ++ '\x7d' :: r)
        ↔ ∃ m ∈ option.choices, t ∈ expandBraces
            (before ++ '\x7b' :: (written (words ++ [m]) ++ options.text) ++ '\x7d' :: r) := by
          have := option.mem_expandBraces_iff hopened (',' :: (options.text ++ '\x7d' :: r))
          simpa [Options.text, written_concat] using this
      _ ↔ ∃ m ∈ option.choices, ∃ x ∈ words ++ m :: options.choices, t ∈ expandBraces (before ++ x ++ r) :=
          exists_congr fun m => and_congr_right fun hm => by
            simpa using options.mem_expandBraces_iff hb (hchosen m hm) r
      _ ↔ ∃ x ∈ words ++ (Options.more option options).choices, t ∈ expandBraces (before ++ x ++ r) :=
          exists_mem_around option.choices_ne_nil

end

/-! ## Groups side by side -/

theorem Nested.choices_of_isPlain {inner : Bool} {p : Nested inner} (hp : p.isPlain = true) :
    p.choices = [p.text] := by
  match p with
  | .done => rfl
  | .char c h rest => rw [Nested.choices, choices_of_isPlain (p := rest) hp, Nested.text, List.map_singleton]

/-- Options without a group are the words between the commas. -/
theorem Options.split_text {p : Options} (hp : p.arePlain = true) : split ',' p.text = p.choices := by
  have hword {option : Nested true} (h : option.isPlain = true) : split ',' option.text = option.choices := by
    rw [Nested.choices_of_isPlain h]
    refine Text.split_of_not_mem fun hmem => ?_
    exact (option.isLiteral_of_mem_choices (by simp [Nested.choices_of_isPlain h]) _ hmem).2.2 rfl rfl
  match p with
  | .last option => exact hword hp
  | .more option options =>
    obtain ⟨h, hp⟩ := Bool.and_eq_true_iff.mp hp
    rw [Options.text, Text.split_append_cons, hword h, Options.split_text hp, Options.choices]

theorem Options.not_mem_text {p : Options} (hp : p.arePlain = true) {x : Char} (hx : ¬ IsLiteral true x)
    (hcomma : x ≠ ',') : x ∉ p.text := by
  rw [← Text.join_split ',' p.text, Options.split_text hp]
  intro hmem
  rcases Text.mem_of_mem_join hmem with h | ⟨w, hw, hmem⟩
  · exact hcomma h
  · exact hx (p.isLiteral_of_mem_choices hw x hmem)

theorem Nested.expandBraces_of_isFlat {inner : Bool} {p : Nested inner} (hp : p.isFlat = true) {before : Text}
    (hb : ¬ HoldsGroup before) : expandBraces (before ++ p.text) = distinct (p.choices.map (before ++ ·)) := by
  match p with
  | .done =>
    rw [Nested.text, List.append_nil, expandBraces_of_findGroup_none (findGroup_eq_none_iff.mpr hb)]
    simp [Nested.choices, distinct, Text.addNew]
  | .char c h rest =>
    have hc : ∀ d ∈ [c], IsLiteral inner d := by simpa using h
    have := Nested.expandBraces_of_isFlat (p := rest) hp (not_holdsGroup_append_of_isLiteral hb hc)
    simpa [Nested.text, Nested.choices, Function.comp_def] using this
  | .group options rest =>
    obtain ⟨hplain, hrest⟩ := Bool.and_eq_true_iff.mp hp
    have hfound : findGroup (before ++ (Nested.group options rest : Nested inner).text) =
        some (before, options.text, rest.text) := by
      rw [Nested.text, ← List.append_assoc]
      exact findGroup_append hb (options.not_mem_text hplain (by decide) (by decide))
        (options.not_mem_text hplain (by decide) (by decide))
    have heach (x : Text) (hx : x ∈ options.choices) : expandBraces (before ++ x ++ rest.text) =
        distinct (rest.choices.map (before ++ x ++ ·)) :=
      Nested.expandBraces_of_isFlat hrest
        (not_holdsGroup_append_of_isLiteral hb (options.isLiteral_of_mem_choices hx))
    rw [expandBraces_of_findGroup hfound, options.split_text hplain, List.flatMap_congr heach,
      Text.distinct_flatMap_distinct, Nested.choices, List.map_flatMap]
    simp [Function.comp_def]

/-! ## What a pattern stands for -/

/-- **Alternatives in alternatives.**  A pattern stands for itself, or for what it stands for with each option of
its first group in place, of which each has fewer opening braces; so it stands for some texts, none twice and
none with a group.  If its braces are in pairs, it is a nested pattern and stands for its choices, where no
group lies in another in their order. -/
theorem expandBraces_choices :
    (∀ s, expandBraces s ≠ [] ∧ (expandBraces s).Nodup ∧ ∀ t ∈ expandBraces s, ¬ HoldsGroup t) ∧
    (∀ s, ¬ HoldsGroup s ∧ expandBraces s = [s] ∨
      ∃ before body rest, s = before ++ '\x7b' :: body ++ '\x7d' :: rest ∧ findGroup s = some (before, body, rest) ∧
        (∀ x ∈ split ',' body, (before ++ x ++ rest).count '\x7b' < s.count '\x7b') ∧
        expandBraces s = distinct ((split ',' body).flatMap fun x => expandBraces (before ++ x ++ rest))) ∧
    (∀ s, isPaired s = true ↔ ∃ p : Nested false, p.text = s) ∧
    ∀ p : Nested false, (∀ t, t ∈ expandBraces p.text ↔ t ∈ p.choices) ∧
      (p.isFlat = true → expandBraces p.text = distinct p.choices) := by
  have hnil : ¬ HoldsGroup [] := not_holdsGroup_of_not_mem List.not_mem_nil
  refine ⟨fun s => ⟨expandBraces_ne_nil s, nodup_expandBraces s, fun t => not_holdsGroup_of_mem_expandBraces⟩,
    fun s => ?_, fun s => isPaired_iff, fun p => ⟨fun t => ?_, fun hp => ?_⟩⟩
  · cases h : findGroup s with
    | none => exact .inl ⟨findGroup_eq_none_iff.mp h, expandBraces_of_findGroup_none h⟩
    | some found =>
      exact .inr ⟨found.1, found.2.1, found.2.2, (findGroup_eq_some h).1, rfl,
        fun x hx => Nat.lt_of_succ_le (count_replaced h hx).le, expandBraces_of_findGroup h⟩
  · have hchoices := p.mem_expandBraces_iff (t := t) hnil []
    have hself (m : Text) (hm : m ∈ p.choices) : expandBraces m = [m] :=
      expandBraces_of_not_mem fun hmem => (p.isLiteral_of_mem_choices hm _ hmem).1 rfl
    simp only [List.nil_append, List.append_nil] at hchoices
    rw [hchoices]
    constructor
    · rintro ⟨m, hm, ht⟩
      rw [hself m hm, List.mem_singleton] at ht
      rwa [ht]
    · exact fun ht => ⟨t, ht, by rw [hself t ht]; exact List.mem_singleton_self t⟩
  · simpa using Nested.expandBraces_of_isFlat hp hnil

/-- A pattern with one group in another, and one with two groups that give a text twice. -/
theorem expandBraces_choices_of_groups :
    (∀ t, t ∈ expandBraces "a\x7bb,c\x7bd,e\x7d\x7d".toList ↔ t ∈ ["ab".toList, "acd".toList, "ace".toList]) ∧
      expandBraces "\x7ba,b\x7d\x7bc,d,c\x7d".toList =
        ["ac".toList, "ad".toList, "bc".toList, "bd".toList] := by
  let word (c : Char) (h : IsLiteral true c) : Nested true := .char c h .done
  let nested : Nested false := .char 'a' (by decide) <| .group
    (.more (word 'b' (by decide)) <| .last <| .char 'c' (by decide) <| .group
      (.more (word 'd' (by decide)) <| .last <| word 'e' (by decide)) .done) .done
  let flat : Nested false := .group (.more (word 'a' (by decide)) <| .last <| word 'b' (by decide)) <| .group
    (.more (word 'c' (by decide)) <| .more (word 'd' (by decide)) <| .last <| word 'c' (by decide)) .done
  exact ⟨(expandBraces_choices.2.2.2 nested).1, (expandBraces_choices.2.2.2 flat).2 rfl⟩

end VariableImport.Glob
