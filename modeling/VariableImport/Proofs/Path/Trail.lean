import Mathlib.Data.List.Infix
import Mathlib.Data.List.TakeWhile
import VariableImport.Path.Basic

/-!
# Proofs/Path/Trail — paths as a base and components after it

`trail cs` writes every component of `cs` after a slash.  A text is its first word with the trail of
the others (`exists_eq_append_trail`), splitting undoes this (`split_append_trail`), and a path is
put behind a base by one more slash (`append_of_base`).
-/

namespace VariableImport

namespace Text

variable {sep : Char}

/-- A text without the separator is one word. -/
theorem split_of_not_mem {s : Text} (h : sep ∉ s) : split sep s = [s] := by
  induction s with
  | nil => rfl
  | cons c s ih =>
    obtain ⟨hc, hs⟩ := not_or.mp (List.mem_cons.not.mp h)
    rw [split, if_neg (Ne.symm hc), ih hs]

/-- **Splitting goes through a separator.** -/
theorem split_append_cons (s t : Text) :
    split sep (s ++ sep :: t) = split sep s ++ split sep t := by
  induction s with
  | nil => simp [split]
  | cons c s ih =>
    rw [List.cons_append, split, split, ih]
    split
    · rfl
    · cases hs : split sep s with
      | nil => exact absurd hs (split_ne_nil sep s)
      | cons w ws => rfl

/-- A character of a text has a last occurrence. -/
theorem exists_cutLast {x : Char} {s : Text} (h : x ∈ s) :
    ∃ head tail, cutLast x s = some (head, tail) ∧ s = head ++ x :: tail ∧ x ∉ tail := by
  cases hs : cutLast x s with
  | none => exact absurd h (cutLast_eq_none.mp hs)
  | some cut => exact ⟨cut.1, cut.2, rfl, cutLast_eq_some.mp hs⟩

/-- A joined word stands in the text. -/
theorem infix_join {glue w : Text} {ws : List Text} (hw : w ∈ ws) : w <:+: join glue ws := by
  induction ws with
  | nil => simp at hw
  | cons v ws ih =>
    cases ws with
    | nil => rw [join_singleton, List.mem_singleton.mp hw]
    | cons u ws =>
      rw [join_cons_cons]
      rcases List.mem_cons.mp hw with rfl | hw
      · exact ⟨[], glue ++ join glue (u :: ws), by simp⟩
      · exact (ih hw).trans ⟨v ++ glue, [], by simp⟩

/-- A joined word splits off again where no word holds the separator. -/
theorem mem_split_join {w : Text} {ws : List Text} (hw : w ∈ ws) (h : ∀ v ∈ ws, sep ∉ v) :
    w ∈ split sep (join [sep] ws) := by
  induction ws with
  | nil => exact absurd hw List.not_mem_nil
  | cons v ws ih =>
    obtain ⟨hv, hws⟩ := List.forall_mem_cons.mp h
    cases ws with
    | nil =>
      rw [join_singleton, split_of_not_mem hv]
      exact hw
    | cons u ws =>
      rw [join_cons_cons, List.append_assoc, List.singleton_append, split_append_cons, split_of_not_mem hv]
      exact (List.mem_cons.mp hw).elim (fun e => e ▸ List.mem_cons_self ..) fun hw =>
        List.mem_append_right _ (ih hw hws)

/-- Joined words are all that a text is made of. -/
theorem mem_of_mem_join {ws : List Text} {c : Char} (h : c ∈ join [sep] ws) :
    c = sep ∨ ∃ w ∈ ws, c ∈ w := by
  induction ws with
  | nil => simp at h
  | cons w ws ih =>
    cases ws with
    | nil => exact .inr ⟨w, List.mem_singleton_self w, h⟩
    | cons v ws =>
      rw [join_cons_cons, List.mem_append, List.mem_append, List.mem_singleton] at h
      rcases h with (h | h) | h
      · exact .inr ⟨w, List.mem_cons_self .., h⟩
      · exact .inl h
      · rcases ih h with h | ⟨u, hu, hc⟩
        · exact .inl h
        · exact .inr ⟨u, List.mem_cons_of_mem _ hu, hc⟩

/-- The words of a text stand in it. -/
theorem infix_of_mem_split {s w : Text} (hw : w ∈ split sep s) : w <:+: s := by
  rw [← join_split sep s]
  exact infix_join hw

/-- What ends in a separator goes no further than the last one. -/
theorem prefix_of_last {s t rest name : Text} (e : s ++ sep :: rest = t ++ sep :: name)
    (hname : sep ∉ name) : s ++ [sep] <+: t ++ [sep] := by
  rcases List.append_eq_append_iff.mp e with ⟨z, rfl, hz⟩ | ⟨z, rfl, hz⟩
  · cases z with
    | nil => simp
    | cons c z =>
      obtain ⟨rfl, -⟩ := List.cons.inj hz
      exact ⟨z ++ [sep], by simp⟩
  · cases z with
    | nil => simp
    | cons c z =>
      obtain ⟨rfl, rfl⟩ := List.cons.inj hz
      exact absurd (by simp) hname

end Text

namespace Path

/-! ## Trails -/

/-- Components, each after a slash. -/
def trail (cs : List Text) : Text := cs.flatMap ('/' :: ·)

@[simp] theorem trail_nil : trail [] = [] := rfl

@[simp] theorem trail_cons (c : Text) (cs : List Text) : trail (c :: cs) = '/' :: c ++ trail cs := rfl

@[simp] theorem trail_append (cs ds : List Text) : trail (cs ++ ds) = trail cs ++ trail ds :=
  List.flatMap_append

/-- A trail of components splits off as it was written. -/
theorem split_append_trail (s : Text) {cs : List Text} (h : ∀ c ∈ cs, '/' ∉ c) :
    Text.split '/' (s ++ trail cs) = Text.split '/' s ++ cs := by
  induction cs generalizing s with
  | nil => simp
  | cons c cs ih =>
    have hc : '/' ∉ c := h c (List.mem_cons_self ..)
    calc Text.split '/' (s ++ trail (c :: cs))
        = Text.split '/' ((s ++ '/' :: c) ++ trail cs) := by simp
      _ = Text.split '/' (s ++ '/' :: c) ++ cs := ih _ fun d hd => h d (List.mem_cons_of_mem _ hd)
      _ = Text.split '/' s ++ c :: cs := by
          rw [Text.split_append_cons, Text.split_of_not_mem hc, List.append_assoc]
          rfl

/-- Trails of one length that end the same text are the same. -/
theorem trail_inj {s t : Text} {cs ds : List Text} (hcs : ∀ c ∈ cs, '/' ∉ c) (hds : ∀ d ∈ ds, '/' ∉ d)
    (hlen : cs.length = ds.length) (h : s ++ trail cs = t ++ trail ds) : cs = ds := by
  have hparts := congrArg (Text.split '/') h
  rw [split_append_trail _ hcs, split_append_trail _ hds] at hparts
  exact (List.append_inj' hparts hlen).2

/-- Joined components are the first one with the trail of the others. -/
theorem join_cons (c : Text) (cs : List Text) : Text.join ['/'] (c :: cs) = c ++ trail cs := by
  induction cs generalizing c with
  | nil => simp
  | cons d cs ih => rw [Text.join_cons_cons, ih, trail_cons]; simp

/-- A trail is a slash and the joined components. -/
theorem trail_eq_cons_join {cs : List Text} (h : cs ≠ []) : trail cs = '/' :: Text.join ['/'] cs := by
  cases cs with
  | nil => exact absurd rfl h
  | cons c cs => rw [join_cons, trail_cons]; rfl

/-- **Every text is its first component with the trail of the others.** -/
theorem exists_eq_append_trail (s : Text) :
    ∃ c cs, Text.split '/' s = c :: cs ∧ s = c ++ trail cs ∧ ∀ d ∈ c :: cs, '/' ∉ d := by
  cases hs : Text.split '/' s with
  | nil => exact absurd hs (Text.split_ne_nil _ _)
  | cons c cs =>
    refine ⟨c, cs, rfl, ?_, fun d hd => Text.not_mem_of_mem_split (hs ▸ hd)⟩
    rw [← join_cons, ← hs, Text.join_split]

/-- First components are followed by nothing or by a slash. -/
theorem join_append {cs : List Text} (h : cs ≠ []) (ds : List Text) :
    Text.join ['/'] (cs ++ ds) = Text.join ['/'] cs ++ trail ds := by
  obtain ⟨c, cs, rfl⟩ := List.exists_cons_of_ne_nil h
  rw [List.cons_append, join_cons, join_cons, trail_append, List.append_assoc]

/-- Components that are joined split off again. -/
theorem split_join {cs : List Text} (hne : cs ≠ []) (h : ∀ c ∈ cs, '/' ∉ c) :
    Text.split '/' (Text.join ['/'] cs) = cs := by
  obtain ⟨c, cs, rfl⟩ := List.exists_cons_of_ne_nil hne
  obtain ⟨hc, hcs⟩ := List.forall_mem_cons.mp h
  rw [join_cons, split_append_trail _ hcs, Text.split_of_not_mem hc]
  rfl

/-! ## Leads -/

/-- Components, each before a slash. -/
def lead (cs : List Text) : Text := cs.flatMap (· ++ ['/'])

@[simp] theorem lead_nil : lead [] = [] := rfl

@[simp] theorem lead_cons (c : Text) (cs : List Text) : lead (c :: cs) = c ++ '/' :: lead cs := by
  simp [lead]

/-- A lead of components splits off as it was written. -/
theorem split_lead_append {cs : List Text} (h : ∀ c ∈ cs, '/' ∉ c) (s : Text) :
    Text.split '/' (lead cs ++ s) = cs ++ Text.split '/' s := by
  induction cs with
  | nil => rfl
  | cons c cs ih =>
    obtain ⟨hc, hcs⟩ := List.forall_mem_cons.mp h
    rw [lead_cons, List.append_assoc, List.cons_append, Text.split_append_cons, Text.split_of_not_mem hc,
      ih hcs]
    rfl

/-- Joined components are the first ones in the lead of the others. -/
theorem join_append_lead (cs : List Text) {ds : List Text} (h : ds ≠ []) :
    Text.join ['/'] (cs ++ ds) = lead cs ++ Text.join ['/'] ds := by
  induction cs with
  | nil => rfl
  | cons c cs ih =>
    have hne : cs ++ ds ≠ [] := by simp [h]
    rw [List.cons_append, join_cons, trail_eq_cons_join hne, ih, lead_cons, List.append_assoc]
    rfl

/-! ## Bases -/

/-- What a name of a file or directory is: not empty and without a slash. -/
def IsName (c : Text) : Prop := c ≠ [] ∧ '/' ∉ c

/-- A name, and what it begins, is not absolute. -/
theorem IsName.head?_append {n : Text} (hn : IsName n) (t : Text) : (n ++ t).head? ≠ some '/' := by
  obtain ⟨x, n, rfl⟩ := List.exists_cons_of_ne_nil hn.1
  exact fun e => hn.2 (Option.some.inj e ▸ List.mem_cons_self ..)

/-- A base for components: neither empty nor with a slash at its end. -/
def IsBase (base : Text) : Prop := base ≠ [] ∧ base.getLast? ≠ some '/'

/-- A path without an empty component is a base. -/
theorem isBase_of_not_mem_split {p : Text} (h : [] ∉ Text.split '/' p) : IsBase p := by
  refine ⟨?_, fun hlast => ?_⟩
  · rintro rfl
    exact h (List.mem_singleton_self _)
  · obtain ⟨q, rfl⟩ := List.getLast?_eq_some_iff.mp hlast
    rw [Text.split_append_cons] at h
    exact h (List.mem_append_right _ (List.mem_singleton_self _))

/-- What ends in a name is a base. -/
theorem IsName.isBase_append {n : Text} (hn : IsName n) (s : Text) : IsBase (s ++ n) := by
  refine ⟨fun e => hn.1 (List.append_eq_nil_iff.mp e).2, fun e => hn.2 ?_⟩
  rw [List.getLast?_append_of_ne_nil _ hn.1] at e
  exact List.mem_of_getLast? e

/-- A base goes on to be one by names behind it. -/
theorem IsBase.append_trail {base : Text} (hb : IsBase base) {cs : List Text}
    (h : ∀ c ∈ cs, IsName c) : IsBase (base ++ trail cs) := by
  rcases List.eq_nil_or_concat cs with rfl | ⟨cs, c, rfl⟩
  · simpa using hb
  · have := (h c (by simp)).isBase_append (base ++ trail cs ++ ['/'])
    simpa using this

theorem IsBase.append_name {base c : Text} (hb : IsBase base) (h : IsName c) :
    IsBase (base ++ '/' :: c) := by
  have hc : ∀ d ∈ [c], IsName d := fun d hd => List.mem_singleton.mp hd ▸ h
  simpa using hb.append_trail hc

/-- A path starts with the directory it is taken in. -/
theorem prefix_append {directory p : Text} (hp : p.head? ≠ some '/') : directory <+: append directory p := by
  have habs : isAbsolute p = false := by simpa [isAbsolute] using hp
  unfold append
  rw [habs]
  simp only [Bool.false_eq_true, if_false]
  split
  exacts [List.prefix_append _ _, List.prefix_append _ _]

/-- A path keeps its text in a directory. -/
theorem suffix_append (directory p : Text) : p <:+ append directory p := by
  unfold append
  split_ifs
  exacts [List.suffix_rfl, List.suffix_append _ _, ⟨directory ++ ['/'], by simp⟩]

/-- What is not absolute is put behind a base after a slash, which the base may have already. -/
theorem append_of_base {base p : Text} (hb : IsBase base) (hp : p.head? ≠ some '/') :
    append base p = base ++ '/' :: p ∧ append (base ++ ['/']) p = base ++ '/' :: p := by
  have habs : isAbsolute p = false := by simpa [isAbsolute] using hp
  constructor
  · simp [append, habs, hb.1, hb.2]
  · simp [append, habs]

/-- A base with slashes behind it loses them. -/
theorem stripSlashes_base {base : Text} (hb : IsBase base) : stripSlashes (base ++ ['/']) = base := by
  obtain ⟨init, last, rfl⟩ : ∃ init last, base = init ++ [last] :=
    ⟨_, _, (List.dropLast_append_getLast hb.1).symm⟩
  have hl : last ≠ '/' := by simpa using hb.2
  simp [stripSlashes, hl]

/-- What is left of a text with something else than slashes is a base, and only slashes are lost. -/
theorem exists_eq_stripSlashes {h : Text} (hh : h.all (· == '/') = false) :
    IsBase (stripSlashes h) ∧ ∃ k, h = stripSlashes h ++ List.replicate k '/' := by
  obtain ⟨c, hc, hne⟩ : ∃ c ∈ h, c ≠ '/' := by simpa using hh
  have hs : stripSlashes h = (h.reverse.dropWhile (· == '/')).reverse := by
    rw [stripSlashes, if_neg (by simp [hh])]
  have hdrop : h.reverse.dropWhile (· == '/') ≠ [] := by
    rw [Ne, List.dropWhile_eq_nil_iff]
    exact fun hall => hne (by simpa using hall c (List.mem_reverse.mpr hc))
  refine ⟨⟨by simpa [hs] using hdrop, ?_⟩, (h.reverse.takeWhile (· == '/')).length, ?_⟩
  · have := List.head_dropWhile_not (· == '/') hdrop
    rw [hs, List.getLast?_reverse, List.head?_eq_some_head hdrop]
    simpa using this
  · have htake : h.reverse.takeWhile (· == '/') =
        List.replicate (h.reverse.takeWhile (· == '/')).length '/' :=
      List.eq_replicate_of_mem fun b hb => by simpa using List.mem_takeWhile_imp hb
    rw [hs, ← List.reverse_replicate, ← htake, ← List.reverse_append,
      List.takeWhile_append_dropWhile, List.reverse_reverse]

/-- A directory that is written out keeps its place among the slashes behind a base. -/
theorem IsBase.prefix_of_le_replicate {q base : Text} (hq : IsBase q) {k : Nat}
    (h : q ++ ['/'] <+: base ++ List.replicate k '/') : q ++ ['/'] <+: base ++ ['/'] := by
  have hbase : base <+: base ++ List.replicate k '/' := List.prefix_append _ _
  by_cases hlen : (q ++ ['/']).length ≤ base.length
  · exact (List.prefix_of_prefix_length_le h hbase hlen).trans (List.prefix_append _ _)
  · have hle : base.length ≤ q.length := by
      rw [List.length_append, List.length_singleton] at hlen
      omega
    have hq' : q <+: base ++ List.replicate k '/' := (List.prefix_append _ _).trans h
    obtain ⟨z, rfl⟩ := List.prefix_of_prefix_length_le hbase hq' hle
    -- what `q` holds behind the base are slashes, and it ends in none
    cases hz : z.getLast? with
    | none => simp [List.getLast?_eq_none_iff.mp hz]
    | some x =>
      have hx : x ∈ List.replicate k '/' :=
        ((List.prefix_append_right_inj base).mp hq').subset (List.mem_of_getLast? hz)
      exact absurd (by simp [List.getLast?_append, hz, (List.mem_replicate.mp hx).2]) hq.2

/-- The directory of a path keeps what is written in it up to a slash. -/
theorem IsBase.dirname_append {q : Text} (hq : IsBase q) (rest : Text) :
    IsBase (dirname (q ++ '/' :: rest)) ∧ q ++ ['/'] <+: dirname (q ++ '/' :: rest) ++ ['/'] := by
  cases hc : Text.cutLast '/' (q ++ '/' :: rest) with
  | none => exact absurd (Text.cutLast_eq_none.mp hc) (by simp)
  | some cut =>
    obtain ⟨a, name⟩ := cut
    obtain ⟨e, hname⟩ := Text.cutLast_eq_some.mp hc
    have hpre : q ++ ['/'] <+: a ++ ['/'] := Text.prefix_of_last e hname
    have hhead : (cutName (q ++ '/' :: rest)).1 = a ++ ['/'] := by rw [cutName, hc]
    have hall : (a ++ ['/']).all (· == '/') = false := by
      rw [List.all_eq_false]
      exact ⟨q.getLast hq.1, hpre.subset (List.mem_append_left _ (List.getLast_mem hq.1)),
        fun h => hq.2 (by simpa [List.getLast?_eq_some_getLast hq.1] using h)⟩
    obtain ⟨hbase, k, hk⟩ := exists_eq_stripSlashes hall
    rw [dirname, splitName, hhead]
    rw [hk] at hpre
    exact ⟨hbase, hq.prefix_of_le_replicate hpre⟩

/-! ## Explicit paths -/

/-- Whether a path starts at the current or parent directory. -/
def IsExplicit (p : Text) : Prop := ['.', '/'] <+: p ∨ ['.', '.', '/'] <+: p

theorem IsExplicit.mono {p q : Text} (hp : IsExplicit p) (h : p <+: q) : IsExplicit q :=
  hp.imp (·.trans h) (·.trans h)

/-- An explicit path starts with a component of dots. -/
theorem IsExplicit.exists_eq {p : Text} (hp : IsExplicit p) :
    ∃ dots rest, p = dots ++ '/' :: rest ∧ (dots = here ∨ dots = up) := by
  rcases hp with ⟨rest, rfl⟩ | ⟨rest, rfl⟩
  · exact ⟨here, rest, rfl, .inl rfl⟩
  · exact ⟨up, rest, rfl, .inr rfl⟩

/-- An explicit path is kept. -/
theorem IsExplicit.relativeify {p : Text} (hp : IsExplicit p) : relativeify p = p := by
  have hne : p ≠ [] := by
    rintro rfl
    simp [IsExplicit] at hp
  have hstart : p.startsWith ['.', '/'] = true ∨ p.startsWith ['.', '.', '/'] = true := by
    simpa only [Text.startsWith, List.isPrefixOf_iff_prefix, IsExplicit] using hp
  rw [Path.relativeify, if_neg hne, if_pos (.inr (.inr hstart))]

end Path

end VariableImport
