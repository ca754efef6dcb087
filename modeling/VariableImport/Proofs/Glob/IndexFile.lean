import VariableImport.Proofs.Glob.Joint

/-!
# Proofs/Glob/IndexFile — components that stand for index files

An index file takes one component more than a file with an extension (`length_components_ending`).  Where the
names of an index file one directory deeper are those of another one, they are shifted by one, so that all of
them are the name of index files and the deeper file is found as an index file as well (`accepts_index`).
-/

namespace VariableImport.FileSystem

open Glob
open DispatchTable (indexName IsWord)

variable {after : Text}

/-! ## Names in a row -/

/-- Names that are shifted by two are all alike. -/
theorem eq_of_cons_cons_eq_append {α : Type} {a n i : α} {l : List α} (h : a :: n :: l = l ++ [i, i]) :
    a = i ∧ n = i ∧ ∀ x ∈ l, x = i := by
  induction l using List.reverseRecOn with
  | nil => simpa using h
  | append_singleton l x ih =>
    have h' : (a :: n :: l) ++ [x] = (l ++ [x, i]) ++ [i] := by simpa using h
    obtain ⟨hl, hx⟩ := List.append_inj' h' rfl
    obtain rfl : x = i := by simpa using hx
    obtain ⟨ha, hn, hall⟩ := ih hl
    refine ⟨ha, hn, fun y hy => ?_⟩
    rcases List.mem_append.mp hy with hy | hy
    exacts [hall y hy, List.mem_singleton.mp hy]

theorem exists_concat_of_forall₂ {α β : Type} {R : α → β → Prop} {xs : List α} {x : α} {ys : List β}
    (h : List.Forall₂ R (xs ++ [x]) ys) : ∃ zs y, List.Forall₂ R xs zs ∧ R x y ∧ ys = zs ++ [y] := by
  induction xs generalizing ys with
  | nil =>
    obtain ⟨y, rest, hy, hrest, rfl⟩ := List.forall₂_cons_left_iff.mp h
    exact ⟨[], y, .nil, hy, by rw [List.forall₂_nil_left_iff.mp hrest]; rfl⟩
  | cons x' xs ih =>
    obtain ⟨y', rest, hy', hrest, rfl⟩ := List.forall₂_cons_left_iff.mp h
    obtain ⟨zs, y, hzs, hy, rfl⟩ := ih hrest
    exact ⟨y' :: zs, y, .cons hy' hzs, hy, rfl⟩

/-- Names that are shifted by one, on both sides, are all alike. -/
theorem cons_eq_concat {α : Type} {a n i : α} {l m : List α} (hshift : a :: l = m ++ [i])
    (hrow : l ++ [i] = n :: m) : a :: l = l ++ [i] := by
  obtain ⟨-, rfl, hsame⟩ := eq_of_cons_cons_eq_append (a := a) (n := n) (i := i) (l := m) (by
    rw [← hrow, ← List.cons_append, hshift]
    simp)
  rw [hshift, hrow, List.eq_replicate_of_mem hsame, ← List.replicate_succ', List.replicate_succ]

/-! ## Names of index files -/

/-- The name of index files without its extension. -/
def indexStem : Text := ['i', 'n', 'd', 'e', 'x']

theorem indexName_eq : indexName = '/' :: indexStem := rfl

theorem isName_index {word : Text} (hword : '/' ∉ word) : Path.IsName (indexStem ++ '.' :: word) := by
  refine ⟨by simp, ?_⟩
  have : '/' ∉ indexStem := by decide
  simp [this, hword]

theorem hasMagic_index {word : Text} (hword : hasMagic word = false) :
    hasMagic (indexStem ++ '.' :: word) = false := by
  rw [hasMagic_append_dot, hword]
  rfl

theorem components_append_index (s : Text) {word : Text} (hword : '/' ∉ word) :
    Path.components (s ++ (indexName ++ '.' :: word)) =
      Path.components s ++ [indexStem ++ '.' :: word] := by
  have htext : s ++ (indexName ++ '.' :: word) = s ++ '/' :: (indexStem ++ '.' :: word) := rfl
  rw [htext, Path.components_append, Path.components_of_isName (isName_index hword)]

/-! ## Extensions behind a dot -/

/-- A dot parts a text without one behind it in one way. -/
theorem append_dot_inj {s t v w : Text} (hv : '.' ∉ v) (hw : '.' ∉ w) (h : s ++ '.' :: v = t ++ '.' :: w) :
    s = t ∧ v = w := by
  have hs : Text.cutLast '.' (s ++ '.' :: v) = some (s, v) := Text.cutLast_eq_some.mpr ⟨rfl, hv⟩
  have ht : Text.cutLast '.' (t ++ '.' :: w) = some (t, w) := Text.cutLast_eq_some.mpr ⟨rfl, hw⟩
  rw [h] at hs
  exact Prod.mk.inj (Option.some.inj (hs.symm.trans ht))

/-- A component and a name lose the extension that both have behind a dot. -/
theorem accepts_of_append_dot {d n v word : Text}
    (hd : hasMagic d = false ∨ ∃ c, d = wildcard :: c ∧ hasMagic c = false) (hv : '.' ∉ v)
    (hvfixed : hasMagic v = false) (hword : '.' ∉ word) (h : Accepts (d ++ '.' :: v) (n ++ '.' :: word)) :
    Accepts d n ∧ v = word := by
  have hfixed {c : Text} (hc : hasMagic c = false) : hasMagic (c ++ '.' :: v) = false := by
    rw [hasMagic_append_dot, hc, hvfixed]
    rfl
  rcases hd with hd | ⟨c, rfl, hc⟩
  · obtain ⟨rfl, rfl⟩ := append_dot_inj hword hv ((accepts_fixed (hfixed hd)).mp h)
    exact ⟨(accepts_fixed hd).mpr rfl, rfl⟩
  · obtain ⟨hvisible, fill, hfill⟩ := (accepts_star (hfixed hc)).mp h
    rw [← List.append_assoc] at hfill
    obtain ⟨rfl, rfl⟩ := append_dot_inj hword hv hfill
    refine ⟨(accepts_star hc).mpr ⟨?_, fill, rfl⟩, rfl⟩
    -- the name without its extension is not hidden, for it is not empty
    cases hn : fill ++ c with
    | nil => simp [hn, isHidden] at hvisible
    | cons x n => simpa [hn, isHidden] using hvisible

/-! ## Index files one directory deeper -/

/-- The names of an index file one directory deeper are those of another one, shifted by one. -/
theorem shifted_of_trail {b b' a z first word : Text} {names ms : List Text} (hword : '/' ∉ word)
    (hnames : ∀ n ∈ a :: (names ++ [z]), Path.IsName n) (hm : ∀ n ∈ first :: ms, Path.IsName n)
    (hlength : names.length = ms.length)
    (h : b ++ Path.trail (a :: (names ++ [z])) =
      b' ++ Path.trail (first :: ms) ++ (indexName ++ (indexName ++ '.' :: word))) :
    a :: names = ms ++ [indexStem] ∧ z = indexStem ++ '.' :: word := by
  have hsame : a :: (names ++ [z]) = ms ++ [indexStem, indexStem ++ '.' :: word] := by
    refine Path.trail_inj (s := b) (t := b' ++ Path.trail [first]) (fun n hn => (hnames n hn).2)
      (fun n hn => ?_) (by simp [hlength]) (h.trans (by simp [indexName_eq]))
    rcases List.mem_append.mp hn with hn | hn
    · exact (hm n (List.mem_cons_of_mem _ hn)).2
    · rcases List.mem_pair.mp hn with rfl | rfl
      exacts [by decide, (isName_index hword).2]
  have hsame : (a :: names) ++ [z] = (ms ++ [indexStem]) ++ [indexStem ++ '.' :: word] := by
    simpa using hsame
  obtain ⟨hshift, hz⟩ := List.append_inj' hsame rfl
  exact ⟨hshift, List.singleton_inj.mp hz⟩

/-- **An index file one directory deeper** than another is found as an index file where its own
components are those of the other one. -/
theorem accepts_index {w b b' a word v : Text} {names m : List Text} (hfixed : hasMagic after = false)
    (hend : Path.IsBase (wildcard :: after)) (hw : '/' ∉ w) (hword : IsWord word) (hv : IsWord v)
    (hvfixed : hasMagic v = false)
    (hall : List.Forall₂ Accepts (Path.components (wildcard :: (after ++ '.' :: v))) names)
    (hother : List.Forall₂ Accepts (Path.components (w ++ wildcard :: after)) m)
    (hnames : ∀ n ∈ a :: names, Path.IsName n) (hm : ∀ n ∈ m, Path.IsName n)
    (h : b ++ Path.trail (a :: names) = b' ++ Path.trail m ++ (indexName ++ (indexName ++ '.' :: word))) :
    List.Forall₂ Accepts (Path.components (wildcard :: (after ++ (indexName ++ '.' :: v)))) (a :: names) := by
  obtain ⟨init, last, hlast⟩ := hend.exists_components_append
  obtain ⟨c, cs, hcons, hwithin⟩ := Path.exists_components_cons (by decide : wildcard ≠ '/') after
  have hcs : ∀ d ∈ c :: cs, hasMagic d = false := fun d hd => hasMagic_of_infix (hwithin d hd) hfixed
  have hsplit : Path.components (wildcard :: after) = init ++ [last] := by
    simpa using hlast [] List.not_mem_nil
  have hhead : init ++ [last] = (wildcard :: c) :: cs := hsplit.symm.trans (hcons [] List.not_mem_nil)
  have hform : hasMagic last = false ∨ ∃ c, last = wildcard :: c ∧ hasMagic c = false := by
    have hmem : last ∈ (wildcard :: c) :: cs := hhead ▸ by simp
    rcases List.mem_cons.mp hmem with rfl | hmem
    exacts [.inr ⟨c, rfl, hcs c (List.mem_cons_self ..)⟩, .inl (hcs last (List.mem_cons_of_mem _ hmem))]
  have htext (e : Text) : wildcard :: (after ++ e) = wildcard :: after ++ e := rfl
  rw [htext, hlast _ (by simp [hv.2])] at hall
  rw [hcons w hw] at hother
  obtain ⟨n₀, z, hn₀, hz, rfl⟩ := exists_concat_of_forall₂ hall
  obtain ⟨m₀, ms, -, hms, rfl⟩ := List.forall₂_cons_left_iff.mp hother
  obtain rfl := eq_of_accepts_fixed (fun d hd => hcs d (List.mem_cons_of_mem _ hd)) hms
  -- the names behind the directories are compared from the last one on
  have hlength : n₀.length = ms.length := by
    have hlen := congrArg List.length hhead
    have hlen₀ := hn₀.length_eq
    simp only [List.length_append, List.length_cons, List.length_nil] at hlen
    omega
  obtain ⟨hshift, rfl⟩ := shifted_of_trail hword.2 hnames hm hlength h
  obtain ⟨hstem, rfl⟩ := accepts_of_append_dot hform hv.1 hvfixed hword.1 hz
  have hstems : List.Forall₂ Accepts ((wildcard :: c) :: ms) (n₀ ++ [indexStem]) :=
    hhead ▸ List.rel_append hn₀ (.cons hstem .nil)
  have hrotate : a :: n₀ = n₀ ++ [indexStem] := by
    obtain ⟨n, ns, -, hns, hrow⟩ := List.forall₂_cons_left_iff.mp hstems
    obtain rfl := eq_of_accepts_fixed (fun d hd => hcs d (List.mem_cons_of_mem _ hd)) hns
    exact cons_eq_concat hshift hrow
  rw [htext, components_append_index _ hv.2, hsplit, hhead, ← List.cons_append, hrotate]
  exact List.rel_append hstems (.cons ((accepts_fixed (hasMagic_index hvfixed)).mpr rfl) .nil)

/-! ## Endings -/

/-- An ending makes at most one component more than another, and so only for index files. -/
theorem length_components_ending {extensions : List Text} {s g g' e e' : Text} (hs : s ≠ [])
    (hext : AreWords extensions) (hsame : hasExtension g = hasExtension g')
    (hdeep : g.contains deep = true) (he : Ending extensions g e) (he' : Ending extensions g' e') :
    (Path.components (s ++ e')).length ≤ (Path.components (s ++ e)).length ∨
      (Path.components (s ++ e')).length = (Path.components (s ++ e)).length + 1 ∧ Path.IsBase s ∧
        hasExtension g = false ∧ ∃ word ∈ words extensions, ∃ word' ∈ words extensions, e = '.' :: word ∧
          e' = indexName ++ '.' :: word' := by
  have hslash {word : Text} (hword : word ∈ words extensions) : '/' ∉ word :=
    not_mem_of_isWord (isWord_of_mem_words hext hword) (by decide)
  have hdot {word : Text} (hword : word ∈ words extensions) : Path.IsName ('.' :: word) :=
    ⟨by simp, by simp [hslash hword]⟩
  -- behind a slash a word is a component of its own
  have hword {word : Text} (hword : word ∈ words extensions) :
      (Path.components (s ++ '.' :: word)).length =
        if s.getLast? = some '/' then (Path.components s).length + 1 else (Path.components s).length := by
    split
    · next hlast =>
      obtain ⟨init, rfl⟩ := List.getLast?_eq_some_iff.mp hlast
      rw [Path.components_append_slash, Path.components_of_isName (hdot hword)]
      simp
    · next hlast =>
      obtain ⟨init, last, hparts⟩ := Path.IsBase.exists_components_append ⟨hs, hlast⟩
      have hself := hparts [] List.not_mem_nil
      rw [List.append_nil] at hself
      rw [hparts _ (hdot hword).2, hself]
      simp
  cases he with
  | named h =>
    cases he' with
    | named => exact .inl le_rfl
    | extension h' => simp [h, h'] at hsame
    | index h' => simp [h, h'] at hsame
  | index _ hflat => simp [hdeep] at hflat
  | extension h hmem =>
    cases he' with
    | named h' => simp [h, h'] at hsame
    | extension _ hmem' =>
      rw [hword hmem, hword hmem']
      exact .inl le_rfl
    | index _ _ hmem' =>
      rw [hword hmem, components_append_index _ (hslash hmem'), List.length_append, List.length_singleton]
      split
      · exact .inl le_rfl
      · next hlast => exact .inr ⟨rfl, ⟨hs, hlast⟩, h, _, hmem, _, hmem', rfl, rfl⟩

end VariableImport.FileSystem
