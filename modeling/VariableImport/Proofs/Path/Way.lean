import VariableImport.Proofs.Path.Component

/-!
# Proofs/Path/Way — places and the ways between them

A path is walked component by component, and a place is what a walk leaves behind, the last component
first (`walk`).  Walking goes through slashes (`walk_append_cons`) and through the joining of paths
(`walk_append`).  The way from one directory to a target goes back to what both have in common and on
from there, so that **it leads from the directory to the target** (`walk_relative`).
-/

namespace VariableImport

namespace Path

variable {p q t cwd directory start target c : Text} {cs done : List Text}

/-! ## Walking -/

/-- The place that a path leads to from another place, its components in reverse order. -/
def walk (done : List Text) (p : Text) : List Text := (Text.split '/' p).foldl (push true) done

/-- **The components of a path**, where `.`, `..` and repeated slashes are resolved from the root. -/
def fromRoot (p : Text) : List Text := resolve true (Text.split '/' p)

theorem fromRoot_eq (p : Text) : fromRoot p = (walk [] p).reverse := rfl

@[simp] theorem walk_nil (done : List Text) : walk done [] = done := rfl

/-- Walking goes through a slash. -/
theorem walk_append_cons (done : List Text) (p q : Text) :
    walk done (p ++ '/' :: q) = walk (walk done p) q := by
  rw [walk, Text.split_append_cons, List.foldl_append]
  rfl

/-- A slash behind a path leads no further. -/
theorem walk_concat_slash (done : List Text) (p : Text) : walk done (p ++ ['/']) = walk done p :=
  walk_append_cons done p []

/-- The current directory is passed over. -/
theorem walk_here_cons (done : List Text) (p : Text) : walk done ('.' :: '/' :: p) = walk done p :=
  walk_append_cons done here p

/-- **A path taken in a directory** leads on from there. -/
theorem walk_append (done : List Text) (directory : Text) (hp : isAbsolute p = false) :
    walk done (append directory p) = walk (walk done directory) p := by
  unfold append
  rw [if_neg (by simp [hp])]
  split
  · next h =>
    rcases Bool.or_eq_true_iff.mp h with h | h
    · rw [List.isEmpty_iff.mp h, List.nil_append, walk_nil]
    · obtain ⟨d, rfl⟩ := List.getLast?_eq_some_iff.mp (beq_iff_eq.mp h)
      rw [List.append_assoc, List.singleton_append, walk_append_cons, walk_concat_slash]
  · exact walk_append_cons done directory p

/-! ## Places -/

/-- A component of a place: a name that is no dots. -/
def IsStop (c : Text) : Prop := IsName c ∧ c ≠ here ∧ c ≠ up

theorem push_isStop (hc : IsStop c) (rooted : Bool) (done : List Text) :
    push rooted done c = c :: done := by
  unfold push
  rw [if_neg (not_or.mpr ⟨hc.1.1, hc.2.1⟩), if_neg hc.2.2]

theorem push_up (hc : IsStop c) (done : List Text) : push true (c :: done) up = done := by
  simp [push, hc.2.2]

/-- **A component more** keeps a place one. -/
theorem isStop_push (hdone : ∀ d ∈ done, IsStop d) (hc : '/' ∉ c) : ∀ d ∈ push true done c, IsStop d := by
  unfold push
  split
  · exact hdone
  · next hempty =>
    obtain ⟨hne, hhere⟩ := not_or.mp hempty
    split
    · cases done with
      | nil => exact hdone
      | cons d rest =>
        obtain ⟨hd, hrest⟩ := List.forall_mem_cons.mp hdone
        dsimp only
        rw [if_neg hd.2.2]
        exact hrest
    · next hup => exact List.forall_mem_cons.mpr ⟨⟨⟨hne, hc⟩, hhere, hup⟩, hdone⟩

/-- **Walking leads from place to place.** -/
theorem isStop_walk (hdone : ∀ d ∈ done, IsStop d) (p : Text) : ∀ d ∈ walk done p, IsStop d := by
  refine List.foldlRecOn (motive := fun done => ∀ d ∈ done, IsStop d) _ _ hdone fun done hdone c hc => ?_
  exact isStop_push hdone (Text.not_mem_of_mem_split hc)

theorem isStop_of_mem_fromRoot (hc : c ∈ fromRoot p) : IsStop c :=
  isStop_walk (fun _ hd => absurd hd List.not_mem_nil) p c (List.mem_reverse.mp hc)

/-- Stops are walked through one by one. -/
theorem foldl_push_stops (hcs : ∀ c ∈ cs, IsStop c) (done : List Text) :
    cs.foldl (push true) done = cs.reverse ++ done := by
  induction cs generalizing done with
  | nil => rfl
  | cons c cs ih =>
    obtain ⟨hc, hcs⟩ := List.forall_mem_cons.mp hcs
    rw [List.foldl_cons, push_isStop hc, ih hcs, List.reverse_cons, List.append_assoc]
    rfl

/-- As many steps back as there are stops take them away. -/
theorem foldl_push_up (hcs : ∀ c ∈ cs, IsStop c) (done : List Text) :
    (cs.map fun _ => up).foldl (push true) (cs.reverse ++ done) = done := by
  induction cs using List.reverseRecOn generalizing done with
  | nil => rfl
  | append_singleton cs c ih =>
    rw [List.forall_mem_append, List.forall_mem_singleton] at hcs
    have hfirst : (cs ++ [c]).map (fun _ => up) = up :: cs.map fun _ => up := by
      rw [List.map_const', List.map_const', List.length_append, List.length_singleton, List.replicate_succ]
    rw [hfirst, List.foldl_cons, List.reverse_append, List.reverse_singleton, List.singleton_append,
      List.cons_append, push_up hcs.2]
    exact ih hcs.1 done

/-! ## Normal paths -/

theorem components_join (h : ∀ c ∈ cs, IsName c) : components (Text.join ['/'] cs) = cs := by
  cases cs with
  | nil => rfl
  | cons c cs =>
    obtain ⟨hc, hcs⟩ := List.forall_mem_cons.mp h
    rw [join_cons, components, split_append_trail _ fun d hd => (hcs d hd).2, Text.split_of_not_mem hc.2,
      List.singleton_append, List.filter_eq_self]
    exact fun d hd => by simpa using (h d hd).1

/-- The slashes before a path from the root. -/
theorem exists_root_eq (hp : isAbsolute p = true) : ∃ k, root p = List.replicate (k + 1) '/' := by
  unfold root
  split
  · exact ⟨0, rfl⟩
  · exact ⟨1, rfl⟩
  · exact ⟨0, rfl⟩
  · next h =>
    obtain ⟨s, rfl⟩ := List.head?_eq_some_iff.mp (beq_iff_eq.mp hp)
    exact absurd rfl (h s)

/-! ## Paths from the root -/

/-- **A path from the root** stands for itself in every directory. -/
theorem append_of_isAbsolute (hp : isAbsolute p = true) (directory : Text) : append directory p = p :=
  if_pos hp

theorem isAbsolute_append (hdirectory : isAbsolute directory = true) (p : Text) :
    isAbsolute (append directory p) = true := by
  obtain ⟨s, rfl⟩ := List.head?_eq_some_iff.mp (beq_iff_eq.mp hdirectory)
  unfold append
  split
  · assumption
  · split <;> rfl

theorem isAbsolute_normalize (hp : isAbsolute p = true) : isAbsolute (normalize p) = true := by
  obtain ⟨k, hk⟩ := exists_root_eq hp
  rw [normalize, hk, List.replicate_succ]
  rfl

/-- **The normal form of a path from the root** is written with the components of its place. -/
theorem components_absolute (cwd : Text) (hp : isAbsolute p = true) :
    components (absolute cwd p) = fromRoot p := by
  obtain ⟨k, hk⟩ := exists_root_eq hp
  have hnames : ∀ c ∈ fromRoot p, IsName c := fun c hc => (isStop_of_mem_fromRoot hc).1
  have hnil : components [] = [] := by simp [components, Text.split]
  have hnormal : normalize p = List.replicate (k + 1) '/' ++ Text.join ['/'] (fromRoot p) := by
    unfold normalize
    rw [hk, hp, if_neg (by simp [List.replicate_succ])]
    rfl
  rw [absolute, append_of_isAbsolute hp, hnormal, ← components_join hnames]
  simpa [hnil, components_join hnames] using
    components_append_replicate [] (Text.join ['/'] (fromRoot p)) k

/-- The directory of a path from the root is one. -/
theorem isAbsolute_dirname (hp : isAbsolute p = true) : isAbsolute (dirname p) = true := by
  obtain ⟨s, rfl⟩ := List.head?_eq_some_iff.mp (beq_iff_eq.mp hp)
  obtain ⟨h, t, hcut, e, -⟩ := Text.exists_cutLast (List.mem_cons_self .. : '/' ∈ '/' :: s)
  have hhead : (h ++ ['/']).head? = some '/' := by
    cases h with
    | nil => rfl
    | cons c h => exact congrArg some (List.cons.inj e).1.symm
  rw [dirname, splitName, cutName, hcut]
  dsimp only
  by_cases hall : (h ++ ['/']).all (· == '/') = true
  · rw [stripSlashes, if_pos hall, isAbsolute, hhead]
    rfl
  · obtain ⟨hbase, k, hk⟩ := exists_eq_stripSlashes (Bool.not_eq_true _ ▸ hall)
    rw [hk, List.head?_append_of_ne_nil _ hbase.1] at hhead
    rw [isAbsolute, hhead]
    rfl

/-! ## The way from a directory to a target -/

/-- Two lists go on from what they begin with alike. -/
theorem exists_dropCommon (s t : List Text) :
    ∃ common, s = common ++ (dropCommon s t).1 ∧ t = common ++ (dropCommon s t).2 := by
  fun_induction dropCommon s t with
  | case1 s a t ih =>
    obtain ⟨common, hs, ht⟩ := ih
    exact ⟨a :: common, congrArg (a :: ·) hs, congrArg (a :: ·) ht⟩
  | case2 => exact ⟨[], rfl, rfl⟩
  | case3 => exact ⟨[], rfl, rfl⟩

/-- The way between places from the root is the same in every working directory. -/
theorem relative_of_isAbsolute (hstart : isAbsolute start = true) (htarget : isAbsolute target = true)
    (cwd cwd' : Text) : relative cwd start target = relative cwd' start target := by
  simp only [relative, components_absolute _ hstart, components_absolute _ htarget]

/-- A target is taken in the working directory. -/
theorem relative_append (hcwd : isAbsolute cwd = true) (start target : Text) :
    relative cwd start (append cwd target) = relative cwd start target := by
  simp only [relative, absolute, append_of_isAbsolute (isAbsolute_append hcwd target)]

/-- Components that are joined are walked through one by one. -/
theorem walk_join (done : List Text) (hcs : ∀ c ∈ cs, '/' ∉ c) :
    walk done (Text.join ['/'] cs) = cs.foldl (push true) done := by
  cases cs with
  | nil => rfl
  | cons c cs =>
    obtain ⟨hc, hcs⟩ := List.forall_mem_cons.mp hcs
    rw [join_cons, walk, split_append_trail _ hcs, Text.split_of_not_mem hc]
    rfl

theorem walk_relativeify (done : List Text) (p : Text) : walk done (relativeify p) = walk done p := by
  unfold relativeify
  split
  · next h => rw [h]; rfl
  · split
    · rfl
    · exact walk_here_cons done p

/-- **The way from one directory to another leads there.** -/
theorem walk_relative (hstart : isAbsolute start = true) (htarget : isAbsolute target = true) :
    walk (walk [] start) (relative cwd start target) = walk [] target := by
  obtain ⟨common, hback, hforth⟩ := exists_dropCommon (fromRoot start) (fromRoot target)
  unfold relative
  rw [components_absolute cwd hstart, components_absolute cwd htarget]
  generalize dropCommon (fromRoot start) (fromRoot target) = ways at hback hforth
  obtain ⟨back, forth⟩ := ways
  dsimp only at hback hforth ⊢
  have hstops : (∀ c ∈ back, IsStop c) ∧ ∀ c ∈ forth, IsStop c :=
    ⟨fun c hc => isStop_of_mem_fromRoot (hback ▸ List.mem_append_right _ hc),
      fun c hc => isStop_of_mem_fromRoot (hforth ▸ List.mem_append_right _ hc)⟩
  have hstartPlace : walk [] start = back.reverse ++ common.reverse := by
    rw [← List.reverse_append, ← hback, fromRoot_eq, List.reverse_reverse]
  have htargetPlace : walk [] target = forth.reverse ++ common.reverse := by
    rw [← List.reverse_append, ← hforth, fromRoot_eq, List.reverse_reverse]
  -- back to what both have in common, and on from there
  have hleads : (back.map (fun _ => up) ++ forth).foldl (push true) (back.reverse ++ common.reverse) =
      forth.reverse ++ common.reverse := by
    rw [List.foldl_append, foldl_push_up hstops.1, foldl_push_stops hstops.2]
  have hslash : ∀ c ∈ back.map (fun _ => up) ++ forth, '/' ∉ c := by
    intro c hc
    rcases List.mem_append.mp hc with hc | hc
    · obtain ⟨_, -, rfl⟩ := List.mem_map.mp hc
      decide
    · exact (hstops.2 c hc).1.2
  rw [hstartPlace, htargetPlace, ← hleads]
  split
  · next h => rw [h]; rfl
  · exact walk_join _ hslash

/-- What is made explicit starts with a component of dots. -/
theorem isExplicit_relativeify_append (p q : Text) : IsExplicit (relativeify p ++ '/' :: q) := by
  unfold relativeify
  split
  · exact .inl ⟨q, rfl⟩
  · split
    · next h =>
      rcases h with rfl | rfl | h | h
      · exact .inl ⟨q, rfl⟩
      · exact .inr ⟨q, rfl⟩
      · obtain ⟨t, rfl⟩ := Text.startsWith_iff.mp h
        exact .inl ⟨t ++ '/' :: q, by simp⟩
      · obtain ⟨t, rfl⟩ := Text.startsWith_iff.mp h
        exact .inr ⟨t ++ '/' :: q, by simp⟩
    · exact .inl ⟨p ++ '/' :: q, rfl⟩

theorem IsExplicit.isAbsolute_eq (hp : IsExplicit p) : isAbsolute p = false := by
  rcases hp with ⟨t, rfl⟩ | ⟨t, rfl⟩ <;> rfl

/-- **A path behind the way from a file to a target** is explicit, and leads where it leads behind the
target. -/
theorem relativeFrom?_leads {importer : Text} (himporter : isAbsolute importer = true)
    (htarget : isAbsolute target = true) (tail : Text) :
    ∃ way, relativeFrom? cwd importer target = some way ∧ IsExplicit (way ++ '/' :: tail) ∧
      fromRoot (append (dirname importer) (way ++ '/' :: tail)) = fromRoot (target ++ '/' :: tail) := by
  have hne : target ≠ [] := by
    rintro rfl
    simp [isAbsolute] at htarget
  refine ⟨_, by rw [relativeFrom?, if_neg hne], isExplicit_relativeify_append _ _, ?_⟩
  rw [fromRoot_eq, fromRoot_eq, walk_append _ _ (isExplicit_relativeify_append _ _).isAbsolute_eq,
    walk_append_cons, walk_relativeify, walk_relative (isAbsolute_dirname himporter) htarget,
    walk_append_cons]

/-! ## Targets without a root -/

/-- A walk takes away no more components than it has. -/
theorem exists_foldl_push_eq (base : List Text) (h : cs.length ≤ done.length) :
    ∃ left, cs.foldl (push true) (done ++ base) = left ++ base := by
  induction cs generalizing done with
  | nil => exact ⟨done, rfl⟩
  | cons c cs ih =>
    obtain ⟨d, done, rfl⟩ := List.exists_cons_of_length_pos (Nat.zero_lt_of_lt h)
    rw [List.foldl_cons, List.cons_append, push]
    split_ifs with hskip hup hd
    · exact ih (show cs.length ≤ (d :: done).length from Nat.le_of_lt h)
    · exact ih (show cs.length ≤ (up :: d :: done).length from Nat.le_succ_of_le (Nat.le_of_lt h))
    · exact ih (Nat.le_of_succ_le_succ h)
    · exact ih (show cs.length ≤ (c :: d :: done).length from Nat.le_succ_of_le (Nat.le_of_lt h))

/-- A path from the root through one name again and again. -/
def descent (name : Text) (n : ℕ) : Text := '/' :: Text.join ['/'] (List.replicate n name)

theorem walk_descent {name : Text} (hname : IsStop name) (n : ℕ) :
    walk [] (descent name n) = List.replicate n name := by
  have hstops : ∀ c ∈ List.replicate n name, IsStop c := fun c hc => List.eq_of_mem_replicate hc ▸ hname
  have hwalk : walk [] (descent name n) = walk (walk [] []) (Text.join ['/'] (List.replicate n name)) :=
    walk_append_cons [] [] _
  rw [hwalk, walk_nil, walk_join _ fun c hc => (hstops c hc).1.2, foldl_push_stops hstops,
    List.reverse_replicate, List.append_nil]

/-- **A target that does not start at the root** is another one in another directory. -/
theorem exists_walk_append_ne (htarget : isAbsolute target = false) :
    ∃ cwd cwd', isAbsolute cwd = true ∧ isAbsolute cwd' = true ∧
      walk [] (append cwd target) ≠ walk [] (append cwd' target) := by
  -- deep enough that the topmost directory is not left
  have hleft (name : Text) (hname : IsStop name) :
      ∃ cwd left, isAbsolute cwd = true ∧ walk [] (append cwd target) = left ++ [name] := by
    have hdeep : (Text.split '/' target).length ≤
        (List.replicate (Text.split '/' target).length name).length := by simp
    obtain ⟨left, h⟩ := exists_foldl_push_eq [name] hdeep
    refine ⟨descent name ((Text.split '/' target).length + 1), left, rfl, ?_⟩
    rw [walk_append _ _ htarget, walk_descent hname, List.replicate_add]
    exact h
  obtain ⟨cwd, left, hcwd, ha⟩ := hleft ['a'] (by simp [IsStop, IsName])
  obtain ⟨cwd', left', hcwd', hb⟩ := hleft ['b'] (by simp [IsStop, IsName])
  refine ⟨cwd, cwd', hcwd, hcwd', fun h => ?_⟩
  rw [ha, hb] at h
  simpa using congrArg List.getLast? h

end Path

end VariableImport
