import VariableImport.Glob.Search
import VariableImport.Proofs.DispatchTable.Lookup

/-!
# Proofs/DispatchTable/FullName — every file is found under its full name

A file may have a specifier in common with other files: with another extension, with an extension more,
or with the index file of a directory.  Another file that has the full name of a file among its
specifiers only goes on behind that name (`extends_of_mem_candidates`), so it comes later in the order by
code point, which is the order in which the files of a pattern are found
(`isAscending_matchPattern`).  As the first file keeps a specifier, **every file is found under its full
name** (`lookup_fullSpecifier`).
-/

namespace VariableImport

/-! ## The order by code point -/

namespace Text

theorem le_total (s t : Text) : (le s t || le t s) = true := by
  induction s generalizing t with
  | nil => simp [le]
  | cons a s ih =>
    cases t with
    | nil => simp [le]
    | cons b t =>
      rcases lt_trichotomy a.toNat b.toNat with hlt | heq | hgt
      · simp [le, UInt32.lt_iff_toNat_lt.mpr hlt]
      · obtain rfl := Char.toNat_inj.mp heq
        simpa [le] using ih t
      · simp [le, UInt32.lt_iff_toNat_lt.mpr hgt]

theorem le_trans {s t u : Text} (hst : le s t = true) (htu : le t u = true) : le s u = true := by
  induction s generalizing t u with
  | nil => simp [le]
  | cons a s ih =>
    cases t with
    | nil => simp [le] at hst
    | cons b t =>
      cases u with
      | nil => simp [le] at htu
      | cons c u =>
        simp only [le, Bool.or_eq_true, decide_eq_true_eq, Bool.and_eq_true, beq_iff_eq] at hst htu ⊢
        rcases hst with hab | ⟨rfl, hst⟩
        · rcases htu with hbc | ⟨rfl, -⟩
          · exact .inl (UInt32.lt_trans hab hbc)
          · exact .inl hab
        · exact htu.imp_right fun h => ⟨h.1, ih hst h.2⟩

/-- **A text comes before what goes on behind it**, and not after. -/
theorem le_of_append_le {s t : Text} (h : le (s ++ t) s = true) : t = [] := by
  induction s with
  | nil =>
    cases t with
    | nil => rfl
    | cons c t => simp [le] at h
  | cons a s ih => exact ih (by simpa [le] using h)

/-- **A list in the order by code point** that holds no text twice. -/
structure IsAscending (xs : List Text) : Prop where
  ordered : xs.Pairwise fun s t => le s t = true
  nodup : xs.Nodup

theorem foldl_addNew_sublist {α : Type} [BEq α] (xs seen : List α) :
    (xs.foldl addNew seen).Sublist (seen ++ xs) := by
  induction xs generalizing seen with
  | nil => simp
  | cons x xs ih =>
    have hstep : (addNew seen x).Sublist (seen ++ [x]) := by
      unfold addNew
      split
      · exact List.sublist_append_left _ _
      · exact List.Sublist.refl _
    rw [List.foldl_cons, List.append_cons]
    exact (ih _).trans (hstep.append_right xs)

/-- Sorted texts without repetition are ascending. -/
theorem isAscending_sortedSet (xs : List Text) : IsAscending (sortedSet xs) where
  ordered := by
    have hsorted := @List.pairwise_mergeSort _ le (fun _ _ _ => le_trans) le_total xs
    exact hsorted.sublist (foldl_addNew_sublist _ [])
  nodup := nodup_distinct _

end Text

/-- **The files that a pattern stands for** are ascending. -/
theorem FileSystem.isAscending_matchPattern (fs : FileSystem) (base pattern : Text) :
    Text.IsAscending (fs.matchPattern base pattern) :=
  Text.isAscending_sortedSet _

namespace DispatchTable

/-! ## Full names -/

/-- The full name of a file, written as the import was. -/
def fullSpecifier (resolved : Option Resolved) (file : Text) : Text :=
  match resolved with
  | some r => r.toSpecifier file
  | none => file

variable {resolved : Option Resolved} {files : List Text} {file other : Text}

theorem candidates_eq (resolved : Option Resolved) (file : Text) :
    candidates resolved file = specifiersOf (fullSpecifier resolved file) := rfl

/-- Exchanging heads keeps the order of files that begin with the head of the path. -/
theorem eq_append_of_fullSpecifier_eq {more : Text} (hfile : ∀ r ∈ resolved, r.pathHead <+: file)
    (hother : ∀ r ∈ resolved, r.pathHead <+: other)
    (h : fullSpecifier resolved other = fullSpecifier resolved file ++ more) : other = file ++ more := by
  cases resolved with
  | none => exact h
  | some r =>
    obtain ⟨tail, rfl⟩ := hfile r rfl
    obtain ⟨tail', rfl⟩ := hother r rfl
    simp only [fullSpecifier, Resolved.toSpecifier_append, List.append_assoc,
      List.append_cancel_left_eq] at h ⊢
    exact h

/-- **A file with the full name of another among its specifiers** goes on behind that other one. -/
theorem extends_of_mem_candidates (hfile : ∀ r ∈ resolved, r.pathHead <+: file)
    (hother : ∀ r ∈ resolved, r.pathHead <+: other)
    (h : fullSpecifier resolved file ∈ candidates resolved other) : ∃ more, other = file ++ more := by
  rw [candidates_eq] at h
  rcases mem_specifiersOf h with heq | ⟨word, -, hstem | hindex⟩
  · exact ⟨[], eq_append_of_fullSpecifier_eq hfile hother (by rw [← heq, List.append_nil])⟩
  · exact ⟨_, eq_append_of_fullSpecifier_eq hfile hother hstem⟩
  · exact ⟨_, eq_append_of_fullSpecifier_eq hfile hother (by rw [hindex, List.append_assoc])⟩

/-- **Every file is found under its full name.**  The files of a pattern are ascending.  In the table of
ascending files, which begin with the head of the path if the import was resolved, the full name of a file
stands for that file, whichever files share its stem, extend its name or are index files of a directory
with its name. -/
theorem lookup_fullSpecifier :
    (∀ (fs : FileSystem) (base pattern : Text), Text.IsAscending (fs.matchPattern base pattern)) ∧
    ∀ (files : List Text) (resolved : Option Resolved), Text.IsAscending files →
      (∀ r ∈ resolved, ∀ file ∈ files, r.pathHead <+: file) →
      ∀ file ∈ files, (ofFiles files resolved).lookup (fullSpecifier resolved file) = some file := by
  refine ⟨FileSystem.isAscending_matchPattern, fun files resolved hascending hheads file hfile => ?_⟩
  obtain ⟨before, after, rfl⟩ := List.append_of_mem hfile
  have hsorted := (List.pairwise_append.mp hascending.ordered).2.2
  have hdistinct := (List.pairwise_append.mp hascending.nodup).2.2
  rw [lookup_ofFiles, List.find?_eq_some_iff_append]
  refine ⟨decide_eq_true (mem_specifiersOf_self _), before, after, rfl, fun other hother => ?_⟩
  -- a file before this one that has its full name would go on behind it, and come later
  simp only [Bool.not_eq_true', decide_eq_false_iff_not]
  intro hmem
  obtain ⟨more, rfl⟩ := extends_of_mem_candidates (fun r hr => hheads r hr file hfile)
    (fun r hr => hheads r hr other (List.mem_append_left _ hother)) hmem
  have hself := List.mem_cons_self (a := file) (l := after)
  obtain rfl := Text.le_of_append_le (hsorted _ hother file hself)
  exact hdistinct _ hother file hself (List.append_nil file)

/-- Files that share their stems, extend each other's names or are index files of like-named directories. -/
def namesakes : List Text :=
  ["./src/a.js".toList, "./src/a.js.ts".toList, "./src/a.js/index.js".toList, "./src/a.ts".toList,
    "./src/a/index.js".toList]

/-- An import that was written with an alias for the directory of these files. -/
def namesakesResolved : Resolved :=
  AliasResolver.place { find := ['@'], replacement := "/proj/src".toList } "./src".toList 0 1 "@/*".toList
    "/proj/main.ts".toList

theorem lookup_fullSpecifier_namesakes :
    (ofFiles namesakes none).lookup "./src/a.js".toList = some "./src/a.js".toList ∧
      (ofFiles namesakes (some namesakesResolved)).lookup "@/a/index.js".toList =
        some "./src/a/index.js".toList := by
  have hascending : Text.IsAscending namesakes := ⟨by decide +kernel, by decide +kernel⟩
  have hheads : ∀ r ∈ some namesakesResolved, ∀ file ∈ namesakes, r.pathHead <+: file := by
    rintro r ⟨⟩
    decide +kernel
  have hfull : fullSpecifier (some namesakesResolved) "./src/a/index.js".toList = "@/a/index.js".toList := by
    decide +kernel
  refine ⟨lookup_fullSpecifier.2 namesakes none hascending (by simp) _ (by decide +kernel), ?_⟩
  rw [← hfull]
  exact lookup_fullSpecifier.2 namesakes _ hascending hheads _ (by decide +kernel)

end DispatchTable

end VariableImport
