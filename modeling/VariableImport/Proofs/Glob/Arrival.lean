import Mathlib.Data.List.Forall2
import VariableImport.Proofs.Glob.Braces
import VariableImport.Proofs.Glob.Follow

/-!
# Proofs/Glob/Arrival — searches in two parts

A search for a glob comes first to directories for what stands before a slash (`arrivals`) and goes on
from each of them (`search_append`).  Without `**` all arrivals lie at one depth (`count_arrivals`), and
they keep the fixed text that the glob begins with (`prefix_of_mem_arrivals`).
-/

namespace VariableImport

namespace Glob

/-! ## Where magic begins -/

/-- The text before the first magic character. -/
def fixedHead (glob : Text) : Text := glob.takeWhile fun c => !isMagic c

/-- The text before the first component with magic. -/
def fixedDirectory (glob : Text) : Text := (Path.cutName (fixedHead glob)).1

theorem fixedHead_append {q : Text} (hq : hasMagic q = true) (t : Text) :
    fixedHead (q ++ t) = fixedHead q := by
  obtain ⟨x, hx, hm⟩ := List.any_eq_true.mp hq
  have hne : (q.takeWhile fun c => !isMagic c).length ≠ q.length := by
    intro hlen
    have hall := List.takeWhile_eq_self_iff.mp ((List.takeWhile_prefix _).eq_of_length hlen) x hx
    have hm : isMagic x = true := hm
    simp [hm] at hall
  rw [fixedHead, List.takeWhile_append, if_neg hne]
  rfl

theorem fixedHead_append_fixed {q : Text} (hq : hasMagic q = false) (t : Text) :
    fixedHead (q ++ t) = q ++ fixedHead t := by
  rw [fixedHead, List.takeWhile_append_of_pos fun c hc => by simp [hasMagic_eq_false.mp hq c hc]]
  rfl

/-- Behind the fixed head comes a magic character. -/
theorem exists_eq_fixedHead {q : Text} (hq : hasMagic q = true) :
    ∃ m rest, q = fixedHead q ++ m :: rest ∧ isMagic m = true := by
  have hsplit : fixedHead q ++ q.dropWhile (fun c => !isMagic c) = q := List.takeWhile_append_dropWhile
  have hne : q.dropWhile (fun c => !isMagic c) ≠ [] := by
    intro hnil
    obtain ⟨x, hx, hm⟩ := List.any_eq_true.mp hq
    have hall := List.dropWhile_eq_nil_iff.mp hnil x hx
    have hm : isMagic x = true := hm
    simp [hm] at hall
  obtain ⟨m, rest, hrest⟩ := List.exists_cons_of_ne_nil hne
  refine ⟨m, rest, by rw [← hrest, hsplit], ?_⟩
  have := List.head_dropWhile_not (fun c => !isMagic c) hne
  simpa [hrest] using this

theorem fixedDirectory_isPrefix (q : Text) : fixedDirectory q <+: fixedHead q := by
  unfold fixedDirectory Path.cutName
  split
  · next h t hcut =>
    obtain ⟨e, -⟩ := Text.cutLast_eq_some.mp hcut
    rw [e]
    exact ⟨t, by simp⟩
  · exact List.nil_prefix

/-- The directory with the name that is begun behind it. -/
theorem exists_fixedHead_eq (q : Text) : ∃ name, fixedHead q = fixedDirectory q ++ name ∧ '/' ∉ name := by
  unfold fixedDirectory Path.cutName
  split
  · next h t hcut =>
    obtain ⟨e, ht⟩ := Text.cutLast_eq_some.mp hcut
    exact ⟨t, by rw [e]; simp, ht⟩
  · next hcut => exact ⟨_, rfl, Text.cutLast_eq_none.mp hcut⟩

theorem length_fixedDirectory_lt {q : Text} (hq : hasMagic q = true) :
    (fixedDirectory q).length < q.length := by
  obtain ⟨m, rest, e, -⟩ := exists_eq_fixedHead hq
  have hle := (fixedDirectory_isPrefix q).length_le
  have hlen := congrArg List.length e
  rw [List.length_append, List.length_cons] at hlen
  omega

/-- **A glob with magic is cut** before its first component with magic, and empty components are
dropped. -/
theorem cutMagic_eq {q : Text} (hq : Path.IsBase q) (hm : hasMagic q = true) :
    cutMagic q = (Path.stripSlashes (fixedDirectory q),
      Path.components (q.drop (fixedDirectory q).length)) := by
  have hhead : (q.takeWhile fun c => !hasMagic [c]) = fixedHead q := by
    simp [fixedHead, hasMagic_eq_any]
  have hlast := (hq.drop (length_fixedDirectory_lt hm)).getLast?_split
  unfold cutMagic
  dsimp only
  rw [hhead]
  exact congrArg (Prod.mk _) (if_neg hlast)

/-- Whether slashes part a glob before a component with magic, or behind one. -/
def Parts (q t : Text) : Prop :=
  hasMagic q = true ∨ hasMagic t = true ∧ '/' ∉ fixedHead t

theorem Parts.hasMagic_append {q t : Text} (h : Parts q t) (s : Text) : hasMagic (q ++ (s ++ t)) = true := by
  rw [Glob.hasMagic_append, Glob.hasMagic_append]
  rcases h with h | ⟨h, -⟩ <;> simp [h]

/-- **A glob is cut before the slashes or behind them**, as its first component with magic stands. -/
theorem cutMagic_append {q t : Text} (hq : Path.IsBase q) (ht : Path.IsBase t) (hparts : Parts q t)
    (k : ℕ) : cutMagic (q ++ (List.replicate (k + 1) '/' ++ t)) =
      if hasMagic q then ((cutMagic q).1, (cutMagic q).2 ++ Path.components t)
      else (q, Path.components t) := by
  have hbase : Path.IsBase (q ++ (List.replicate (k + 1) '/' ++ t)) := (ht.append _).append _
  rw [cutMagic_eq hbase (hparts.hasMagic_append _)]
  split
  · next hm =>
    have hdir : fixedDirectory (q ++ (List.replicate (k + 1) '/' ++ t)) = fixedDirectory q := by
      rw [fixedDirectory, fixedHead_append hm]
      rfl
    rw [cutMagic_eq hq hm, hdir, List.drop_append_of_le_length (length_fixedDirectory_lt hm).le,
      Path.components_append_replicate]
  · next hm =>
    obtain ⟨-, hslash⟩ := hparts.resolve_left hm
    have hm : hasMagic q = false := by simpa using hm
    have hfixed : hasMagic (q ++ List.replicate (k + 1) '/') = false := by
      rw [hasMagic_eq_any] at hm ⊢
      rw [List.any_append, hm]
      simp [isMagic]
    have hdir : fixedDirectory (q ++ (List.replicate (k + 1) '/' ++ t)) =
        q ++ List.replicate (k + 1) '/' := by
      have hcut : Text.cutLast '/' (q ++ List.replicate (k + 1) '/' ++ fixedHead t) =
          some (q ++ List.replicate k '/', fixedHead t) :=
        Text.cutLast_eq_some.mpr ⟨by simp [List.replicate_succ'], hslash⟩
      rw [fixedDirectory, ← List.append_assoc, fixedHead_append_fixed hfixed, Path.cutName, hcut]
      simp [List.replicate_succ']
    have hdrop : (q ++ (List.replicate (k + 1) '/' ++ t)).drop
        (q ++ List.replicate (k + 1) '/').length = t := by
      rw [← List.append_assoc, List.drop_left]
    rw [hdir, hdrop, Path.stripSlashes_append_replicate hq]

/-! ## Rooted globs -/

/-- **A glob that starts at the current or parent directory**, ends in a component, and has no magic but
wildcards, of which no two stand side by side. -/
structure Rooted (q : Text) : Prop where
  isBase : Path.IsBase q
  isExplicit : Path.IsExplicit (q ++ ['/'])
  isSimple : IsSimple q
  flat : ¬ deep <:+: q

theorem Rooted.of_prefix {q g : Text} (hg : Rooted g) (hq : Path.IsBase q)
    (hexplicit : Path.IsExplicit (q ++ ['/'])) (h : q <+: g) : Rooted q :=
  ⟨hq, hexplicit, fun c hc => hg.isSimple c (h.subset hc), fun hd => hg.flat (hd.trans h.isInfix)⟩

/-- A rooted glob with magic is behind the dots that it starts with. -/
theorem Rooted.exists_eq {q : Text} (hq : Rooted q) (hm : hasMagic q = true) :
    ∃ dots rest, q = dots ++ '/' :: rest ∧ (dots = Path.here ∨ dots = Path.up) := by
  obtain ⟨dots, rest, e, hdots⟩ := hq.isExplicit.exists_eq
  rcases List.eq_nil_or_concat rest with rfl | ⟨init, c, rfl⟩
  · obtain rfl : q = dots := List.append_cancel_right e
    rcases hdots with rfl | rfl <;> simp [hasMagic] at hm
  · refine ⟨dots, init, ?_, hdots⟩
    have e' : q ++ ['/'] = (dots ++ '/' :: init) ++ [c] := by simpa using e
    exact (List.append_inj' e' rfl).1

theorem Rooted.isBase_cutMagic {q : Text} (hq : Rooted q) (hm : hasMagic q = true) :
    Path.IsBase (cutMagic q).1 := by
  obtain ⟨dots, rest, rfl, hdots⟩ := hq.exists_eq hm
  have hbase : Path.IsBase dots := by rcases hdots with rfl | rfl <;> exact ⟨by simp, by decide⟩
  have hmagic : hasMagic dots = false := by rcases hdots with rfl | rfl <;> rfl
  exact (FileSystem.isBase_head_cutMagic hbase hmagic rest).1

/-- The directory before the magic is the head of a search with its slashes. -/
theorem Rooted.exists_fixedDirectory_eq {q : Text} (hq : Rooted q) (hm : hasMagic q = true) :
    ∃ k, fixedDirectory q = (cutMagic q).1 ++ List.replicate (k + 1) '/' := by
  obtain ⟨dots, rest, e, hdots⟩ := hq.exists_eq hm
  have hdotsfixed : hasMagic (dots ++ ['/']) = false := by rcases hdots with rfl | rfl <;> rfl
  have hfixedHead : fixedHead q = dots ++ '/' :: fixedHead rest := by
    have : q = (dots ++ ['/']) ++ rest := by simp [e]
    rw [this, fixedHead_append_fixed hdotsfixed]
    simp
  obtain ⟨a, name', hcut, e', hname'⟩ := Text.exists_cutLast (x := '/') (s := fixedHead q)
    (by simp [hfixedHead])
  have hdir : fixedDirectory q = a ++ ['/'] := by rw [fixedDirectory, Path.cutName, hcut]
  have hpre : dots ++ ['/'] <+: a ++ ['/'] := Text.prefix_of_last (hfixedHead ▸ e') hname'
  obtain ⟨q', k, -, -, hstrip, hk⟩ := Path.exists_explicit_base hdots hpre
  refine ⟨k, ?_⟩
  rw [cutMagic_eq hq.isBase hm, hdir, hstrip, hk]

theorem Rooted.isName_cutMagic {q : Text} (hq : Rooted q) (hm : hasMagic q = true) :
    ∀ c ∈ (cutMagic q).2, Path.IsName c ∧ c ≠ deep := by
  rw [cutMagic_eq hq.isBase hm]
  intro c hc
  refine ⟨Path.isName_of_mem_components hc, ?_⟩
  rintro rfl
  exact hq.flat ((Path.infix_of_mem_components hc).trans (List.drop_suffix _ _).isInfix)

/-- How many slashes a path has that stands for a glob. -/
def depth (q : Text) : ℕ :=
  if hasMagic q then (cutMagic q).1.count '/' + (cutMagic q).2.length else q.count '/'

theorem depth_append {q t : Text} (hq : Path.IsBase q) (ht : Path.IsBase t) (hparts : Parts q t)
    (k : ℕ) : depth (q ++ (List.replicate (k + 1) '/' ++ t)) = depth q + (Path.components t).length := by
  rw [depth, depth, if_pos (hparts.hasMagic_append _), cutMagic_append hq ht hparts]
  split
  · dsimp only
    rw [List.length_append, Nat.add_assoc]
  · rfl

/-- A name behind slashes lies at least one directory deeper. -/
theorem depth_lt_depth_append {q n : Text} (hq : Path.IsBase q) (hn : Path.IsName n) (k : ℕ) :
    depth q < depth (q ++ (List.replicate (k + 1) '/' ++ n)) := by
  have hbase : Path.IsBase n := by simpa using hn.isBase_append []
  by_cases hparts : Parts q n
  · rw [depth_append hq hbase hparts, Path.components_of_isName hn]
    exact Nat.lt_succ_self _
  · have hslash : '/' ∉ fixedHead n := fun h => hn.2 ((List.takeWhile_prefix _).subset h)
    simp only [Parts, not_or, not_and, hslash, not_not] at hparts
    obtain ⟨hqm, hnm⟩ := hparts
    have hnm : hasMagic n = false := by simpa using hnm
    have hqm : hasMagic q = false := by simpa using hqm
    have hboth : hasMagic (q ++ (List.replicate (k + 1) '/' ++ n)) = false := by
      rw [hasMagic_eq_any] at hqm hnm ⊢
      rw [List.any_append, List.any_append, hqm, hnm]
      simp [isMagic]
    rw [depth, depth, if_neg (by simp [hqm]), if_neg (by simp [hboth]), List.count_append,
      List.count_append, List.count_replicate_self]
    omega

end Glob

namespace FileSystem

open Glob

variable {fs : FileSystem} {base : Text} {final : Bool}

/-- **The paths that a glob stands for**, and only directories unless they are `final`; a fixed text
stands for itself. -/
def arrivals (fs : FileSystem) (base : Text) (final : Bool) (q : Text) : List Text :=
  if hasMagic q then fs.reach base final (cutMagic q).1 (cutMagic q).2 else [q]

theorem search_eq_arrivals {q : Text} (hm : hasMagic q = true) :
    fs.search base q = fs.arrivals base true q := by
  rw [search, if_pos hm, arrivals, if_pos hm]
  exact follow_eq_reach _ _

/-- **A search goes on from where it arrives** with the components behind slashes. -/
theorem search_append {q t : Text} (hq : Path.IsBase q) (ht : Path.IsBase t) (hparts : Parts q t)
    (k : ℕ) : fs.search base (q ++ (List.replicate (k + 1) '/' ++ t)) =
      (fs.arrivals base false q).flatMap fun b => fs.follow base b (Path.components t) := by
  have hne : Path.components t ≠ [] := by
    intro hnil
    have hlast := ht.getLast?_split
    obtain ⟨c, hc⟩ := Option.ne_none_iff_exists'.mp
      (mt List.getLast?_eq_none_iff.mp (Text.split_ne_nil '/' t))
    have := List.filter_eq_nil_iff.mp hnil c (List.mem_of_getLast? hc)
    obtain rfl : c = [] := by simpa using this
    exact hlast hc
  rw [search, if_pos (hparts.hasMagic_append _), cutMagic_append hq ht hparts, arrivals]
  by_cases hm : hasMagic q = true
  · simp only [if_pos hm, follow_eq_reach]
    exact reach_append hne _
  · simp only [if_neg hm, List.flatMap_singleton]

/-- What arrives is the head of the glob with a name for every component. -/
theorem exists_names_of_mem_arrivals (hfs : fs.IsNamed) {q b : Text} (hq : Rooted q)
    (hm : hasMagic q = true) (h : b ∈ fs.arrivals base final q) :
    ∃ names, List.Forall₂ Accepts (cutMagic q).2 names ∧ (∀ n ∈ names, Path.IsName n) ∧
      b = (cutMagic q).1 ++ Path.trail names := by
  rw [arrivals, if_pos hm] at h
  exact exists_names_of_mem_reach hfs (hq.isBase_cutMagic hm) (hq.isName_cutMagic hm) h

theorem isBase_of_mem_arrivals (hfs : fs.IsNamed) {q b : Text} (hq : Rooted q)
    (h : b ∈ fs.arrivals base final q) : Path.IsBase b := by
  by_cases hm : hasMagic q = true
  · obtain ⟨names, -, hnames, rfl⟩ := exists_names_of_mem_arrivals hfs hq hm h
    exact (hq.isBase_cutMagic hm).append_trail hnames
  · rw [arrivals, if_neg hm] at h
    rw [List.mem_singleton.mp h]
    exact hq.isBase

/-- **All arrivals lie at one depth.** -/
theorem count_arrivals (hfs : fs.IsNamed) {q b : Text} (hq : Rooted q) (h : b ∈ fs.arrivals base final q) :
    b.count '/' = depth q := by
  unfold depth
  split
  · next hm =>
    obtain ⟨names, hall, hnames, rfl⟩ := exists_names_of_mem_arrivals hfs hq hm h
    rw [List.count_append, Path.count_trail hnames, hall.length_eq]
  · next hm =>
    rw [arrivals, if_neg hm] at h
    rw [List.mem_singleton.mp h]

/-- The first component with magic begins as the fixed text before it ends. -/
theorem exists_head_cutMagic {q : Text} (hq : Rooted q) (hm : hasMagic q = true) :
    ∃ name c cs, fixedHead q = fixedDirectory q ++ name ∧ (cutMagic q).2 = c :: cs ∧ name <+: c ∧
      IsSimple c := by
  obtain ⟨name, hname, hslash⟩ := exists_fixedHead_eq q
  obtain ⟨m, rest, e, hmagic⟩ := exists_eq_fixedHead hm
  have hdrop : q.drop (fixedDirectory q).length = name ++ m :: rest := by
    rw [hname, List.append_assoc] at e
    have hd := congrArg (List.drop (fixedDirectory q).length) e
    rwa [List.drop_left] at hd
  obtain ⟨c, cs, hsplit, hjoin, hcs⟩ := Path.exists_eq_append_trail (name ++ m :: rest)
  have hmslash : m ≠ '/' := by
    rintro rfl
    simp [isMagic] at hmagic
  have hpre : name ++ [m] <+: c := by
    have hp : name ++ [m] <+: c ++ Path.trail cs := ⟨rest, by rw [← hjoin]; simp⟩
    cases cs with
    | nil => simpa using hp
    | cons d cs =>
      exact Text.prefix_of_prefix_append_cons (by simp [hslash, hmslash.symm]) hp
  have hc : c ≠ [] := by
    rintro rfl
    simpa using hpre.length_le
  have hwithin : c <:+: q := by
    refine List.IsInfix.trans ?_ (List.drop_suffix (fixedDirectory q).length q).isInfix
    rw [hdrop]
    exact Text.infix_of_mem_split (hsplit ▸ List.mem_cons_self ..)
  refine ⟨name, c, cs.filter (!·.isEmpty), hname, ?_, (List.prefix_append _ _).trans hpre,
    fun x hx => hq.isSimple x (hwithin.subset hx)⟩
  rw [cutMagic_eq hq.isBase hm, hdrop, Path.components, hsplit]
  simp [hc]

/-- Fixed text without two slashes side by side keeps its place where slashes are stripped. -/
theorem prefix_of_replicate {p q name : Text} {k : ℕ} (hp : ¬ ['/', '/'] <:+: p)
    (h : p <+: q ++ (List.replicate (k + 1) '/' ++ name)) : p <+: q ++ '/' :: name := by
  cases k with
  | zero => exact h
  | succ k =>
    have hq : q ++ ['/'] <+: q ++ (List.replicate (k + 2) '/' ++ name) :=
      ⟨List.replicate (k + 1) '/' ++ name, by simp [List.replicate_succ]⟩
    rcases List.prefix_or_prefix_of_prefix h hq with hpq | ⟨r, rfl⟩
    · exact hpq.trans ⟨name, by simp⟩
    · have hr : r <+: '/' :: (List.replicate k '/' ++ name) := by
        have h' : q ++ ['/'] ++ r <+: (q ++ ['/']) ++ '/' :: (List.replicate k '/' ++ name) := by
          simpa [List.replicate_succ] using h
        exact (List.prefix_append_right_inj _).mp h'
      cases r with
      | nil => exact ⟨name, by simp⟩
      | cons c r =>
        obtain ⟨rfl, -⟩ := List.cons_prefix_cons.mp hr
        exact absurd ⟨q, r, by simp⟩ hp

/-- **Arrivals keep the fixed text** that their glob begins with, where no two slashes stand side by side
in it. -/
theorem prefix_of_mem_arrivals (hfs : fs.IsNamed) {p q b : Text} (hq : Rooted q)
    (hfixed : hasMagic p = false) (hp : ¬ ['/', '/'] <:+: p) (hpq : p <+: q)
    (h : b ∈ fs.arrivals base final q) : p <+: b := by
  by_cases hm : hasMagic q = true
  · obtain ⟨names, hall, -, rfl⟩ := exists_names_of_mem_arrivals hfs hq hm h
    obtain ⟨name, c, cs, hhead, hcomponents, hname, hsimple⟩ := exists_head_cutMagic hq hm
    rw [hcomponents] at hall
    obtain ⟨n, ns, hacc, -, rfl⟩ := List.forall₂_cons_left_iff.mp hall
    -- the name begins as its component does
    have hn : name <+: n := by
      obtain ⟨rest, rfl⟩ := hname
      obtain ⟨a, r, rfl, ha, -⟩ := instance_append.mp (hacc.instance hsimple)
      have hwildcard : wildcard ∉ name := fun hw => by
        have hmem : wildcard ∈ fixedHead q := hhead ▸ List.mem_append_right _ hw
        simpa [isMagic] using List.mem_takeWhile_imp hmem
      rw [(instance_fixed hwildcard).mp ha]
      exact List.prefix_append _ _
    have hphead : p <+: fixedHead q := by
      obtain ⟨r, rfl⟩ := hpq
      rw [fixedHead_append_fixed hfixed]
      exact List.prefix_append _ _
    obtain ⟨k, hdirectory⟩ := hq.exists_fixedDirectory_eq hm
    rw [hhead, hdirectory, List.append_assoc] at hphead
    refine (prefix_of_replicate hp hphead).trans ?_
    obtain ⟨r, rfl⟩ := hn
    exact ⟨r ++ Path.trail ns, by simp⟩
  · rw [arrivals, if_neg hm] at h
    rw [List.mem_singleton.mp h]
    exact hpq

end FileSystem

end VariableImport
