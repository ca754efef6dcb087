import VariableImport.Proofs.FileSystem.Place
import VariableImport.Proofs.Glob.Search
import VariableImport.Proofs.Path.Component

/-!
# Proofs/Glob/Follow — components and names

Without `**` every component stands for one name that it `Accepts` (`exists_names_of_mem_reach`), and `**`
for any number of names (`exists_names_of_mem_reach_deep`).  The other way round, a component with magic
before fixed ones is followed along every path to a file whose name it matches
(`mem_follow_of_isFile`).
-/

namespace VariableImport

namespace Glob

/-! ## Names for components -/

/-- Whether a component stands for a name; a name that a wildcard stands for is not hidden, unless the
component begins as hidden names do. -/
def Accepts (c n : Text) : Prop :=
  if hasMagic c then (isHidden c = true ∨ isHidden n = false) ∧ matchesName c n = true else n = c

theorem accepts_fixed {c n : Text} (hc : hasMagic c = false) : Accepts c n ↔ n = c := by
  simp [Accepts, hc]

/-- Fixed components stand for themselves. -/
theorem eq_of_accepts_fixed {cs names : List Text} (hcs : ∀ c ∈ cs, hasMagic c = false)
    (h : List.Forall₂ Accepts cs names) : names = cs := by
  induction h with
  | nil => rfl
  | cons hc _ ih =>
    rw [(accepts_fixed (hcs _ (List.mem_cons_self ..))).mp hc,
      ih fun d hd => hcs d (List.mem_cons_of_mem _ hd)]

theorem Accepts.instance {c n : Text} (hc : IsSimple c) (h : Accepts c n) : Instance c n := by
  unfold Accepts at h
  split at h
  · exact instance_of_matchesName hc h.2
  · exact h ▸ instance_self c

/-- **A component that begins with its only wildcard** stands for the names that end as it does. -/
theorem accepts_star {t n : Text} (ht : hasMagic t = false) :
    Accepts (wildcard :: t) n ↔ isHidden n = false ∧ ∃ fill, n = fill ++ t := by
  have hsimple : IsSimple (wildcard :: t) :=
    List.forall_mem_cons.mpr ⟨by decide, isSimple_of_hasMagic ht⟩
  have hmagic : hasMagic (wildcard :: t) = true := hasMagic_star [] t
  have hhidden : isHidden (wildcard :: t) = false := rfl
  rw [Accepts, if_pos hmagic, hhidden, matchesName_iff hsimple, instance_star]
  simp [instance_fixed (wildcard_not_mem ht)]

end Glob

namespace FileSystem

open Glob

variable {fs : FileSystem} {base : Text}

/-- A step of a search puts a name behind the path that the component stands for. -/
theorem accepts_of_mem_step (hfs : fs.IsNamed) {directory c name : Text} {last : Bool}
    (hc : Path.IsName c) (hdeep : c ≠ deep) (h : name ∈ fs.step directory c last) :
    Path.IsName name ∧ Accepts c name := by
  unfold step at h
  dsimp only at h
  rw [if_neg hdeep] at h
  unfold Accepts
  split at h
  · next hm =>
    rw [if_pos hm]
    split at h
    · simp at h
    · obtain ⟨⟨n, e⟩, hn, hwanted⟩ := List.mem_filterMap.mp h
      dsimp only at hwanted
      split at hwanted
      · next hw =>
        obtain rfl := Option.some.inj hwanted
        simp only [Bool.and_eq_true, Bool.or_eq_true, Bool.not_eq_true'] at hw
        exact ⟨hfs.of_mem_names hn, hw.1.2, hw.2⟩
      · simp at hwanted
  · next hm =>
    rw [if_neg hm]
    rw [if_neg hc.1] at h
    split at h
    · obtain rfl := List.mem_singleton.mp h
      exact ⟨hc, rfl⟩
    · simp at h

/-! ## Following components -/

/-- The paths that components stand for from a path below the directory `base`, and only directories
unless they are `final`. -/
def reach (fs : FileSystem) (base : Text) (final : Bool) : Text → List Text → List Text
  | p, [] => [p]
  | p, c :: cs => (fs.step (placeIn base p) c (final && cs.isEmpty)).flatMap fun name =>
      reach fs base final (Path.append p name) cs

theorem follow_eq_reach (p : Text) (cs : List Text) : fs.follow base p cs = fs.reach base true p cs := by
  induction cs generalizing p with
  | nil => rfl
  | cons c cs ih => simp only [follow, reach, ih, Bool.true_and]

/-- **Components are followed** up to any of them first, through directories. -/
theorem reach_append {final : Bool} {cs ds : List Text} (hds : ds ≠ []) (p : Text) :
    fs.reach base final p (cs ++ ds) =
      (fs.reach base false p cs).flatMap fun q => fs.reach base final q ds := by
  induction cs generalizing p with
  | nil => simp [reach]
  | cons c cs ih =>
    have hlast : (cs ++ ds).isEmpty = false := by simp [hds]
    simp only [List.cons_append, reach, hlast, Bool.and_false, Bool.false_and, ih, List.flatMap_assoc]

/-- **Every component stands for one name.** -/
theorem exists_names_of_mem_reach (hfs : fs.IsNamed) {final : Bool} {q p : Text} {cs : List Text}
    (hq : Path.IsBase q) (hcs : ∀ c ∈ cs, Path.IsName c ∧ c ≠ deep)
    (h : p ∈ fs.reach base final q cs) :
    ∃ names, List.Forall₂ Accepts cs names ∧ (∀ n ∈ names, Path.IsName n) ∧ p = q ++ Path.trail names := by
  induction cs generalizing q with
  | nil => exact ⟨[], .nil, by simp, by simpa [reach] using h⟩
  | cons c cs ih =>
    obtain ⟨name, hname, hp⟩ := List.mem_flatMap.mp h
    obtain ⟨hc, hdeep⟩ := hcs c (List.mem_cons_self ..)
    obtain ⟨hn, hacc⟩ := accepts_of_mem_step hfs hc hdeep hname
    have hhead : name.head? ≠ some '/' := by simpa using hn.head?_append []
    rw [(Path.append_of_base hq hhead).1] at hp
    obtain ⟨names, hall, hnames, rfl⟩ :=
      ih (hq.append_name hn) (fun d hd => hcs d (List.mem_cons_of_mem _ hd)) hp
    refine ⟨name :: names, .cons hacc hall, fun m hm => ?_, by simp⟩
    rcases List.mem_cons.mp hm with rfl | hm
    exacts [hn, hnames m hm]

/-- **A component that spans directories** stands for any number of names. -/
theorem exists_names_of_mem_reach_deep (hfs : fs.IsNamed) {q p c : Text} {cs : List Text}
    (hq : Path.IsBase q) (hcs : ∀ d ∈ c :: cs, Path.IsName d ∧ d ≠ deep)
    (h : p ∈ fs.reach base true q (deep :: c :: cs)) :
    ∃ above names, (∀ n ∈ above, Path.IsName n) ∧ List.Forall₂ Accepts (c :: cs) names ∧
      (∀ n ∈ names, Path.IsName n) ∧ p = q ++ Path.trail (above ++ names) := by
  obtain ⟨name, hname, hp⟩ := List.mem_flatMap.mp h
  obtain ⟨-, above, habove, rfl⟩ : deep = deep ∧ ∃ names, (∀ n ∈ names, Path.IsName n) ∧
      name = Text.join ['/'] names := by
    rcases mem_step hfs (by simp) hname with h | ⟨hne, -⟩ | ⟨hne, -⟩
    exacts [h, absurd rfl hne, absurd rfl hne]
  have hhead := head?_of_mem_step hfs (by decide) hname
  rw [(Path.append_of_base hq hhead).1] at hp
  cases above with
  | nil =>
    -- the path goes on behind its slash as it does without it
    obtain ⟨name, hname, hp⟩ := List.mem_flatMap.mp hp
    obtain ⟨hc, hdeep⟩ := hcs c (List.mem_cons_self ..)
    obtain ⟨hn, hacc⟩ := accepts_of_mem_step hfs hc hdeep hname
    have hnhead : name.head? ≠ some '/' := by simpa using hn.head?_append []
    rw [show q ++ '/' :: Text.join ['/'] [] = q ++ ['/'] from rfl,
      (Path.append_of_base hq hnhead).2] at hp
    obtain ⟨names, hall, hnames, rfl⟩ := exists_names_of_mem_reach hfs (hq.append_name hn)
      (fun d hd => hcs d (List.mem_cons_of_mem _ hd)) hp
    refine ⟨[], name :: names, by simp, .cons hacc hall, fun m hm => ?_, by simp⟩
    rcases List.mem_cons.mp hm with rfl | hm
    exacts [hn, hnames m hm]
  | cons n above =>
    rw [← Path.trail_eq_cons_join (List.cons_ne_nil _ _)] at hp
    obtain ⟨names, hall, hnames, rfl⟩ := exists_names_of_mem_reach hfs (hq.append_trail habove) hcs hp
    exact ⟨n :: above, names, habove, hall, hnames, by simp⟩

theorem placeIn_of_ne_nil {p : Text} (hp : p ≠ []) : placeIn base p = Path.append base p := by
  unfold placeIn
  by_cases hb : base = []
  · subst hb
    rw [if_pos rfl, Path.append]
    simp
  · rw [if_neg hb, if_neg hp]

/-- Fixed components are followed along a path that leads anywhere. -/
theorem mem_follow_fixed {q : Text} {cs : List Text} (hq : Path.IsBase q)
    (hcs : ∀ c ∈ cs, Path.IsName c ∧ hasMagic c = false)
    (h : fs.leadsAnywhere (Path.append base (q ++ Path.trail cs)) = true) :
    q ++ Path.trail cs ∈ fs.follow base q cs := by
  induction cs generalizing q with
  | nil => simp [follow]
  | cons c cs ih =>
    obtain ⟨hc, hm⟩ := hcs c (List.mem_cons_self ..)
    have hcs' : ∀ d ∈ cs, Path.IsName d ∧ hasMagic d = false := fun d hd =>
      hcs d (List.mem_cons_of_mem _ hd)
    have hhead : c.head? ≠ some '/' := by simpa using hc.head?_append []
    have hdeep : c ≠ deep := by
      rintro rfl
      simp [hasMagic] at hm
    have hqc : q ++ '/' :: c ≠ [] := by simp
    have htext : q ++ Path.trail (c :: cs) = (q ++ '/' :: c) ++ Path.trail cs := by simp
    rw [htext] at h ⊢
    have hleads : fs.leadsAnywhere (Path.append base (q ++ '/' :: c)) = true := by
      cases cs with
      | nil => simpa using h
      | cons d cs =>
        have hsplit : Path.append base (q ++ '/' :: c ++ Path.trail (d :: cs)) =
            Path.append base (q ++ '/' :: c) ++ '/' :: (d ++ Path.trail cs) := by
          rw [append_append_of_ne_nil _ hqc]
          rfl
        rw [hsplit] at h
        rw [leadsAnywhere, isDirectory_of_leadsAnywhere (append_ne_nil _ hqc) h]
        rfl
    have hplace : placeIn (placeIn base q) c = Path.append base (q ++ '/' :: c) := by
      rw [placeIn_of_ne_nil hc.1, placeIn_of_ne_nil hq.1, append_append_of_ne_nil _ hq.1]
      have hbase : Path.IsBase (Path.append base q) := by
        unfold Path.append
        split
        · exact hq
        · split
          · exact hq.append _
          · simpa using hq.append (base ++ ['/'])
      exact (Path.append_of_base hbase hhead).1
    refine List.mem_flatMap.mpr ⟨c, ?_, ?_⟩
    · unfold step
      dsimp only
      rw [if_neg hdeep, if_neg (by simp [hm]), if_neg hc.1, if_pos (hplace ▸ hleads)]
      exact List.mem_singleton_self c
    · rw [(Path.append_of_base hq hhead).1]
      exact ih (hq.append_name hc) hcs' h

/-- **A component with magic before fixed ones** is followed along a path that leads to a file, if it
matches the name there. -/
theorem mem_follow_of_isFile {q c n : Text} {cs : List Text} (hq : Path.IsBase q) (hm : hasMagic c = true)
    (hdeep : c ≠ deep) (hn : Path.IsName n) (hvisible : isHidden n = false)
    (hmatch : matchesName c n = true) (hcs : ∀ d ∈ cs, Path.IsName d ∧ hasMagic d = false)
    (hfile : fs.isFile (Path.append base (q ++ Path.trail (n :: cs))) = true) :
    q ++ Path.trail (n :: cs) ∈ fs.follow base q (c :: cs) := by
  have hhead : n.head? ≠ some '/' := by simpa using hn.head?_append []
  have htext : q ++ Path.trail (n :: cs) = q ++ '/' :: n ++ Path.trail cs := by simp
  have hleads := leadsAnywhere_of_isFile hfile
  have hpath : Path.append base (q ++ Path.trail (n :: cs)) =
      Path.append base q ++ '/' :: (n ++ Path.trail cs) := by
    rw [append_append_of_ne_nil _ hq.1]
    rfl
  obtain ⟨e, he⟩ := Option.isSome_iff_exists.mp hleads
  obtain ⟨place', hplace', hat'⟩ := Option.bind_eq_some_iff.mp he
  rw [hpath] at hplace'
  obtain ⟨place, hplace, hat, hfold⟩ := exists_locate_of_append (append_ne_nil _ hq.1) hplace'
  rw [Path.split_append_trail _ fun d hd => (hcs d hd).1.2, Text.split_of_not_mem hn.2,
    List.singleton_append, List.foldlM_cons] at hfold
  obtain ⟨next, henter, hfold⟩ := Option.bind_eq_some_iff.mp hfold
  obtain ⟨rfl, hsome⟩ := enter_name hn.1 hvisible henter
  obtain ⟨entry, hentry⟩ := Option.isSome_iff_exists.mp hsome
  have hdirectory : fs.directory? (placeIn base q) = some place := by
    unfold directory?
    rw [placeIn_of_ne_nil hq.1, if_neg (append_ne_nil _ hq.1), hplace]
    simp [hat]
  have hwanted : (cs.isEmpty || entry == .directory) = true := by
    cases cs with
    | nil => rfl
    | cons d cs =>
      rw [List.foldlM_cons] at hfold
      obtain ⟨_, henter', -⟩ := Option.bind_eq_some_iff.mp hfold
      rw [at?_of_enter henter'] at hentry
      obtain rfl := Option.some.inj hentry
      simp
  refine List.mem_flatMap.mpr ⟨n, ?_, ?_⟩
  · unfold step
    dsimp only
    rw [if_neg hdeep, if_pos hm, hdirectory]
    refine List.mem_filterMap.mpr ⟨(n, entry), mem_names hentry, ?_⟩
    simp [hwanted, hvisible, hmatch]
  · rw [(Path.append_of_base hq hhead).1, htext]
    rw [htext] at hleads
    exact mem_follow_fixed (hq.append_name hn) hcs hleads

end FileSystem

end VariableImport
