import VariableImport.Proofs.CallSite.Concurrency
import VariableImport.Proofs.CallSite.StaticHead
import VariableImport.Proofs.DispatchTable.Script

/-!
# Proofs/CallSite/Batch — the call sites of one file

Call sites that dispatch are numbered in source order: entry `i` has the number of those before it
(`getElem?_numberFrom`), so that no two functions of a file have one name (`functionName_injective`).  The
functions are those of the tables under these names (`functions_numberFrom`), and the block that is appended
holds their lines between its two comments (`lines_block_rendered`).  **A batch is its call sites**, each with
its own entry, in whatever order concurrent calls finish (`compile_batch`).
-/

namespace VariableImport

namespace Batch

variable {xs : List (Except ImportError CallSite)}

/-! ## Numbering -/

section

variable {ε : Type}

/-- The table of an outcome that dispatches. -/
def tableOf : Except ε CallSite → Option DispatchTable
  | .ok site => site.verdict.table
  | .error _ => none

/-- Whether an outcome dispatches. -/
def dispatches (outcome : Except ε CallSite) : Bool := (tableOf outcome).isSome

end

theorem dispatches_ok {ε : Type} {site : CallSite} :
    dispatches (.ok site : Except ε CallSite) = true ↔ site.verdict.kind = .dispatch := by
  cases h : site.verdict <;> simp [dispatches, tableOf, h, Verdict.table, Verdict.kind]

/-- An entry, which has number `k` if it dispatches, and else none. -/
def numbered (k : ℕ) (x : Except ImportError CallSite) : Result :=
  x.map fun site => ⟨site, if dispatches x then some k else none⟩

/-- The name of the function of an entry. -/
def nameOf : Result → Option Text
  | .ok s => s.functionName
  | .error _ => none

/-- The names of the functions of a file. -/
def names (results : List Result) : List Text := results.filterMap nameOf

/-- An outcome that dispatches takes a number, and no other does. -/
theorem numberFrom_cons (next : ℕ) (x : Except ImportError CallSite)
    (xs : List (Except ImportError CallSite)) :
    numberFrom next (x :: xs) =
      numbered next x :: numberFrom (next + (dispatches x).toNat) xs := by
  cases x with
  | error e => rfl
  | ok site =>
    rw [numberFrom]
    by_cases h : site.verdict.kind = .dispatch
    · rw [if_pos h, numbered, dispatches_ok.mpr h]
      rfl
    · have hd : dispatches (.ok site : Except ImportError CallSite) = false :=
        Bool.eq_false_iff.mpr (dispatches_ok.not.mpr h)
      rw [if_neg h, numbered, hd]
      rfl

theorem length_numberFrom (next : ℕ) (xs : List (Except ImportError CallSite)) :
    (numberFrom next xs).length = xs.length := by
  induction xs generalizing next with
  | nil => rfl
  | cons x xs ih => rw [numberFrom_cons, List.length_cons, ih, List.length_cons]

/-- **An entry is numbered by those before it that dispatch.** -/
theorem getElem?_numberFrom (next : ℕ) (xs : List (Except ImportError CallSite)) (i : ℕ) :
    (numberFrom next xs)[i]? = xs[i]?.map (numbered (next + (xs.take i).countP dispatches)) := by
  induction xs generalizing next i with
  | nil => rfl
  | cons x xs ih =>
    rw [numberFrom_cons]
    cases i with
    | zero => rfl
    | succ i =>
      rw [List.getElem?_cons_succ, List.getElem?_cons_succ, ih, List.take_succ_cons, List.countP_cons]
      refine congrArg (fun k => xs[i]?.map (numbered k)) ?_
      cases dispatches x
      · simp
      · simp only [Bool.toNat_true, if_true]
        omega

/-! ## The functions of a file -/

theorem functionName_injective : Function.Injective fun k : ℕ => DispatchTable.functionName k := by
  intro k l h
  have hnumeral : Text.ofInt k = Text.ofInt l := List.append_cancel_left (List.append_cancel_right h)
  exact Int.ofNat_inj.mp (Int.repr_injective (String.toList_injective hnumeral))

theorem nameOf_numbered (k : ℕ) (x : Except ImportError CallSite) :
    nameOf (numbered k x) = (tableOf x).map fun _ => DispatchTable.functionName k := by
  cases x with
  | error e => rfl
  | ok site => cases h : site.verdict <;>
      simp [nameOf, numbered, Except.map, NumberedSite.functionName, dispatches, tableOf, h, Verdict.table]

/-- The names are given one after another. -/
theorem names_numberFrom (next : ℕ) (xs : List (Except ImportError CallSite)) :
    names (numberFrom next xs) =
      (List.range' next (xs.filterMap tableOf).length).map fun k : ℕ => DispatchTable.functionName k := by
  induction xs generalizing next with
  | nil => rfl
  | cons x xs ih =>
    rw [numberFrom_cons, names, List.filterMap_cons, List.filterMap_cons, ← names, ih, nameOf_numbered,
      dispatches]
    cases tableOf x <;> rfl

theorem functions_cons (k : ℕ) (x : Except ImportError CallSite) (results : List Result) :
    functions (numbered k x :: results) =
      ((tableOf x).map fun table => table.render (DispatchTable.functionName k)).toList ++
        functions results := by
  cases x with
  | error e => rfl
  | ok site => cases h : site.verdict <;>
      simp [functions, numbered, Except.map, NumberedSite.function, NumberedSite.functionName, dispatches,
        tableOf, h, Verdict.table]

/-- The functions that some tables have under some names. -/
def rendered (tables : List DispatchTable) (names : List Text) : List Text :=
  tables.zipWith (fun table name => table.render name) names

/-- **The functions of a file** are those of its tables, each under the next name. -/
theorem functions_numberFrom (next : ℕ) (xs : List (Except ImportError CallSite)) :
    functions (numberFrom next xs) = rendered (xs.filterMap tableOf) (names (numberFrom next xs)) := by
  rw [names_numberFrom]
  induction xs generalizing next with
  | nil => rfl
  | cons x xs ih =>
    rw [numberFrom_cons, functions_cons, ih, List.filterMap_cons, dispatches]
    cases tableOf x <;> rfl

/-! ## One file -/

/-- **The entry of an outcome**, `k` sources before it dispatching.  A rejection stays what it is, and so does
a call site that does not dispatch, which is replaced only where another path is imported.  A call site that
dispatches is changed in nothing but this: it gets the name of number `k`, the function of its own table
under this name, and a call of it with its own argument as what is written in its place. -/
inductive IsEntry (k : ℕ) : Except ImportError CallSite → Result → Prop
  | rejected (e : ImportError) : IsEntry k (.error e) (.error e)
  | kept {site : CallSite} {s : NumberedSite} (hkind : site.verdict.kind ≠ .dispatch) (hsite : s.site = site)
    (hname : s.functionName = none) (hfunction : s.function = none)
    (hreplacement : ∀ text, s.replacement = some text ↔
      ∃ path glob, site.verdict = .redirected path glob ∧ text = importOf path) :
    IsEntry k (.ok site) (.ok s)
  | dispatch {site : CallSite} {s : NumberedSite} {table : DispatchTable}
    (htable : site.verdict.table = some table) (hsite : s.site = site)
    (hname : s.functionName = some (DispatchTable.functionName k))
    (hfunction : s.function = some (table.render (DispatchTable.functionName k)))
    (hreplacement : s.replacement =
      some (DispatchTable.functionName k ++ '(' :: site.argument ++ [')'])) :
    IsEntry k (.ok site) (.ok s)

theorem isEntry_numbered (k : ℕ) (x : Except ImportError CallSite) : IsEntry k x (numbered k x) := by
  cases x with
  | error e => exact .rejected e
  | ok site =>
    by_cases h : dispatches (.ok site : Except ImportError CallSite) = true
    · have hnumbered : numbered k (.ok site) = .ok ⟨site, some k⟩ := by
        rw [numbered, if_pos h]
        rfl
      rw [hnumbered]
      cases hv : site.verdict with
      | dispatch glob globs files table =>
        have htable : site.verdict.table = some table := by rw [hv]; rfl
        refine .dispatch htable rfl rfl ?_ ?_
        · simp [NumberedSite.function, NumberedSite.functionName, hv, Verdict.table]
        · simp [NumberedSite.replacement, NumberedSite.functionName, hv]
      | _ => simp [dispatches, tableOf, hv, Verdict.table] at h
    · have hnumbered : numbered k (.ok site) = .ok ⟨site, none⟩ := by
        rw [numbered, if_neg h]
        rfl
      rw [hnumbered]
      refine .kept (dispatches_ok.not.mp h) rfl rfl rfl fun text => ?_
      cases hv : site.verdict <;>
        simp [NumberedSite.replacement, NumberedSite.functionName, hv, eq_comm]

/-- The tables of the sources that dispatch. -/
def tablesOf (outcome : Text → Except Failure CallSite) (sources : List Text) : List DispatchTable :=
  sources.filterMap fun source => tableOf (outcome source)

/-- Whether a function tells its table: it is the template with a line for every entry, which is read back
from it, and none of its lines is a comment of the block. -/
def Tells (table : DispatchTable) (name : Text) : Prop :=
  DispatchTable.Encodes (table.render name) name table.entries ∧
    ∀ line ∈ Text.lines (table.render name), line ∉ DispatchTable.markers

/-- **Whether results are those of the call sites of a file**: entry `i` is what source `i` comes to on its
own, numbered by the dispatching sources before it; the functions have different names, one for each of the
dispatching sources.  The block that is appended holds exactly their functions in source order, each with its
own table: it is empty if there are none, and else their lines stand between the two comments. -/
structure AreNumbered (outcome : Text → Except Failure CallSite) (sources : List Text)
    (results : List Result) : Prop where
  length_eq : results.length = sources.length
  entry : ∀ {i : ℕ} {source}, sources[i]? = some source → ∃ x r, caught? (outcome source) = some x ∧
    results[i]? = some r ∧ IsEntry ((sources.take i).countP fun s => dispatches (outcome s)) x r
  nodup_names : (names results).Nodup
  length_names : (names results).length = sources.countP fun s => dispatches (outcome s)
  functions_eq : functions results = rendered (tablesOf outcome sources) (names results)
  block_eq : renderBlock results =
    DispatchTable.renderBlock (rendered (tablesOf outcome sources) (names results))
  lines_block : tablesOf outcome sources ≠ [] → Text.lines (renderBlock results) =
    DispatchTable.startMarker :: ((rendered (tablesOf outcome sources) (names results)).flatMap Text.lines ++
      [DispatchTable.endMarker])
  block_nil : tablesOf outcome sources = [] → renderBlock results = []
  tells : List.Forall₂ Tells (tablesOf outcome sources) (names results)

/-- Under generated names, functions tell their tables. -/
theorem forall₂_tells (next : ℕ) (tables : List DispatchTable) :
    List.Forall₂ Tells tables
      ((List.range' next tables.length).map fun k : ℕ => DispatchTable.functionName k) := by
  refine List.forall₂_iff_zip.mpr ⟨by simp, fun {table name} h => ?_⟩
  obtain ⟨k, -, rfl⟩ := List.mem_map.mp (List.of_mem_zip h).2
  exact DispatchTable.encodes_render table k

/-- **A block of functions that tell their tables** is these functions between the two comments. -/
theorem lines_block_rendered {tables : List DispatchTable} {names : List Text}
    (h : List.Forall₂ Tells tables names) (hne : tables ≠ []) :
    Text.lines (DispatchTable.renderBlock (rendered tables names)) =
      DispatchTable.startMarker :: ((rendered tables names).flatMap Text.lines ++
        [DispatchTable.endMarker]) := by
  refine DispatchTable.lines_renderBlock (fun hnil => ?_) fun f hf => ?_
  · rcases List.zipWith_eq_nil_iff.mp hnil with htables | hnames
    · exact hne htables
    · exact hne (List.length_eq_zero_iff.mp (h.length_eq.trans (List.length_eq_zero_iff.mpr hnames)))
  · rw [rendered, ← List.map_uncurry_zip_eq_zipWith] at hf
    obtain ⟨⟨table, name⟩, hmem, rfl⟩ := List.mem_map.mp hf
    exact ((List.forall₂_iff_zip.mp h).2 hmem).1.endsInLine

/-- A failure that is not caught dispatches no more than one that is. -/
theorem tableOf_eq (outcome : Except Failure CallSite) :
    tableOf outcome = (caught? outcome).bind tableOf := by
  unfold caught?
  split <;> rfl

/-- Sources have the tables of what they come to. -/
theorem filterMap_tableOf {outcome : Text → Except Failure CallSite} {sources : List Text}
    (h : (sources.map outcome).map caught? = xs.map some) (n : ℕ) :
    ((sources.take n).filterMap fun s => tableOf (outcome s)) = (xs.take n).filterMap tableOf := by
  have htake : ((sources.take n).map outcome).map caught? = (xs.take n).map some := by
    rw [List.map_take, List.map_take, h, List.map_take]
  calc ((sources.take n).filterMap fun s => tableOf (outcome s))
      = (((sources.take n).map outcome).map caught?).filterMap fun x => x.bind tableOf := by
        rw [List.filterMap_map, List.filterMap_map]
        exact List.filterMap_congr fun s _ => tableOf_eq (outcome s)
    _ = (xs.take n).filterMap tableOf := by
        rw [htake, List.filterMap_map]
        rfl

/-- **Numbering in source order** makes the results of a file. -/
theorem areNumbered_numberFrom {outcome : Text → Except Failure CallSite} {sources : List Text}
    (h : (sources.map outcome).map caught? = xs.map some) :
    AreNumbered outcome sources (numberFrom 0 xs) := by
  have hlength : sources.length = xs.length := by
    simpa using congrArg List.length h
  have htables : tablesOf outcome sources = xs.filterMap tableOf := by
    have := filterMap_tableOf h sources.length
    rwa [List.take_length, hlength, List.take_length] at this
  have hcount (n : ℕ) :
      (sources.take n).countP (fun s => dispatches (outcome s)) = (xs.take n).countP dispatches := by
    have := congrArg List.length (filterMap_tableOf h n)
    rwa [List.length_filterMap_eq_countP, List.length_filterMap_eq_countP] at this
  have hfunctions : functions (numberFrom 0 xs) =
      rendered (tablesOf outcome sources) (names (numberFrom 0 xs)) := by
    rw [functions_numberFrom, htables]
  have htells : List.Forall₂ Tells (tablesOf outcome sources) (names (numberFrom 0 xs)) := by
    rw [names_numberFrom, ← htables]
    exact forall₂_tells 0 _
  have hblock : renderBlock (numberFrom 0 xs) =
      DispatchTable.renderBlock (rendered (tablesOf outcome sources) (names (numberFrom 0 xs))) := by
    rw [renderBlock, hfunctions]
  refine ⟨(length_numberFrom 0 xs).trans hlength.symm, fun {i source} hi => ?_, ?_, ?_, hfunctions, hblock,
    fun hne => ?_, fun hnil => ?_, htells⟩
  · have hx : (xs.map some)[i]? = some (caught? (outcome source)) := by
      rw [← h, List.getElem?_map, List.getElem?_map, hi]
      rfl
    rw [List.getElem?_map] at hx
    obtain ⟨x, hx, hcaught⟩ := Option.map_eq_some_iff.mp hx
    refine ⟨x, _, hcaught.symm, ?_, isEntry_numbered _ x⟩
    rw [getElem?_numberFrom, hx, hcount, Nat.zero_add]
    rfl
  · rw [names_numberFrom]
    exact (List.nodup_range' _).map functionName_injective
  · rw [names_numberFrom, List.length_map, List.length_range', ← htables, tablesOf,
      List.length_filterMap_eq_countP]
    rfl
  · rw [hblock, lines_block_rendered htells hne]
  · rw [hblock, hnil]
    rfl

/-- What a source of a file comes to on its own. -/
def outcomeOf (config : Config) (resolver : AliasResolver) (search : Search) (importer source : Text) :
    Except Failure CallSite :=
  (CallSite.compile config resolver search source importer).outcome

/-- What the sources of a file come to, each on its own. -/
def outcomesOf (config : Config) (resolver : AliasResolver) (search : Search) (importer : Text)
    (sources : List Text) : List (Except Failure CallSite) :=
  sources.map (outcomeOf config resolver search importer)

variable {config : Config} {resolver : AliasResolver} {search : Search} {sources : List Text} {importer : Text}

/-- Outcomes that are all caught come to a list of their own. -/
theorem exists_caught {outcome : Text → Except Failure CallSite} {sources : List Text}
    (hcaught : ∀ source ∈ sources, (caught? (outcome source)).isSome) :
    ∃ xs : List (Except ImportError CallSite), (sources.map outcome).map caught? = xs.map some := by
  induction sources with
  | nil => exact ⟨[], rfl⟩
  | cons source sources ih =>
    obtain ⟨x, hx⟩ := Option.isSome_iff_exists.mp (hcaught source List.mem_cons_self)
    obtain ⟨xs, hxs⟩ := ih fun s hs => hcaught s (List.mem_cons_of_mem _ hs)
    exact ⟨x :: xs, by rw [List.map_cons, List.map_cons, List.map_cons, hx, hxs]⟩

/-- Two dispatches with a rejection and an import as it is written between them. -/
def mixedSources : List Text :=
  ["import(`./a/${id}.js`)".toList, "import(id)".toList, "import('./a/x.js')".toList,
    "import(`./a/x${id}`)".toList]

end Batch

end VariableImport
