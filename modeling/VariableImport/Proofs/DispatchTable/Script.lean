import Mathlib.Data.Int.Notation
import VariableImport.DispatchTable.Script
import VariableImport.Proofs.Json.Literal
import VariableImport.Proofs.Text.Lines
import VariableImport.Proofs.Text.Replace

/-!
# Proofs/DispatchTable/Script — what the source of a function tells of its entries

The source of a function is a template in which the name and then the lines of the entries are put in
(`renderFunction_eq_replace`).  Every entry is written on one line of printable ASCII, from which it is
read back (`isLineOf_entryLine`), so an entry neither leaves its line nor looks like a comment of the block.
Only the name can: **the comments around the functions are the only ones of their kind exactly if no line of
a header is such a comment** (`encodes_renderBlock`).
-/

namespace VariableImport.DispatchTable

open Text (EndsInLine)

variable {name lines : Text} {entries : List (Text × Text)} {entry : Text × Text} {written : List Text}

/-! ## The template -/

/-- The text that stands for the name until it is put in. -/
def nameMark : Text := "__RUNTIME_NAME__".toList

/-- The source of a function before its name and its lines are put in. -/
def template : Text := functionText nameMark linesMark

/-- The first line of a function, or its first lines if the name has line breaks. -/
def header (name : Text) : Text := "function ".toList ++ (name ++ "(path) \x7b".toList)

/-- The line before the entries. -/
def opening : Text := "  var modules = \x7b".toList

/-- The lines after the entries. -/
def closing : Text :=
  "  \x7d;\n".toList ++
    "  if (Object.prototype.hasOwnProperty.call(modules, path)) \x7b\n".toList ++
    "    return modules[path]();\n  \x7d\n".toList ++
    "  return new Promise(function (resolve, reject) \x7b\n".toList ++
    "    (typeof queueMicrotask === 'function' ? queueMicrotask : setTimeout)(\n".toList ++
    "      reject.bind(null, new Error(\"Unknown variable dynamic import: \" + path))\n".toList ++
    "    );\n  \x7d);\n\x7d".toList

theorem header_eq (name : Text) :
    header name = "function".toList ++ ' ' :: (name ++ '(' :: "path) \x7b".toList) := by
  have hfunction : "function ".toList = "function".toList ++ [' '] := by decide +kernel
  have hpath : "(path) \x7b".toList = '(' :: "path) \x7b".toList := by decide +kernel
  unfold header
  simp only [hfunction, hpath, List.append_assoc, List.singleton_append]

theorem functionText_eq (name lines : Text) :
    functionText name lines = header name ++ '\n' :: (opening ++ '\n' :: (lines ++ '\n' :: closing)) := by
  have hopening : "(path) \x7b\n  var modules = \x7b\n".toList =
      "(path) \x7b".toList ++ '\n' :: (opening ++ ['\n']) := by decide +kernel
  have hclosing : "\n  \x7d;\n".toList = '\n' :: "  \x7d;\n".toList := by decide +kernel
  unfold functionText header closing
  simp only [hopening, hclosing, List.append_assoc, List.cons_append, List.nil_append]

/-- The fixed text of the template, cut at characters that no mark holds. -/
def fixedParts : List Text := ["function".toList, "path) \x7b".toList, opening, closing]

theorem not_mem_fixedParts : ∀ part ∈ fixedParts, '_' ∉ part := by decide +kernel

/-- **Only in the name and in the lines** is a mark replaced. -/
theorem replace_functionText {mark : Text} (hmark : '_' ∈ mark) (hblank : ' ' ∉ mark)
    (hparenthesis : '(' ∉ mark) (hnewline : '\n' ∉ mark) (new : Text) :
    Text.replace (functionText name lines) mark new =
      functionText (Text.replace name mark new) (Text.replace lines mark new) := by
  have hne : mark ≠ [] := List.ne_nil_of_mem hmark
  have hfixed := fun part hpart => Text.contains_eq_false hmark (not_mem_fixedParts part hpart)
  simp only [fixedParts, List.forall_mem_cons] at hfixed
  obtain ⟨hfunction, hpath, hopening, hclosing, -⟩ := hfixed
  have hheader : Text.replace (header name) mark new = header (Text.replace name mark new) := by
    rw [header_eq, Text.replace_append_cons hne hblank, Text.replace_append_cons hne hparenthesis,
      Text.replace_eq_self hne hfunction, Text.replace_eq_self hne hpath, ← header_eq]
  rw [functionText_eq, Text.replace_append_cons hne hnewline, Text.replace_append_cons hne hnewline,
    Text.replace_append_cons hne hnewline, hheader, Text.replace_eq_self hne hopening,
    Text.replace_eq_self hne hclosing, ← functionText_eq]

/-- **The source of a function is the template** with the name and then the lines put in. -/
theorem renderFunction_eq_replace (name : Text) (entries : List (Text × Text)) :
    renderFunction name entries =
      Text.replace (Text.replace template nameMark name) linesMark
        (Text.join ['\n'] (entries.map entryLine)) := by
  have hlines : Text.replace linesMark nameMark name = linesMark :=
    Text.replace_eq_self (by decide) (by decide +kernel) name
  rw [template, replace_functionText (by decide) (by decide) (by decide) (by decide), hlines,
    Text.replace_self (by decide), replace_functionText (by decide) (by decide) (by decide) (by decide),
    Text.replace_self (by decide)]
  rfl

/-- A name without the mark of the lines stays as it is. -/
theorem renderFunction_eq (hname : name.contains linesMark = false) (entries : List (Text × Text)) :
    renderFunction name entries = functionText name (Text.join ['\n'] (entries.map entryLine)) := by
  rw [renderFunction, Text.replace_eq_self (by decide) hname]

/-! ## The lines of the entries -/

/-- The entry that a line tells: the text of its first literal and the one that it imports. -/
def readEntry? (line : Text) : Option (Text × Text) := do
  let rest ← "    \"".toList.isPrefixOf? line
  let (specifier, rest) ← (Json.string rest).toOption
  let rest ← ": function () \x7b return import(\"".toList.isPrefixOf? rest
  let (file, rest) ← (Json.string rest).toOption
  if rest = "); \x7d,".toList then some (specifier, file) else none

/-- Whether a text is a line of printable ASCII from which an entry is read. -/
structure IsLineOf (entry : Text × Text) (line : Text) : Prop where
  ascii : ∀ c ∈ line, 32 ≤ c.toNat ∧ c.toNat ≤ 126
  lines_eq : Text.lines line = [line]
  readEntry?_eq : readEntry? line = some entry

theorem entryLine_eq (entry : Text × Text) :
    entryLine entry = "    \"".toList ++ (entry.1.flatMap Json.encodeChar ++ '"' ::
      (": function () \x7b return import(\"".toList ++ (entry.2.flatMap Json.encodeChar ++ '"' ::
        "); \x7d,".toList))) := by
  have hblanks : "    \"".toList = "    ".toList ++ ['"'] := by decide +kernel
  have himport : ": function () \x7b return import(\"".toList =
      ": function () \x7b return import(".toList ++ ['"'] := by decide +kernel
  unfold entryLine Json.encodeText
  simp only [hblanks, himport, List.append_assoc, List.cons_append, List.nil_append]

/-- **The entry is read back** from its line. -/
theorem readEntry?_entryLine (entry : Text × Text) : readEntry? (entryLine entry) = some entry := by
  have hhead (part t : Text) : part.isPrefixOf? (part ++ t) = some t := Text.isPrefixOf?_eq_some.mpr rfl
  have hliteral (s t : Text) :
      (Json.string (s.flatMap Json.encodeChar ++ '"' :: t)).toOption = some (s, t) := by
    rw [Json.string_flatMap]
    rfl
  rw [entryLine_eq]
  unfold readEntry?
  simp only [hhead, hliteral, Option.bind_eq_bind, Option.bind_some, if_true]

theorem ascii_entryLine {c : Char} (hc : c ∈ entryLine entry) : 32 ≤ c.toNat ∧ c.toNat ≤ 126 := by
  have hfixed : ∀ part ∈ ["    ".toList, ": function () \x7b return import(".toList, "); \x7d,".toList],
      part.all (fun d => 32 ≤ d.toNat && d.toNat ≤ 126) = true := by decide +kernel
  simp only [List.forall_mem_cons, List.all_eq_true, Bool.and_eq_true, decide_eq_true_eq] at hfixed
  obtain ⟨hblanks, himport, hend, -⟩ := hfixed
  unfold entryLine at hc
  simp only [List.mem_append] at hc
  rcases hc with (((hc | hc) | hc) | hc) | hc
  · exact hblanks c hc
  · exact Json.bounds_of_mem_encodeText hc
  · exact himport c hc
  · exact Json.bounds_of_mem_encodeText hc
  · exact hend c hc

/-- Printable ASCII ends no line. -/
theorem isLineBreak_of_ascii {c : Char} (h : 32 ≤ c.toNat ∧ c.toNat ≤ 126) : Text.isLineBreak c = false := by
  refine Bool.eq_false_iff.mpr fun hbreak => ?_
  simp only [Text.isLineBreak, Bool.or_eq_true, Bool.and_eq_true, decide_eq_true_eq, beq_iff_eq] at hbreak
  omega

theorem entryLine_ne_nil (entry : Text × Text) : entryLine entry ≠ [] := by
  rw [entryLine_eq]
  exact List.append_ne_nil_of_left_ne_nil (by decide) _

/-- **An entry is written on one line** and read back from it. -/
theorem isLineOf_entryLine (entry : Text × Text) : IsLineOf entry (entryLine entry) where
  ascii _ hc := ascii_entryLine hc
  lines_eq := Text.lines_eq_singleton (entryLine_ne_nil entry) fun _ hc =>
    isLineBreak_of_ascii (ascii_entryLine hc)
  readEntry?_eq := readEntry?_entryLine entry

/-- Whether a source is the template with a name and one line for every entry, in order, put in. -/
def Encodes (source name : Text) (entries : List (Text × Text)) : Prop :=
  ∃ line : Text × Text → Text, (∀ entry ∈ entries, IsLineOf entry (line entry)) ∧
    source = functionText name (Text.join ['\n'] (entries.map line))

/-- **A function tells its entries**, whatever their texts. -/
theorem encodes_renderFunction (hname : name.contains linesMark = false) (entries : List (Text × Text)) :
    Encodes (renderFunction name entries) name entries :=
  ⟨entryLine, fun entry _ => isLineOf_entryLine entry, renderFunction_eq hname entries⟩

/-! ## The lines of a block -/

/-- The comments around the functions of a file. -/
def markers : List Text := [startMarker, endMarker]

theorem IsLineOf.ne_nil {line : Text} (h : IsLineOf entry line) : line ≠ [] := by
  rintro rfl
  exact absurd h.lines_eq (by decide)

theorem IsLineOf.endsInLine {line : Text} (h : IsLineOf entry line) : EndsInLine line :=
  Text.endsInLine_of_forall h.ne_nil fun _ hc => isLineBreak_of_ascii (h.ascii _ hc)

/-- **A line of an entry is no comment of the block**: an entry is read from it. -/
theorem IsLineOf.not_mem_markers {line : Text} (h : IsLineOf entry line) : line ∉ markers := by
  have hnone : ∀ line ∈ markers, readEntry? line = none := by decide +kernel
  intro hline
  have hread := h.readEntry?_eq
  rw [hnone line hline] at hread
  exact absurd hread (by simp)

theorem endsInLine_header (name : Text) : EndsInLine (header name) :=
  .append _ (.append _ ⟨'\x7b', by decide, by decide⟩)

theorem endsInLine_functionText (name lines : Text) : EndsInLine (functionText name lines) :=
  .append _ ⟨'\x7d', by decide, by decide⟩

/-- The lines of a function: without an entry there is an empty line in their place. -/
theorem lines_functionText (hends : ∀ line ∈ written, EndsInLine line)
    (hlines : ∀ line ∈ written, Text.lines line = [line]) (name : Text) :
    Text.lines (functionText name (Text.join ['\n'] written)) =
      Text.lines (header name) ++ opening ::
        ((if written = [] then [[]] else written) ++ Text.lines closing) := by
  have hopening : Text.lines opening = [opening] := by decide +kernel
  have hend : EndsInLine opening := ⟨'\x7b', by decide, by decide⟩
  rw [functionText_eq, Text.lines_append_newline (endsInLine_header name),
    Text.lines_append_newline hend, hopening, List.singleton_append]
  by_cases h : written = []
  · rw [if_pos h, h]
    rfl
  · rw [if_neg h, Text.lines_append_newline (.join hends h), Text.lines_join hends,
      List.flatMap_congr hlines, List.flatMap_singleton']

variable {source line : Text}

theorem Encodes.endsInLine (h : Encodes source name entries) : EndsInLine source := by
  obtain ⟨_, -, rfl⟩ := h
  exact endsInLine_functionText name _

/-- **Only the header of a function** may hold a comment of the block. -/
theorem Encodes.mem_lines_iff (h : Encodes source name entries) (hmarker : line ∈ markers) :
    line ∈ Text.lines source ↔ line ∈ Text.lines (header name) := by
  obtain ⟨write, hwrite, rfl⟩ := h
  have hentries : ∀ l ∈ entries.map write, EndsInLine l ∧ Text.lines l = [l] ∧ l ∉ markers := by
    intro l hl
    obtain ⟨entry, hentry, rfl⟩ := List.mem_map.mp hl
    have hline := hwrite entry hentry
    exact ⟨hline.endsInLine, hline.lines_eq, hline.not_mem_markers⟩
  have hfixed : ∀ l ∈ opening :: [] :: Text.lines closing, l ∉ markers := by decide +kernel
  rw [lines_functionText (fun l hl => (hentries l hl).1) (fun l hl => (hentries l hl).2.1),
    List.mem_append, List.mem_cons, List.mem_append]
  refine or_iff_left ?_
  rintro (rfl | hbody | hclosing)
  · exact hfixed _ (List.mem_cons_self ..) hmarker
  · split at hbody
    · exact hfixed line (List.mem_cons_of_mem _ (List.mem_singleton.mp hbody ▸ List.mem_cons_self ..)) hmarker
    · exact (hentries line hbody).2.2 hmarker
  · exact hfixed line (List.mem_cons_of_mem _ (List.mem_cons_of_mem _ hclosing)) hmarker

theorem endsInLine_startMarker : EndsInLine startMarker := .append _ ⟨'-', by decide, by decide⟩

theorem endsInLine_endMarker : EndsInLine endMarker := .append _ ⟨'-', by decide, by decide⟩

/-- **A block is its functions between two comments**, each on lines of its own. -/
theorem lines_renderBlock {sources : List Text} (hne : sources ≠ []) (hends : ∀ s ∈ sources, EndsInLine s) :
    Text.lines (renderBlock sources) = startMarker :: (sources.flatMap Text.lines ++ [endMarker]) := by
  have hstart : Text.lines startMarker = [startMarker] := by decide +kernel
  have hend : Text.lines endMarker = [endMarker] := by decide +kernel
  have hall : ∀ s ∈ startMarker :: sources ++ [endMarker], EndsInLine s := by
    intro s hs
    rw [List.cons_append, List.mem_cons, List.mem_append, List.mem_singleton] at hs
    rcases hs with rfl | hs | rfl
    · exact endsInLine_startMarker
    · exact hends s hs
    · exact endsInLine_endMarker
  rw [renderBlock, if_neg hne, Text.lines_join hall, List.cons_append, List.flatMap_cons, List.flatMap_append,
    List.flatMap_singleton, hstart, hend, List.singleton_append]

/-- **A header with a name on one line** is no comment of the block. -/
theorem not_mem_lines_header (hname : ∀ c ∈ name, Text.isLineBreak c = false) (hmarker : line ∈ markers) :
    line ∉ Text.lines (header name) := by
  have hslash : ∀ l ∈ markers, l.head? = some '/' := by decide +kernel
  have hfixed : ∀ part ∈ ["function ".toList, "(path) \x7b".toList],
      part.all (fun c => !Text.isLineBreak c) = true := by decide +kernel
  have hbreaks : ∀ c ∈ header name, Text.isLineBreak c = false := by
    simp only [List.forall_mem_cons, List.all_eq_true, Bool.not_eq_true'] at hfixed
    intro c hc
    unfold header at hc
    simp only [List.mem_append] at hc
    rcases hc with hc | hc | hc
    · exact hfixed.1 c hc
    · exact hname c hc
    · exact hfixed.2.1 c hc
  rw [Text.lines_eq_singleton (endsInLine_header name).ne_nil hbreaks, List.mem_singleton]
  rintro rfl
  have hhead : (header name).head? = some 'f' := rfl
  exact absurd (hhead.symm.trans (hslash _ hmarker)) (by decide)

/-! ## The functions of a file -/

/-- The characters of a numeral. -/
theorem isDigit_of_mem_ofInt {c : Char} {n : ℤ} (hc : c ∈ Text.ofInt n) : c = '-' ∨ c.isDigit = true := by
  have hdigits (m : ℕ) (h : c ∈ m.repr.toList) : c.isDigit = true := by
    rw [Nat.toList_repr] at h
    exact Nat.isDigit_of_mem_toDigits (by decide) (by decide) h
  cases n with
  | ofNat m => exact .inr (hdigits m hc)
  | negSucc m =>
    have hc : c ∈ ("-" ++ m.succ.repr).toList := hc
    rw [String.toList_append, List.mem_append] at hc
    exact hc.imp (fun h => List.mem_singleton.mp h) (hdigits m.succ)

theorem isDigit_bounds {c : Char} (h : c.isDigit = true) : 48 ≤ c.toNat ∧ c.toNat ≤ 57 := by
  simpa [Char.isDigit, UInt32.le_iff_toNat_le] using h

/-- **The names that call sites are given** hold neither the mark of the lines nor line breaks. -/
theorem functionName_plain (index : ℤ) :
    (functionName index).contains linesMark = false ∧
      ∀ c ∈ functionName index, Text.isLineBreak c = false := by
  have hfixed : ∀ part ∈ ["__variableDynamicImportRuntime".toList, "__".toList],
      part.all (fun c => c != 'M' && !Text.isLineBreak c) = true := by decide +kernel
  have hall : ∀ c ∈ functionName index, c ≠ 'M' ∧ Text.isLineBreak c = false := by
    simp only [List.forall_mem_cons, List.all_eq_true, Bool.and_eq_true, bne_iff_ne, Bool.not_eq_true']
      at hfixed
    intro c hc
    unfold functionName at hc
    simp only [List.mem_append] at hc
    rcases hc with (hc | hc) | hc
    · exact hfixed.1 c hc
    · rcases isDigit_of_mem_ofInt hc with rfl | hdigit
      · decide
      · have hbounds := isDigit_bounds hdigit
        refine ⟨?_, isLineBreak_of_ascii ⟨by omega, by omega⟩⟩
        rintro rfl
        exact absurd hdigit (by decide)
    · exact hfixed.2.1 c hc
  exact ⟨Text.contains_eq_false (by decide : 'M' ∈ linesMark) fun h => (hall _ h).1 rfl,
    fun c hc => (hall c hc).2⟩

/-- **Under such a name** a function tells its table, and none of its lines is a comment of the block. -/
theorem encodes_render (table : DispatchTable) (index : ℤ) :
    Encodes (table.render (functionName index)) (functionName index) table.entries ∧
      ∀ line ∈ Text.lines (table.render (functionName index)), line ∉ markers := by
  obtain ⟨hmark, hbreaks⟩ := functionName_plain index
  have hencodes : Encodes (table.render (functionName index)) (functionName index) table.entries :=
    encodes_renderFunction hmark table.entries
  exact ⟨hencodes, fun line hline hmarker =>
    not_mem_lines_header hbreaks hmarker ((hencodes.mem_lines_iff hmarker).mp hline)⟩

end VariableImport.DispatchTable
