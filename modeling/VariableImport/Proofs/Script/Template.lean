import VariableImport.Proofs.Expression.Template
import VariableImport.Proofs.Script.FirstReading
import VariableImport.Proofs.Script.ImportArgument

/-!
# Proofs/Script/Template — templates keep all their pieces

A template is written as raw text with expressions in it, each between `$\x7b` and `\x7d`.  Read in place,
an expression takes just its source, since the scan of characters cannot pass the closing brace; so the
template is read as its fragments and the first readings of its expressions (`firstReading_templateText`),
and parsed it is the template of these parts (`template_keeps_pieces`).
-/

namespace VariableImport.Script

open Reader Scan

variable {q r s t w : Text} {tree : Tree} {opens : Bool}

/-! ## Raw text -/

theorem isRaw_iff : IsRaw q ↔ templateBody (q ++ closing false) = some (q, false, []) := by
  rw [templateBody_eq_some_iff, List.append_nil, and_iff_left rfl]

instance (q : Text) : Decidable (IsRaw q) := decidable_of_iff _ isRaw_iff.symm

/-- Raw text lasts up to the end of a template or the start of an expression. -/
theorem IsRaw.templateBody_eq (h : IsRaw q) (opens : Bool) (t : Text) :
    templateBody (q ++ (closing opens ++ t)) = some (q, opens, t) := templateBody_eq_some_iff.mpr ⟨h, rfl⟩

/-- **A part of a template** is read as its raw text, if it ends as it should. -/
theorem IsRaw.templatePart_eq (h : IsRaw q) (o : Char) (opens opens' : Bool) (t : Text) :
    templatePart o opens (o :: (q ++ (closing opens' ++ t))) = if opens' = opens then some (q, t) else none := by
  simp [templatePart, h.templateBody_eq]

/-! ## Templates as texts -/

/-- An expression in a template, what it is parsed as, and the raw text behind it. -/
structure Hole where
  source : Text
  value : Expression
  quasi : Text

/-- An expression in its braces with the text behind it. -/
def Hole.text (h : Hole) : Text := '$' :: '\x7b' :: (h.source ++ '\x7d' :: h.quasi)

/-- **A template as it is written**: its first fragment, then expressions with the fragments behind them. -/
def templateText (head : Text) (holes : List Hole) : Text :=
  '`' :: (head ++ (holes.flatMap Hole.text ++ ['`']))

/-- The parts of a template as they are written. -/
def templateParts (head : Text) (holes : List Hole) : List Template.Part :=
  .static head :: holes.flatMap fun h => [.hole h.value, .static h.quasi]

theorem templateParts_eq (head : Text) (holes : List Hole) : templateParts head holes =
    .static head :: Template.behind (holes.map fun h => (h.value, h.quasi)) := by
  rw [templateParts, Template.behind, List.flatMap_map]

/-- **A sound expression in a template**: it has neither blanks at its ends nor comments, is no import call
and is parsed as the value, and the text behind it is raw. -/
structure Hole.IsSound (h : Hole) : Prop where
  trim_eq : Text.trim h.source = h.source
  clean : Clean {} h.source
  found_importCall : (importCall h.source).found = []
  parse_eq : parse h.source = .ok h.value
  isRaw : IsRaw h.quasi

/-- An expression in a template and its first reading. -/
structure Hole.Reads (h : Hole) (tree : Tree) : Prop where
  isExpression : IsExpression h.source
  firstReading_eq : firstReading h.source = some tree
  toExpression_eq : tree.toExpression = some h.value
  isRaw : IsRaw h.quasi

theorem Hole.IsSound.exists_reads {h : Hole} (hsound : h.IsSound) : ∃ tree, h.Reads tree := by
  have hexpression := isExpression_of_parse hsound.trim_eq hsound.clean hsound.found_importCall hsound.parse_eq
  obtain ⟨tree, htree⟩ := exists_firstReading hexpression
  have hvalue := hexpression.parse_eq_ok.mp hsound.parse_eq
  rw [htree] at hvalue
  exact ⟨tree, hexpression, htree, hvalue, hsound.isRaw⟩

/-- What stands behind a fragment: the end, or an expression with its own fragment. -/
def behindQuasi (holes : List Hole) : Text := holes.flatMap Hole.text ++ ['`']

theorem templateText_eq (head : Text) (holes : List Hole) :
    templateText head holes = '`' :: (head ++ behindQuasi holes) := rfl

theorem behindQuasi_nil : behindQuasi [] = closing false ++ [] := rfl

theorem behindQuasi_cons (h : Hole) (holes : List Hole) : behindQuasi (h :: holes) =
    closing true ++ (h.source ++ '\x7d' :: (h.quasi ++ behindQuasi holes)) := by
  simp [behindQuasi, Hole.text, closing]

/-! ## The scan of a template -/

theorem isStack_template : IsStack ['`'] := fun _ hd => .inr (.inr (List.mem_singleton.mp hd))

theorem halts_brace (v : Text) : Halts ('\x7d' :: v) := fun _ hc => .inr (.inr (Option.some.inj hc).symm)

theorem boundary_brace (v : Text) : Boundary ('\x7d' :: v) :=
  (halts_brace v).boundary ⟨[], blanks_nil, rfl⟩

variable {holes : List Hole} {trees : List Tree} {x : List Text × List Tree}

/-- **The scan passes over a template** to its end, from the text of any fragment. -/
theorem runs_quasi (hq : IsRaw q) (hholes : List.Forall₂ Hole.Reads holes trees) :
    Runs { stack := [], quote := some '`' } (q ++ behindQuasi holes) {} [] := by
  induction hholes generalizing q with
  | nil => exact runs_templateBody (hq.templateBody_eq false [])
  | @cons h tree holes trees hreads _ ih =>
    rw [behindQuasi_cons]
    have hbrace : Runs (inCode ['`']) ('\x7d' :: (h.quasi ++ behindQuasi holes)) {} [] :=
      .step (fun ho => by simp [isOutside] at ho) (fun _ _ => rfl) (ih hreads.isRaw)
    exact (runs_templateBody (hq.templateBody_eq true _)).trans
      ((hreads.isExpression.runs_of_isStack isStack_template (boundary_brace _)).trans hbrace)

/-- No comment begins in a template behind the source of an expression. -/
theorem clean_hole {h : Hole} (hreads : h.Reads tree) (hholes : List.Forall₂ Hole.Reads holes trees) :
    Clean (inCode ['`']) (h.source ++ '\x7d' :: (h.quasi ++ behindQuasi holes)) := by
  have hruns := runs_templateBody (S := []) (IsRaw.nil.templateBody_eq true
    (h.source ++ '\x7d' :: (h.quasi ++ behindQuasi holes)))
  have hall := runs_quasi IsRaw.nil (.cons hreads hholes)
  rw [behindQuasi_cons] at hall
  exact hruns.clean.mp (hall.clean.mpr trivial)

/-! ## The expressions of a template -/

/-- What is read behind an expression of a template. -/
def afterHole (x : List Text × List Tree) : Reader Tree :=
  readItems (token .templateMiddle) (fun x q e => (q :: x.1, e :: x.2)) x >>= templateEnd

theorem found_afterHole (x : List Text × List Tree) (s : Text) : (afterHole x s).found =
    (templateEnd x s).found ++ ((token .templateMiddle >>= fun q => expression >>= fun e =>
      afterHole (q :: x.1, e :: x.2)) s).found := by
  refine (found_readItems (Takes.token _)).trans (congrArg _ ?_)
  show List.flatMap (fun y : (List Text × List Tree) × Text => (afterHole y.1 y.2).found) _ = _
  rw [← found_bind _ afterHole, found_assoc, found_bind, found_bind]
  exact List.flatMap_congr fun y _ =>
    found_map_bind expression (fun e => (y.1 :: x.1, e :: x.2)) afterHole y.2

/-- **A template goes on** behind an expression only where a closing brace stands. -/
theorem exists_gap_of_afterHole (h : (afterHole x r).found ≠ []) : ∃ u, Gap r u ∧ Halts u := by
  have hpart {τ : Terminal} (hτ : τ = .templateMiddle ∨ τ = .templateTail) (h : (token τ r).found ≠ []) :
      ∃ u, Gap r u ∧ Halts u := by
    obtain ⟨⟨a, t⟩, hy⟩ := List.exists_mem_of_ne_nil _ h
    obtain ⟨u, hu, hscan⟩ := mem_token.mp hy
    obtain ⟨c, v, rfl, hc⟩ := exists_cons_of_scan hscan
    obtain rfl : c = '\x7d' := by rcases hτ with rfl | rfl <;> exact beq_iff_eq.mp hc
    exact ⟨_, hu, halts_brace v⟩
  rw [found_afterHole, ne_eq, List.append_eq_nil_iff, not_and_or] at h
  rcases h with h | h
  · exact hpart (.inr rfl) fun hnone => h (found_bind_nil hnone _)
  · exact hpart (.inl rfl) fun hnone => h (found_bind_nil hnone _)

/-- A part of a template behind the closing brace. -/
theorem IsRaw.found_part (hq : IsRaw q) {τ : Terminal} (hτ : τ.isToken = true) (hne : τ ≠ .multiplicative)
    (hscan : ∀ s, τ.scan s = templatePart '\x7d' opens s) (opens' : Bool) (t : Text) :
    (token τ ('\x7d' :: (q ++ (closing opens' ++ t)))).found = if opens' = opens then [(q, t)] else [] := by
  rw [found_token_of_ne (self_mem_places _) rfl hτ hne, hscan, hq.templatePart_eq]
  split <;> rfl

/-- **An expression is read in place** as its first reading alone. -/
theorem head?_found_hole {h : Hole} {y : Tree → Tree × Text} (hreads : h.Reads tree)
    (hholes : List.Forall₂ Hole.Reads holes trees) {F : Tree → List Text × List Tree}
    (hin : ∀ e, (afterHole (F e) ('\x7d' :: (h.quasi ++ behindQuasi holes))).found.head? = some (y e)) :
    ((expression >>= fun e => afterHole (F e))
      (h.source ++ '\x7d' :: (h.quasi ++ behindQuasi holes))).found.head? = some (y tree) := by
  have hclean := clean_hole hreads hholes
  have := head?_bind_of_unique hreads.isExpression blanks_nil (boundary_brace _) (F := fun e => afterHole (F e))
    (fun e r hmem hfound => eq_of_mem_of_halts isStack_template hreads.isExpression blanks_nil
      ⟨_, ⟨[], blanks_nil, rfl⟩, halts_brace _⟩ hclean hmem (exists_gap_of_afterHole hfound)) hin
  rwa [hreads.firstReading_eq] at this

/-- **The expressions of a template** are read one after another, each as its first reading. -/
theorem head?_found_afterHole (hq : IsRaw q) (hholes : List.Forall₂ Hole.Reads holes trees)
    (x : List Text × List Tree) : (afterHole x ('\x7d' :: (q ++ behindQuasi holes))).found.head? =
      some (.template (x.1.reverse ++ q :: holes.map Hole.quasi) (x.2.reverse ++ trees), []) := by
  induction hholes generalizing q x with
  | nil =>
    have htail := hq.found_part (τ := .templateTail) rfl (by simp) (fun _ => rfl) false []
    rw [behindQuasi_nil, found_afterHole, templateEnd, found_bind_of_eq htail, List.head?_append]
    simp only [List.reverse_cons, List.map_nil, List.append_nil]
    rfl
  | cons hreads hholes ih =>
    have htail := hq.found_part (τ := .templateTail) rfl (by simp) (fun _ => rfl) true
    have hmiddle := hq.found_part (τ := .templateMiddle) rfl (by simp) (fun _ => rfl) true
    rw [behindQuasi_cons, found_afterHole, templateEnd, found_bind_nil (htail _), List.nil_append,
      found_bind_of_eq (hmiddle _), head?_found_hole hreads hholes fun e => ih hreads.isRaw _]
    simp

/-! ## Templates -/

/-- **A template is read** as its fragments and the first readings of its expressions. -/
theorem firstReading_templateText (hhead : IsRaw w) (hholes : List.Forall₂ Hole.Reads holes trees) :
    firstReading (templateText w holes) = some (.template (w :: holes.map Hole.quasi) trees) := by
  have hprimary : (Level.primary.reader (templateText w holes)).found.head? =
      some (.template (w :: holes.map Hole.quasi) trees, []) := by
    rw [templateText_eq]
    cases hholes with
    | nil =>
      have hscan : Terminal.plainTemplate.scan ('`' :: (w ++ behindQuasi [])) = some (w, []) :=
        hhead.templatePart_eq '`' false false []
      rw [found_primary_of_scan (self_mem_places _) rfl (by decide) (by simp) hscan]
      rfl
    | @cons h tree holes trees hreads hholes =>
      have hscan : Terminal.templateHead.scan ('`' :: (w ++ behindQuasi (h :: holes))) =
          some (w, h.source ++ '\x7d' :: (h.quasi ++ behindQuasi holes)) := by
        rw [behindQuasi_cons]
        exact hhead.templatePart_eq '`' true true _
      rw [found_primary_of_scan (self_mem_places _) rfl (by decide) (by simp) hscan]
      exact head?_found_hole hreads hholes fun e => head?_found_afterHole hreads.isRaw hholes ([w], [e])
  obtain ⟨k, hk⟩ := List.head?_eq_some_iff.mp (head?_expression hprimary)
  rw [firstReading, hk, List.find?_cons_of_pos (by simp)]
  rfl

/-- **A template is an expression.** -/
theorem isExpression_templateText (hhead : IsRaw w) (hholes : List.Forall₂ Hole.Reads holes trees) :
    IsExpression (templateText w holes) := by
  have hruns : Runs {} (templateText w holes) {} [] :=
    (runs_quote (.inr (.inr rfl)) _).trans (runs_quasi hhead hholes)
  exact isExpression_iff.mpr ⟨rfl, hruns.clean.mpr trivial,
    by rw [firstReading_templateText hhead hholes]; rfl⟩

theorem toExpressions_eq (hholes : List.Forall₂ Hole.Reads holes trees) :
    toExpressions trees = some (holes.map Hole.value) := by
  induction hholes with
  | nil => rfl
  | cons hreads _ ih =>
    rw [toExpressions, hreads.toExpression_eq, ih]
    rfl

theorem exists_reads_of_isSound (hsound : ∀ h ∈ holes, h.IsSound) :
    ∃ trees, List.Forall₂ Hole.Reads holes trees := by
  induction holes with
  | nil => exact ⟨[], .nil⟩
  | cons h holes ih =>
    obtain ⟨hh, hmore⟩ := List.forall_mem_cons.mp hsound
    obtain ⟨tree, htree⟩ := hh.exists_reads
    obtain ⟨trees, htrees⟩ := ih hmore
    exact ⟨tree :: trees, .cons htree htrees⟩

/-- **A template of raw text and sound expressions** is parsed as the template of its parts. -/
theorem parse_templateText (hhead : IsRaw w) (hsound : ∀ h ∈ holes, h.IsSound) :
    parse (templateText w holes) = .ok (Template.ofParts (templateParts w holes)) := by
  obtain ⟨trees, hholes⟩ := exists_reads_of_isSound hsound
  rw [(isExpression_templateText hhead hholes).parse_eq_ok, firstReading_templateText hhead hholes,
    Option.bind_some, Tree.toExpression, toExpressions_eq hholes, templateParts_eq]
  simp [Template.ofParts_alternating, Function.comp_def]

/-- **Templates keep all their pieces.**  A template of raw text and sound expressions is parsed as the
template of its parts, and a template of any parts keeps them. -/
theorem template_keeps_pieces :
    (∀ (head : Text) (holes : List Hole), IsRaw head → (∀ h ∈ holes, h.IsSound) →
      parse (templateText head holes) = .ok (Template.ofParts (templateParts head holes))) ∧
    ∀ parts : List Template.Part, Template.KeepsParts parts (Template.ofParts parts) :=
  ⟨fun _ _ => parse_templateText, Template.keepsParts_ofParts⟩

/-- A template in a template and a brace in a string. -/
def nestedHoles : List Hole :=
  [⟨"`b$\x7bc\x7d.js`".toList, .template [['b'], ".js".toList] [.identifier ['c']], ['$']⟩,
    ⟨"'\x7d'".toList, .literal ['\x7d'], ".js".toList⟩]

/-- Escapes, a template in a template and a brace in a string are kept. -/
theorem template_keeps_pieces_nested :
    (IsRaw "./\\`\\$\x7b$".toList ∧ ∀ h ∈ nestedHoles, h.IsSound) ∧
      parse "`./\\`\\$\x7b$$\x7b`b$\x7bc\x7d.js`\x7d$$\x7b'\x7d'\x7d.js`".toList =
        .ok (.template ["./\\`\\$\x7b$".toList, ['$'], ".js".toList]
          [.template [['b'], ".js".toList] [.identifier ['c']], .literal ['\x7d']]) := by
  have hraw : IsRaw "./\\`\\$\x7b$".toList := by decide +kernel
  have hsound : ∀ h ∈ nestedHoles, h.IsSound := by
    rw [nestedHoles, String.toList_ofList]
    refine List.forall_mem_cons.mpr ⟨?_, List.forall_mem_cons.mpr ⟨?_, fun _ h => absurd h List.not_mem_nil⟩⟩
    all_goals exact ⟨by decide +kernel, by decide +kernel, by decide +kernel, rfl, by decide +kernel⟩
  have htext : "`./\\`\\$\x7b$$\x7b`b$\x7bc\x7d.js`\x7d$$\x7b'\x7d'\x7d.js`".toList =
      templateText "./\\`\\$\x7b$".toList nestedHoles := by
    decide +kernel
  refine ⟨⟨hraw, hsound⟩, ?_⟩
  rw [htext]
  exact template_keeps_pieces.1 _ _ hraw hsound

end VariableImport.Script
