import VariableImport.Proofs.Script.Calls
import VariableImport.Script.Parse

/-!
# Proofs/Script/ImportCall — how calls and their arguments are read

The first reading of an import call is made of the first readings of its arguments
(`IsCall.head?_found`), and the first reading of an argument as a source of its own is its first
reading as an expression (`IsExpression.head?_found`): no expression is an import call.
-/

namespace VariableImport.Script

open Reader Scan

variable {α β γ : Type} {A s t r : Text} {B : Option Text}

/-! ## Reading marks -/

/-- Behind blanks a mark is read where it stands. -/
theorem found_mark {g : Text} {c : Char} (hc : c = '(' ∨ c = ',' ∨ c = ')') (hg : Blanks g)
    (hcomment : startsComment s = false) (hs : ∀ d ∈ s.head?, isGapBlank d = false) :
    (mark c (g ++ s)).found = (oneOf [[c]] s).toList.map fun x => ((), x.2) := by
  have hf : ∃ m', (Mode.admitting (.mark c)).follow (.mark c) = some m' := by
    rcases hc with rfl | rfl | rfl
    all_goals exact ⟨_, rfl⟩
  obtain ⟨m', hf⟩ := hf
  show ((token (.mark c) >>= fun _ => pure ()) (g ++ s)).found = _
  rw [found_bind, found_token hf hg hcomment hs]
  show (oneOf [[c]] s).toList.flatMap (fun x => [((), x.2)]) = _
  cases oneOf [[c]] s <;> rfl

theorem found_mark_self {g : Text} {c : Char} (hc : c = '(' ∨ c = ',' ∨ c = ')') (hg : Blanks g)
    (t : Text) : (mark c (g ++ c :: t)).found = [((), t)] := by
  have hslash : c ≠ '/' := by rcases hc with rfl | rfl | rfl <;> decide
  have hblank : isGapBlank c = false := by rcases hc with rfl | rfl | rfl <;> decide
  rw [found_mark hc hg (startsComment_of_ne hslash t) fun d hd => Option.some.inj hd ▸ hblank]
  simp [oneOf]

theorem found_mark_nil {g : Text} {c d : Char} (hc : c = '(' ∨ c = ',' ∨ c = ')') (hg : Blanks g)
    (hcomment : startsComment (d :: t) = false) (hd : isGapBlank d = false) (hne : c ≠ d) :
    (mark c (g ++ d :: t)).found = [] := by
  rw [found_mark hc hg hcomment fun e he => Option.some.inj he ▸ hd]
  simp [oneOf, hne]

/-- A mark that is found may end what stands before it. -/
theorem mayEnd_of_mark {c : Char} (hc : c = ',' ∨ c = ')') (h : (mark c r).found ≠ []) :
    MayEnd r := by
  obtain ⟨x, hx⟩ := List.exists_mem_of_ne_nil _ h
  obtain ⟨a, u, ha, -⟩ := mem_bind.mp (show (x.1, x.2) ∈ _ from hx)
  obtain ⟨v, hv, hscan⟩ := mem_token.mp ha
  refine ⟨v, hv, fun d hd => ?_⟩
  rw [mark_eq hscan] at hd
  exact Option.some.inj hd ▸ hc

/-! ## Reading calls -/

theorem found_assoc (p : Reader α) (f : α → Reader β) (h : β → Reader γ) (s : Text) :
    (((p >>= f) >>= h) s).found = ((p >>= fun a => f a >>= h) s).found := by
  simp only [found_bind, List.flatMap_assoc]

theorem found_orElse_bind (p q : Reader α) (f : α → Reader β) (s : Text) :
    (((p <|> q) >>= f) s).found = ((p >>= f) s).found ++ ((q >>= f) s).found := by
  rw [found_bind, found_bind, found_bind, ← List.flatMap_append]
  rfl

/-- Reading on after the only result. -/
theorem found_bind_of_eq {p : Reader α} {a : α} (h : (p s).found = [(a, t)]) (f : α → Reader β) :
    ((p >>= f) s).found = (f a t).found := by
  rw [found_bind, h, List.flatMap_singleton]

/-- Reading on after nothing. -/
theorem found_bind_nil {p : Reader α} (h : (p s).found = []) (f : α → Reader β) :
    ((p >>= f) s).found = [] := by
  rw [found_bind, h, List.flatMap_nil]

/-- The end of arguments, with or without a comma before it. -/
def listEnd (b : β) : Reader β := do
  optionalComma
  mark ')'
  return b

/-- The end of an import call, whatever was read before it. -/
def callEnd (x : Source) : Reader Source := do
  optionalComma
  mark ')'
  return x

/-- The second argument of an import call, if there is one. -/
def secondArgument : Reader (Option Tree) := pure none <|> (do mark ','; return some (← expression))

theorem importCall_eq : importCall = (do
    let _ ← token .importWord
    mark '('
    let argument ← expression
    let options ← secondArgument
    callEnd (.importCall argument options)) := rfl

/-- Reading of a whole text. -/
def toEnd (x : Source) : Reader Source := do
  finish
  return x

theorem source_eq : source = (importCall <|> do return .expression (← expression)) >>= toEnd := rfl

/-- An optional comma is passed over or not. -/
theorem found_listEnd (b : β) (t : Text) : (listEnd b t).found =
    (((mark ')' >>= fun _ => pure b) t).found ++
      ((mark ',' >>= fun _ => mark ')' >>= fun _ => pure b) t).found) := by
  show ((optionalComma >>= fun _ => mark ')' >>= fun _ => pure b) t).found = _
  rw [show optionalComma = (pure () <|> mark ',') from rfl, found_orElse_bind,
    found_bind_of_eq (show ((pure () : Reader Unit) t).found = [((), t)] from rfl)]

theorem found_callEnd (x : Source) (t : Text) : (callEnd x t).found =
    (((mark ')' >>= fun _ => pure x) t).found ++
      ((mark ',' >>= fun _ => mark ')' >>= fun _ => pure x) t).found) := found_listEnd x t

/-- **The end of a call** is read in one way. -/
theorem CallEnd.found (h : CallEnd t) (x : Source) : (callEnd x t).found = [(x, [])] := by
  have hclose {g : Text} (hg : Blanks g) :
      ((mark ')' >>= fun _ => pure x) (g ++ [')'])).found = [(x, [])] := by
    rw [found_bind_of_eq (found_mark_self (by decide) hg [])]
    rfl
  rw [found_callEnd]
  cases h with
  | close hg =>
    rw [hclose hg, found_bind_nil (found_mark_nil (by decide) hg rfl (by decide) (by decide))]
    rfl
  | comma hg hg' =>
    rw [found_bind_nil (found_mark_nil (by decide) hg rfl (by decide) (by decide)),
      found_bind_of_eq (found_mark_self (by decide) hg _), hclose hg']
    rfl

/-- The end of a call is read only where an argument may end. -/
theorem mayEnd_of_callEnd {x : Source} (h : (callEnd x r).found ≠ []) : MayEnd r := by
  rw [found_callEnd, ne_eq, List.append_eq_nil_iff, not_and_or] at h
  rcases h with h | h
  all_goals exact mayEnd_of_mark (by decide) fun hnone => h (found_bind_nil hnone _)

/-- What follows the first argument. -/
def afterArgument (argument : Tree) : Reader Source :=
  (secondArgument >>= fun options => callEnd (.importCall argument options)) >>= toEnd

/-- Without a second argument, or with one. -/
theorem found_afterArgument (e : Tree) (t : Text) : (afterArgument e t).found =
    ((callEnd (.importCall e none) >>= toEnd) t).found ++
      ((mark ',' >>= fun _ => expression >>= fun b =>
        callEnd (.importCall e (some b)) >>= toEnd) t).found := by
  rw [afterArgument, found_assoc, secondArgument, found_orElse_bind,
    found_bind_of_eq (show ((pure none : Reader (Option Tree)) t).found = [(none, t)] from rfl)]
  refine congrArg _ ?_
  rw [found_assoc, found_bind, found_bind]
  refine List.flatMap_congr fun x _ => ?_
  rw [found_assoc, found_bind, found_bind]
  exact List.flatMap_congr fun y _ => found_bind_of_eq rfl _

/-- What follows an argument is read only where it may end. -/
theorem mayEnd_of_afterArgument {e : Tree} (h : (afterArgument e r).found ≠ []) : MayEnd r := by
  rw [found_afterArgument, ne_eq, List.append_eq_nil_iff, not_and_or] at h
  rcases h with h | h
  · exact mayEnd_of_callEnd fun hnone => h (found_bind_nil hnone _)
  · exact mayEnd_of_mark (by decide) fun hnone => h (found_bind_nil hnone _)

/-- **What follows an argument** is read first with the first reading of the second argument. -/
theorem CallTail.head?_found (h : CallTail B t) (e : Tree) : (afterArgument e t).found.head? =
    some (.importCall e (B.bind firstReading), []) := by
  rw [found_afterArgument]
  cases h with
  | last h =>
    rw [found_bind_of_eq (h.found _)]
    rfl
  | @options g g' B t hg hg' hB h =>
    obtain ⟨b, hb⟩ := exists_firstReading hB
    have hnone : (callEnd (.importCall e none) (g ++ ',' :: (g' ++ (B ++ t)))).found = [] := by
      obtain ⟨c, u, hcu, hblank, -, hclose, hcomment⟩ := hB.exists_cons h.ends.boundary
      rw [found_callEnd, found_bind_nil (found_mark_nil (by decide) hg rfl (by decide) (by decide)),
        found_bind_of_eq (found_mark_self (by decide) hg _), hcu, List.nil_append]
      exact found_bind_nil (found_mark_nil (by decide) hg' hcomment
        (isGapBlank_of_not_isBlank hblank) hclose.symm) _
    have hin (b : Tree) : ((callEnd (.importCall e (some b)) >>= toEnd) t).found.head? =
        some (.importCall e (some b), []) := by
      rw [found_bind_of_eq (h.found _)]
      rfl
    have hout (b : Tree) (r : Text)
        (hr : ((callEnd (.importCall e (some b)) >>= toEnd) r).found ≠ []) : MayEnd r :=
      mayEnd_of_callEnd fun hnone => hr (found_bind_nil hnone _)
    rw [found_bind_nil hnone, List.nil_append, found_bind_of_eq (found_mark_self (by decide) hg _),
      head?_expression_bind hB hg' h.ends h.clean hout hin, Option.bind_some, hb]
    rfl

theorem found_importWord (t : Text) :
    (token .importWord (importText ++ t)).found = [(importText, t)] := by
  show (placesWithin (importText ++ t).length (importText ++ t)).filterMap Terminal.importWord.scan = _
  rw [List.length_append, Nat.add_comm, show importText.length = 5 + 1 from rfl, ← Nat.add_assoc,
    tokens_succ]
  rfl

/-- **An import call** is read first with the first readings of its arguments. -/
theorem IsCall.head?_found (h : IsCall s A B) : (source s).found.head? =
    (firstReading A).map fun e => (.importCall e (B.bind firstReading), []) := by
  cases h with
  | mk hg hg' hA h =>
    have hafter := head?_expression_bind (F := afterArgument) hA hg' h.ends h.clean
      (fun e r => mayEnd_of_afterArgument) h.head?_found
    obtain ⟨e, he⟩ := exists_firstReading hA
    rw [source_eq, found_orElse_bind, importCall_eq, found_assoc, found_bind_of_eq (found_importWord _),
      found_assoc, found_bind_of_eq (found_mark_self (by decide) hg _), found_assoc, List.head?_append]
    change ((expression >>= afterArgument) _).found.head?.or _ = _
    rw [hafter, he, Option.map_some, Option.some_or]

/-! ## Reading an argument alone -/

/-- A name that begins with the word of imports goes on with a word character. -/
theorem exists_isWord_of_scan {m m' : Mode} {τ : Terminal} {a u : Text} (hf : m.follow τ = some m')
    (h : τ.scan (importText ++ r) = some (a, u)) : ∃ c v, r = c :: v ∧ Text.isWord c = true := by
  have hstarts : τ.starts 'i' = true := starts_of_scan h
  cases τ with
  | name =>
    obtain ⟨c, v, -, -, hreserved, -⟩ := scanName_eq (s := importText ++ r) h
    have hword := List.any_eq_false.mp hreserved importText (List.mem_cons_self ..)
    rw [Text.isPrefixOf?_eq_some.mpr rfl] at hword
    cases r with
    | nil => simp at hword
    | cons c v => exact ⟨c, v, rfl, by simpa using hword⟩
  | importWord => simp [Mode.follow] at hf
  | mark d =>
    obtain rfl : 'i' = d := beq_iff_eq.mp hstarts
    exact absurd (Mode.follows_of_follow hf).mem_punctuation (by decide)
  | quoted quote =>
    obtain rfl : 'i' = quote := beq_iff_eq.mp hstarts
    exact absurd (Mode.follows_of_follow hf).isQuote (by decide)
  | _ => exact absurd hstarts (by decide)

theorem eq_of_gap (hs : gap? s = none) (h : Gap s t) : t = s := by
  unfold Gap places at h
  cases hn : s.length with
  | zero =>
    rw [hn] at h
    exact List.mem_singleton.mp h
  | succ n =>
    rw [hn, placesWithin, hs] at h
    exact List.mem_singleton.mp h

/-- **No expression is an import call.** -/
theorem IsExpression.found_importCall (hA : IsExpression A) : (importCall A).found = [] := by
  refine List.eq_nil_iff_forall_not_mem.mpr fun x hx => ?_
  rw [importCall_eq] at hx
  obtain ⟨a, r, ha, hx⟩ := mem_bind.mp (show (x.1, x.2) ∈ _ from hx)
  obtain ⟨u, hu, hscan⟩ := mem_token.mp ha
  obtain ⟨b, q, hb, -⟩ := mem_bind.mp hx
  obtain ⟨b, q', hb, -⟩ := mem_bind.mp hb
  obtain ⟨v, hv, hmark⟩ := mem_token.mp hb
  have hgap : gap? A = none := by
    obtain ⟨c, w, e, hblank, -, -, hcomment⟩ := hA.exists_cons (t := []) (fun _ h => nomatch h)
    rw [List.append_nil] at e
    subst e
    exact gap?_eq_none hcomment hA.head
  obtain rfl : u = A := eq_of_gap hgap hu
  obtain ⟨hword, rfl⟩ := oneOf_eq hscan
  obtain rfl := List.mem_singleton.mp hword
  obtain ⟨τ, m', a, u, hτ, hfirst⟩ := hA.exists_scan
  obtain ⟨c, w, rfl, hc⟩ := exists_isWord_of_scan hτ hfirst
  have hslash : c ≠ '/' := by
    rintro rfl
    exact absurd hc (by decide)
  have hcw : gap? (c :: w) = none := by
    refine gap?_eq_none (startsComment_of_ne hslash w) fun d hd => ?_
    obtain rfl := Option.some.inj hd
    refine isGapBlank_of_not_isBlank (by_contra fun hb => ?_)
    rw [Text.isWord_of_isBlank (Bool.not_eq_false _ ▸ hb)] at hc
    simp at hc
  obtain rfl := eq_of_gap hcw hv
  obtain ⟨rfl, -⟩ := List.cons.inj (mark_eq hmark)
  exact absurd hc (by decide)

/-- **An expression alone** is read first as its first reading. -/
theorem IsExpression.head?_found (hA : IsExpression A) :
    (source A).found.head? = (firstReading A).map fun e => (.expression e, []) := by
  have hends : Ends [] := ⟨[], ⟨[], blanks_nil, rfl⟩, fun _ h => nomatch h⟩
  have htoEnd (e : Tree) (r : Text) : ((pure (.expression e) >>= toEnd : Reader Source) r).found =
      (toEnd (.expression e) r).found := found_bind_of_eq rfl _
  have hout (e : Tree) (r : Text)
      (h : ((pure (.expression e) >>= toEnd : Reader Source) r).found ≠ []) : MayEnd r := by
    obtain ⟨y, hy⟩ := List.exists_mem_of_ne_nil _ (htoEnd e r ▸ h)
    obtain ⟨a, u, ha, -⟩ := mem_bind.mp (show (y.1, y.2) ∈ _ from hy)
    exact ⟨[], (mem_finish.mp ha).2, fun _ h => nomatch h⟩
  have hin (e : Tree) : ((pure (.expression e) >>= toEnd : Reader Source) []).found.head? =
      some (.expression e, []) := by
    rw [htoEnd]
    rfl
  have hread := head?_expression_bind hA blanks_nil hends trivial hout hin
  rw [List.nil_append, List.append_nil] at hread
  rw [source_eq, found_orElse_bind, found_bind_nil hA.found_importCall, List.nil_append, found_assoc]
  exact hread

end VariableImport.Script
