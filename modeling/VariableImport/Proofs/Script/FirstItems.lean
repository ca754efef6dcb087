import VariableImport.Proofs.Script.FirstOperand

/-!
# Proofs/Script/FirstItems — accesses, calls and templates are read first

A name, a key or arguments are one more step of an operand (`ReadFirst.access`).  Arguments and the expressions
of a template are items behind separators alike (`Separates`), and a list of items is read first to its end
(`foremost_items`, by induction on the items).
-/

namespace VariableImport.Script

open Reader

variable {α β γ : Type} {Q R : Text → Prop} {k : List (α × Text)} {a : α} {s t u r : Text} {l : Level}
  {c : Char} {e e' : Tree} {ws vs : List Token} {x : Text × Text}

/-! ## Accesses and calls -/

/-- An access by a name. -/
def nameStep (e : Tree) : Reader Tree := do mark '.'; return .member e (← token .name)

/-- An access by a key. -/
def keyStep (e : Tree) : Reader Tree := do mark '['; let key ← expression; mark ']'; return .index e key

/-- A call. -/
def callStep (e : Tree) : Reader Tree := do mark '('; return .call e (← arguments expression)

theorem found_postfixStep (e : Tree) (s : Text) : (postfixStep expression e s).found =
    (nameStep e s).found ++ ((keyStep e s).found ++ (callStep e s).found) := rfl

/-- **A step of an operand** is the next one. -/
theorem ReadFirst.access (hd : Derives .operand ws e) (h : ReadFirst .operand ws e)
    (hmem : Terminal.mark c ∈ valueTerminals) (hbond : (Terminal.mark c).bond = 7)
    (hfollow : ∀ s r, Splits Plain (markToken c :: vs) s r → MayFollow s)
    (hstep : ∀ s r, Splits Plain (markToken c :: vs) s r → MayFollow r →
      Foremost (Held 8) [(e', r)] (postfixStep expression e s).found) :
    ReadFirst .operand (ws ++ markToken c :: vs) e' := by
  intro s r hs hr
  obtain ⟨t, hws, hs⟩ := hs.of_append
  have hheld := (hs.next hmem (hd.settled hws)).held
  rw [hbond] at hheld
  exact ReadFirst.step (h s t hws (hfollow t r hs)) hheld (hstep t r hs hr) fun _ h => h

theorem ReadFirst.member {n : Text} (hd : Derives .operand ws e) (h : ReadFirst .operand ws e) :
    ReadFirst .operand (ws ++ [markToken '.', (.name, n)]) (.member e n) := by
  refine h.access hd (by decide) rfl (fun s r hs => ?_) fun s r hs hr => ?_
  · obtain ⟨u, t, hok, hscan, hs⟩ := hs.of_cons
    obtain ⟨v, t', hok', hscan', -⟩ := hs.of_cons
    exact .inr ⟨_, by decide, u, hok.gap, _, hscan,
      fun _ => ⟨v, hok'.gap, Option.isSome_iff_exists.mpr ⟨_, hscan'⟩⟩, fun h => absurd h (by decide)⟩
  · obtain ⟨t, hmark, hs⟩ := hs.found_mark (by decide)
    obtain ⟨u, t', hok, hscan, hend⟩ := hs.of_cons
    cases hend
    have hname : (nameStep e s).found = [(.member e n, r)] := by
      rw [nameStep, found_bind_of_eq hmark, found_bind_of_eq (hok.found_token hscan rfl (by simp))]
      rfl
    rw [found_postfixStep]
    exact (foremost_of_eq hname).append _

theorem ReadFirst.index {k : Tree} (hd : Derives .operand ws e) (h : ReadFirst .operand ws e)
    (key : ReadFirst .conditional vs k) :
    ReadFirst .operand (ws ++ markToken '[' :: (vs ++ [markToken ']'])) (.index e k) := by
  refine h.access hd (by decide) rfl (fun s r hs => hs.mayFollow (by decide) (by simp) (by decide)) fun s r hs hr => ?_
  have hname : (nameStep e s).found = [] := found_bind_nil (hs.found_mark_of_ne (by decide) (by decide)) _
  obtain ⟨t, hmark, hs⟩ := hs.found_mark (by decide)
  obtain ⟨u, hvs, hs⟩ := hs.of_append
  have hfollow := hs.mayFollow (by decide) (by simp) (by decide)
  obtain ⟨v, hmark', hend⟩ := hs.found_mark (by decide)
  cases hend
  have hkey : Foremost (Held 8) [(Tree.index e k, r)] (keyStep e s).found := by
    rw [keyStep, found_bind_of_eq hmark]
    refine (key.nested hvs hfollow).next
      (fun a u hu => found_bind_nil (hu.found_mark (by decide) (by decide) (by decide)) _) ?_
    rw [found_bind_of_eq hmark']
    exact foremost_self _
  rw [found_postfixStep, hname, List.nil_append]
  exact hkey.append _

/-! ## Lists -/

variable {b : β}

theorem Held.found_listEnd (h : Held 1 t) (b : β) : (listEnd b t).found = [] := by
  rw [Script.found_listEnd, found_bind_nil (h.found_mark (by decide) (by decide) (by decide)),
    found_bind_nil (h.found_mark (by decide) (by decide) (by decide))]
  rfl

/-- Before an item no list ends. -/
theorem Splits.found_listEnd_nil (h : Splits Plain (markToken ',' :: (ws ++ vs)) s r) (hd : Derives l ws e)
    (b : β) : (listEnd b s).found = [] := by
  obtain ⟨t, hmark, hs⟩ := h.found_mark (by decide)
  obtain ⟨u, hs, -⟩ := hs.of_append
  rw [found_listEnd, found_bind_nil (h.found_mark_of_ne (by decide) (by decide)), found_bind_of_eq hmark,
    found_bind_nil (hd.found_close hs)]
  rfl

/-- **The end of a list** is read. -/
theorem Splits.found_listEnd {trailing : Bool}
    (h : Splits Plain (trailingComma trailing ++ [markToken ')']) s r) (b : β) :
    Foremost Q [(b, r)] (listEnd b s).found ∧ MayFollow s := by
  have hclose {s : Text} (h : Splits Plain [markToken ')'] s r) :
      ((mark ')' >>= fun _ => pure b) s).found = [(b, r)] := by
    obtain ⟨t, hmark, hend⟩ := h.found_mark (by decide)
    cases hend
    rw [found_bind_of_eq hmark]
    rfl
  rw [Script.found_listEnd]
  cases trailing with
  | false =>
    rw [hclose h]
    exact ⟨foremost_append _ _, h.mayFollow (by decide) (by simp) (by decide)⟩
  | true =>
    have hs : Splits Plain (markToken ',' :: [markToken ')']) s r := h
    obtain ⟨t, hmark, hend⟩ := hs.found_mark (by decide)
    rw [found_bind_nil (hs.found_mark_of_ne (by decide) (by decide)), found_bind_of_eq hmark, hclose hend]
    exact ⟨foremost_self _, hs.mayFollow (by decide) (by simp) (by decide)⟩

/-- Items as a reader meets them: what a separator is read as, what reads it, and where a list goes on
with it. -/
structure Separates (sep : Reader γ) (read : Text → γ) (g : α → Reader β) (item : Item) : Prop where
  readFirst : ReadFirst .conditional item.tokens item.tree
  sep : ∀ s u, Splits Plain (item.separator :: item.tokens) s u → ∃ t,
    (sep s).found = [(read item.separator.2, t)] ∧ Splits Plain item.tokens t u
  goes : ∀ a s u, Splits Plain (item.separator :: item.tokens) s u → (g a s).found = []
  mayFollow : ∀ s u, Splits Plain (item.separator :: item.tokens) s u → MayFollow s

/-- Reading of items: separators and expressions by turns. -/
def readItems (sep : Reader γ) (put : α → γ → Tree → α) (a : α) : Reader α :=
  steps (fun a => do let q ← sep; let e ← expression; return put a q e) a

section Items

variable {sep : Reader γ} {read : Text → γ} {put : α → γ → Tree → α} {g : α → Reader β} {more : List Item}

theorem mayFollow_items (hitems : ∀ m ∈ more, Separates sep read g m)
    (hs : Splits Plain (itemTokens more) s t) (ht : MayFollow t) : MayFollow s := by
  cases more with
  | nil =>
    cases hs
    exact ht
  | cons m more =>
    obtain ⟨u, hm, -⟩ := Splits.of_append (show Splits _ ((m.separator :: m.tokens) ++ _) s t from hs)
    exact (hitems m (List.mem_cons_self ..)).mayFollow s u hm

variable (hsep : Takes 1 sep)

include hsep

theorem takes_item (a : α) : Takes 1 (sep >>= fun q => expression >>= fun e => pure (put a q e)) :=
  hsep.bind fun _ => (takes_expression.bind fun _ => .pure _).of_le (Nat.zero_le 1)

/-- A list ends, or goes on behind an item. -/
theorem found_readItems : ((readItems sep put a >>= g) s).found = (g a s).found ++
    ((sep >>= fun q => expression >>= fun e => pure (put a q e)) s).found.flatMap
      fun y => ((readItems sep put y.1 >>= g) y.2).found := by
  rw [found_bind, readItems, found_steps (takes_item hsep), List.flatMap_cons, List.flatMap_assoc]
  exact congrArg _ (List.flatMap_congr fun y _ => (found_bind _ g y.2).symm)

/-- Where neither an item nor the end is found nothing is. -/
theorem found_readItems_nil (hs : (sep s).found = []) (hg : (g a s).found = []) :
    ((readItems sep put a >>= g) s).found = [] := by
  rw [found_readItems hsep, found_bind_nil hs, List.flatMap_nil, hg, List.append_nil]

/-- **A list is read first** to its end. -/
theorem foremost_items (hheld : ∀ a u, Held 1 u → (sep u).found = [] ∧ (g a u).found = [])
    (hitems : ∀ m ∈ more, Separates sep read g m) (hs : Splits Plain (itemTokens more) s t) (ht : MayFollow t)
    {x : β × Text}
    (hend : Foremost R [x] (g (more.foldl (fun a m => put a (read m.separator.2) m.tree) a) t).found) :
    Foremost R [x] ((readItems sep put a >>= g) s).found := by
  induction more generalizing s a with
  | nil =>
    cases hs
    rw [found_readItems hsep]
    exact hend.append _
  | cons m more ih =>
    obtain ⟨hm, hmore⟩ := List.forall_mem_cons.mp hitems
    obtain ⟨v, hsm, hsmore⟩ := Splits.of_append (show Splits _ ((m.separator :: m.tokens) ++ _) s t from hs)
    obtain ⟨u, hfound, htokens⟩ := hm.sep s v hsm
    have hstep : Foremost (Held 1) [(put a (read m.separator.2) m.tree, v)]
        ((sep >>= fun q => expression >>= fun e => pure (put a q e)) s).found := by
      rw [found_bind_of_eq hfound]
      exact (hm.readFirst.nested htokens (mayFollow_items hmore hsmore ht)).map
    -- the list does not end here, and no earlier result of the step goes on to its end
    have hrest := hstep.flatMap (R := R) (F := fun y => ((readItems sep put y.1 >>= g) y.2).found)
      fun y hy z hz => by
        rw [found_readItems_nil hsep (hheld y.1 y.2 hy).1 (hheld y.1 y.2 hy).2] at hz
        exact absurd hz List.not_mem_nil
    rw [List.flatMap_singleton] at hrest
    rw [found_readItems hsep, hm.goes a s v hsm, List.nil_append]
    exact (ih hmore hsmore hend).trans hrest

end Items

/-! ## Calls -/

theorem foldl_tree (more : List Item) (es : List Tree) :
    more.foldl (fun es m => m.tree :: es) es = (more.map Item.tree).reverse ++ es := by
  induction more generalizing es with
  | nil => rfl
  | cons m more ih => simp [ih]

/-- Items between commas. -/
theorem separates_comma {more : List Item} (hsep : ∀ m ∈ more, m.separator = markToken ',')
    (hd : ∀ m ∈ more, Derives .conditional m.tokens m.tree)
    (hmore : ∀ m ∈ more, ReadFirst .conditional m.tokens m.tree) (f : α → β) :
    ∀ m ∈ more, Separates (mark ',') (fun _ => ()) (fun a => listEnd (f a)) m := by
  intro m hm
  have hcomma := hsep m hm
  refine ⟨hmore m hm, fun s u hs => ?_, fun a s u hs => ?_, fun s u hs => ?_⟩ <;> rw [hcomma] at hs
  · exact hs.found_mark (by decide)
  · rw [← List.append_nil m.tokens] at hs
    exact hs.found_listEnd_nil (hd m hm) _
  · exact hs.mayFollow (by decide) (by simp) (by decide)

theorem ReadFirst.callNone (hd : Derives .operand ws e) (h : ReadFirst .operand ws e) :
    ReadFirst .operand (ws ++ [markToken '(', markToken ')']) (.call e []) := by
  refine h.access hd (by decide) rfl (fun s r hs => hs.mayFollow (by decide) (by simp) (by decide)) fun s r hs hr => ?_
  have hname : (nameStep e s).found = [] := found_bind_nil (hs.found_mark_of_ne (by decide) (by decide)) _
  have hkey : (keyStep e s).found = [] := found_bind_nil (hs.found_mark_of_ne (by decide) (by decide)) _
  obtain ⟨t, hmark, hs⟩ := hs.found_mark (by decide)
  obtain ⟨u, hmark', hend⟩ := hs.found_mark (by decide)
  cases hend
  have harguments : Foremost (Held 8) [(([] : List Tree), r)] (arguments expression t).found := by
    have : ((mark ')' >>= fun _ => pure ([] : List Tree)) t).found = [([], r)] := by
      rw [found_bind_of_eq hmark']
      rfl
    exact (foremost_of_eq this).append _
  rw [found_postfixStep, hname, hkey, callStep, found_bind_of_eq hmark]
  exact harguments.map

theorem ReadFirst.call {first : Tree} {more : List Item} {trailing : Bool} (hd : Derives .operand ws e)
    (hdfirst : Derives .conditional vs first) (hsep : ∀ m ∈ more, m.separator = markToken ',')
    (hdmore : ∀ m ∈ more, Derives .conditional m.tokens m.tree) (h : ReadFirst .operand ws e)
    (hfirst : ReadFirst .conditional vs first)
    (hmore : ∀ m ∈ more, ReadFirst .conditional m.tokens m.tree) :
    ReadFirst .operand
      (ws ++ markToken '(' :: (vs ++ (itemTokens more ++ (trailingComma trailing ++ [markToken ')']))))
      (.call e (first :: more.map Item.tree)) := by
  refine h.access hd (by decide) rfl (fun s r hs => hs.mayFollow (by decide) (by simp) (by decide)) fun s r hs hr => ?_
  have hname : (nameStep e s).found = [] := found_bind_nil (hs.found_mark_of_ne (by decide) (by decide)) _
  have hkey : (keyStep e s).found = [] := found_bind_nil (hs.found_mark_of_ne (by decide) (by decide)) _
  obtain ⟨t, hmark, hs⟩ := hs.found_mark (by decide)
  have hnone : (mark ')' t).found = [] := by
    obtain ⟨u, hvs, -⟩ := hs.of_append
    exact hdfirst.found_close hvs
  obtain ⟨u, hvs, hs⟩ := hs.of_append
  obtain ⟨v, hitems, hs⟩ := hs.of_append
  have hend := hs.found_listEnd (Q := Held 8) (first :: more.map Item.tree)
  have hcommas := separates_comma hsep hdmore hmore (List.reverse (α := Tree))
  have hheld (items : List Tree) (u : Text) (hu : Held 1 u) :
      (mark ',' u).found = [] ∧ (listEnd items.reverse u).found = [] :=
    ⟨hu.found_mark (by decide) (by decide) (by decide), hu.found_listEnd _⟩
  have hlist : Foremost (Held 8) [(first :: more.map Item.tree, r)]
      ((readItems (mark ',') (fun items _ e => e :: items) [first] >>= fun items => listEnd items.reverse)
        u).found := by
    refine foremost_items (takes_mark ',') hheld hcommas hitems hend.2 ?_
    rw [foldl_tree]
    simpa using hend.1
  have harguments : Foremost (Held 8) [(first :: more.map Item.tree, r)] (arguments expression t).found := by
    have hassoc (first : Tree) (u : Text) : ((commaSeparated expression [first] >>= listEnd) u).found =
        ((readItems (mark ',') (fun items _ e => e :: items) [first] >>= fun items =>
          listEnd items.reverse) u).found := found_map_bind _ List.reverse listEnd u
    show Foremost _ _ (((mark ')' >>= fun _ => pure ([] : List Tree)) t).found ++
      ((expression >>= fun first => commaSeparated expression [first] >>= listEnd) t).found)
    rw [found_bind_nil hnone, List.nil_append]
    refine (hfirst.nested hvs (mayFollow_items hcommas hitems hend.2)).next (fun a u hu => ?_) ?_
    · rw [hassoc]
      exact found_readItems_nil (takes_mark ',') (hheld [a] u hu).1 (hheld [a] u hu).2
    · rw [hassoc]
      exact hlist
  rw [found_postfixStep, hname, hkey, callStep, found_bind_of_eq hmark]
  exact harguments.map

/-! ## Templates -/

/-- The last part of a template. -/
def templateEnd (x : List Text × List Tree) : Reader Tree := do
  return .template ((← token .templateTail) :: x.1).reverse x.2.reverse

theorem Held.found_part {σ : Terminal} (h : Held 1 t) (hσ : σ = .templateMiddle ∨ σ = .templateTail) :
    (Reader.token σ t).found = [] := by
  rcases hσ with rfl | rfl <;> exact h.found_token (by decide) (by decide) (by decide)

/-- Expressions between the parts of a template. -/
theorem separates_part {more : List Item} (hsep : ∀ m ∈ more, m.separator.1 = .templateMiddle)
    (hmore : ∀ m ∈ more, ReadFirst .conditional m.tokens m.tree) :
    ∀ m ∈ more, Separates (token .templateMiddle) id templateEnd m := by
  intro m hm
  have hpart : m.separator = (.templateMiddle, m.separator.2) := Prod.ext (hsep m hm) rfl
  refine ⟨hmore m hm, fun s u hs => ?_, fun a s u hs => ?_, fun s u hs => ?_⟩ <;> rw [hpart] at hs
  · obtain ⟨v, t, hok, hscan, htokens⟩ := hs.of_cons
    exact ⟨t, hok.found_token hscan rfl (by simp), htokens⟩
  · obtain ⟨v, t, hok, hscan, -⟩ := hs.of_cons
    refine found_bind_nil ?_ _
    rw [found_token_of_ne hok.gap hok.gap?_eq rfl (by simp)]
    cases htail : Terminal.templateTail.scan v with
    | none => rfl
    | some y => exact (not_templatePart hscan htail).elim
  · exact hs.mayFollow (by decide) (by simp) (by decide)

theorem foldl_part (more : List Item) (x : List Text × List Tree) :
    more.foldl (fun x m => (id m.separator.2 :: x.1, m.tree :: x.2)) x =
      ((more.map (·.separator.2)).reverse ++ x.1, (more.map Item.tree).reverse ++ x.2) := by
  induction more generalizing x with
  | nil => rfl
  | cons m more ih =>
    rw [List.foldl_cons, ih]
    simp

theorem ReadFirst.template {head tail : Text} {first : Tree} {more : List Item}
    (hsep : ∀ m ∈ more, m.separator.1 = .templateMiddle) (hfirst : ReadFirst .conditional vs first)
    (hmore : ∀ m ∈ more, ReadFirst .conditional m.tokens m.tree) :
    ReadFirst .primary ((.templateHead, head) :: (vs ++ (itemTokens more ++ [(.templateTail, tail)])))
      (.template (head :: (more.map (·.separator.2) ++ [tail])) (first :: more.map Item.tree)) := by
  refine readFirst_of_operandTail (by decide) (by simp) fun s r hs hr => ?_
  obtain ⟨t, hvs, hs⟩ := hs.of_append
  obtain ⟨u, hitems, hs⟩ := hs.of_append
  have hfollow : MayFollow u := hs.mayFollow (by decide) (by simp) (by decide)
  obtain ⟨v, r', hok, hscan, hend⟩ := hs.of_cons
  cases hend
  have hparts := separates_part hsep hmore
  have htail (x : List Text × List Tree) :
      (templateEnd x u).found = [(.template (tail :: x.1).reverse x.2.reverse, r)] := by
    rw [templateEnd, found_bind_of_eq (hok.found_token hscan rfl (by simp))]
    rfl
  have hheld (x : List Text × List Tree) (u : Text) (hu : Held 1 u) :
      (token .templateMiddle u).found = [] ∧ (templateEnd x u).found = [] :=
    ⟨hu.found_part (.inl rfl), found_bind_nil (hu.found_part (.inr rfl)) _⟩
  show Foremost _ _ ((expression >>= fun first => readItems (token .templateMiddle)
    (fun x q e => (q :: x.1, e :: x.2)) ([head], [first]) >>= templateEnd) s).found
  refine (hfirst.nested hvs (mayFollow_items hparts hitems hfollow)).next (fun a u hu => ?_) ?_
  · have hnone := hheld ([head], [a]) u hu
    exact found_readItems_nil (Takes.token _) hnone.1 hnone.2
  refine foremost_items (Takes.token _) hheld hparts hitems hfollow ?_
  rw [foldl_part, htail]
  simpa using foremost_self _

end VariableImport.Script
