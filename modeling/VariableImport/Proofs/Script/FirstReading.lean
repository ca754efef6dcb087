import VariableImport.Proofs.Script.FirstItems

/-!
# Proofs/Script/FirstReading — a plain split is read first

With one lemma for each production, the tree of the tokens of a plain split stands before all others that could
end the text (`Derives.readFirst`, by induction on the derivation), and the source of a plain split is what is
found first (`DerivesSource.head_found`).
-/

namespace VariableImport.Script

open Reader

variable {α β : Type} {Q : Text → Prop} {a : α} {s t u r : Text} {l : Level} {τ : Terminal} {c : Char}
  {e : Tree} {ws vs : List Token} {x : Text × Text} {w : Text}

/-! ## Expressions -/

/-- **What the tokens of a plain split derive is read first.** -/
theorem Derives.readFirst (h : Derives l ws e) : ReadFirst l ws e := by
  induction h with
  | tighter _ ih => exact ih.tighter
  | between hl left right ihl ihr => exact ihl.between hl left right ihr
  | choice test consequent _ iht ihc iha => exact iht.choice test consequent ihc iha
  | unary _ ih => exact ih.unary
  | member h ih => exact ih.member h
  | index h _ ih ihk => exact ih.index h ihk
  | callNone h ih => exact ih.callNone h
  | call h hfirst hsep hmore ih ihf ihm => exact ih.call h hfirst hsep hmore ihf ihm
  | string hq => rcases hq with rfl | rfl <;> exact readFirst_leaf (by decide) (by simp) rfl
  | plainTemplate => exact readFirst_leaf (by decide) (by simp) rfl
  | template _ hsep _ ihf ihm => exact ihf.template hsep ihm
  | number => exact readFirst_leaf (by decide) (by simp) rfl
  | name => exact readFirst_leaf (by decide) (by simp) rfl
  | group _ ih => exact ih.group

/-! ## Sources -/

theorem Foremost.head? {y : α × Text} {m : List (α × Text)} (h : Foremost (fun _ => False) [y] m) :
    m.head? = some y := by
  obtain ⟨before, after, rfl, hbefore⟩ := h
  obtain rfl : before = [] := List.eq_nil_iff_forall_not_mem.mpr fun y => hbefore y
  rfl

/-- No import call starts where an expression does. -/
theorem Derives.found_importCall (h : Derives l ws e) (hs : Splits Plain ws s t) :
    (importCall s).found = [] := by
  obtain ⟨τ, a, vs, rfl, hτ⟩ := h.exists_head
  obtain ⟨u, t', hok, hscan, -⟩ := hs.of_cons
  have hstarts : ∀ τ ∈ operandTerminals, τ.starts 'i' = true → τ = .name := by decide
  rw [importCall_eq, found_bind]
  refine List.flatMap_eq_nil_iff.mpr fun x hx => found_bind_nil (List.eq_nil_iff_forall_not_mem.mpr
    fun y hy => ?_) _
  rw [found_token_of_ne hok.gap hok.gap?_eq rfl (by simp)] at hx
  obtain ⟨hmem, rfl⟩ := oneOf_eq (a := x.1) (t := x.2) (Option.mem_toList.mp hx)
  rw [List.mem_singleton.mp hmem] at hscan
  obtain rfl := hstarts τ hτ (starts_of_scan hscan)
  -- the name goes on behind the word, so no parenthesis stands there
  obtain ⟨c, v, hx, hword⟩ := exists_isWord_of_scan (m := {}) rfl hscan
  obtain ⟨b, r, hb, -⟩ := mem_bind.mp (show (y.1, y.2) ∈ (mark '(' x.2).found from hy)
  obtain ⟨w, hw, hopen⟩ := mem_token.mp hb
  have hname : inName c = true := by simp [inName, hword]
  rw [hx] at hw
  obtain rfl := eq_of_gap (gap?_of_isPlain (isPlain_of_inName hname) v) hw
  rw [(List.cons.inj (mark_eq hopen)).1] at hword
  exact absurd hword (by decide)

end VariableImport.Script
