import VariableImport.Proofs.Glob.Arrival
import VariableImport.Proofs.Glob.Ending
import VariableImport.Proofs.Text.Replace

/-!
# Proofs/Glob/Joint — a wildcard that goes on a name begun before it

The text before and after the last wildcard of a glob is a `Joint` if no other magic stands around it.  The name
that it goes on begins behind slashes in a directory (`Joint.exists_cut`), and neither there nor with a name of
its own two wildcards come together (`Joint.rooted_glob`, `Joint.flat_apart`).
-/

namespace VariableImport.Glob

open DispatchTable (IsWord)

theorem ne_deep_of_mem_components {s c : Text} (hs : ¬ deep <:+: s) (h : c ∈ Path.components s) :
    c ≠ deep := by
  rintro rfl
  exact hs (Path.infix_of_mem_components h)

/-- Text without a wildcard brings no wildcards together. -/
theorem flat_append {s t : Text} (hs : ¬ deep <:+: s) (hstar : wildcard ∉ t) : ¬ deep <:+: s ++ t := by
  rintro ⟨a, b, e⟩
  rcases List.append_eq_append_iff.mp e with ⟨z, rfl, -⟩ | ⟨z, hz, rfl⟩
  · exact hs ⟨a, z, rfl⟩
  · -- the last character of the two would belong to the fixed text
    cases z with
    | nil => exact hs ⟨a, [], by simpa using hz⟩
    | cons c z =>
      rcases List.eq_nil_or_concat (c :: z) with h | ⟨init, d, hd⟩
      · simp at h
      · rw [hd] at hz hstar
        have hz' : (a ++ [wildcard]) ++ [wildcard] = (s ++ init) ++ [d] := by simpa using hz
        obtain rfl : wildcard = d := by simpa using (List.append_inj' hz' rfl).2
        exact hstar (by simp)

/-- What holds no separator stands on one side of it. -/
theorem infix_append_cons {part s t : Text} {x : Char} (hx : x ∉ part) (h : part <:+: s ++ x :: t) :
    part <:+: s ∨ part <:+: t := by
  obtain ⟨a, b, e⟩ := h
  rcases List.append_eq_append_iff.mp e with ⟨z, rfl, -⟩ | ⟨z, hz, hb⟩
  · exact .inl ⟨a, z, rfl⟩
  · cases z with
    | nil => exact .inl ⟨a, [], by simpa using hz⟩
    | cons y z =>
      obtain ⟨rfl, rfl⟩ := List.cons.inj hb
      rcases List.append_eq_append_iff.mp hz with ⟨y, -, rfl⟩ | ⟨y, -, hy⟩
      · exact absurd (by simp) hx
      · cases y with
        | nil => exact absurd (by simp [show part = x :: z from hy.symm]) hx
        | cons c y =>
          obtain ⟨-, rfl⟩ := List.cons.inj hy
          exact .inr ⟨y, b, rfl⟩

/-! ## Endings -/

namespace Ending

variable {extensions : List Text} {glob e : Text}

theorem hasMagic (he : Ending extensions glob e) (hext : AreWords extensions) : hasMagic e = false := by
  cases he with
  | named => rfl
  | extension _ hword => exact hasMagic_dot (isWord_of_mem_words hext hword)
  | index _ _ hword =>
    rw [hasMagic_append, hasMagic_dot (isWord_of_mem_words hext hword)]
    rfl

/-- A text that is searched for a glob ends in a component. -/
theorem isBase (he : Ending extensions glob e) (hext : AreWords extensions) : Path.IsBase (glob ++ e) := by
  have hname {word : Text} (hword : word ∈ words extensions) : Path.IsName ('.' :: word) :=
    ⟨by simp, by simp [not_mem_of_isWord (isWord_of_mem_words hext hword)
      (show Text.isWord '/' = false by decide)]⟩
  cases he with
  | named h =>
    rw [List.append_nil]
    rcases List.eq_nil_or_concat glob with rfl | ⟨init, c, rfl⟩
    · exact absurd h (by decide)
    · refine ⟨by simp, ?_⟩
      rw [List.concat_eq_append, List.getLast?_concat]
      rintro hc
      obtain rfl := Option.some.inj hc
      rw [List.concat_eq_append, hasExtension, Path.basename_append_cons _ (by simp)] at h
      exact absurd h (by decide)
  | extension _ hword => exact (hname hword).isBase_append _
  | index _ _ hword =>
    rw [← List.append_assoc]
    exact (hname hword).isBase_append _

/-- What ends a glob with directories of any depth ends other globs that name an extension as it does. -/
theorem of_deep {glob' : Text} (he : Ending extensions glob e)
    (hsame : hasExtension glob = hasExtension glob') (hdeep : glob.contains deep = true) :
    Ending extensions glob' e := by
  cases he with
  | named h => exact .named (hsame ▸ h)
  | extension h hword => exact .extension (hsame ▸ h) hword
  | index _ hflat => simp [hdeep] at hflat

end Ending

/-! ## Joints -/

/-- **A wildcard behind a begun name**: the text before and after the last wildcard of an explicit glob
without other magic, where no slash and no other wildcard stands before it. -/
structure Joint (before after : Text) : Prop where
  isBase : Path.IsBase before
  isExplicit : Path.IsExplicit before
  isSimple : IsSimple before
  flat : ¬ deep <:+: before ++ [wildcard]
  fixed : hasMagic after = false

namespace Joint

variable {before after : Text}

/-- The last wildcard of an explicit glob goes on a name, unless it stands behind a slash. -/
theorem of_glob (hbase : before ≠ [] ∧ before.getLast? ≠ some '/')
    (hexplicit : Path.IsExplicit (before ++ wildcard :: after))
    (hsimple : ∀ c ∈ before ++ wildcard :: after, c ≠ '?' ∧ c ≠ '[')
    (hflat : ¬ deep <:+: before ++ wildcard :: after) (hafter : wildcard ∉ after) : Joint before after where
  isBase := hbase
  isExplicit := hexplicit.imp (Text.prefix_of_prefix_append_cons (by decide))
    (Text.prefix_of_prefix_append_cons (by decide))
  isSimple := fun c hc => hsimple c (List.mem_append_left _ hc)
  flat := fun hd => hflat (hd.trans ⟨[], after, by simp⟩)
  fixed := hasMagic_of_isSimple (fun c hc => hsimple c (by simp [hc])) hafter

theorem rooted (j : Joint before after) : Rooted before :=
  ⟨j.isBase, j.isExplicit.mono (List.prefix_append ..), j.isSimple,
    fun h => j.flat (h.trans (List.prefix_append ..).isInfix)⟩

theorem append (j : Joint before after) {e : Text} (he : hasMagic e = false) : Joint before (after ++ e) :=
  { j with fixed := by rw [hasMagic_append, j.fixed, he]; rfl }

/-- The glob itself. -/
theorem rooted_glob (j : Joint before after) (hend : Path.IsBase (wildcard :: after)) :
    Rooted (before ++ wildcard :: after) where
  isBase := hend.append _
  isExplicit := (j.isExplicit.mono (List.prefix_append ..)).mono (List.prefix_append ..)
  isSimple := by
    intro c hc
    rcases List.mem_append.mp hc with hc | hc
    · exact j.isSimple c hc
    · rcases List.mem_cons.mp hc with rfl | hc
      · decide
      · exact isSimple_of_hasMagic j.fixed c hc
  flat := by
    have := flat_append j.flat (wildcard_not_mem j.fixed)
    simpa using this

/-- Without the begun name no two wildcards stand side by side either. -/
theorem flat_apart (j : Joint before after) : ¬ deep <:+: before ++ '/' :: wildcard :: after := by
  intro h
  rcases infix_append_cons (by decide) h with h | h
  · exact j.rooted.flat h
  · rw [← List.singleton_append] at h
    exact flat_append (by decide) (wildcard_not_mem j.fixed) h

/-- The begun name stands behind slashes in a directory. -/
theorem exists_cut (j : Joint before after) : ∃ q k w,
    before = q ++ (List.replicate (k + 1) '/' ++ w) ∧ Rooted q ∧ Path.IsName w := by
  obtain ⟨dots, rest, e, hdots⟩ := j.isExplicit.exists_eq
  obtain ⟨a, w, -, hw, hslash⟩ := Text.exists_cutLast (x := '/') (s := before) (by simp [e])
  have hne : w ≠ [] := by
    rintro rfl
    exact j.isBase.2 (by simp [hw])
  obtain ⟨q, k, hq, hexplicit, -, ha⟩ :=
    Path.exists_explicit_base hdots (Text.prefix_of_last (e ▸ hw) hslash)
  have hcut : before = q ++ (List.replicate (k + 1) '/' ++ w) := by
    calc before = (a ++ ['/']) ++ w := by rw [hw]; simp
      _ = q ++ (List.replicate (k + 1) '/' ++ w) := by rw [ha, List.append_assoc]
  exact ⟨q, k, w, hcut, j.rooted.of_prefix hq hexplicit ⟨_, hcut.symm⟩, hne, hslash⟩

/-- Slashes part any text from one that begins with a wildcard. -/
theorem parts (q w t : Text) (hw : '/' ∉ w) : Parts q (w ++ wildcard :: t) := by
  refine .inr ⟨hasMagic_star w t, fun h => hw ?_⟩
  have hpre : fixedHead (w ++ wildcard :: t) <+: w := by
    refine Text.prefix_of_prefix_append_cons (c := wildcard) (fun h => ?_) (List.takeWhile_prefix _)
    simpa [isMagic] using List.mem_takeWhile_imp h
  exact hpre.subset h

end Joint

end VariableImport.Glob
