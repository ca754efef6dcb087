import VariableImport.Text.Basic

/-!
# Path/Basic — paths are made normal by their spelling alone

Paths are texts with `/` between their components.  `normalize` resolves `.`, `..` and repeated
slashes by their spelling alone, one component at a time (`push`); `relative` is the way from one
directory to another.  Functions that need a working directory take it as an argument.
-/

namespace VariableImport.Path

/-- Whether a path starts at the root. -/
def isAbsolute (p : Text) : Bool := p.head? == some '/'

/-- A path taken relative to a directory; an absolute one stands for itself. -/
def append (directory p : Text) : Text :=
  if isAbsolute p then p
  else if directory.isEmpty || directory.getLast? == some '/' then directory ++ p
  else directory ++ '/' :: p

/-! ## Head and tail -/

/-- The text up to and with the last slash, and the text after it. -/
def cutName (p : Text) : Text × Text :=
  match Text.cutLast '/' p with
  | some (h, t) => (h ++ ['/'], t)
  | none => ([], p)

/-- A head without the slashes at its end, unless it holds nothing else. -/
def stripSlashes (h : Text) : Text :=
  if h.all (· == '/') then h else (h.reverse.dropWhile (· == '/')).reverse

/-- Directory and last component. -/
def splitName (p : Text) : Text × Text := (stripSlashes (cutName p).1, (cutName p).2)

/-- The directory of a path. -/
def dirname (p : Text) : Text := (splitName p).1

/-- The last component of a path. -/
def basename (p : Text) : Text := (splitName p).2

/-- The part before the extension and the extension with its dot, which is empty where the last
component has no dot after a character other than a dot. -/
def splitExtension (p : Text) : Text × Text :=
  let (directory, name) := cutName p
  match Text.cutLast '.' name with
  | some (stem, tail) => if stem.all (· == '.') then (p, []) else (directory ++ stem, '.' :: tail)
  | none => (p, [])

/-- The extension of a path with its dot. -/
def extension (p : Text) : Text := (splitExtension p).2

/-- **An extension loses nothing.** -/
theorem splitExtension_append (p : Text) : (splitExtension p).1 ++ (splitExtension p).2 = p := by
  unfold splitExtension cutName
  cases hp : Text.cutLast '/' p with
  | none =>
    simp only
    split
    · next stem tail h =>
      split
      · simp
      · simpa using (Text.cutLast_eq_some.1 h).1.symm
    · simp
  | some ht =>
    obtain ⟨d, name⟩ := ht
    have hd := (Text.cutLast_eq_some.1 hp).1
    simp only
    split
    · next stem tail h =>
      split
      · simp
      · have hn := (Text.cutLast_eq_some.1 h).1
        rw [hd, hn]
        simp
    · simp

/-! ## Normal form -/

/-- The component of the current directory. -/
abbrev here : Text := ['.']

/-- The component of the parent directory. -/
abbrev up : Text := ['.', '.']

/-- Puts one component behind those of a normal path, which stand in reverse order: `..` takes the
last one away and is kept only where there is none left to take in a path without a root. -/
def push (rooted : Bool) (done : List Text) (c : Text) : List Text :=
  if c = [] ∨ c = here then done
  else if c = up then
    match done with
    | [] => if rooted then [] else [up]
    | d :: rest => if d = up then up :: done else rest
  else c :: done

/-- The components of the normal form. -/
def resolve (rooted : Bool) (components : List Text) : List Text :=
  (components.foldl (push rooted) []).reverse

/-- The slashes that a normal path starts with: two where the path has exactly two. -/
def root (p : Text) : Text :=
  match p with
  | '/' :: '/' :: '/' :: _ => ['/']
  | '/' :: '/' :: _ => ['/', '/']
  | '/' :: _ => ['/']
  | _ => []

/-- The normal form of a path; the empty one is the current directory. -/
def normalize (p : Text) : Text :=
  let q := root p ++ Text.join ['/'] (resolve (isAbsolute p) (Text.split '/' p))
  if q.isEmpty then here else q

/-- The normal absolute path that a path means in a working directory. -/
def absolute (cwd p : Text) : Text := normalize (append cwd p)

/-- The non-empty components of a path. -/
def components (p : Text) : List Text := (Text.split '/' p).filter (!·.isEmpty)

/-! ## Ways between directories -/

/-- The rests of two lists after what they begin with alike. -/
def dropCommon : List Text → List Text → List Text × List Text
  | a :: s, b :: t => if a = b then dropCommon s t else (a :: s, b :: t)
  | s, t => (s, t)

/-- The way from one directory to a target, both taken in a working directory. -/
def relative (cwd start target : Text) : Text :=
  let (back, forth) := dropCommon (components (absolute cwd start)) (components (absolute cwd target))
  match back.map (fun _ => up) ++ forth with
  | [] => here
  | cs => Text.join ['/'] cs

/-- A relative path with `./` in front unless it starts with `.` or `..` as a component. -/
def relativeify (p : Text) : Text :=
  if p = [] then here
  else if p = here ∨ p = up ∨ p.startsWith ['.', '/'] ∨ p.startsWith ['.', '.', '/'] then p
  else '.' :: '/' :: p

/-- The way from the directory of an importing file to a target; there is none to a target without
a name. -/
def relativeFrom? (cwd importer target : Text) : Option Text :=
  if target = [] then none else some (relativeify (relative cwd (dirname importer) target))

/-- Whether a path relative to the directory of a file denotes that file. -/
def sameFile (importer p : Text) : Bool :=
  normalize (append (dirname importer) p) == normalize importer

/-- **A relative path that was made explicit starts with a dot.** -/
theorem head?_relativeify (p : Text) : (relativeify p).head? = some '.' := by
  unfold relativeify
  split
  · rfl
  · split
    · next h =>
      rcases h with rfl | rfl | h | h
      · rfl
      · rfl
      · obtain ⟨t, rfl⟩ := Text.startsWith_iff.mp h
        rfl
      · obtain ⟨t, rfl⟩ := Text.startsWith_iff.mp h
        rfl
    · rfl

/-- **A relative path that was made explicit is kept.** -/
theorem relativeify_relativeify (p : Text) : relativeify (relativeify p) = relativeify p := by
  have prefixed (q : Text) : relativeify ('.' :: '/' :: q) = '.' :: '/' :: q := by
    simp [relativeify, Text.startsWith]
  by_cases h0 : p = []
  · subst h0; rfl
  · by_cases h1 : p = here ∨ p = up ∨ p.startsWith ['.', '/'] ∨ p.startsWith ['.', '.', '/']
    · have : relativeify p = p := by rw [relativeify, if_neg h0, if_pos h1]
      rw [this, this]
    · have : relativeify p = '.' :: '/' :: p := by rw [relativeify, if_neg h0, if_neg h1]
      rw [this, prefixed]

example : normalize "/a/./b//../c".toList = "/a/c".toList := by decide +kernel
example : relative "/".toList "/a/b".toList "/a/c/d".toList = "../c/d".toList := by decide +kernel
example : extension "./a/.b".toList = [] := by decide +kernel

end VariableImport.Path
