import VariableImport.Text.Basic

/-!
# Glob/Component — one component of a glob against one name

One component of a glob against one name: `*` stands for any text, `?` for one character and a class
in brackets for one of its characters, or, begun with `!`, for one of all others.  A bracket that is
not closed stands for itself.
-/

namespace VariableImport.Glob

/-- A piece of a component. -/
inductive Piece where
  | char (c : Char)
  | any
  | star
  | oneOf (negated : Bool) (ranges : List (Char × Char))
deriving DecidableEq, Repr

/-! ## Classes -/

/-- The text of a class up to its closing bracket, and the text after it; the first character, after
a `!`, may be a bracket. -/
def classText (s : Text) : Option (Text × Text) :=
  let lead := match s with
    | '!' :: ']' :: _ => 2
    | '!' :: _ => 1
    | ']' :: _ => 1
    | _ => 0
  (Text.cutFirst ']' (s.drop lead)).map fun (body, rest) => (s.take lead ++ body, rest)

/-- Cuts the text of a class at the dashes that make ranges; `wait` characters before the next such
dash have to pass, and `chunk` is the part under way in reverse. -/
def chunksFrom (wait : Nat) (chunk : Text) : Text → List Text
  | [] => [chunk.reverse]
  | c :: s =>
    if wait = 0 ∧ c = '-' then chunk.reverse :: chunksFrom 2 [] s
    else chunksFrom (wait - 1) (c :: chunk) s

/-- The parts of a class between the dashes that make ranges; a dash at the end makes none. -/
def chunks (s : Text) : List Text :=
  let parts := chunksFrom (if s.head? = some '!' then 2 else 1) [] s
  match parts.reverse with
  | [] :: last :: before => ((last ++ ['-']) :: before).reverse
  | _ => parts

/-- Takes away the ranges that run backwards, from the last to the first. -/
def dropBackward : List Text → List Text
  | [] => []
  | part :: parts =>
    match dropBackward parts with
    | [] => [part]
    | next :: rest =>
      match part.getLast?, next.head? with
      | some a, some b => if a > b then (part.dropLast ++ next.tail) :: rest else part :: next :: rest
      | _, _ => part :: next :: rest

/-- Single characters as ranges. -/
def singles (s : Text) : List (Char × Char) := s.map fun c => (c, c)

/-- The ranges that the parts of a class stand for. -/
def rangesOf : List Text → List (Char × Char)
  | [] => []
  | [part] => singles part
  | part :: next :: rest =>
    match part.getLast?, next.head? with
    | some a, some b => singles part.dropLast ++ (a, b) :: rangesOf (next :: rest)
    | _, _ => singles part ++ rangesOf (next :: rest)

/-- The class of a text in brackets. -/
def classOf (s : Text) : Piece :=
  match dropBackward (chunks s) with
  | ('!' :: part) :: rest => .oneOf true (rangesOf (part :: rest))
  | parts => .oneOf false (rangesOf parts)

/-! ## Components -/

/-- The pieces of a component of at most `n` characters. -/
def piecesWithin : Nat → Text → List Piece
  | 0, _ => []
  | _, [] => []
  | n + 1, c :: s =>
    if c = '*' then .star :: piecesWithin n s
    else if c = '?' then .any :: piecesWithin n s
    else if c = '[' then
      match classText s with
      | some (body, rest) => classOf body :: piecesWithin n rest
      | none => .char c :: piecesWithin n s
    else .char c :: piecesWithin n s

/-- The pieces of a component. -/
def pieces (component : Text) : List Piece := piecesWithin component.length component

/-- Whether some tail of a name goes on with a match. -/
def matchTail (next : Text → Bool) : Text → Bool
  | [] => next []
  | c :: s => next (c :: s) || matchTail next s

/-- Whether pieces match a name. -/
def matchPieces : List Piece → Text → Bool
  | [], s => s.isEmpty
  | .star :: ps, s => matchTail (matchPieces ps) s
  | .any :: ps, _ :: s => matchPieces ps s
  | .char c :: ps, d :: s => c == d && matchPieces ps s
  | .oneOf negated ranges :: ps, d :: s =>
    (ranges.any fun (a, b) => a ≤ d && d ≤ b) != negated && matchPieces ps s
  | _ :: _, [] => false

/-- **Whether a component matches a name.** -/
def matchesName (component name : Text) : Bool := matchPieces (pieces component) name

/-- Whether a component has pieces other than its own text. -/
def hasMagic (s : Text) : Bool := s.any fun c => c == '*' || c == '?' || c == '['

/-- Whether a name is left out by wildcards. -/
def isHidden (name : Text) : Bool := name.head? == some '.'

theorem matchTail_iff {next : Text → Bool} {s : Text} :
    matchTail next s = true ↔ ∃ a b, s = a ++ b ∧ next b = true := by
  induction s with
  | nil =>
    refine ⟨fun h => ⟨[], [], rfl, h⟩, ?_⟩
    rintro ⟨a, b, e, h⟩
    obtain ⟨rfl, rfl⟩ := List.append_eq_nil_iff.1 e.symm
    exact h
  | cons c s ih =>
    rw [matchTail, Bool.or_eq_true, ih]
    constructor
    · rintro (h | ⟨a, b, rfl, h⟩)
      · exact ⟨[], c :: s, rfl, h⟩
      · exact ⟨c :: a, b, rfl, h⟩
    · rintro ⟨a, b, e, h⟩
      cases a with
      | nil => exact .inl (by rw [e]; exact h)
      | cons d a => exact .inr ⟨a, b, (List.cons.inj e).2, h⟩

example : matchesName "*.[jt]s".toList "a.ts".toList = true := by decide +kernel
example : matchesName "[!a-c]".toList "b".toList = false := by decide +kernel
example : matchesName "[z-a!b".toList "[z-a!b".toList = true := by decide +kernel

end VariableImport.Glob
