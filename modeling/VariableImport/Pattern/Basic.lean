import VariableImport.Text.CharClass

/-!
# Pattern/Basic — patterns are searched from left to right

A `Pattern` is searched in a text from left to right.  `ends` lists the texts left after each way to
match at a place, in order of preference: the first alternative before the second, a repetition that
goes on before one that stops.  `search?` takes the first way at the first place that has one.
-/

namespace VariableImport

/-- A member of a class of characters: some code points, or a category. -/
inductive Pattern.Member where
  | range (first last : Nat)
  | word (holds : Bool)
  | decimal (holds : Bool)
  | blank (holds : Bool)
deriving DecidableEq, Repr

/-- Whether a member holds a character. -/
def Pattern.Member.test (c : Char) : Pattern.Member → Bool
  | .range first last => first ≤ c.toNat && c.toNat ≤ last
  | .word holds => Text.isWord c == holds
  | .decimal holds => Text.isDecimal c == holds
  | .blank holds => Text.isBlank c == holds

/-- A regular expression. -/
inductive Pattern where
  /-- Matches the empty text. -/
  | empty
  /-- One character of a class, or, negated, outside of it. -/
  | one (negated : Bool) (members : List Pattern.Member)
  /-- One pattern after another. -/
  | seq (p q : Pattern)
  /-- The first pattern rather than the second. -/
  | either (p q : Pattern)
  /-- At least and at most so many times, rather often if greedy. -/
  | many (greedy : Bool) (least : Nat) (most : Option Nat) (p : Pattern)
  /-- A pattern that has a name. -/
  | named (name : Text) (p : Pattern)
  /-- The start of the text. -/
  | start
  /-- The end of the text, or the place before a newline that ends it. -/
  | finish
  /-- The end of the text. -/
  | bottom
  /-- A place where a word begins or ends, or one where none does. -/
  | boundary (holds : Bool)
  /-- A place where a pattern matches, or, negated, does not. -/
  | ahead (negated : Bool) (p : Pattern)
  /-- A place so many characters behind which a pattern matches them, or, negated, does not. -/
  | behind (negated : Bool) (width : Nat) (p : Pattern)
deriving Repr

namespace Pattern

/-- Repeats a step at least and at most so many times, in so many rounds.  What takes nothing is not
repeated beyond the least number. -/
def iterate (step : Text → List Text) (greedy : Bool) : Nat → Nat → Option Nat → Text → List Text
  | 0, _, _, s => [s]
  | rounds + 1, least + 1, most, s =>
    (step s).flatMap (iterate step greedy rounds least (most.map (· - 1)))
  | rounds + 1, 0, most, s =>
    let more := if most = some 0 then [] else
      (step s).flatMap fun t =>
        if t.length < s.length then iterate step greedy rounds 0 (most.map (· - 1)) t else [t]
    if greedy then more ++ [s] else s :: more

/-- Whether a word begins or ends where `s` is left of a text. -/
def isBoundary (whole s : Text) : Bool :=
  (whole.take (whole.length - s.length)).getLast?.any Text.isWord != s.head?.any Text.isWord

/-- What is left of `s`, the rest of a text, after each way to match at its start. -/
def ends (whole : Text) : Pattern → Text → List Text
  | .empty, s => [s]
  | .one _ _, [] => []
  | .one negated members, c :: s => if members.any (·.test c) != negated then [s] else []
  | .seq p q, s => (ends whole p s).flatMap (ends whole q)
  | .either p q, s => ends whole p s ++ ends whole q s
  | .many greedy least most p, s => iterate (ends whole p) greedy (least + s.length + 1) least most s
  | .named _ p, s => ends whole p s
  | .start, s => if s.length = whole.length then [s] else []
  | .finish, s => if s = [] ∨ s = ['\n'] then [s] else []
  | .bottom, s => if s = [] then [s] else []
  | .boundary holds, s => if whole ≠ [] ∧ isBoundary whole s = holds then [s] else []
  | .ahead negated p, s => if (ends whole p s).isEmpty == negated then [s] else []
  | .behind negated width p, s =>
    let place := whole.length - s.length
    let missing := place < width || (ends whole p (whole.drop (place - width))).isEmpty
    if missing == negated then [s] else []

/-- The first place from `place` on at which a pattern matches, and the place where it ends. -/
def searchFrom (whole : Text) (p : Pattern) (place : Nat) : Text → Option (Nat × Nat)
  | [] => ((ends whole p []).head?).map fun rest => (place, whole.length - rest.length)
  | c :: s =>
    match ends whole p (c :: s) with
    | rest :: _ => some (place, whole.length - rest.length)
    | [] => searchFrom whole p (place + 1) s

/-- Start and end of the first match in a text. -/
def search? (p : Pattern) (s : Text) : Option (Nat × Nat) := searchFrom s p 0 s

/-- The least and the greatest number of characters that a pattern may take, if there is one. -/
def width : Pattern → Nat × Option Nat
  | .one _ _ => (1, some 1)
  | .seq p q =>
    ((width p).1 + (width q).1, (width p).2.bind fun most => (width q).2.map (most + ·))
  | .either p q =>
    (min (width p).1 (width q).1, (width p).2.bind fun most => (width q).2.map (max most ·))
  | .many _ least most p =>
    ((width p).1 * least, if (width p).2 = some 0 then some 0 else
      (width p).2.bind fun each => most.map (each * ·))
  | .named _ p => width p
  | _ => (0, some 0)

/-- The names in a pattern. -/
def names : Pattern → List Text
  | .seq p q | .either p q => names p ++ names q
  | .many _ _ _ p | .ahead _ p | .behind _ _ p => names p
  | .named name p => name :: names p
  | _ => []

end Pattern

/-- What reads and searches regular expressions: for a text that writes one, the span of its first match in
every text. -/
abbrev Engine := Text → Option (Text → Option (Nat × Nat))

end VariableImport
