import VariableImport.Pattern.Basic

/-!
# Pattern/Reader — the written form of patterns

The written form of a `Pattern`: characters, escapes, classes in brackets, groups with names or without,
alternatives, repetitions, anchors, and conditions on what follows or stands before.  `Pattern.read?` gives
nothing for a text that is no regular expression, nor for one with flags, comments, references to a group,
conditions on a group, or groups and repetitions that are not entered again.
-/

namespace VariableImport.Pattern

/-! ## Characters -/

/-- The code point that exactly `n` hexadecimal digits write, and the text after them. -/
def hexCode? (n : Nat) (s : Text) : Option (Nat × Text) :=
  let digits := s.take n
  if digits.length = n ∧ digits.all Text.isHex ∧ Text.ofHex digits < 0x110000 then
    some (Text.ofHex digits, s.drop n)
  else none

/-- The code point below 256 that up to three octal digits write, and the text after them. -/
def octalCode? (s : Text) : Option (Nat × Text) :=
  let digits := (s.take 3).takeWhile fun c => '0' ≤ c && c ≤ '7'
  let code := digits.foldl (fun n c => n * 8 + (c.toNat - 48)) 0
  if digits = [] ∨ 256 ≤ code then none else some (code, s.drop digits.length)

/-- The class that an escaped letter stands for, or the code point. -/
def letter? (c : Char) : Option Member :=
  match c with
  | 'w' => some (.word true)
  | 'W' => some (.word false)
  | 'd' => some (.decimal true)
  | 'D' => some (.decimal false)
  | 's' => some (.blank true)
  | 'S' => some (.blank false)
  | 'a' => some (.range 7 7)
  | 't' => some (.range 9 9)
  | 'n' => some (.range 10 10)
  | 'v' => some (.range 11 11)
  | 'f' => some (.range 12 12)
  | 'r' => some (.range 13 13)
  | _ => none

/-- What is escaped at the start of a text, and the text after it; letters and digits without a meaning are
refused. -/
def escape? (s : Text) : Option (Member × Text) :=
  let code (found : Option (Nat × Text)) := found.map fun (n, t) => (Member.range n n, t)
  match s with
  | [] => none
  | 'x' :: t => code (hexCode? 2 t)
  | 'u' :: t => code (hexCode? 4 t)
  | 'U' :: t => code (hexCode? 8 t)
  | '0' :: _ => code (octalCode? s)
  | c :: t =>
    if c.isAlphanum then (letter? c).map fun m => (m, t) else some (.range c.toNat c.toNat, t)

/-! ## Classes -/

/-- One member of a class and the text after it. -/
def member? : Text → Option (Member × Text)
  | '\\' :: 'b' :: s => some (.range 8 8, s)
  | '\\' :: c :: s =>
    if '1' ≤ c ∧ c ≤ '7' then (octalCode? (c :: s)).map fun (n, t) => (.range n n, t) else escape? (c :: s)
  | ['\\'] => none
  | c :: s => some (.range c.toNat c.toNat, s)
  | [] => none

/-- The members up to the closing bracket, of which the first may be a bracket itself. -/
def members? : Nat → Bool → Text → Option (List Member × Text)
  | 0, _, _ => none
  | fuel + 1, first, s =>
    match s, first with
    | ']' :: t, false => some ([], t)
    | _, _ => do
      let (low, t) ← member? s
      match t with
      | '-' :: ']' :: _ => do
        let (ms, u) ← members? fuel false t
        return (low :: ms, u)
      | '-' :: u => do
        let (high, u) ← member? u
        match low, high with
        | .range a _, .range b _ =>
          if a ≤ b then do
            let (ms, v) ← members? fuel false u
            return (.range a b :: ms, v)
          else none
        | _, _ => none
      | _ => do
        let (ms, u) ← members? fuel false t
        return (low :: ms, u)

/-- A class whose opening bracket has been read. -/
def class? (s : Text) : Option (Pattern × Text) :=
  match s with
  | '^' :: t => (members? (t.length + 1) true t).map fun (ms, u) => (.one true ms, u)
  | t => (members? (t.length + 1) true t).map fun (ms, u) => (.one false ms, u)

/-! ## Repetitions -/

/-- The decimal digits at the start of a text as a number, if there are any, and the text after them. -/
def number? (s : Text) : Option Nat × Text :=
  let digits := s.takeWhile Char.isDigit
  (if digits = [] then none else some (digits.foldl (fun n c => n * 10 + (c.toNat - 48)) 0),
    s.dropWhile Char.isDigit)

/-- How often a pattern is repeated by the start of a text, and the text after it.  Braces that hold no bounds
stand for themselves. -/
def bounds? : Text → Option ((Nat × Option Nat) × Text)
  | '*' :: s => some ((0, none), s)
  | '+' :: s => some ((1, none), s)
  | '?' :: s => some ((0, some 1), s)
  | '\x7b' :: '\x7d' :: _ => none
  | '\x7b' :: s =>
    match number? s with
    | (least, ',' :: t) =>
      match number? t with
      | (most, '\x7d' :: u) => some ((least.getD 0, most), u)
      | _ => none
    | (some n, '\x7d' :: t) => some ((n, some n), t)
    | _ => none
  | _ => none

/-- Puts the repetition that starts `s`, if one does, behind a pattern. -/
def repeated? (p : Pattern) (anchor : Bool) (s : Text) : Option (Pattern × Text) :=
  match bounds? s with
  | none => some (p, s)
  | some ((least, most), t) =>
    let (greedy, u) := match t with
      | '?' :: u => (false, u)
      | _ => (true, t)
    if anchor ∨ most.any (· < least) ∨ 4294967295 ≤ max least (most.getD 0) ∨ (bounds? u).isSome then none
    else some (.many greedy least most p, u)

/-! ## Groups -/

/-- The name of a group up to its closing mark, and the text after it. -/
def name? (s : Text) : Option (Text × Text) :=
  let name := s.takeWhile (· != '>')
  match s.dropWhile (· != '>') with
  | _ :: t =>
    if name.head?.any (fun c => c.isAlpha || c == '_') && name.all (fun c => c.isAlphanum || c == '_') then
      some (name, t)
    else none
  | [] => none

/-- A condition on what stands before, which takes so many characters. -/
def behind? (negated : Bool) (p : Pattern) : Option Pattern :=
  if p.width.2 = some p.width.1 then some (.behind negated p.width.1 p) else none

mutual

/-- Alternatives up to a closing parenthesis or the end. -/
def alternatives? : Nat → Text → Option (Pattern × Text)
  | 0, _ => none
  | fuel + 1, s => do
    let (p, t) ← sequence? fuel s
    match t with
    | '|' :: u => do
      let (q, v) ← alternatives? fuel u
      return (.either p q, v)
    | _ => return (p, t)

/-- Pieces one after another up to a bar, a closing parenthesis or the end. -/
def sequence? : Nat → Text → Option (Pattern × Text)
  | 0, _ => none
  | fuel + 1, s =>
    match s with
    | [] => some (.empty, s)
    | '|' :: _ => some (.empty, s)
    | ')' :: _ => some (.empty, s)
    | _ => do
      let ((p, anchor), t) ← piece? fuel s
      let (p, t) ← repeated? p anchor t
      let (q, u) ← sequence? fuel t
      return (.seq p q, u)

/-- One piece, and whether it is an anchor, which cannot be repeated. -/
def piece? : Nat → Text → Option ((Pattern × Bool) × Text)
  | 0, _ => none
  | fuel + 1, s =>
    match s with
    | '(' :: '?' :: ':' :: t => group? fuel t some
    | '(' :: '?' :: '=' :: t => group? fuel t fun p => some (.ahead false p)
    | '(' :: '?' :: '!' :: t => group? fuel t fun p => some (.ahead true p)
    | '(' :: '?' :: '<' :: '=' :: t => group? fuel t (behind? false)
    | '(' :: '?' :: '<' :: '!' :: t => group? fuel t (behind? true)
    | '(' :: '?' :: 'P' :: '<' :: t => do
      let (name, u) ← name? t
      group? fuel u fun p => some (.named name p)
    | '(' :: '?' :: _ => none
    | '(' :: t => group? fuel t some
    | '[' :: t => (class? t).map fun (p, u) => ((p, false), u)
    | '^' :: t => some ((.start, true), t)
    | '$' :: t => some ((.finish, true), t)
    | '.' :: t => some ((.one true [.range 10 10], false), t)
    | '\\' :: 'A' :: t => some ((.start, true), t)
    | '\\' :: 'Z' :: t => some ((.bottom, true), t)
    | '\\' :: 'b' :: t => some ((.boundary true, true), t)
    | '\\' :: 'B' :: t => some ((.boundary false, true), t)
    | '\\' :: t => (escape? t).map fun (m, u) => ((.one false [m], false), u)
    | c :: t => if (bounds? s).isSome then none else some ((.one false [.range c.toNat c.toNat], false), t)
    | [] => none

/-- Alternatives and the closing parenthesis after them. -/
def group? (fuel : Nat) (s : Text) (make : Pattern → Option Pattern) :
    Option ((Pattern × Bool) × Text) :=
  match fuel with
  | 0 => none
  | fuel + 1 => do
    let (p, t) ← alternatives? fuel s
    match t with
    | ')' :: u => (make p).map fun q => ((q, false), u)
    | _ => none

end

/-- The pattern that a text writes, in which no name is given twice. -/
def read? (s : Text) : Option Pattern :=
  match alternatives? (4 * s.length + 4) s with
  | some (p, []) => if p.names.Nodup then some p else none
  | _ => none

/-- The engine for the expressions that `read?` reads. -/
def engine : Engine := fun written => (read? written).map search?

/-- The span of the first match of a written pattern; outermost nothing for a text that writes no
pattern. -/
def find? (written s : Text) : Option (Option (Nat × Nat)) :=
  (engine written).map fun search => search s

example : find? "^@\\w+".toList "@ab/c".toList = some (some (0, 3)) := by decide +kernel
example : find? "(?P<mark>@|~)\x7b2,\x7d/".toList "x@~/".toList = some (some (1, 4)) := by decide +kernel
example : find? "(?<=/)[a-z]+\\b(?!/)".toList "A/bc/de".toList = some (some (5, 7)) := by decide +kernel
example : find? "$".toList "a\n".toList = some (some (1, 1)) := by decide +kernel
example : (find? "(".toList [], find? "*".toList [], find? "a\x7b2,1\x7d".toList []) = (none, none, none) := by
  decide +kernel

end VariableImport.Pattern
