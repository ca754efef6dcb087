import VariableImport.Text.Basic

/-!
# Json/Basic — values with their fields in order

Values with objects as lists of fields in the order in which they were written.
-/

namespace VariableImport

/-- A number: an integer, or any other number kept as it is spelled. -/
inductive Json.Number where
  | integer (n : Int)
  | decimal (spelling : Text)
deriving DecidableEq, Repr, Inhabited

/-- A JSON value; the fields of an object keep their order. -/
inductive Json where
  | null
  | bool (b : Bool)
  | number (n : Json.Number)
  | text (s : Text)
  | list (xs : List Json)
  | object (fields : List (Text × Json))
deriving Repr, Inhabited

namespace Json

/-- An integer as a value. -/
def int (n : Int) : Json := .number (.integer n)

/-- A list of texts as a value. -/
def texts (xs : List Text) : Json := .list (xs.map .text)

/-- A text or null. -/
def optText (s : Option Text) : Json := s.elim .null .text

/-! ## Fields -/

/-- A field put into an object: a new name goes to the end, a known one takes the new value in its
place. -/
def put (fields : List (Text × Json)) (name : Text) (value : Json) : List (Text × Json) :=
  match fields with
  | [] => [(name, value)]
  | (k, v) :: rest => if k = name then (name, value) :: rest else (k, v) :: put rest name value

/-- The value of a field of an object. -/
def get? (name : Text) : Json → Option Json
  | .object fields => fields.lookup name
  | _ => none

theorem lookup_put (fields : List (Text × Json)) (name : Text) (value : Json) :
    (put fields name value).lookup name = some value := by
  induction fields with
  | nil => simp [put]
  | cons f rest ih =>
    obtain ⟨k, v⟩ := f
    unfold put
    by_cases h : k = name
    · simp [h]
    · rw [if_neg h, List.lookup_cons, beq_false_of_ne (Ne.symm h)]
      exact ih

end Json

end VariableImport
