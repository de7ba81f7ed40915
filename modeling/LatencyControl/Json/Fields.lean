import LatencyControl.Json.Basic

/-!
# Reading typed values from JSON

A reader of type `Json → Option α` turns a value into something typed or refuses it.

Records may be written in two ways: as an object, whose fields are found by name, where unknown
fields are skipped and repeated ones refused; or as an array of the fields in their declared order,
which may end early but not go on too long.  `Fields` is what either way of writing yields.
-/

namespace LatencyControl.Json

/-! ### Plain values -/

/-- A readable text. -/
def asText? : Json → Option String
  | .string text => text
  | _ => none

/-- A natural number of at most 64 bits. -/
def asNat? : Json → Option Nat
  | .number n => n.toNat?
  | _ => none

/-- An integer between the given bounds. -/
def asIntBetween? (least greatest : Int) : Json → Option Int
  | .number n => n.toInt?.filter (fun i => least ≤ i ∧ i ≤ greatest)
  | _ => none

/-- A signed integer of 64 bits. -/
def asInt64? (value : Json) : Option Int64 :=
  (value.asIntBetween? Int64.minValue.toInt Int64.maxValue.toInt).map Int64.ofInt

/-- A signed integer of 32 bits. -/
def asInt32? (value : Json) : Option Int32 :=
  (value.asIntBetween? Int32.minValue.toInt Int32.maxValue.toInt).map Int32.ofInt

/-- A binary floating-point number. -/
def asFloat? : Json → Option Float
  | .number n => n.toFloat?
  | _ => none

/-- A truth value. -/
def asBool? : Json → Option Bool
  | .bool b => some b
  | _ => none

/-- An array of values that the given reader accepts. -/
def asList? {α : Type} (read : Json → Option α) : Json → Option (List α)
  | .array items => items.mapM read
  | _ => none

/-- Null, or a value that the given reader accepts. -/
def orNull? {α : Type} (read : Json → Option α) : Json → Option (Option α)
  | .null => some none
  | value => (read value).map some

/-! ### Alternatives -/

/-- An alternative that carries a value: an object whose only field is named after it. -/
def asTagged? : Json → Option (String × Json)
  | .object [(some name, value)] => some (name, value)
  | _ => none

/-- One of several named alternatives without content: its name, or an object whose only field has
that name and the value null. -/
def asChoice? {α : Type} (choices : List (String × α)) : Json → Option α
  | .string (some name) => choices.lookup name
  | .object [(some name, .null)] => choices.lookup name
  | _ => none

/-! ### Records -/

/-- The fields of a record as they were found: each declared name with its value, if it has one. -/
structure Fields where
  values : List (String × Option Json)
  byPosition : Bool

/-- Finds the fields with the given names in an object. -/
def fieldsOfObject? (names : List String) (found : List (Option String × Json)) : Option Fields :=
  if found.all (fun field => field.1.isSome) then do
    let values ← names.mapM fun name =>
      match found.filter (fun field => field.1 == some name) with
      | [] => some (name, none)
      | [(_, value)] => some (name, some value)
      | _ => none
    return { values, byPosition := false }
  else none

/-- Takes the items of an array for the fields with the given names. -/
def fieldsOfArray? (names : List String) (items : List Json) : Option Fields :=
  if items.length ≤ names.length then
    some
      { values := names.zipIdx.map (fun (name, i) => (name, items[i]?))
        byPosition := true }
  else none

/-- Finds the fields with the given names in either way of writing a record. -/
def fields? (names : List String) : Json → Option Fields
  | .object found => fieldsOfObject? names found
  | .array items => fieldsOfArray? names items
  | _ => none

namespace Fields

variable {α : Type}

/-- The value of a field. -/
def find? (fields : Fields) (name : String) : Option Json := (fields.values.lookup name).join

/-- A field that has to be there. -/
def required (fields : Fields) (name : String) (read : Json → Option α) : Option α :=
  (fields.find? name).bind read

/-- A field with a value of its own when it is absent. -/
def defaulted (fields : Fields) (name : String) (absent : α) (read : Json → Option α) : Option α :=
  match fields.find? name with
  | none => some absent
  | some value => read value

/-- A field that may be null.  It may also be left out of an object, but not of an array. -/
def optional (fields : Fields) (name : String) (read : Json → Option α) : Option (Option α) :=
  match fields.find? name with
  | none => if fields.byPosition then none else some none
  | some value => value.orNull? read

end Fields

end LatencyControl.Json
