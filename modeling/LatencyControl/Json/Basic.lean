import LatencyControl.Json.Numeral

/-!
# JSON values

A `Json` is a document as it is written: numbers in their decimal notation, the fields of an object
in their order and with repetitions.  A text whose escapes stand for no characters, such as half of
a surrogate pair, is kept as `none`; it does no harm in a place that nobody reads.
-/

namespace LatencyControl

/-- A JSON value. -/
inductive Json where
  | null
  | bool (value : Bool)
  | number (value : Numeral)
  | string (text : Option String)
  | array (items : List Json)
  | object (fields : List (Option String × Json))
  deriving Repr, Inhabited

namespace Json

/-! ### Building values -/

/-- A text. -/
def text (s : String) : Json := .string (some s)

/-- An integer. -/
def int (n : Int) : Json := .number (.ofInt n)

/-- A natural number. -/
def nat (n : Nat) : Json := .int n

/-- An object with the given fields. -/
def record (fields : List (String × Json)) : Json :=
  .object (fields.map (fun field => (some field.1, field.2)))

/-- A list of values. -/
def list {α : Type} (item : α → Json) (items : List α) : Json := .array (items.map item)

/-- The value of an option, or null. -/
def option {α : Type} (value : α → Json) : Option α → Json
  | none => .null
  | some a => value a

/-! ### What a value consists of -/

mutual

/-- How deep arrays and objects are nested. -/
def depth : Json → Nat
  | .array items => depthItems items + 1
  | .object fields => depthFields fields + 1
  | _ => 0

/-- The greatest depth among items. -/
def depthItems : List Json → Nat
  | [] => 0
  | item :: rest => max item.depth (depthItems rest)

/-- The greatest depth among fields. -/
def depthFields : List (Option String × Json) → Nat
  | [] => 0
  | (_, value) :: rest => max value.depth (depthFields rest)

end

mutual

/-- Whether every text in a value is readable and every number is small enough to be one. -/
def isReadable : Json → Bool
  | .number value => value.toFloat?.isSome
  | .string text => text.isSome
  | .array items => areReadable items
  | .object fields => fieldsAreReadable fields
  | _ => true

/-- Whether all items are readable. -/
def areReadable : List Json → Bool
  | [] => true
  | item :: rest => item.isReadable && areReadable rest

/-- Whether the names and values of all fields are readable. -/
def fieldsAreReadable : List (Option String × Json) → Bool
  | [] => true
  | (name, value) :: rest => name.isSome && value.isReadable && fieldsAreReadable rest

end

end Json

end LatencyControl
