/-!
# Decimal numerals

A `Numeral` is a number as it is written in a document: a sign, digits, and perhaps a fraction and
an exponent.  Keeping the written form leaves it to the reader of a document to ask for a whole
number or for a binary one, and to refuse what it cannot use.

A whole number has to fit into 64 bits.  A binary number is read in one of the customary fast ways:
the leading digits that fit into 64 bits are converted first, and the result is scaled by a power
of ten.  Both steps round, so a numeral with many digits may be read as a neighbour of the nearest
binary number.
-/

namespace LatencyControl

/-- A number in decimal notation; digits are numbers below ten, most significant first. -/
structure Numeral where
  negative : Bool
  /-- The digits before the decimal point; there is at least one. -/
  whole : List Nat
  /-- The digits after the decimal point; none if there is no point. -/
  fraction : List Nat
  /-- Whether the exponent is negative, and its digits; absent if there is no exponent. -/
  exponent : Option (Bool × List Nat)
  deriving DecidableEq, Repr

namespace Numeral

/-- The number that a list of digits stands for. -/
def ofDigits (digits : List Nat) : Nat := digits.foldl (fun n d => n * 10 + d) 0

/-- The numeral of an integer. -/
def ofInt (n : Int) : Numeral :=
  { negative := decide (n < 0)
    whole := (Nat.toDigits 10 n.natAbs).map (fun c => c.toNat - '0'.toNat)
    fraction := []
    exponent := none }

/-- The text of a numeral. -/
def toChars (n : Numeral) : List Char :=
  let digits := List.map Nat.digitChar
  (if n.negative then ['-'] else []) ++ digits n.whole
    ++ (if n.fraction.isEmpty then [] else '.' :: digits n.fraction)
    ++ match n.exponent with
      | none => []
      | some (negative, ds) => 'e' :: (if negative then ['-'] else []) ++ digits ds

/-! ### Whole numbers -/

/-- The integer that a numeral without fraction and exponent stands for, if it fits into 64 bits.
Minus zero has a sign that no integer has. -/
def toInt? (n : Numeral) : Option Int :=
  if n.fraction.isEmpty && n.exponent.isNone then
    let value := ofDigits n.whole
    if n.negative then
      if 0 < value ∧ value ≤ Nat.pow 2 63 then some (-(value : Int)) else none
    else if value < Nat.pow 2 64 then some value else none
  else none

/-- The natural number that a numeral stands for, if it fits into 64 bits. -/
def toNat? (n : Numeral) : Option Nat :=
  match n.toInt? with
  | some (.ofNat value) => some value
  | _ => none

/-! ### Binary numbers -/

/-- Extends a number by digits as long as it fits into 64 bits; the digits left over come second. -/
def extend : Nat → List Nat → Nat × List Nat
  | value, [] => (value, [])
  | value, d :: ds =>
    if value * 10 + d < Nat.pow 2 64 then extend (value * 10 + d) ds else (value, d :: ds)

/-- Divides by ten to the power of 308 until the exponent is small enough, or nothing is left; a
64-bit number is down to zero after the second division. -/
def scaleDown : Nat → Float → Int → Option Float
  | 0, _, _ => some 0
  | steps + 1, value, exponent =>
    if exponent.natAbs ≤ 308 then
      let power := Float.ofScientific 1 false exponent.natAbs
      if 0 ≤ exponent then
        let scaled := value * power
        if scaled.isInf then none else some scaled
      else some (value / power)
    else if value == 0 then some value
    else if 0 ≤ exponent then none
    else scaleDown steps (value / Float.ofScientific 1 false 308) (exponent + 308)

/-- The digits and the power of ten of a numeral, without digits that do not fit into 64 bits. -/
def parts (n : Numeral) : Nat × Int :=
  let (value, wholeLeft) := extend 0 n.whole
  let (value, fractionLeft) := extend value n.fraction
  (value, (wholeLeft.length : Int) - (n.fraction.length - fractionLeft.length : Nat))

/-- The binary number that a numeral stands for; none if it is too large. -/
def toFloat? (n : Numeral) : Option Float :=
  let (value, shift) := n.parts
  let signed (x : Float) : Float := if n.negative then -x else x
  let start := (UInt64.ofNat value).toFloat
  match n.exponent with
  | none => (scaleDown 4 start shift).map signed
  | some (negative, digits) =>
    let exponent := ofDigits digits
    if exponent < Nat.pow 2 31 then
      (scaleDown 4 start (if negative then shift - exponent else shift + exponent)).map signed
    else if value ≠ 0 ∧ ¬ negative then none
    else some (signed 0)

end Numeral

end LatencyControl
