/-!
# Durations

A duration is shown in the largest of the units second, millisecond, microsecond and nanosecond in
which it is at least one.  What is left over follows a decimal point, without trailing zeros: 1500
microseconds are `1.5ms` and 2000 milliseconds are `2s`.
-/

namespace LatencyControl.Text

/-- The last `width` decimal digits of a number, most significant first. -/
def lastDigits (n : Nat) : Nat → List Char
  | 0 => []
  | width + 1 => lastDigits (n / 10) width ++ [Nat.digitChar (n % 10)]

/-- The fraction `n / 10 ^ width` after a decimal point; nothing at all if it is zero. -/
def decimalPart (n width : Nat) : String :=
  let digits := ((lastDigits n width).reverse.dropWhile (· == '0')).reverse
  if digits.isEmpty then "" else "." ++ String.ofList digits

/-- A number of nanoseconds as people write it. -/
def duration (nanos : Nat) : String :=
  let inUnit (width : Nat) (unit : String) : String :=
    let whole := Nat.pow 10 width
    toString (nanos / whole) ++ decimalPart (nanos % whole) width ++ unit
  if Nat.pow 10 9 ≤ nanos then inUnit 9 "s"
  else if Nat.pow 10 6 ≤ nanos then inUnit 6 "ms"
  else if Nat.pow 10 3 ≤ nanos then inUnit 3 "µs"
  else inUnit 0 "ns"

/-- As many digits as asked for. -/
@[simp] theorem length_lastDigits (n width : Nat) : (lastDigits n width).length = width := by
  induction width generalizing n with
  | zero => rfl
  | succ width ih => simp [lastDigits, ih]

/-- A whole number of units has no decimal point. -/
@[simp] theorem decimalPart_zero (width : Nat) : decimalPart 0 width = "" := by
  have h : lastDigits 0 width = List.replicate width '0' := by
    induction width with
    | zero => rfl
    | succ width ih => simp [lastDigits, ih, List.replicate_succ', Nat.digitChar]
  simp [decimalPart, h]

end LatencyControl.Text
