/-!
# Transformations of integers

User code for tasks whose records are integers of 64 bits.  None of it remembers anything.
-/

namespace LatencyControl

/-- What a task makes of an integer. -/
inductive Transform
  /-- Its sum with another. -/
  | add (n : Int64)
  /-- Itself, if it is even. -/
  | even
  /-- Itself, a number of times. -/
  | copies (count : Nat)
  /-- Itself and its sum with another. -/
  | split (n : Int64)
  /-- Nothing. -/
  | drop
  deriving DecidableEq, Repr

/-- The integers that a transformation makes of one. -/
def Transform.apply : Transform → Int64 → List Int64
  | .add n, record => [record + n]
  | .even, record => if record % 2 = 0 then [record] else []
  | .copies count, record => List.replicate count record
  | .split n, record => [record, record + n]
  | .drop, _ => []

end LatencyControl
