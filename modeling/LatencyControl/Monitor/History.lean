/-!
# Histories of measurements

A history keeps the most recent measurements of one metric, oldest first.  When it is full, the
oldest one makes room for the next.
-/

namespace LatencyControl

/-- A value and the time that it was measured at. -/
structure Stamped (α : Type) where
  value : α
  timestamp : Int
  deriving DecidableEq, Repr

/-- The most recent measurements of a metric, oldest first. -/
structure History (α : Type) where
  capacity : Nat
  entries : List (Stamped α) := []
  deriving DecidableEq, Repr

namespace History

variable {α : Type}

/-- An empty history, with room for at least one measurement. -/
def ofCapacity (capacity : Nat) : History α := { capacity := max capacity 1 }

/-- Whether there is no room for another measurement. -/
def isFull (h : History α) : Bool := h.capacity ≤ h.entries.length

/-- Adds a measurement; the oldest one makes room for it if need be. -/
def add (h : History α) (value : α) (timestamp : Int) : History α :=
  let kept := if h.isFull then h.entries.tail else h.entries
  { h with entries := kept ++ [{ value, timestamp }] }

/-- Adds a measurement if there is one. -/
def addIfAny (h : History α) (value : Option α) (timestamp : Int) : History α :=
  match value with
  | some value => h.add value timestamp
  | none => h

/-- The most recently added measurement. -/
def last? (h : History α) : Option (Stamped α) := h.entries.getLast?

/-- The most recently added value. -/
def lastValue? (h : History α) : Option α := h.last?.map Stamped.value

/-- The time of the most recently added measurement. -/
def lastTimestamp? (h : History α) : Option Int := h.last?.map Stamped.timestamp

/-- The sum of the values, oldest first.  It starts at negative zero, the number that changes no
other number when it is added. -/
def sum (h : History Float) : Float := h.entries.foldl (fun total e => total + e.value) (-0.0)

/-- The mean of the values. -/
def average? (h : History Float) : Option Float :=
  if h.entries.isEmpty then none else some (h.sum / Float.ofNat h.entries.length)

end History

end LatencyControl
