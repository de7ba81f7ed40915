import LatencyControl.Error

/-!
# Halting threads

The thread of a task parks at its next opportunity once it has been asked to halt, and stays parked
until it is woken.  Asking and waking are what control threads do; coming to the place where it may
park and leaving that place are what the thread itself does.  Each of them is one indivisible step,
and these steps may follow each other in any order: in particular, a thread that has been woken
still counts as parked until it has left.
-/

namespace LatencyControl

/-- The place where the thread of a task parks. -/
structure Halt where
  /-- The thread has been asked to halt. -/
  requested : Bool := false
  /-- The thread is parked. -/
  parked : Bool := false
  deriving DecidableEq, Repr

namespace Halt

/-- Asks the thread to halt; the answer says whether that is new. -/
def request (h : Halt) : Bool × Halt := (!h.requested, { h with requested := true })

/-- Wakes the thread; the answer says whether it had been asked to halt. -/
def wake (h : Halt) : Bool × Halt := (h.requested, { h with requested := false })

/-- The thread comes to the place, and parks if it has been asked to halt. -/
def enter (h : Halt) : Halt := { h with parked := h.parked || h.requested }

/-- The thread leaves the place, unless it is still asked to halt. -/
def leave (h : Halt) : Halt := { h with parked := h.parked && h.requested }

/-- What somebody who waits for the thread to park finds when the waiting ends, after the given time
at the latest. -/
def awaitParked (h : Halt) (nanos : Nat) : Except Error Unit :=
  if h.parked then .ok () else .error (.notParked nanos)

end Halt

end LatencyControl
