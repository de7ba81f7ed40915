import LatencyControl.Report.Scheduler

/-!
# The roster of a task

The scheduler of a task does not look at all of its reporters when there is a record at a gate.  It
keeps a list for each of the gates, of the reporters that hear what happens there, and a registry of
all reporters under their keys.  A reporter that hears of two gates is in two of the lists, but it
is one reporter with one set of counts.  So the lists and the registry refer to the reporters by the
places at which they were made.

A registration checks the gates and the key before it changes anything.  Then it makes the reporter,
puts it into the list of its input gate, into the list of its output gate and into the registry, one
after the other.
-/

namespace LatencyControl

/-- The reporters of a task as its scheduler keeps them. -/
structure Roster (τ : Type) where
  interval : τ
  /-- The reporters, in the order in which they were made. -/
  made : List (Reporter τ) := []
  /-- The places of the reporters, by their keys. -/
  registry : List (ReporterId × Nat) := []
  /-- For each input gate the places of the reporters that hear what happens there. -/
  atInputs : List (List Nat)
  /-- For each output gate the places of the reporters that hear what happens there. -/
  atOutputs : List (List Nat)

namespace Roster

variable {τ : Type}

/-- The roster of a task with the given numbers of gates, before any registration. -/
def empty (interval : τ) (inputs outputs : Nat) : Roster τ :=
  { interval, atInputs := List.replicate inputs [], atOutputs := List.replicate outputs [] }

/-- What the lists stand for: the reporters, and a gate for each list. -/
def toScheduler (s : Roster τ) : Scheduler τ :=
  { interval := s.interval, inputs := s.atInputs.length, outputs := s.atOutputs.length
    reporters := s.made }

/-- The list of the gate at which the event happens; it is empty if the task has no such gate. -/
def listed (s : Roster τ) : GateEvent → List Nat
  | .received gate => s.atInputs.getD gate []
  | .emitted gate => s.atOutputs.getD gate []

/-- Puts a place into the list of the gate, if there is to be a gate. -/
def putAt (lists : List (List Nat)) (place : Nat) : Option Nat → List (List Nat)
  | none => lists
  | some gate => lists.modify gate (· ++ [place])

/-- Makes a reporter and puts it into the lists of its gates and into the registry. -/
def enlist (s : Roster τ) (now : τ) (input output : Option Nat) (id : ReporterId) : Roster τ :=
  let place := s.made.length
  { s with
    made := s.made ++ [{ id, input, output, lastReport := now }]
    atInputs := putAt s.atInputs place input
    atOutputs := putAt s.atOutputs place output
    registry := s.registry ++ [(id, place)] }

/-- Registers a reporter, unless there is one with its key already; the answer says whether it was
new. -/
def add (s : Roster τ) (now : τ) (input output : Option Nat) (id : ReporterId) :
    Except Error Bool × Roster τ :=
  match s.toScheduler.checkGates input output id with
  | .error e => (.error e, s)
  | .ok () =>
    if (s.registry.lookup id).isSome then (.ok false, s)
    else (.ok true, s.enlist now input output id)

variable [Millis τ]

/-- Tells the reporter at the given place of an event, which it counts wherever it happens. -/
def tell (s : Roster τ) (clock : ReporterId → Readings τ) (e : GateEvent) (place : Nat) :
    Roster τ × List (Report τ) :=
  match s.made[place]? with
  | none => (s, [])
  | some r =>
    let (r', report) := (r.count (clock r.id).counting e).tick s.interval (clock r.id).checking
    ({ s with made := s.made.set place r' }, report.toList)

/-- Tells the reporters at some places of an event, one after the other. -/
def tellAll (s : Roster τ) (clock : ReporterId → Readings τ) (e : GateEvent) :
    List Nat → Roster τ × List (Report τ)
  | [] => (s, [])
  | place :: rest =>
    let (s, reports) := s.tell clock e place
    let (s, later) := s.tellAll clock e rest
    (s, reports ++ later)

/-- Tells the reporters in the list of a gate of an event there. -/
def hear (s : Roster τ) (clock : ReporterId → Readings τ) (e : GateEvent) :
    Roster τ × List (Report τ) :=
  s.tellAll clock e (s.listed e)

end Roster

end LatencyControl
