import LatencyControl.Millis
import LatencyControl.Report.Sample

/-!
# Scheduling reports

The scheduler of a task counts the records at the task's gates for every reporter of the task.  A
reporter hears what happens at its own gates.  Now and then it checks whether a report is due, which
is when all of its sides have seen traffic and the interval has passed since its last report; then
it reports the traffic since that last report and starts counting anew.

Checking costs time, so it happens once per probe interval, which is a tenth of the events of the
last report.

A reporter reads the clock for itself, when it counts an event and again when it checks.  Between
two readings time may have gone on.

A check adds and subtracts times.  Where the outcome is nothing that the clock can read, the check
overflows and the program ends: `Scheduler.hear?` has no outcome then, and else the one of
`Scheduler.hear`.
-/

namespace LatencyControl

/-- Something that a reporter counts: a record at one of the task's gates. -/
inductive GateEvent
  | received (gate : Nat)
  | emitted (gate : Nat)
  deriving DecidableEq, Repr

/-- A reporter of a task, with its counts since its last report. -/
structure Reporter (τ : Type) where
  id : ReporterId
  input : Option Nat
  output : Option Nat
  received : Nat := 0
  emitted : Nat := 0
  /-- When the first of the counted records was received. -/
  firstReceive : Option τ := none
  /-- When the last report was made, or else when the reporter was registered. -/
  lastReport : τ
  /-- The number of events from one check to the next. -/
  probeInterval : Nat := 1
  /-- The number of events up to the next check. -/
  countdown : Nat := 1

/-- What a reporter reads off the clock when it hears of an event. -/
structure Readings (τ : Type) where
  /-- The reading when the event is counted. -/
  counting : τ
  /-- The reading when the reporter checks whether a report is due. -/
  checking : τ

/-- A report of a reporter, made at the given time. -/
structure Report (τ : Type) where
  timestamp : τ
  reporter : ReporterId
  metrics : VertexMetrics Float

namespace Reporter

variable {τ : Type}

/-- Whether the event happens at a gate of the reporter. -/
def hears (r : Reporter τ) : GateEvent → Bool
  | .received gate => r.input == some gate
  | .emitted gate => r.output == some gate

/-- Counts an event. -/
def count (r : Reporter τ) (now : τ) : GateEvent → Reporter τ
  | .received _ =>
    { r with
      received := r.received + 1
      firstReceive := if r.received = 0 then some now else r.firstReceive }
  | .emitted _ => { r with emitted := r.emitted + 1 }

/-- Whether every side of the reporter has seen traffic. -/
def hasTraffic (r : Reporter τ) : Bool :=
  (r.input.isNone || 0 < r.received) && (r.output.isNone || 0 < r.emitted)
    && (0 < r.received || 0 < r.emitted)

variable [Millis τ]

/-- Whether the interval has passed since the last report. -/
def intervalPassed (r : Reporter τ) (interval now : τ) : Bool :=
  Millis.atMost (Millis.add r.lastReport interval) now

/-- The number of records per second of a count over some milliseconds. -/
def rate (count : Nat) (elapsed : τ) : Float := Float.ofNat count / (Millis.toFloat elapsed / 1000)

/-- The mean latency of the counted records: the time since the first of them, shared among them. -/
def meanLatency (r : Reporter τ) (now : τ) : Option Float :=
  match r.input, r.output, r.firstReceive with
  | some _, some _, some first =>
    if 0 < r.received then some (Millis.toFloat (Millis.sub now first) / Float.ofNat r.received)
    else none
  | _, _, _ => none

/-- What the reporter has to report. -/
def metrics (r : Reporter τ) (now : τ) : VertexMetrics Float :=
  let elapsed := Millis.sub now r.lastReport
  { latency := r.meanLatency now
    consumed := r.input.map (fun _ => rate r.received elapsed)
    emitted := r.output.map (fun _ => rate r.emitted elapsed) }

/-- The probe interval after a report about the given number of events. -/
def probeAfter (events : Nat) : Nat := max 1 ((events + 9) / 10)

/-- Starts counting anew. -/
def restart (r : Reporter τ) (now : τ) : Reporter τ :=
  let probe := probeAfter (r.received + r.emitted)
  { r with
    received := 0, emitted := 0, firstReceive := none, lastReport := now
    probeInterval := probe, countdown := probe }

/-- Reports if a report is due. -/
def check (r : Reporter τ) (interval now : τ) : Reporter τ × Option (Report τ) :=
  if r.hasTraffic && r.intervalPassed interval now then
    (r.restart now, some { timestamp := now, reporter := r.id, metrics := r.metrics now })
  else (r, none)

/-- Goes one event on towards the next check, and checks when it is time. -/
def tick (r : Reporter τ) (interval now : τ) : Reporter τ × Option (Report τ) :=
  if r.countdown - 1 = 0 then { r with countdown := r.probeInterval }.check interval now
  else ({ r with countdown := r.countdown - 1 }, none)

/-- Whether the interval has passed since the last report, if its end is a time that the clock can
read. -/
def intervalPassed? (r : Reporter τ) (interval now : τ) : Option Bool :=
  if Millis.sumFits r.lastReport interval then some (r.intervalPassed interval now) else none

/-- Whether the clock can read the times that the metrics are about. -/
def metricsFit (r : Reporter τ) (now : τ) : Bool :=
  Millis.differenceFits now r.lastReport &&
    match r.input, r.output, r.firstReceive with
    | some _, some _, some first => r.received = 0 || Millis.differenceFits now first
    | _, _, _ => true

/-- Whether a check calculates a time that the clock cannot read. -/
def overflows (r : Reporter τ) (interval now : τ) : Bool :=
  r.hasTraffic &&
    match r.intervalPassed? interval now with
    | some passed => passed && !r.metricsFit now
    | none => true

/-- Whether the check that an event brings about, if it does, overflows. -/
def overflowsAt (r : Reporter τ) (interval : τ) (readings : Readings τ) (e : GateEvent) : Bool :=
  r.hears e && r.countdown - 1 = 0 &&
    (r.count readings.counting e).overflows interval readings.checking

/-- Hears of an event at one of the task's gates, with the given readings of the clock. -/
def hear (r : Reporter τ) (interval : τ) (readings : Readings τ) (e : GateEvent) :
    Reporter τ × Option (Report τ) :=
  if r.hears e then (r.count readings.counting e).tick interval readings.checking else (r, none)

end Reporter

/-- The reporters of a task, in the order of their registration, and the numbers of its gates. -/
structure Scheduler (τ : Type) where
  interval : τ
  inputs : Nat
  outputs : Nat
  reporters : List (Reporter τ) := []

namespace Scheduler

variable {τ : Type}

/-- The reporter with the given key. -/
def find? (s : Scheduler τ) (id : ReporterId) : Option (Reporter τ) :=
  s.reporters.find? (fun r => r.id == id)

/-- The reporters that hear the events of an input gate. -/
def atInput (s : Scheduler τ) (gate : Nat) : List (Reporter τ) :=
  s.reporters.filter (fun r => r.input == some gate)

/-- The reporters that hear the events of an output gate. -/
def atOutput (s : Scheduler τ) (gate : Nat) : List (Reporter τ) :=
  s.reporters.filter (fun r => r.output == some gate)

/-- Refuses gates that the task does not have. -/
def checkGates (s : Scheduler τ) (input output : Option Nat) (id : ReporterId) :
    Except Error Unit := do
  if input.isNone ∧ output.isNone then throw (.reporterWithoutGates id.display)
  if let some i := input then
    if s.inputs ≤ i then throw (.noInputGate i)
  if let some i := output then
    if s.outputs ≤ i then throw (.noOutputGate i)

/-- Registers a reporter, unless there is one with its key already; the answer says whether it was
new. -/
def register (s : Scheduler τ) (now : τ) (input output : Option Nat) (id : ReporterId) :
    Except Error (Bool × Scheduler τ) := do
  s.checkGates input output id
  if (s.find? id).isSome then return (false, s)
  return (true, { s with reporters := s.reporters ++ [{ id, input, output, lastReport := now }] })

variable [Millis τ]

/-- Tells all reporters of an event, where `clock` says what each of them reads off the clock; the
reports that this brings about come in the order of the reporters. -/
def hear (s : Scheduler τ) (clock : ReporterId → Readings τ) (e : GateEvent) :
    Scheduler τ × List (Report τ) :=
  let heard := s.reporters.map (fun r => r.hear s.interval (clock r.id) e)
  ({ s with reporters := heard.map Prod.fst }, heard.filterMap Prod.snd)

/-- Tells all reporters of an event while time stands still. -/
def observe (s : Scheduler τ) (now : τ) (e : GateEvent) : Scheduler τ × List (Report τ) :=
  s.hear (fun _ => { counting := now, checking := now }) e

/-- Tells all reporters of several events at the same time, one after the other. -/
def observeAll (s : Scheduler τ) (now : τ) : List GateEvent → Scheduler τ × List (Report τ)
  | [] => (s, [])
  | e :: rest =>
    let (s, reports) := s.observe now e
    let (s, later) := s.observeAll now rest
    (s, reports ++ later)

/-- Whether one of the checks that an event brings about overflows. -/
def overflowsAt (s : Scheduler τ) (clock : ReporterId → Readings τ) (e : GateEvent) : Bool :=
  s.reporters.any (fun r => r.overflowsAt s.interval (clock r.id) e)

/-- Tells all reporters of an event, unless a check overflows. -/
def hear? (s : Scheduler τ) (clock : ReporterId → Readings τ) (e : GateEvent) :
    Option (Scheduler τ × List (Report τ)) :=
  if s.overflowsAt clock e then none else some (s.hear clock e)

/-- Tells all reporters of several events at the same time, one after the other, unless a check
overflows. -/
def observeAll? (s : Scheduler τ) (now : τ) :
    List GateEvent → Option (Scheduler τ × List (Report τ))
  | [] => some (s, [])
  | e :: rest => do
    let (s, reports) ← s.hear? (fun _ => { counting := now, checking := now }) e
    let (s, later) ← s.observeAll? now rest
    return (s, reports ++ later)

end Scheduler

end LatencyControl
