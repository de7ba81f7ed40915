import LatencyControl.Monitor.Data
import LatencyControl.Sequence

/-!
# Path summaries

A summary breaks the latency of one path down into its steps.  The latency of a channel is partly
that of its output buffers: a record waits for half of the lifetime of a buffer on average, though
never longer than the channel takes altogether.

A summary is fresh if every step was measured, and every channel after the last change of its buffer
size.  What was not measured counts as zero.
-/

namespace LatencyControl

/-- The arithmetic of latencies. -/
class Latency (α : Type) where
  zero : α
  add : α → α → α
  sub : α → α → α
  half : α → α
  lesser : α → α → α

/-- The lesser of two numbers; what is not a number does not count, and of equal ones the first is
taken. -/
def lesserOfFloats (a b : Float) : Float :=
  if a.isNaN then b else if b.isNaN then a else if b < a then b else a

instance : Latency Float where
  zero := 0
  add := (· + ·)
  sub := (· - ·)
  half x := x / 2
  lesser := lesserOfFloats

/-- What is known of one step of a path; nothing, if no reporter is expected there. -/
inductive StepData (α : Type)
  | vertex (data : Option (VertexData α))
  | edge (data : Option (EdgeData α))

/-- One step of a path in figures. -/
inductive StepSummary (α : Type)
  | vertex (latency consumed emitted : α)
  /-- The latency of a channel in its output buffers and elsewhere, and its rates. -/
  | edge (bufferLatency otherLatency perBuffer perSecond : α)

/-- The breakdown of the latency of one path. -/
structure Summary (α : Type) where
  /-- The gates of each vertex element of the sequence; nothing for an edge element. -/
  gates : List (Option GatePair)
  steps : List (StepSummary α) := []
  latency : α
  bufferLatency : α
  isFresh : Bool := false

namespace Summary

variable {α : Type} [Latency α]

/-- The gates between which an element is measured, if it is a vertex. -/
def gatesOf : Element → Option GatePair
  | .vertex _ input output _ => some { input, output }
  | .edge .. => none

/-- The summary for a sequence, before anything is known. -/
def ofSequence (s : Sequence) : Summary α :=
  { gates := s.map gatesOf, latency := Latency.zero, bufferLatency := Latency.zero }

/-- The latency that output buffers have no part in. -/
def otherLatency (s : Summary α) : α := Latency.sub s.latency s.bufferLatency

/-- A metric, or zero if it was not measured. -/
def orZero (x : Option α) : α := x.getD Latency.zero

/-- Adds a step that was not measured. -/
def addUnknown (s : Summary α) (step : StepSummary α) : Summary α :=
  { s with steps := s.steps ++ [step], isFresh := false }

/-- Adds a member of the path. -/
def addVertex (s : Summary α) (data : Option (VertexData α)) (gates : GatePair) : Summary α :=
  match data.bind (·.latest? gates) with
  | none => s.addUnknown (.vertex Latency.zero Latency.zero Latency.zero)
  | some entry =>
    let latency := orZero entry.value.latency
    let step := .vertex latency (orZero entry.value.consumed) (orZero entry.value.emitted)
    { s with latency := Latency.add s.latency latency, steps := s.steps ++ [step] }

/-- Adds a channel of the path. -/
def addEdge (s : Summary α) : Option (EdgeData α) → Summary α
  | none => s.addUnknown (.edge Latency.zero Latency.zero Latency.zero Latency.zero)
  | some d =>
    let latency := orZero d.latency.lastValue?
    let buffer := Latency.lesser latency (Latency.half (orZero d.bufferLifetime.lastValue?))
    { s with
      latency := Latency.add s.latency latency
      bufferLatency := Latency.add s.bufferLatency buffer
      isFresh := s.isFresh && d.isFresh
      steps := s.steps ++ [.edge buffer (Latency.sub latency buffer) (orZero d.perBuffer.lastValue?)
        (orZero d.perSecond.lastValue?)] }

/-- Adds the steps of a path, each of which has to be of the kind of its element; at the first one
that is not, adding stops. -/
def addSteps (s : Summary α) :
    List (Option GatePair × StepData α) → Except Error Unit × Summary α
  | [] => (.ok (), s)
  | (some gates, .vertex data) :: rest => (s.addVertex data gates).addSteps rest
  | (none, .edge data) :: rest => (s.addEdge data).addSteps rest
  | _ :: _ => (.error .pathKindMismatch, s)

/-- Computes a summary anew from the steps of a path, of which there has to be one for each element.
A path of another length changes nothing; one with a step of the wrong kind is summarized up to that
step. -/
def update (s : Summary α) (path : List (StepData α)) : Except Error Unit × Summary α :=
  if path.length = s.gates.length then
    addSteps
      { s with
        steps := [], latency := Latency.zero, bufferLatency := Latency.zero, isFresh := true }
      (s.gates.zip path)
  else (.error (.pathLengthMismatch path.length s.gates.length), s)

/-- The summary of a path along a sequence. -/
def ofPath (s : Sequence) (path : List (StepData α)) : Except Error (Summary α) :=
  match (ofSequence s).update path with
  | (.ok _, summary) => .ok summary
  | (.error e, _) => .error e

end Summary

end LatencyControl
