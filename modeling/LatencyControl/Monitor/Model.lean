import LatencyControl.Monitor.Summary
import LatencyControl.Path.Enumeration
import LatencyControl.Role.Deployment

/-!
# The model of a manager

A manager keeps one model for each constraint that it watches: what it knows of every member and
channel whose reporters report to it.  From that it tells which paths violate the constraint, that
is which ones are freshly measured and take longer than the bound allows.
-/

namespace LatencyControl

/-- What a manager knows of the members and channels of one constraint. -/
structure Model where
  role : ManagerRole
  members : Table MemberId (VertexData Float) := Table.empty
  channels : Table ChannelId (EdgeData Float) := Table.empty

/-- A path that violates a constraint. -/
structure Violation where
  constraint : ConstraintId
  /-- The names of the members and channels along the path. -/
  path : List String
  bound : Float
  summary : Summary Float

namespace Model

/-! ### Expected reports -/

/-- Makes room for the reports of one reporter. -/
def expect (m : Model) (settings : Settings) (now : Int) : ReporterRole → Model
  | .vertex r =>
    { m with members := m.members.upsert r.member (fun found =>
        (found.getD { member := r.member, capacity := settings.historyCapacity }).expect
          { input := r.input, output := r.output }) }
  | .edge r =>
    { m with channels := m.channels.upsert r.wire.sourceChannel (fun found =>
        found.getD (EdgeData.deployed r.wire.sourceChannel settings.historyCapacity
          settings.initialBufferSize now)) }

/-- The model for a manager role, which expects the reports of all of the role's reporters. -/
def create (role : ManagerRole) (settings : Settings) (now : Int) : Except Error Model := do
  let assigned ← role.assignments
  return assigned.foldl (fun m a => m.expect settings now a.2) { role }

/-! ### Samples -/

/-- The pair of gates that a reporter of a member measures between.  A name that is not one of the
member's gates counts as no gate. -/
def gatesOf (m : Member) (input output : Option GateId) : GatePair :=
  { input := input.bind m.inputIndex?, output := output.bind m.outputIndex? }

/-- Adds a measurement of a member, if it is expected; the answer says whether it is. -/
def addVertex (m : Model) (id : MemberId) (input output : Option GateId)
    (metrics : VertexMetrics Float) (timestamp : Int) : Bool × Model :=
  match m.role.topology.member? id, m.members.find? id with
  | some member, some data =>
    let gates := gatesOf member input output
    if data.expects gates then
      (true, { m with members := m.members.insert id (data.add gates metrics timestamp) })
    else (false, m)
  | _, _ => (false, m)

/-- Adds a measurement of a channel, if it is expected; the answer says whether it is. -/
def addEdge (m : Model) (channel : ChannelId) (metrics : EdgeMetrics Float) (timestamp : Int) :
    Bool × Model :=
  match m.channels.find? channel with
  | some data =>
    (true, { m with channels := m.channels.insert channel (data.add metrics timestamp) })
  | none => (false, m)

/-- Takes in a sample.  One that is not expected, or not of its reporter's kind, is ignored; the
answer says whether it was taken in. -/
def process (m : Model) (s : Sample Float) (timestamp : Int) : Bool × Model :=
  match s.reporter, s.metrics with
  | .vertex id input output, .vertex metrics => m.addVertex id input output metrics timestamp
  | .edge channel, .edge metrics => m.addEdge channel metrics timestamp
  | _, _ => (false, m)

/-! ### Buffer sizes -/

/-- Remembers a buffer size that is set on a channel now. -/
def recordBufferSize (m : Model) (channel : ChannelId) (size : Int32) (now : Int) :
    Except Error Model :=
  match m.channels.find? channel with
  | some data =>
    .ok { m with channels := m.channels.insert channel (data.recordBufferSize size now) }
  | none => .error (.unknownChannel channel)

/-- The buffer size that was set on a channel last. -/
def bufferSize? (m : Model) (channel : ChannelId) : Option Int32 :=
  (m.channels.find? channel).bind EdgeData.bufferSize?

/-! ### Paths -/

/-- The constraint that is watched. -/
def constraint (m : Model) : Except Error Constraint := m.role.topology.constraint m.role.constraint

/-- The paths of the constraint through the members that the manager watches it by. -/
def paths (m : Model) : Except Error (List Path) := do
  let c ← m.constraint
  return (← m.role.members.mapM (m.role.topology.pathsThrough c.sequence)).flatten

/-- What is known of one step of a path. -/
def stepData (m : Model) : PathStep → StepData Float
  | .member id => .vertex (m.members.find? id)
  | .wire w => .edge (m.channels.find? w.sourceChannel)

/-- The summary of a path. -/
def summarize (m : Model) (path : Path) : Except Error (Summary Float) := do
  let c ← m.constraint
  Summary.ofPath c.sequence (path.map m.stepData)

/-- The violation of a constraint that the summary of a path shows. -/
def violation? (c : Constraint) (path : Path) (summary : Summary Float) : Option Violation :=
  if !summary.isFresh || summary.latency ≤ c.bound then none
  else some { constraint := c.id, path := path.map PathStep.name, bound := c.bound, summary }

/-- All violations of the constraint. -/
def violations (m : Model) : Except Error (List Violation) := do
  let c ← m.constraint
  let found ← (← m.paths).mapM fun path => do return violation? c path (← m.summarize path)
  return found.reduceOption

end Model

/-- The models of a host, one for each constraint that it watches. -/
def DeployedJob.models (d : DeployedJob) (host : HostId) (now : Int) : Except Error (List Model) :=
  (((d.rolesOf? host).map RoleSet.managers).getD []).mapM (Model.create · d.settings now)

/-! ### Documents -/

/-- Writes one step in figures, with the given way of writing numbers. -/
def StepSummary.toJson (number : Float → Json) : StepSummary Float → Json
  | .vertex latency consumed emitted =>
    .record
      [("type", .text "vertex"), ("latencyMs", number latency),
        ("recordsConsumedPerSec", number consumed), ("recordsEmittedPerSec", number emitted)]
  | .edge buffer other perBuffer perSecond =>
    .record
      [("type", .text "edge"), ("outputBufferLatencyMs", number buffer),
        ("nonOutputBufferLatencyMs", number other), ("recordsPerBuffer", number perBuffer),
        ("recordsPerSec", number perSecond)]

/-- Writes a summary, with the given way of writing numbers. -/
def Summary.toJson (number : Float → Json) (s : Summary Float) : Json :=
  .record
    [("memberStatistics", Json.list (StepSummary.toJson number) s.steps),
      ("pathLatencyMs", number s.latency), ("outputBufferLatencyMs", number s.bufferLatency),
      ("isFresh", .bool s.isFresh)]

/-- Writes a violation, with the given way of writing numbers. -/
def Violation.toJson (number : Float → Json) (v : Violation) : Json :=
  .record
    [("constraintId", .text v.constraint.text), ("members", Json.list Json.text v.path),
      ("maxLatencyMs", number v.bound), ("summary", v.summary.toJson number)]

end LatencyControl
