import LatencyControl.Role.Deployment

/-!
# Reporter configurations

The host of a reporter is told of it by a configuration, which is what it needs to know of the
reporter's role.
-/

namespace LatencyControl

/-- What a host has to know to measure a member. -/
structure VertexConfig where
  reporter : ReporterId
  member : MemberId
  input : Option Nat
  output : Option Nat
  sampling : Sampling
  /-- Only marks an end of a sequence, and takes no samples. -/
  isDummy : Bool
  manager : ManagerId
  deriving DecidableEq, Repr

/-- What a host has to know to measure a channel. -/
structure EdgeConfig where
  reporter : ReporterId
  sourceChannel : ChannelId
  targetChannel : ChannelId
  source : MemberId
  target : MemberId
  outputGate : Nat
  inputGate : Nat
  manager : ManagerId
  deriving DecidableEq, Repr

/-- A reporter configuration. -/
inductive Config
  | vertex (config : VertexConfig)
  | edge (config : EdgeConfig)
  deriving DecidableEq, Repr

/-! ### From roles -/

/-- The configuration for the role of measuring a member. -/
def VertexRole.config (r : VertexRole) : VertexConfig :=
  { reporter := r.reporter, member := r.member, input := r.input, output := r.output
    sampling := r.sampling, isDummy := r.isDummy, manager := r.manager.manager }

/-- The configuration for the role of measuring a channel. -/
def EdgeRole.config (r : EdgeRole) : EdgeConfig :=
  { reporter := r.reporter, sourceChannel := r.wire.sourceChannel
    targetChannel := r.wire.targetChannel, source := r.wire.source, target := r.wire.target
    outputGate := r.wire.outputGate, inputGate := r.wire.inputGate, manager := r.manager.manager }

/-- The configurations for the roles of a host: those for members come first. -/
def RoleSet.configs (s : RoleSet) : List Config :=
  s.vertexRoles.map (fun r => .vertex r.config) ++ s.edgeRoles.map (fun r => .edge r.config)

/-- The configurations for the roles of one of the hosts of a job. -/
def DeployedJob.configsOf (d : DeployedJob) (host : HostId) : List Config :=
  ((d.rolesOf? host).map RoleSet.configs).getD []

namespace Config

/-- What makes two configurations the same to a host: the reporter and the manager. -/
def key : Config → ReporterId × ManagerId
  | .vertex c => (c.reporter, c.manager)
  | .edge c => (c.reporter, c.manager)

/-- The configuration of measuring a member. -/
def vertex? : Config → Option VertexConfig
  | .vertex c => some c
  | .edge _ => none

/-- The configuration of measuring a channel. -/
def edge? : Config → Option EdgeConfig
  | .vertex _ => none
  | .edge c => some c

end Config

/-! ### Documents -/

namespace VertexConfig

/-- The names of the fields in documents. -/
def fieldNames : List String :=
  ["reporterId", "vertexId", "inputGateIndex", "outputGateIndex", "samplingStrategy", "isDummy",
    "managerId"]

/-- Reads a configuration, without checking its names. -/
def ofJson? (value : Json) : Option VertexConfig := do
  let fields ← value.fields? fieldNames
  return {
    reporter := ← fields.required "reporterId" ReporterId.ofJson?
    member := ← fields.required "vertexId" Json.asId?
    input := ← fields.optional "inputGateIndex" Json.asNat?
    output := ← fields.optional "outputGateIndex" Json.asNat?
    sampling := ← fields.required "samplingStrategy" (Json.asChoice? Sampling.choices)
    isDummy := ← fields.defaulted "isDummy" false Json.asBool?
    manager := ← fields.required "managerId" Json.asId? }

/-- Writes a configuration. -/
def toJson (c : VertexConfig) : Json :=
  .record
    [("reporterId", c.reporter.toJson), ("vertexId", .text c.member.text),
      ("inputGateIndex", Json.option Json.nat c.input),
      ("outputGateIndex", Json.option Json.nat c.output),
      ("samplingStrategy", .text c.sampling.label), ("isDummy", .bool c.isDummy),
      ("managerId", .text c.manager.text)]

end VertexConfig

namespace EdgeConfig

/-- The names of the fields in documents. -/
def fieldNames : List String :=
  ["reporterId", "sourceChannelId", "targetChannelId", "sourceVertexId", "targetVertexId",
    "outputGateIndex", "inputGateIndex", "managerId"]

/-- Reads a configuration, without checking its names. -/
def ofJson? (value : Json) : Option EdgeConfig := do
  let fields ← value.fields? fieldNames
  return {
    reporter := ← fields.required "reporterId" ReporterId.ofJson?
    sourceChannel := ← fields.required "sourceChannelId" Json.asId?
    targetChannel := ← fields.required "targetChannelId" Json.asId?
    source := ← fields.required "sourceVertexId" Json.asId?
    target := ← fields.required "targetVertexId" Json.asId?
    outputGate := ← fields.required "outputGateIndex" Json.asNat?
    inputGate := ← fields.required "inputGateIndex" Json.asNat?
    manager := ← fields.required "managerId" Json.asId? }

/-- Writes a configuration. -/
def toJson (c : EdgeConfig) : Json :=
  .record
    [("reporterId", c.reporter.toJson), ("sourceChannelId", .text c.sourceChannel.text),
      ("targetChannelId", .text c.targetChannel.text), ("sourceVertexId", .text c.source.text),
      ("targetVertexId", .text c.target.text), ("outputGateIndex", .nat c.outputGate),
      ("inputGateIndex", .nat c.inputGate), ("managerId", .text c.manager.text)]

end EdgeConfig

end LatencyControl
