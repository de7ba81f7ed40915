import LatencyControl.Job

/-!
# Control actions

A manager controls the flow of records by actions, which travel in messages to the host of the
member that they are for.  An action names the output gate that is to carry it out; a chain is
established by the first of its members.
-/

namespace LatencyControl

/-- What a host is asked to do. -/
inductive Action
  /-- Limit the buffers of a channel to a size. -/
  | limitBufferSize (member : MemberId) (gate : GateId) (channel : ChannelId) (size : Int32)
  /-- Send the buffers of a channel before they get older than a target, in milliseconds. -/
  | setLifetimeTarget (member : MemberId) (gate : GateId) (channel : ChannelId) (target : Int32)
  /-- Run members on the thread of the first of them. -/
  | establishChain (members : List MemberId)
  /-- Give the members of the gate's chain their threads back. -/
  | dropChain (member : MemberId) (gate : GateId)
  deriving DecidableEq, Repr

namespace Action

/-- The name of the kind of an action. -/
def kind : Action → String
  | .limitBufferSize .. => "LimitBufferSize"
  | .setLifetimeTarget .. => "SetOutputBufferLifetimeTarget"
  | .establishChain _ => "EstablishChain"
  | .dropChain .. => "DropChain"

/-- Refuses a gate of a member that lacks a name. -/
def checkGate (member : MemberId) (gate : GateId) : Except Error Unit := do
  member.require "vertexID"
  gate.require "outputGateID"

/-- Refuses a channel at a gate that lacks a name. -/
def checkChannel (member : MemberId) (gate : GateId) (channel : ChannelId) : Except Error Unit := do
  checkGate member gate
  channel.require "sourceChannelID"

/-- Refuses an action that makes no sense; the first fault found is the one reported. -/
def check : Action → Except Error Unit
  | .limitBufferSize member gate channel size => do
    checkChannel member gate channel
    if size ≤ 0 then throw (.bufferSizeNotPositive size.toInt)
  | .setLifetimeTarget member gate channel target => do
    checkChannel member gate channel
    if target < 0 then throw (.lifetimeNegative target.toInt)
  | .establishChain members => do
    if members.length < 2 then throw (.chainTooShort members.length)
    members.forM (·.require "vertexID")
  | .dropChain member gate => checkGate member gate

end Action

/-- An action and the job that it is for. -/
structure Message where
  job : JobId
  action : Action
  deriving DecidableEq, Repr

/-- A message, if the action makes sense and the job has a name. -/
def Message.create (job : JobId) (action : Action) : Except Error Message := do
  action.check
  job.require "jobID"
  return { job, action }

/-! ### Documents -/

namespace Action

/-- Writes the content of an action. -/
def contentToJson : Action → Json
  | .limitBufferSize member gate channel size =>
    .record
      [("vertex_id", .text member.text), ("output_gate_id", .text gate.text),
        ("source_channel_id", .text channel.text), ("buffer_size", .int size.toInt)]
  | .setLifetimeTarget member gate channel target =>
    .record
      [("vertex_id", .text member.text), ("output_gate_id", .text gate.text),
        ("source_channel_id", .text channel.text), ("target_lifetime_ms", .int target.toInt)]
  | .establishChain members =>
    .record [("vertex_ids", Json.list (fun m => .text m.text) members)]
  | .dropChain member gate =>
    .record [("vertex_id", .text member.text), ("output_gate_id", .text gate.text)]

/-- Writes an action under the name of its kind. -/
def toJson (a : Action) : Json := .record [(a.kind, a.contentToJson)]

/-- Reads the content of an action of the given kind, without checking it. -/
def ofContent? (content : Json) : String → Option Action
  | "LimitBufferSize" => do
    let fields ←
      content.fields? ["vertex_id", "output_gate_id", "source_channel_id", "buffer_size"]
    return .limitBufferSize (← fields.required "vertex_id" Json.asId?)
      (← fields.required "output_gate_id" Json.asId?)
      (← fields.required "source_channel_id" Json.asId?)
      (← fields.required "buffer_size" Json.asInt32?)
  | "SetOutputBufferLifetimeTarget" => do
    let fields ←
      content.fields? ["vertex_id", "output_gate_id", "source_channel_id", "target_lifetime_ms"]
    return .setLifetimeTarget (← fields.required "vertex_id" Json.asId?)
      (← fields.required "output_gate_id" Json.asId?)
      (← fields.required "source_channel_id" Json.asId?)
      (← fields.required "target_lifetime_ms" Json.asInt32?)
  | "EstablishChain" => do
    let fields ← content.fields? ["vertex_ids"]
    return .establishChain (← fields.required "vertex_ids" (Json.asList? Json.asId?))
  | "DropChain" => do
    let fields ← content.fields? ["vertex_id", "output_gate_id"]
    return .dropChain (← fields.required "vertex_id" Json.asId?)
      (← fields.required "output_gate_id" Json.asId?)
  | _ => none

/-- Reads an action, without checking it. -/
def ofJson? (value : Json) : Option Action := do
  let (kind, content) ← value.asTagged?
  ofContent? content kind

end Action

namespace Message

/-- Writes a message. -/
def toJson (m : Message) : Json :=
  .record [("job_id", .text m.job.text), ("payload", m.action.toJson)]

/-- Reads a message; one that makes no sense is no message. -/
def ofJson? (value : Json) : Option Message := do
  let fields ← value.fields? ["job_id", "payload"]
  let job ← fields.required "job_id" Json.asId?
  let action ← fields.required "payload" Action.ofJson?
  (create job action).toOption

/-- The message in a text. -/
def ofText (text : String) : Except Error Message := readDocument ofJson? text

end Message

end LatencyControl
