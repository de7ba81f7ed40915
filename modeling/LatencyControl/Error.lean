import LatencyControl.Ident
import LatencyControl.Text.Duration

/-!
# Errors

An `Error` names the cause of a failure together with what took part in it.  The wording is in one
place: `Error.message` puts the phrase of the error's kind in front of the cause.
-/

namespace LatencyControl

/-- What an output gate does with records: only a running gate accepts them, a suspended gate may
run again, and a closed gate stays closed. -/
inductive GateState
  | running | suspended | closed
  deriving DecidableEq, Repr

/-- The name of a gate state. -/
def GateState.label : GateState → String
  | .running => "Running"
  | .suspended => "Suspended"
  | .closed => "Closed"

/-- Ways in which reading or writing bytes fails. -/
inductive IoFault
  | notFound | invalidData | invalidInput | other
  deriving DecidableEq, Repr

/-- The causes of failure. -/
inductive Error
  -- outside the program
  | io (fault : IoFault)
  | malformedDocument
  -- control messages on the wire
  | wireExhausted
  | wireNotUtf8
  | wireUnknownAction (tag : Nat)
  | wireRejected (cause : Error)
  -- settings and constraints
  | intervalNotPositive (interval : Int)
  | historyCapacityZero
  | bufferSettingNotPositive (size : Int)
  | timeoutSettingZero
  | constraintCount (count : Nat)
  | emptySequence (constraint : ConstraintId)
  -- arguments
  | emptyArgument (field : String)
  | vertexReporterWithoutGates (member : MemberId)
  | noAnchorMembers (constraint : ConstraintId) (host : HostId)
  | constraintNotHeld (constraint : ConstraintId)
  | notAnAnchorMember (member : MemberId) (anchor : GroupId) (host : HostId)
  | endpointsMismatch (source target : MemberId) (channel : ChannelId)
  | bufferSizeNotPositive (size : Int)
  | lifetimeNegative (target : Int)
  | chainTooShort (length : Nat)
  | reporterWithoutGates (reporter : String)
  | noInputGate (index : Nat)
  | noOutputGate (index : Nat)
  | chainWithoutLinks (head : MemberId)
  | chainRepeatsHead (head : MemberId)
  | taskRegistered (task : MemberId)
  -- building the topology, following a path
  | groupDeclaredTwice (group : GroupId)
  | memberDeclaredTwice (member : MemberId)
  | outputGateConnected (gate : Nat) (group : GroupId)
  | pathLengthMismatch (members elements : Nat)
  | pathKindMismatch
  -- lookups
  | unknownGroup (group : GroupId)
  | unknownGroupOnSequence (group : GroupId) (constraint : ConstraintId)
  | unknownMember (member : MemberId)
  | unknownMemberInput (gate : Nat) (member : MemberId)
  | unknownMemberOutput (gate : Nat) (member : MemberId)
  | unknownGroupOutput (gate : Nat) (group : GroupId)
  | unknownChannel (channel : ChannelId)
  | unknownConstraint (constraint : ConstraintId)
  -- gates at run time
  | receiverGone (channel : ChannelId)
  | channelConnected (channel : ChannelId) (gate : GateId)
  | noChannel (gate : GateId) (index : Nat)
  | gateNotRunning (gate : GateId) (state : GateState)
  | noLink (chain : ChainId) (index : Nat)
  | notParked (nanos : Nat)
  | inputGateNotParked (gate : GateId) (nanos : Nat)
  | sendFailed
  | flushFailed
  | nestingTooDeep
  deriving DecidableEq, Repr

namespace Error

/-- The kinds of errors, by the part of the program that they concern. -/
inductive Kind
  | io | document | encoding | configuration | argument | model | lookup | gate
  deriving DecidableEq, Repr

/-- The kind of an error. -/
def kind : Error → Kind
  | .io _ => .io
  | .malformedDocument => .document
  | .wireExhausted | .wireNotUtf8 | .wireUnknownAction _ | .wireRejected _ => .encoding
  | .intervalNotPositive _ | .historyCapacityZero | .bufferSettingNotPositive _
  | .timeoutSettingZero | .constraintCount _ | .emptySequence _ => .configuration
  | .emptyArgument _ | .vertexReporterWithoutGates _ | .noAnchorMembers .. | .constraintNotHeld _
  | .notAnAnchorMember .. | .endpointsMismatch .. | .bufferSizeNotPositive _ | .lifetimeNegative _
  | .chainTooShort _ | .reporterWithoutGates _ | .noInputGate _ | .noOutputGate _
  | .chainWithoutLinks _ | .chainRepeatsHead _ | .taskRegistered _ => .argument
  | .groupDeclaredTwice _ | .memberDeclaredTwice _ | .outputGateConnected ..
  | .pathLengthMismatch .. | .pathKindMismatch => .model
  | .unknownGroup _ | .unknownGroupOnSequence .. | .unknownMember _ | .unknownMemberInput ..
  | .unknownMemberOutput .. | .unknownGroupOutput .. | .unknownChannel _ | .unknownConstraint _ =>
    .lookup
  | .receiverGone _ | .channelConnected .. | .noChannel .. | .gateNotRunning .. | .noLink ..
  | .notParked _ | .inputGateNotParked .. | .sendFailed | .flushFailed | .nestingTooDeep => .gate

/-- The phrase that starts the message of every error of a kind. -/
def Kind.lead : Kind → String
  | .io => "File not found or could not be read: "
  | .document => "Failed to parse JSON document: "
  | .encoding => "Failed to encode or decode QoS message: "
  | .configuration => "Invalid QoS configuration: "
  | .argument => "Invalid argument: "
  | .model => "Failed to build QoS graph: "
  | .lookup => "Unknown element in QoS graph: "
  | .gate => "Gate operation failed: "

/-- The message of an error: the phrase of its kind, then the cause. -/
def message (error : Error) : String :=
  error.kind.lead ++ match error with
  | .io .notFound => "entity not found"
  | .io .invalidData => "invalid data"
  | .io .invalidInput => "invalid input parameter"
  | .io .other => "other error"
  | .malformedDocument => "malformed document"
  | .wireExhausted => "unexpected end of input"
  | .wireNotUtf8 => "text is not UTF-8"
  | .wireUnknownAction tag => s!"unknown action {tag}"
  | .wireRejected cause => cause.message
  | .intervalNotPositive n => s!"aggregationIntervalMs must be positive, got {n}"
  | .historyCapacityZero => "valueHistoryCapacity must be positive"
  | .bufferSettingNotPositive n => s!"initialBufferSize must be positive, got {n}"
  | .timeoutSettingZero =>
    "chainEstablishTimeoutMs and inputGatePollIntervalMs must be positive"
  | .constraintCount n =>
    "Anchor vertices can only be found for a single constraint per QoS graph, but the graph "
      ++ s!"holds {n} constraints"
  | .emptySequence c => s!"Constraint {c} has an empty path sequence"
  | .emptyArgument field => s!"Argument {field} must not be empty"
  | .vertexReporterWithoutGates m => s!"Vertex reporter for {m} needs an input or an output gate"
  | .noAnchorMembers c h => s!"Manager role for constraint {c} on {h} has no anchor members"
  | .constraintNotHeld c => s!"QoS graph does not hold constraint {c}"
  | .notAnAnchorMember m g h => s!"Member {m} is not a member of {g} on instance {h}"
  | .endpointsMismatch s t c => s!"Endpoints {s} -> {t} do not match edge {c}"
  | .bufferSizeNotPositive n => s!"Argument bufferSize must be greater than zero, got {n}"
  | .lifetimeNegative n => s!"Argument targetLifetime must not be negative, got {n}"
  | .chainTooShort n => s!"A chain needs at least two vertices, got {n}"
  | .reporterWithoutGates r => s!"Reporter {r} has neither input nor output gate"
  | .noInputGate i => s!"Task has no input gate {i}"
  | .noOutputGate i => s!"Task has no output gate {i}"
  | .chainWithoutLinks h => s!"Chain headed by {h} has no chained tasks"
  | .chainRepeatsHead h => s!"Chain headed by {h} contains its head twice"
  | .taskRegistered m => s!"Task {m} is already registered"
  | .groupDeclaredTwice g => s!"Group vertex {g} was declared twice"
  | .memberDeclaredTwice m => s!"Member {m} was declared twice"
  | .outputGateConnected i g => s!"Output gate {i} of group vertex {g} is already connected"
  | .pathLengthMismatch m n => s!"Path has {m} members but its sequence {n} elements"
  | .pathKindMismatch => "Path members do not alternate like the sequence"
  | .unknownGroup g => s!"group vertex {g}"
  | .unknownGroupOnSequence g c => s!"group vertex {g} on sequence of constraint {c}"
  | .unknownMember m => s!"member {m}"
  | .unknownMemberInput i m => s!"input gate {i} of {m}"
  | .unknownMemberOutput i m => s!"output gate {i} of {m}"
  | .unknownGroupOutput i g => s!"output gate {i} of group vertex {g}"
  | .unknownChannel c => s!"channel {c}"
  | .unknownConstraint c => s!"constraint {c}"
  | .receiverGone c => s!"Receiver of channel {c} is gone"
  | .channelConnected c g => s!"Channel {c} is already connected to gate {g}"
  | .noChannel g i => s!"Gate {g} has no channel {i}"
  | .gateNotRunning g state => s!"Cannot write to gate {g} in state {state.label}"
  | .noLink c i => s!"Chain {c} has no link {i}"
  | .notParked n => s!"task thread did not park within {Text.duration n}"
  | .inputGateNotParked g n =>
    s!"input gate {g}: task thread did not park within {Text.duration n}"
  | .sendFailed => "send failed"
  | .flushFailed => "flush failed"
  | .nestingTooDeep => "chains are nested too deeply"

end Error

/-- Refuses an identifier without text; `field` says which argument it was. -/
def Ident.require {e : Entity} (id : Ident e) (field : String) : Except Error Unit :=
  if id.isEmpty then .error (.emptyArgument field) else .ok ()

theorem Ident.require_eq_ok_iff {e : Entity} {id : Ident e} {field : String} :
    id.require field = .ok () ↔ id.isEmpty = false := by
  unfold Ident.require; split <;> simp_all

end LatencyControl
