import LatencyControl.Job

/-!
# Reporters

A reporter measures one thing: a member between one of its input gates and one of its output gates,
or a channel.  `ReporterId` is the key under which its measurements travel.
-/

namespace LatencyControl

/-- The key of a reporter. -/
inductive ReporterId
  /-- The reporter of a member and a combination of its gates. -/
  | vertex (member : MemberId) (input output : Option GateId)
  /-- The reporter of the channel with the given name at its source. -/
  | edge (channel : ChannelId)
  deriving DecidableEq, Repr

namespace ReporterId

/-! ### Checked construction -/

/-- The key for a member and at least one of its gates, all of them with a name. -/
def ofGates (member : MemberId) (input output : Option GateId) : Except Error ReporterId := do
  member.require "vertexID"
  if input.isNone ∧ output.isNone then throw (.vertexReporterWithoutGates member)
  (input.toList ++ output.toList).forM (·.require "gateID")
  return .vertex member input output

/-- The key for a channel with a name. -/
def ofChannel (channel : ChannelId) : Except Error ReporterId := do
  channel.require "sourceChannelID"
  return .edge channel

/-- The name of the input gate at an index, which the member has to have. -/
def inputGateOf (m : Member) : Option Nat → Except Error (Option GateId)
  | none => .ok none
  | some i =>
    if i < m.inputs then .ok (some (m.inputGate i)) else .error (.unknownMemberInput i m.id)

/-- The name of the output gate at an index, which the member has to have. -/
def outputGateOf (m : Member) : Option Nat → Except Error (Option GateId)
  | none => .ok none
  | some i =>
    if i < m.outputs then .ok (some (m.outputGate i)) else .error (.unknownMemberOutput i m.id)

/-- The key for a member and a combination of its gates, given by their indices. -/
def ofMember (m : Member) (input output : Option Nat) : Except Error ReporterId := do
  let inputGate ← inputGateOf m input
  let outputGate ← outputGateOf m output
  ofGates m.id inputGate outputGate

/-- The key for a wire. -/
def ofWire (w : Wire) : Except Error ReporterId := ofChannel w.sourceChannel

/-! ### Text and order -/

/-- Whether the reporter measures a member. -/
def isVertex : ReporterId → Bool
  | .vertex .. => true
  | .edge _ => false

/-- A key as people read it. -/
def display : ReporterId → String
  | .vertex m input output =>
    let name (gate : Option GateId) : String := (gate.map Ident.text).getD "-"
    s!"vertex {m} ({name input} -> {name output})"
  | .edge c => s!"edge {c}"

/-- A missing gate comes before every gate. -/
def cmpGate : Option GateId → Option GateId → Ordering
  | none, none => .eq
  | none, some _ => .lt
  | some _, none => .gt
  | some a, some b => a.cmp b

/-- Members come before channels; members go by their names, then by their gates. -/
def cmp : ReporterId → ReporterId → Ordering
  | .vertex m i o, .vertex m' i' o' => (m.cmp m').then ((cmpGate i i').then (cmpGate o o'))
  | .vertex .., .edge _ => .lt
  | .edge _, .vertex .. => .gt
  | .edge c, .edge c' => c.cmp c'

/-- Puts a key in its place in an ordered list, unless it is there already. -/
def insertSorted (id : ReporterId) : List ReporterId → List ReporterId
  | [] => [id]
  | other :: rest =>
    match id.cmp other with
    | .lt => id :: other :: rest
    | .eq => other :: rest
    | .gt => other :: insertSorted id rest

/-- The different keys of a list, in order. -/
def sorted (ids : List ReporterId) : List ReporterId :=
  ids.foldl (fun found id => insertSorted id found) []

/-! ### Documents -/

/-- Writes a key. -/
def toJson : ReporterId → Json
  | .vertex m input output =>
    .record [("Vertex", .record
      [("vertex_id", .text m.text),
        ("input_gate_id", Json.option (fun g => .text g.text) input),
        ("output_gate_id", Json.option (fun g => .text g.text) output)])]
  | .edge c => .record [("Edge", .record [("source_channel_id", .text c.text)])]

/-- Reads a key, without checking its names. -/
def ofJson? (value : Json) : Option ReporterId := do
  let (kind, content) ← value.asTagged?
  match kind with
  | "Vertex" =>
    let fields ← content.fields? ["vertex_id", "input_gate_id", "output_gate_id"]
    return .vertex (← fields.required "vertex_id" Json.asId?)
      (← fields.optional "input_gate_id" Json.asId?) (← fields.optional "output_gate_id" Json.asId?)
  | "Edge" =>
    let fields ← content.fields? ["source_channel_id"]
    return .edge (← fields.required "source_channel_id" Json.asId?)
  | _ => none

end ReporterId

end LatencyControl
