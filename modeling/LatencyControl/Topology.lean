import LatencyControl.Error
import LatencyControl.Sequence

/-!
# The topology of a job

A job consists of groups.  The members of a group are parallel tasks with the same code, each run by
a host.  Edges connect groups; the pattern of an edge says which members are wired to which.  A
topology keeps what was declared, in the order in which it was declared, and everything else is a
view of these lists: the members of a group, the edges at a gate, the wires at a gate, and the
names of gates and channels, which are made up from the names of their members.

Building a topology is a sequence of declarations, each of which either succeeds or leaves
everything as it was.
-/

namespace LatencyControl

/-! ### Edges and wires -/

/-- Which members of two connected groups are wired. -/
inductive Pattern
  /-- Every source to every target. -/
  | bipartite
  /-- One to one; if one side is smaller, its members share the other side evenly. -/
  | pointwise
  deriving DecidableEq, Repr

namespace Pattern

/-- The name of a pattern. -/
def label : Pattern → String
  | .bipartite => "Bipartite"
  | .pointwise => "Pointwise"

/-- The positions of the members that are wired, given the sizes of both groups. -/
def pairs (pattern : Pattern) (sources targets : Nat) : List (Nat × Nat) :=
  if sources = 0 ∨ targets = 0 then []
  else match pattern with
  | .bipartite => (List.range sources).flatMap (fun s => (List.range targets).map (fun t => (s, t)))
  | .pointwise =>
    let count := max sources targets
    (List.range count).map (fun i => (i * sources / count, i * targets / count))

end Pattern

/-- A declared connection of two groups. -/
structure GroupEdge where
  link : Link
  pattern : Pattern
  deriving DecidableEq, Repr

/-- A channel from an output gate of one member to an input gate of another. -/
structure Wire where
  source : MemberId
  outputGate : Nat
  target : MemberId
  inputGate : Nat
  deriving DecidableEq, Repr

namespace Wire

/-- The name of a wire at its source. -/
def sourceChannel (w : Wire) : ChannelId :=
  ⟨s!"{w.source}[{w.outputGate}]->{w.target}[{w.inputGate}]"⟩

/-- The name of a wire at its target. -/
def targetChannel (w : Wire) : ChannelId := ⟨s!"{w.sourceChannel}#in"⟩

end Wire

/-! ### Members and groups -/

/-- One of the parallel tasks of a group.  Its gates are those up to the highest one with a wire. -/
structure Member where
  id : MemberId
  name : String
  group : GroupId
  /-- The position among the members of the group. -/
  index : Nat
  host : HostId
  /-- The number of input gates. -/
  inputs : Nat := 0
  /-- The number of output gates. -/
  outputs : Nat := 0
  deriving DecidableEq, Repr

namespace Member

/-- The name of the input gate at an index. -/
def inputGate (m : Member) (index : Nat) : GateId := m.id.inputGate index

/-- The name of the output gate at an index. -/
def outputGate (m : Member) (index : Nat) : GateId := m.id.outputGate index

/-- The names of all input gates. -/
def inputGates (m : Member) : List GateId := (List.range m.inputs).map m.inputGate

/-- The names of all output gates. -/
def outputGates (m : Member) : List GateId := (List.range m.outputs).map m.outputGate

/-- The index of the input gate with a name. -/
def inputIndex? (m : Member) (gate : GateId) : Option Nat := m.inputGates.findIdx? (· = gate)

/-- The index of the output gate with a name. -/
def outputIndex? (m : Member) (gate : GateId) : Option Nat := m.outputGates.findIdx? (· = gate)

/-- The member with gates enough for a wire, if it is an end of it. -/
def openGates (m : Member) (w : Wire) : Member :=
  { m with
    outputs := if w.source = m.id then max m.outputs (w.outputGate + 1) else m.outputs
    inputs := if w.target = m.id then max m.inputs (w.inputGate + 1) else m.inputs }

end Member

/-- A group of parallel members. -/
structure Group where
  id : GroupId
  name : String
  deriving DecidableEq, Repr

/-! ### Topologies -/

/-- The declared parts of a job and the wires that the declarations brought about. -/
structure Topology where
  groups : Table GroupId Group := Table.empty
  /-- All members, in the order of their declaration. -/
  members : List Member := []
  /-- All edges, in the order of their declaration. -/
  edges : List GroupEdge := []
  /-- All wires, in the order in which they came about. -/
  wires : List Wire := []
  constraints : Table ConstraintId Constraint := Table.empty

namespace Topology

/-! ### Views -/

/-- The group with an identifier. -/
def group (t : Topology) (id : GroupId) : Except Error Group :=
  match t.groups.find? id with
  | some g => .ok g
  | none => .error (.unknownGroup id)

/-- The member with an identifier. -/
def member? (t : Topology) (id : MemberId) : Option Member := t.members.find? (fun m => m.id = id)

/-- The member with an identifier, which has to be there. -/
def member (t : Topology) (id : MemberId) : Except Error Member :=
  match t.member? id with
  | some m => .ok m
  | none => .error (.unknownMember id)

/-- The members of a group, in the order of their positions. -/
def membersOf (t : Topology) (g : GroupId) : List Member := t.members.filter (fun m => m.group = g)

/-- The members of a group, which has to be there. -/
def membersOfGroup (t : Topology) (g : GroupId) : Except Error (List Member) := do
  let _ ← t.group g
  return t.membersOf g

/-- The edges that leave a group, by output gate. -/
def forward (t : Topology) (g : GroupId) : Table Nat GroupEdge :=
  Table.ofList ((t.edges.filter (fun e => e.link.source = g)).map (fun e => (e.link.outputGate, e)))

/-- The edges that enter a group, by input gate; of several edges at one gate the last. -/
def backward (t : Topology) (g : GroupId) : Table Nat GroupEdge :=
  Table.ofList ((t.edges.filter (fun e => e.link.target = g)).map (fun e => (e.link.inputGate, e)))

/-- The wires that leave a member through an output gate. -/
def outgoing (t : Topology) (m : MemberId) (gate : Nat) : List Wire :=
  t.wires.filter (fun w => w.source = m ∧ w.outputGate = gate)

/-- The wires that enter a member through an input gate. -/
def incoming (t : Topology) (m : MemberId) (gate : Nat) : List Wire :=
  t.wires.filter (fun w => w.target = m ∧ w.inputGate = gate)

/-- The wire with a name at its source; of several wires with one name the last. -/
def wire? (t : Topology) (channel : ChannelId) : Option Wire :=
  (t.wires.filter (fun w => w.sourceChannel = channel)).getLast?

/-- How many hosts run members of a group. -/
def hostCount (t : Topology) (g : GroupId) : Except Error Nat := do
  return (KeySet.ofList ((← t.membersOfGroup g).map Member.host)).size

/-- The constraint with an identifier. -/
def constraint? (t : Topology) (id : ConstraintId) : Option Constraint := t.constraints.find? id

/-- The constraint with an identifier, which has to be there. -/
def constraint (t : Topology) (id : ConstraintId) : Except Error Constraint :=
  match t.constraint? id with
  | some c => .ok c
  | none => .error (.unknownConstraint id)

/-- The only constraint of a topology that has exactly one. -/
def singleConstraint (t : Topology) : Except Error Constraint :=
  match t.constraints.values with
  | [c] => .ok c
  | cs => .error (.constraintCount cs.length)

/-- One topology for each constraint, with everything else in common. -/
def splitByConstraint (t : Topology) : List (ConstraintId × Topology) :=
  t.constraints.entries.map fun (id, c) =>
    (id, { t with constraints := Table.empty.insert id c })

/-! ### Declarations -/

/-- Declares a group. -/
def addGroup (t : Topology) (id : GroupId) (name : String) : Except Error Topology := do
  id.require "groupVertexID"
  if t.groups.contains id then throw (.groupDeclaredTwice id)
  return { t with groups := t.groups.insert id { id, name } }

/-- Declares a member of a declared group; it takes the next position in the group. -/
def addMember (t : Topology) (g : GroupId) (id : MemberId) (host : HostId) :
    Except Error Topology := do
  id.require "executionVertexID"
  host.require "instance"
  if (t.member? id).isSome then throw (.memberDeclaredTwice id)
  let owner ← t.group g
  let index := (t.membersOf g).length
  let name := s!"{owner.name} ({index + 1})"
  return { t with members := t.members ++ [{ id, name, group := g, index, host }] }

/-- The wires that an edge brings about between members at the ends of its link. -/
def wiring (e : GroupEdge) (sources targets : List Member) : List Wire :=
  (e.pattern.pairs sources.length targets.length).filterMap fun (s, t) => do
    let source ← sources[s]?
    let target ← targets[t]?
    return { source := source.id, outputGate := e.link.outputGate,
             target := target.id, inputGate := e.link.inputGate }

/-- Connects two groups and wires the members that they have by now.  An output gate takes one edge
only. -/
def connect (t : Topology) (e : GroupEdge) : Except Error Topology := do
  let sources ← t.membersOfGroup e.link.source
  let targets ← t.membersOfGroup e.link.target
  if (t.forward e.link.source).contains e.link.outputGate then
    throw (.outputGateConnected e.link.outputGate e.link.source)
  let wires := wiring e sources targets
  return { t with
    edges := t.edges ++ [e]
    wires := t.wires ++ wires
    members := t.members.map (fun m => wires.foldl Member.openGates m) }

/-- Declares a constraint on groups that are all declared.  A constraint with the same identifier is
replaced. -/
def addConstraint (t : Topology) (c : Constraint) : Except Error Topology := do
  c.id.require "constraintID"
  match (c.sequence.flatMap Element.touched).find? (fun g => !t.groups.contains g) with
  | some g => throw (.unknownGroupOnSequence g c.id)
  | none => return { t with constraints := t.constraints.insert c.id c }

end Topology

end LatencyControl
