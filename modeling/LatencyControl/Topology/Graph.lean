import LatencyControl.Job

/-!
# Graphs with their indexes

A topology lists what was declared, and everything else is a view of these lists.  A `Graph` keeps
the views themselves, so that none of them has to be computed: a group has the identifiers of its
members and the edges at its gates, a member has the names of its gates, and there are indexes of
the wires by their names and by the gates at both of their ends.  The wires are in one place, in the
order in which they came about, and the indexes refer to them by their positions there.

Nothing is ever taken out of a graph.  A declaration checks everything before it changes anything,
and then it changes one index after the other.
-/

namespace LatencyControl

/-- A gate of a member; at which side of the member it is has to be known otherwise. -/
structure Port where
  member : MemberId
  gate : Nat
  deriving DecidableEq, Repr

namespace Port

/-- The gates of a member are next to each other, in the order of their indexes. -/
def Precedes (p q : Port) : Prop := p.member < q.member ∨ p.member = q.member ∧ p.gate < q.gate

instance (p q : Port) : Decidable (p.Precedes q) := inferInstanceAs (Decidable (_ ∨ _))

instance : TableKey Port where
  lt := Precedes
  decEq := inferInstance
  decLt p q := inferInstanceAs (Decidable (p.Precedes q))
  irrefl := by
    rintro p (hmember | ⟨-, hgate⟩)
    · exact Ident.lt_irrefl p.member hmember
    · exact Nat.lt_irrefl p.gate hgate
  trans := by
    rintro ⟨m, i⟩ ⟨n, j⟩ ⟨o, k⟩ (hmember | ⟨rfl, hgate⟩) (hmember' | ⟨rfl, hgate'⟩)
    · exact .inl (Ident.lt_trans hmember hmember')
    · exact .inl hmember
    · exact .inl hmember'
    · exact .inr ⟨rfl, Nat.lt_trans hgate hgate'⟩
  trichotomy := by
    rintro ⟨m, i⟩ ⟨n, j⟩
    rcases Ident.lt_trichotomy m n with hmember | rfl | hmember
    · exact .inl (.inl hmember)
    · rcases Nat.lt_trichotomy i j with hgate | rfl | hgate
      · exact .inl (.inr ⟨rfl, hgate⟩)
      · exact .inr (.inl rfl)
      · exact .inr (.inr (.inr ⟨rfl, hgate⟩))
    · exact .inr (.inr (.inl hmember))

end Port

/-- A group with what a graph keeps at it. -/
structure GroupNode where
  id : GroupId
  name : String
  /-- The members, in the order of their positions. -/
  members : List MemberId := []
  /-- The edges that leave the group, by output gate. -/
  forward : Table Nat GroupEdge := Table.empty
  /-- The edges that enter the group, by input gate. -/
  backward : Table Nat GroupEdge := Table.empty

namespace GroupNode

/-- The group with one more member, at its end. -/
def keepMember (id : MemberId) (n : GroupNode) : GroupNode :=
  { n with members := n.members ++ [id] }

/-- The group with an edge at the output gate of the edge. -/
def keepForward (e : GroupEdge) (n : GroupNode) : GroupNode :=
  { n with forward := n.forward.insert e.link.outputGate e }

/-- The group with an edge at the input gate of the edge. -/
def keepBackward (e : GroupEdge) (n : GroupNode) : GroupNode :=
  { n with backward := n.backward.insert e.link.inputGate e }

end GroupNode

/-- A member with what a graph keeps at it. -/
structure MemberNode where
  id : MemberId
  name : String
  group : GroupId
  /-- The position among the members of the group. -/
  index : Nat
  host : HostId
  inputGates : List GateId := []
  outputGates : List GateId := []
  deriving DecidableEq, Repr

namespace MemberNode

/-- Puts the next gate at the end of a list of gates, as often as it is said. -/
def addGates (name : Nat → GateId) : Nat → List GateId → List GateId
  | 0, gates => gates
  | n + 1, gates => addGates name n (gates ++ [name gates.length])

/-- Adds gates until there is one at the index. -/
def ensureGate (name : Nat → GateId) (index : Nat) (gates : List GateId) : List GateId :=
  addGates name (index + 1 - gates.length) gates

/-- The member with an input gate at the index. -/
def ensureInput (index : Nat) (m : MemberNode) : MemberNode :=
  { m with inputGates := ensureGate m.id.inputGate index m.inputGates }

/-- The member with an output gate at the index. -/
def ensureOutput (index : Nat) (m : MemberNode) : MemberNode :=
  { m with outputGates := ensureGate m.id.outputGate index m.outputGates }

end MemberNode

/-- The declared parts of a job and their wires, with all indexes. -/
structure Graph where
  groups : Table GroupId GroupNode := Table.empty
  members : Table MemberId MemberNode := Table.empty
  /-- All wires, in the order in which they came about. -/
  wires : List Wire := []
  /-- The positions of the wires, by their names at the source. -/
  byChannel : Table ChannelId Nat := Table.empty
  /-- The positions of the wires that leave an output gate. -/
  byOutput : Table Port (List Nat) := Table.empty
  /-- The positions of the wires that enter an input gate. -/
  byInput : Table Port (List Nat) := Table.empty
  constraints : Table ConstraintId Constraint := Table.empty

namespace Graph

/-! ### Looking up -/

/-- The group with an identifier, which has to be there. -/
def group (g : Graph) (id : GroupId) : Except Error GroupNode :=
  match g.groups.find? id with
  | some node => .ok node
  | none => .error (.unknownGroup id)

/-- What is kept at a group; nothing at one that is not declared. -/
def node (g : Graph) (id : GroupId) : GroupNode := (g.groups.find? id).getD { id, name := "" }

/-- The members of a group, in the order of their positions. -/
def membersOfGroup (g : Graph) (id : GroupId) : Except Error (List MemberNode) := do
  let node ← g.group id
  node.members.mapM fun m =>
    match g.members.find? m with
    | some member => .ok member
    | none => .error (.unknownMember m)

/-- How many hosts run members of a group. -/
def hostCount (g : Graph) (id : GroupId) : Except Error Nat := do
  return (KeySet.ofList ((← g.membersOfGroup id).map MemberNode.host)).size

/-- The wire with a name at its source. -/
def wire? (g : Graph) (channel : ChannelId) : Option Wire := do
  g.wires[← g.byChannel.find? channel]?

/-- The positions of the wires that leave a member through an output gate. -/
def outgoing (g : Graph) (m : MemberId) (gate : Nat) : List Nat :=
  (g.byOutput.find? ⟨m, gate⟩).getD []

/-- The positions of the wires that enter a member through an input gate. -/
def incoming (g : Graph) (m : MemberId) (gate : Nat) : List Nat :=
  (g.byInput.find? ⟨m, gate⟩).getD []

/-! ### Declaring -/

/-- Changes what is kept at a group, if it is declared. -/
def modifyGroup (g : Graph) (id : GroupId) (f : GroupNode → GroupNode) : Graph :=
  { g with groups := g.groups.modify id f }

/-- Declares a group. -/
def addGroup (g : Graph) (id : GroupId) (name : String) : Except Error Graph := do
  id.require "groupVertexID"
  if g.groups.contains id then throw (.groupDeclaredTwice id)
  return { g with groups := g.groups.insert id { id, name } }

/-- Declares a member of a declared group, which takes it up at the end of its members. -/
def addMember (g : Graph) (group : GroupId) (id : MemberId) (host : HostId) :
    Except Error Graph := do
  id.require "executionVertexID"
  host.require "instance"
  if g.members.contains id then throw (.memberDeclaredTwice id)
  let owner ← g.group group
  let index := owner.members.length
  let name := s!"{owner.name} ({index + 1})"
  return { g.modifyGroup group (GroupNode.keepMember id) with
    members := g.members.insert id { id, name, group, index, host } }

/-- Puts a position at the end of the list of a gate. -/
def putAt (index : Table Port (List Nat)) (port : Port) (position : Nat) : Table Port (List Nat) :=
  index.upsert port fun positions => positions.getD [] ++ [position]

/-- Adds a wire, with the gates that it needs, and takes it up in all indexes. -/
def addWire (g : Graph) (w : Wire) : Graph :=
  let position := g.wires.length
  let members := g.members.modify w.source (MemberNode.ensureOutput w.outputGate)
  { g with
    members := members.modify w.target (MemberNode.ensureInput w.inputGate)
    wires := g.wires ++ [w]
    byChannel := g.byChannel.insert w.sourceChannel position
    byOutput := putAt g.byOutput ⟨w.source, w.outputGate⟩ position
    byInput := putAt g.byInput ⟨w.target, w.inputGate⟩ position }

/-- Adds the wires of an edge between members at the ends of its link, one pair of the pattern after
the other. -/
def addWires (g : Graph) (e : GroupEdge) (sources targets : List MemberId) : Graph :=
  (e.pattern.pairs sources.length targets.length).foldl
    (fun g (i, j) =>
      match sources[i]?, targets[j]? with
      | some source, some target =>
        g.addWire { source, outputGate := e.link.outputGate, target, inputGate := e.link.inputGate }
      | _, _ => g) g

/-- Connects two groups, wires the members that they have by now and keeps the edge at both of them.
An output gate takes one edge only. -/
def connect (g : Graph) (e : GroupEdge) : Except Error Graph := do
  let source ← g.group e.link.source
  let target ← g.group e.link.target
  if source.forward.contains e.link.outputGate then
    throw (.outputGateConnected e.link.outputGate e.link.source)
  let wired := g.addWires e source.members target.members
  let left := wired.modifyGroup e.link.source (GroupNode.keepForward e)
  return left.modifyGroup e.link.target (GroupNode.keepBackward e)

/-- Declares a constraint on groups that are all declared.  A constraint with the same identifier is
replaced. -/
def addConstraint (g : Graph) (c : Constraint) : Except Error Graph := do
  c.id.require "constraintID"
  match (c.sequence.flatMap Element.touched).find? (fun id => !g.groups.contains id) with
  | some id => throw (.unknownGroupOnSequence id c.id)
  | none => return { g with constraints := g.constraints.insert c.id c }

end Graph

/-! ### Graphs of jobs -/

namespace Job

/-- Declares a group and then its members. -/
def keepGroup (g : Graph) (group : GroupEntry) : Except Error Graph := do
  let g ← g.addGroup group.id group.name
  group.members.foldlM (fun g m => g.addMember group.id m.id m.host) g

/-- The graph of a job: groups and members first, then edges, then constraints. -/
def graph (job : Job) : Except Error Graph := do
  let g ← job.groups.foldlM keepGroup {}
  let g ← job.edges.foldlM Graph.connect g
  job.constraints.foldlM Graph.addConstraint g

end Job

end LatencyControl
