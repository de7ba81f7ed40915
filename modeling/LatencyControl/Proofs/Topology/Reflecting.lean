import Mathlib.Data.List.Induction
import LatencyControl.Proofs.Topology.Stemming
import LatencyControl.Topology.Graph

/-!
# Graphs as topologies

A graph keeps as tables and lists what a topology computes when it is asked.  Every declaration has
to bring them up to date, and it fails for the one exactly if it fails for the other.

* `Graph.Reflects` is the invariant: every table of a graph holds what a topology has to say.
* `Reflects.addWire` is the step that touches the most tables, and `Reflects.addWires` the loop of
  such steps.
* `Reflects.declare` says that a declaration fails for both or gets through for both, and keeps
  them in step; `declared_reflects` is the run, and `reflects_of_job` the run of a job.
* `Reflects.membersOfGroup`, `hostCount`, `wire?`, `outgoing` and `incoming` say that whoever looks
  something up in the graph finds what is found in the topology.
-/

namespace LatencyControl

/-! ### Gates -/

namespace MemberNode

theorem addGates_range (name : ℕ → GateId) (n k : ℕ) :
    addGates name n ((List.range k).map name) = (List.range (k + n)).map name := by
  induction n generalizing k with
  | zero => rfl
  | succ n ih =>
    have hnext : (List.range k).map name ++ [name k] = (List.range (k + 1)).map name := by
      rw [List.range_succ, List.map_append, List.map_singleton]
    rw [addGates, List.length_map, List.length_range, hnext, ih, Nat.add_right_comm]
    rfl

/-- Gates are added up to the index, if they are not there. -/
theorem ensureGate_range (name : ℕ → GateId) (index k : ℕ) :
    ensureGate name index ((List.range k).map name)
      = (List.range (max k (index + 1))).map name := by
  have hmax : k + (index + 1 - k) = max k (index + 1) := by omega
  rw [ensureGate, List.length_map, List.length_range, addGates_range, hmax]

end MemberNode

namespace Member

/-- What a graph keeps at a member. -/
def node (m : Member) : MemberNode where
  id := m.id
  name := m.name
  group := m.group
  index := m.index
  host := m.host
  inputGates := m.inputGates
  outputGates := m.outputGates

/-- A gate that is added to what is kept is one that the member has. -/
theorem ensureOutput_node (m : Member) (gate : ℕ) :
    m.node.ensureOutput gate = ({ m with outputs := max m.outputs (gate + 1) } : Member).node :=
  congrArg (fun gates => { m.node with outputGates := gates })
    (MemberNode.ensureGate_range m.id.outputGate gate m.outputs)

theorem ensureInput_node (m : Member) (gate : ℕ) :
    m.node.ensureInput gate = ({ m with inputs := max m.inputs (gate + 1) } : Member).node :=
  congrArg (fun gates => { m.node with inputGates := gates })
    (MemberNode.ensureGate_range m.id.inputGate gate m.inputs)

/-- The gates for a wire are added at one of its ends after the other. -/
theorem node_openGates (m : Member) (w : Wire) :
    (m.openGates w).node =
      let n := if w.source = m.id then m.node.ensureOutput w.outputGate else m.node
      if w.target = m.id then n.ensureInput w.inputGate else n := by
  rw [openGates]
  split_ifs <;> simp only [ensureOutput_node, ensureInput_node]

end Member

/-- A group without what is kept at it. -/
def GroupNode.toGroup (n : GroupNode) : Group := { id := n.id, name := n.name }

namespace Topology

/-- The topology with more wires. -/
def addWires (t : Topology) (ws : List Wire) : Topology :=
  { t with
    wires := t.wires ++ ws
    members := t.members.map fun m => ws.foldl Member.openGates m }

theorem addWires_cons (t : Topology) (w : Wire) (rest : List Wire) :
    t.addWires (w :: rest) = (t.addWires [w]).addWires rest := by
  simp only [addWires, List.append_assoc, List.singleton_append, List.map_map]
  rfl

/-- A new edge is the last one at its output gate. -/
theorem forward_concat {t t' : Topology} {e : GroupEdge} (h : t'.edges = t.edges ++ [e])
    (g : GroupId) : t'.forward g =
      if e.link.source = g then (t.forward g).insert e.link.outputGate e else t.forward g := by
  rw [forward, forward, h, List.filter_append, List.map_append]
  split_ifs with hsource
  · rw [List.filter_cons_of_pos (by simpa using hsource), Table.ofList, List.foldl_append]
    rfl
  · rw [List.filter_cons_of_neg (by simpa using hsource), List.filter_nil, List.map_nil,
      List.append_nil]

/-- A new edge is the last one at its input gate. -/
theorem backward_concat {t t' : Topology} {e : GroupEdge} (h : t'.edges = t.edges ++ [e])
    (g : GroupId) : t'.backward g =
      if e.link.target = g then (t.backward g).insert e.link.inputGate e else t.backward g := by
  rw [backward, backward, h, List.filter_append, List.map_append]
  split_ifs with htarget
  · rw [List.filter_cons_of_pos (by simpa using htarget), Table.ofList, List.foldl_append]
    rfl
  · rw [List.filter_cons_of_neg (by simpa using htarget), List.filter_nil, List.map_nil,
      List.append_nil]

theorem ids_membersOf_addWires (t : Topology) (ws : List Wire) (g : GroupId) :
    ((t.addWires ws).membersOf g).map Member.id = (t.membersOf g).map Member.id := by
  have hof : (t.addWires ws).membersOf g
      = (t.membersOf g).map fun m => ws.foldl Member.openGates m := by
    show (t.members.map _).filter _ = _
    rw [List.filter_map]
    refine congrArg _ (List.filter_congr fun m _ => ?_)
    rw [Function.comp_apply, (foldl_openGates ws m).2]
  rw [hof, List.map_map]
  exact List.map_congr_left fun m _ => (foldl_openGates ws m).1

theorem member?_addWires (t : Topology) (ws : List Wire) (id : MemberId) :
    (t.addWires ws).member? id = (t.member? id).map fun m => ws.foldl Member.openGates m := by
  show (t.members.map _).find? _ = _
  rw [List.find?_map]
  refine congrArg _ (congrArg (fun p => t.members.find? p) (funext fun m => ?_))
  rw [Function.comp_apply, (foldl_openGates ws m).1]

end Topology

namespace Graph

/-! ### The invariant -/

/-- The tables of a graph hold what the topology has to say when it is asked. -/
structure Reflects (g : Graph) (t : Topology) : Prop where
  groups : ∀ id, (g.groups.find? id).map GroupNode.toGroup = t.groups.find? id
  lists : ∀ id, (g.node id).members = (t.membersOf id).map Member.id
  forward : ∀ id, (g.node id).forward = t.forward id
  backward : ∀ id, (g.node id).backward = t.backward id
  members : ∀ id, g.members.find? id = (t.member? id).map Member.node
  wires : g.wires = t.wires
  channels : ∀ channel, g.byChannel.find? channel
    = (t.wires.findIdxs fun w => w.sourceChannel = channel).getLast?
  outputs : ∀ id gate, g.outgoing id gate
    = t.wires.findIdxs fun w => w.source = id ∧ w.outputGate = gate
  inputs : ∀ id gate, g.incoming id gate
    = t.wires.findIdxs fun w => w.target = id ∧ w.inputGate = gate
  constraints : g.constraints = t.constraints

variable {g : Graph} {t : Topology}

theorem reflects_empty : Reflects {} {} where
  groups _ := rfl
  lists _ := rfl
  forward _ := rfl
  backward _ := rfl
  members _ := rfl
  wires := rfl
  channels _ := rfl
  outputs _ _ := rfl
  inputs _ _ := rfl
  constraints := rfl

theorem Reflects.contains (h : g.Reflects t) (id : GroupId) :
    g.groups.contains id = t.groups.contains id := by
  rw [Table.contains, Table.contains, ← h.groups id, Option.isSome_map]

/-- A group that is found is one with what is kept at it. -/
theorem node_of_find? {id : GroupId} {n : GroupNode} (h : g.groups.find? id = some n) :
    g.node id = n := by
  rw [node, h, Option.getD_some]

/-- Both find a group, or neither does. -/
theorem Reflects.group (h : g.Reflects t) (id : GroupId) :
    SameOutcome (fun n group => g.groups.find? id = some n ∧ n.name = group.name)
      (g.group id) (t.group id) := by
  have hsame := h.groups id
  rw [Graph.group, Topology.group, ← hsame]
  cases g.groups.find? id with
  | none => exact .error _
  | some n => exact .ok ⟨rfl, rfl⟩

/-! ### Groups and members -/

/-- What is kept at the groups after one of them was put into the table. -/
theorem node_insert (g : Graph) (id id' : GroupId) (n : GroupNode) :
    ({ g with groups := g.groups.insert id n } : Graph).node id'
      = if id = id' then n else g.node id' := by
  show ((g.groups.insert id n).find? id').getD _ = _
  split_ifs with hid
  · rw [hid, Table.find?_insert_self, Option.getD_some]
  · rw [Table.find?_insert_of_ne _ hid]
    rfl

/-- What is kept at the groups after a change at one that is declared. -/
theorem node_modifyGroup {id : GroupId} (h : g.groups.contains id = true)
    (f : GroupNode → GroupNode) (id' : GroupId) :
    (g.modifyGroup id f).node id' = if id = id' then f (g.node id) else g.node id' := by
  obtain ⟨n, hn⟩ := Option.isSome_iff_exists.mp h
  have hinsert : g.modifyGroup id f = { g with groups := g.groups.insert id (f n) } := by
    rw [modifyGroup, Table.modify, hn]
  rw [hinsert, node_insert, node_of_find? hn]

/-- What a change leaves as it is at the group, it leaves as it is at all groups. -/
theorem view_modifyGroup {α : Type} (view : GroupNode → α) (f : GroupNode → GroupNode)
    (hf : ∀ n, view (f n) = view n) (g : Graph) (id id' : GroupId) :
    view ((g.modifyGroup id f).node id') = view (g.node id') := by
  rw [node, modifyGroup, Table.find?_modify]
  split_ifs with hid
  · subst hid
    rw [node]
    cases g.groups.find? id with
    | none => rfl
    | some n => exact hf n
  · rfl

theorem map_toGroup_modifyGroup (f : GroupNode → GroupNode) (hf : ∀ n, (f n).toGroup = n.toGroup)
    (g : Graph) (id id' : GroupId) :
    ((g.modifyGroup id f).groups.find? id').map GroupNode.toGroup
      = (g.groups.find? id').map GroupNode.toGroup := by
  rw [modifyGroup, Table.find?_modify]
  split_ifs with hid
  · rw [Option.map_map]
    exact congrArg (fun k => (g.groups.find? id').map k) (funext hf)
  · rfl

theorem contains_modifyGroup (g : Graph) (id : GroupId) (f : GroupNode → GroupNode)
    (id' : GroupId) : (g.modifyGroup id f).groups.contains id' = g.groups.contains id' := by
  rw [modifyGroup, Table.contains, Table.contains, Table.find?_modify]
  split_ifs with hid
  · rw [Option.isSome_map]
  · rfl

/-- A new group is kept with nothing at it. -/
theorem Reflects.addGroup (h : g.Reflects t) (id : GroupId) (name : String) :
    SameOutcome Reflects (g.addGroup id name) (t.addGroup id name) := by
  rw [Graph.addGroup, Topology.addGroup, h.contains]
  refine .step _ (.check fun hnew => .ok ?_)
  rw [← h.contains, Table.contains, Option.not_isSome_iff_eq_none] at hnew
  -- nothing was kept at the group before
  have hnothing : g.node id = { id, name := "" } := by
    rw [node, hnew, Option.getD_none]
  have hlists := h.lists id
  have hforward := h.forward id
  have hbackward := h.backward id
  rw [hnothing] at hlists hforward hbackward
  refine { h with groups := fun id' => ?_, lists := fun id' => ?_, forward := fun id' => ?_,
                  backward := fun id' => ?_ }
  · show ((g.groups.insert id _).find? id').map _ = (t.groups.insert id _).find? id'
    by_cases hid : id = id'
    · rw [hid, Table.find?_insert_self, Table.find?_insert_self]
      rfl
    · rw [Table.find?_insert_of_ne _ hid, Table.find?_insert_of_ne _ hid]
      exact h.groups id'
  · rw [node_insert]
    split_ifs with hid
    · exact hid ▸ hlists
    · exact h.lists id'
  · rw [node_insert]
    split_ifs with hid
    · exact hid ▸ hforward
    · exact h.forward id'
  · rw [node_insert]
    split_ifs with hid
    · exact hid ▸ hbackward
    · exact h.backward id'

/-- A new member is taken up at the end of its group. -/
theorem Reflects.addMember (h : g.Reflects t) (group : GroupId) (id : MemberId) (host : HostId) :
    SameOutcome Reflects (g.addMember group id host) (t.addMember group id host) := by
  have hcontains : g.members.contains id = (t.member? id).isSome := by
    rw [Table.contains, h.members, Option.isSome_map]
  rw [Graph.addMember, Topology.addMember, hcontains]
  refine .step _ (.step _ (.check fun hnew => (h.group group).bind ?_))
  rintro owner declared ⟨howner, hname⟩
  refine .ok ?_
  rw [Option.not_isSome_iff_eq_none] at hnew
  have hknown : g.groups.contains group = true := by
    rw [Table.contains, howner, Option.isSome_some]
  have hlist : owner.members = (t.membersOf group).map Member.id := by
    rw [← node_of_find? howner]
    exact h.lists group
  refine { h with groups := fun id' => ?_, lists := fun id' => ?_, forward := fun id' => ?_,
                  backward := fun id' => ?_, members := fun id' => ?_ }
  · rw [← h.groups id']
    exact map_toGroup_modifyGroup (GroupNode.keepMember id) (fun _ => rfl) g group id'
  · refine (congrArg GroupNode.members (node_modifyGroup hknown _ id')).trans ?_
    show _ = ((t.members ++ [_]).filter _).map Member.id
    rw [List.filter_append, List.map_append]
    split_ifs with hgroup
    · rw [List.filter_cons_of_pos (by simpa using hgroup)]
      exact congrArg (· ++ [id]) (hgroup ▸ h.lists group)
    · rw [List.filter_cons_of_neg (by simpa using hgroup)]
      exact (h.lists id').trans (List.append_nil _).symm
  · refine Eq.trans ?_ (h.forward id')
    exact view_modifyGroup GroupNode.forward (GroupNode.keepMember id) (fun _ => rfl) g group id'
  · refine Eq.trans ?_ (h.backward id')
    exact view_modifyGroup GroupNode.backward (GroupNode.keepMember id) (fun _ => rfl) g group id'
  · show (g.members.insert id _).find? id' = ((t.members ++ [_]).find? _).map Member.node
    rw [List.find?_append]
    by_cases hid : id = id'
    · subst hid
      have hnone : t.members.find? (fun m => m.id = id) = none := hnew
      rw [Table.find?_insert_self, hnone, hlist, List.length_map, hname]
      simp [Member.node, Member.inputGates, Member.outputGates]
    · rw [Table.find?_insert_of_ne _ hid, h.members]
      simp [Topology.member?, hid]

/-! ### Wires -/

/-- A new position is put at the end of the list of its gate, and into no other list. -/
theorem getD_putAt (index : Table Port (List ℕ)) (port port' : Port) (position : ℕ) :
    ((putAt index port position).find? port').getD []
      = (index.find? port').getD [] ++ if port = port' then [position] else [] := by
  rw [putAt, Table.find?_upsert]
  split_ifs with hport
  · rw [hport, Option.getD_some]
  · rw [List.append_nil]

/-- The positions of the wires with a property, with one more wire. -/
theorem findIdxs_concat (ws : List Wire) (w : Wire) (p : Wire → Prop) [DecidablePred p] :
    (ws ++ [w]).findIdxs (fun w => p w)
      = ws.findIdxs (fun w => p w) ++ if p w then [ws.length] else [] := by
  simp [List.findIdxs_append]

/-- **A wire is taken up in all indexes.** -/
theorem Reflects.addWire (h : g.Reflects t) (w : Wire) :
    (g.addWire w).Reflects (t.addWires [w]) where
  groups := h.groups
  lists id := (h.lists id).trans (t.ids_membersOf_addWires [w] id).symm
  forward := h.forward
  backward := h.backward
  members id := by
    show ((g.members.modify w.source _).modify w.target _).find? id = _
    rw [Table.find?_modify, Table.find?_modify, h.members,
      Topology.member?_addWires]
    cases hfound : t.member? id with
    | none => split_ifs <;> rfl
    | some m =>
      obtain rfl : m.id = id := by simpa using List.find?_some hfound
      show _ = some (m.openGates w).node
      rw [Member.node_openGates]
      split_ifs <;> rfl
  wires := congrArg (· ++ [w]) h.wires
  channels channel := by
    show (g.byChannel.insert w.sourceChannel g.wires.length).find? channel
      = ((t.wires ++ [w]).findIdxs fun w => w.sourceChannel = channel).getLast?
    rw [findIdxs_concat, h.wires]
    split_ifs with hchannel
    · rw [hchannel, Table.find?_insert_self, List.getLast?_concat]
    · rw [Table.find?_insert_of_ne _ hchannel, List.append_nil, h.channels]
  outputs id gate := by
    show ((putAt g.byOutput ⟨w.source, w.outputGate⟩ g.wires.length).find? ⟨id, gate⟩).getD []
      = (t.wires ++ [w]).findIdxs fun w => w.source = id ∧ w.outputGate = gate
    rw [getD_putAt, findIdxs_concat, h.wires, ← h.outputs id gate]
    simp only [Port.mk.injEq]
    rfl
  inputs id gate := by
    show ((putAt g.byInput ⟨w.target, w.inputGate⟩ g.wires.length).find? ⟨id, gate⟩).getD []
      = (t.wires ++ [w]).findIdxs fun w => w.target = id ∧ w.inputGate = gate
    rw [getD_putAt, findIdxs_concat, h.wires, ← h.inputs id gate]
    simp only [Port.mk.injEq]
    rfl
  constraints := h.constraints

/-- **Wires are taken up one after the other.** -/
theorem Reflects.addWires (h : g.Reflects t) (ws : List Wire) :
    (ws.foldl Graph.addWire g).Reflects (t.addWires ws) := by
  induction ws generalizing g t with
  | nil =>
    have hsame : t.addWires [] = t := by simp [Topology.addWires]
    rw [hsame]
    exact h
  | cons w rest ih =>
    rw [List.foldl_cons, t.addWires_cons]
    exact ih (h.addWire w)

/-- The loop over the pairs of a pattern adds the wires that the edge brings about. -/
theorem addWires_eq (g : Graph) (e : GroupEdge) (sources targets : List Member) :
    g.addWires e (sources.map Member.id) (targets.map Member.id)
      = (Topology.wiring e sources targets).foldl addWire g := by
  rw [Graph.addWires, Topology.wiring, List.foldl_filterMap, List.length_map, List.length_map]
  refine congrArg (fun f => List.foldl f g _) (funext fun g => funext fun pair => ?_)
  obtain ⟨i, j⟩ := pair
  simp only [List.getElem?_map]
  cases sources[i]? with
  | none => rfl
  | some source => cases targets[j]? <;> rfl

/-! ### Edges -/

/-- **An edge is kept at both of its groups**, which may be one. -/
theorem Reflects.keepEdge (h : g.Reflects t) {e : GroupEdge}
    (hsource : g.groups.contains e.link.source = true)
    (htarget : g.groups.contains e.link.target = true) :
    ((g.modifyGroup e.link.source (GroupNode.keepForward e)).modifyGroup e.link.target
      (GroupNode.keepBackward e)).Reflects { t with edges := t.edges ++ [e] } := by
  have hedges : ({ t with edges := t.edges ++ [e] } : Topology).edges = t.edges ++ [e] := rfl
  refine { h with groups := fun id => ?_, lists := fun id => ?_, forward := fun id => ?_,
                  backward := fun id => ?_ }
  · rw [← h.groups id, map_toGroup_modifyGroup (GroupNode.keepBackward e) fun _ => rfl,
      map_toGroup_modifyGroup (GroupNode.keepForward e) fun _ => rfl]
  · rw [view_modifyGroup GroupNode.members (GroupNode.keepBackward e) fun _ => rfl,
      view_modifyGroup GroupNode.members (GroupNode.keepForward e) fun _ => rfl]
    exact h.lists id
  · rw [Topology.forward_concat hedges, ← h.forward,
      view_modifyGroup GroupNode.forward (GroupNode.keepBackward e) fun _ => rfl,
      node_modifyGroup hsource]
    split_ifs with hid
    · rw [← hid]
      rfl
    · rfl
  · have htarget := (contains_modifyGroup g e.link.source (GroupNode.keepForward e) _).trans htarget
    have hsame := view_modifyGroup GroupNode.backward (GroupNode.keepForward e) (fun _ => rfl) g
      e.link.source
    rw [Topology.backward_concat hedges, ← h.backward, node_modifyGroup htarget]
    split_ifs with hid
    · rw [← hid, ← hsame]
      rfl
    · exact hsame id

/-- Both find the members of a group, or neither does. -/
theorem Reflects.groupMembers (h : g.Reflects t) (id : GroupId) :
    SameOutcome (fun n ms => g.groups.find? id = some n ∧ ms = t.membersOf id)
      (g.group id) (t.membersOfGroup id) := by
  have hgroup := h.group id
  rw [Topology.membersOfGroup]
  generalize g.group id = x at hgroup ⊢
  generalize t.group id = y at hgroup ⊢
  cases hgroup with
  | error e => exact .error e
  | ok hn => exact .ok ⟨hn.1, rfl⟩

/-- **An edge is connected for both or for neither.** -/
theorem Reflects.connect (h : g.Reflects t) (e : GroupEdge) :
    SameOutcome Reflects (g.connect e) (t.connect e) := by
  rw [Graph.connect, Topology.connect]
  refine (h.groupMembers e.link.source).bind ?_
  rintro source _ ⟨hsource, rfl⟩
  refine (h.groupMembers e.link.target).bind ?_
  rintro target _ ⟨htarget, rfl⟩
  rw [← node_of_find? hsource, ← node_of_find? htarget, h.forward, h.lists, h.lists]
  refine .check fun _ => .ok ?_
  rw [addWires_eq]
  have hwired := h.addWires
    (Topology.wiring e (t.membersOf e.link.source) (t.membersOf e.link.target))
  have hknown : ∀ {id : GroupId} {n : GroupNode}, g.groups.find? id = some n →
      t.groups.contains id = true := by
    intro id n hn
    rw [← h.contains, Table.contains, hn, Option.isSome_some]
  exact hwired.keepEdge ((hwired.contains _).trans (hknown hsource))
    ((hwired.contains _).trans (hknown htarget))

/-! ### Constraints -/

/-- A constraint is declared for both or for neither. -/
theorem Reflects.addConstraint (h : g.Reflects t) (c : Constraint) :
    SameOutcome Reflects (g.addConstraint c) (t.addConstraint c) := by
  rw [Graph.addConstraint, Topology.addConstraint]
  simp only [h.contains]
  refine .step _ ?_
  cases (c.sequence.flatMap Element.touched).find? fun id => !t.groups.contains id with
  | some id => exact .error _
  | none => exact .ok { h with constraints := congrArg (·.insert c.id c) h.constraints }

/-! ### Runs of declarations -/

/-- Declares a part. -/
def declare (g : Graph) : Topology.Declaration → Except Error Graph
  | .group id name => g.addGroup id name
  | .member group id host => g.addMember group id host
  | .edge e => g.connect e
  | .constraint c => g.addConstraint c

/-- The graph after some declarations.  One that fails leaves the graph as it was. -/
def declared (ds : List Topology.Declaration) : Graph :=
  ds.foldl (fun g d => (g.declare d).toOption.getD g) {}

theorem declared_concat (ds : List Topology.Declaration) (d : Topology.Declaration) :
    declared (ds ++ [d]) = ((declared ds).declare d).toOption.getD (declared ds) := by
  rw [declared, List.foldl_append]
  rfl

/-- **The indexes make no difference.**  A declaration fails with them as it fails without them, and
if it gets through, the graph still holds what the topology has to say. -/
theorem Reflects.declare (h : g.Reflects t) (d : Topology.Declaration) :
    SameOutcome Reflects (g.declare d) (t.declare d) := by
  cases d with
  | group id name => exact h.addGroup id name
  | member group id host => exact h.addMember group id host
  | edge e => exact h.connect e
  | constraint c => exact h.addConstraint c

/-- After any run, the graph holds what the topology has to say. -/
theorem declared_reflects (ds : List Topology.Declaration) :
    (declared ds).Reflects (Topology.declared ds) := by
  induction ds using List.reverseRecOn with
  | nil => exact reflects_empty
  | append_singleton ds d ih =>
    rw [declared_concat, Topology.declared_concat]
    exact (ih.declare d).getD ih

/-- The graph of a job holds what its topology has to say, and there is one for the same jobs. -/
theorem reflects_of_job (job : Job) : SameOutcome Reflects job.graph job.topology := by
  have hgroup : ∀ g t (group : GroupEntry), Reflects g t →
      SameOutcome Reflects (Job.keepGroup g group) (Job.declareGroup t group) := by
    intro g t group h
    refine (h.addGroup group.id group.name).bind fun _ _ h => ?_
    exact SameOutcome.foldlM (fun _ _ m h => h.addMember group.id m.id m.host) group.members h
  refine (SameOutcome.foldlM hgroup job.groups reflects_empty).bind fun _ _ h => ?_
  refine (SameOutcome.foldlM (fun _ _ e h => h.connect e) job.edges h).bind fun _ _ h => ?_
  exact SameOutcome.foldlM (fun _ _ c h => h.addConstraint c) job.constraints h

/-! ### Looking up -/

/-- The wires at the positions of those with a property. -/
theorem map_findIdxs (ws : List Wire) (p : Wire → Prop) [DecidablePred p] :
    (ws.findIdxs fun w => p w).map (fun position => ws[position]?)
      = (ws.filter fun w => p w).map some := by
  induction ws using List.reverseRecOn with
  | nil => rfl
  | append_singleton ws w ih =>
    have hold : (ws.findIdxs fun w => p w).map (fun position => (ws ++ [w])[position]?)
        = (ws.findIdxs fun w => p w).map fun position => ws[position]? := by
      refine List.map_congr_left fun position hposition => ?_
      exact List.getElem?_append_left (List.lt_add_of_mem_findIdxs position hposition)
    rw [findIdxs_concat, List.map_append, hold, ih, List.filter_append, List.map_append]
    by_cases hw : p w
    · simp [hw]
    · simp [hw]

/-- The members of a group are found in the order of their positions. -/
theorem Reflects.membersOfGroup (h : g.Reflects t) (hids : (t.members.map Member.id).Nodup)
    (id : GroupId) : g.membersOfGroup id = (t.membersOfGroup id).map (List.map Member.node) := by
  have hgroup := h.groupMembers id
  rw [Graph.membersOfGroup]
  generalize g.group id = x at hgroup ⊢
  generalize t.membersOfGroup id = y at hgroup ⊢
  cases hgroup with
  | error e => rfl
  | ok hn =>
    obtain ⟨hn, rfl⟩ := hn
    show List.mapM _ _ = Except.ok ((t.membersOf id).map Member.node)
    rw [← node_of_find? hn, h.lists, mapM_eq_ok, List.forall₂_map_left_iff,
      List.forall₂_map_right_iff, List.forall₂_same]
    intro m hm
    have hfound : g.members.find? m.id = some m.node := by
      rw [h.members, Topology.member?_of_mem hids (List.mem_of_mem_filter hm), Option.map_some]
    rw [hfound]

theorem Reflects.hostCount (h : g.Reflects t) (hids : (t.members.map Member.id).Nodup)
    (id : GroupId) : g.hostCount id = t.hostCount id := by
  rw [Graph.hostCount, Topology.hostCount, h.membersOfGroup hids]
  cases t.membersOfGroup id with
  | error e => rfl
  | ok ms =>
    show Except.ok (KeySet.ofList ((ms.map Member.node).map MemberNode.host)).size = _
    rw [List.map_map]
    rfl

/-- Of several wires with one name the last is found. -/
theorem Reflects.wire? (h : g.Reflects t) (channel : ChannelId) :
    g.wire? channel = t.wire? channel := by
  have hmap := congrArg List.getLast? (map_findIdxs t.wires fun w => w.sourceChannel = channel)
  rw [List.getLast?_map, List.getLast?_map] at hmap
  rw [Graph.wire?, Topology.wire?, h.channels, h.wires]
  cases hlast : (t.wires.findIdxs fun w => w.sourceChannel = channel).getLast? with
  | none =>
    rw [hlast, Option.map_none, eq_comm, Option.map_eq_none_iff] at hmap
    rw [hmap]
    rfl
  | some position =>
    rw [hlast, Option.map_some, eq_comm, Option.map_eq_some_iff] at hmap
    obtain ⟨w, hw, hat⟩ := hmap
    rw [hw]
    exact hat.symm

theorem Reflects.outgoing (h : g.Reflects t) (id : MemberId) (gate : ℕ) :
    (g.outgoing id gate).map (fun position => g.wires[position]?)
      = (t.outgoing id gate).map some := by
  rw [h.outputs, h.wires]
  exact map_findIdxs t.wires fun w => w.source = id ∧ w.outputGate = gate

theorem Reflects.incoming (h : g.Reflects t) (id : MemberId) (gate : ℕ) :
    (g.incoming id gate).map (fun position => g.wires[position]?)
      = (t.incoming id gate).map some := by
  rw [h.inputs, h.wires]
  exact map_findIdxs t.wires fun w => w.target = id ∧ w.inputGate = gate

end Graph

end LatencyControl
