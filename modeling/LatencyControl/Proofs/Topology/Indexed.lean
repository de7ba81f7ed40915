import LatencyControl.Proofs.Topology.Reflecting

/-!
# The indexes of a graph

`Graph.declared_isIndexed` says of every run of declarations that the indexes of the graph fit
together: the lists of members, the gates at the ends of wires, the indexes of the wires by gate,
and the edges with the wires that their patterns prescribed when they were connected.

A graph says the same as a topology (`Graph.Reflects`), so what is known of topologies says what is
in an index: the position of everything that belongs there, in their order.
-/

namespace LatencyControl

namespace Graph

variable {g : Graph} {t : Topology}

/-! ### Indexed graphs -/

/-- A wire leaves a member of the source group of an edge through the edge's output gate. -/
structure StemsFrom (g : Graph) (w : Wire) (e : GroupEdge) : Prop where
  wired : w ∈ g.wires
  gate : e.link.outputGate = w.outputGate
  source : ∃ n, g.groups.find? e.link.source = some n ∧ w.source ∈ n.members

/-- The indexes of a graph fit together. -/
structure IsIndexed (g : Graph) : Prop where
  /-- A member is kept under its identifier, and listed in its group at its position. -/
  listed : ∀ id m, g.members.find? id = some m → m.id = id ∧
    ∃ n, g.groups.find? m.group = some n ∧ n.members[m.index]? = some id
  /-- A group lists nothing but members of it, each of them at its position only. -/
  listed_only : ∀ group n position id, g.groups.find? group = some n →
    n.members[position]? = some id →
      ∃ m, g.members.find? id = some m ∧ m.group = group ∧ m.index = position
  /-- A wire leaves a member that has the output gate. -/
  sources : ∀ w ∈ g.wires, ∃ m, g.members.find? w.source = some m ∧
    m.outputGates[w.outputGate]? = some (w.source.outputGate w.outputGate)
  /-- A wire enters a member that has the input gate. -/
  targets : ∀ w ∈ g.wires, ∃ m, g.members.find? w.target = some m ∧
    m.inputGates[w.inputGate]? = some (w.target.inputGate w.inputGate)
  /-- No two wires have the same gates of the same members. -/
  wires : g.wires.Nodup
  /-- A wire is listed once at the output gate that it leaves. -/
  outgoing : ∀ position w, g.wires[position]? = some w →
    (g.outgoing w.source w.outputGate).count position = 1
  /-- An output gate lists nothing but wires that leave through it. -/
  outgoing_only : ∀ id gate, ∀ position ∈ g.outgoing id gate,
    ∃ w, g.wires[position]? = some w ∧ w.source = id ∧ w.outputGate = gate
  /-- A wire is listed once at the input gate that it enters. -/
  incoming : ∀ position w, g.wires[position]? = some w →
    (g.incoming w.target w.inputGate).count position = 1
  /-- An input gate lists nothing but wires that enter through it. -/
  incoming_only : ∀ id gate, ∀ position ∈ g.incoming id gate,
    ∃ w, g.wires[position]? = some w ∧ w.target = id ∧ w.inputGate = gate
  /-- Every wire stems from an edge that is kept at its source. -/
  origins : ∀ w ∈ g.wires, ∃ e n, g.groups.find? e.link.source = some n ∧
    n.forward.find? e.link.outputGate = some e ∧ g.StemsFrom w e

theorem mem_findIdxs_iff {ws : List Wire} {p : Wire → Prop} [DecidablePred p] {position : ℕ} :
    position ∈ ws.findIdxs (fun w => p w) ↔ ∃ w, ws[position]? = some w ∧ p w := by
  rw [List.mem_findIdxs_iff_exists_getElem_pos]
  simp only [decide_eq_true_eq, List.getElem?_eq_some_iff]
  constructor
  · rintro ⟨hlt, hp⟩
    exact ⟨_, ⟨hlt, rfl⟩, hp⟩
  · rintro ⟨w, ⟨hlt, rfl⟩, hp⟩
    exact ⟨hlt, hp⟩

/-- A wire with a property is at one of the positions that are listed for it, and these differ. -/
theorem count_findIdxs {ws : List Wire} {p : Wire → Prop} [DecidablePred p] {position : ℕ}
    {w : Wire} (hat : ws[position]? = some w) (hw : p w) :
    (ws.findIdxs fun w => p w).count position = 1 :=
  List.count_eq_one_of_mem List.nodup_findIdxs (mem_findIdxs_iff.mpr ⟨w, hat, hw⟩)

theorem Reflects.members_eq (h : g.Reflects t) {id : GroupId} {n : GroupNode}
    (hn : g.groups.find? id = some n) : n.members = (t.membersOf id).map Member.id := by
  rw [← node_of_find? hn, h.lists]

theorem Reflects.exists_node (h : g.Reflects t) {id : GroupId}
    (hgroup : t.groups.contains id = true) : ∃ n, g.groups.find? id = some n := by
  rw [← h.contains] at hgroup
  exact Option.isSome_iff_exists.mp hgroup

theorem Reflects.find?_member (h : g.Reflects t) (ht : t.IsSound) {m : Member}
    (hm : m ∈ t.members) : g.members.find? m.id = some m.node := by
  rw [h.members, Topology.member?_of_mem ht.ids hm, Option.map_some]

/-- From which edge a wire stems is seen in the lists of members. -/
theorem Reflects.stemsFrom_iff (h : g.Reflects t) (ht : t.IsGrounded) {w : Wire} {e : GroupEdge} :
    g.StemsFrom w e ↔ t.StemsFrom w e := by
  constructor
  · rintro ⟨hwired, hgate, n, hn, hsource⟩
    rw [h.members_eq hn] at hsource
    obtain ⟨m, hm, hid⟩ := List.mem_map.mp hsource
    obtain ⟨hm, hgroup⟩ := List.mem_filter.mp hm
    exact ⟨h.wires ▸ hwired, hgate, m, hm, hid, of_decide_eq_true hgroup⟩
  · rintro ⟨hwired, hgate, m, hm, hid, hgroup⟩
    obtain ⟨n, hn⟩ := h.exists_node (ht.groups m hm)
    refine ⟨h.wires ▸ hwired, hgate, n, hgroup ▸ hn, ?_⟩
    rw [h.members_eq hn, ← hid]
    exact List.mem_map_of_mem (List.mem_filter.mpr ⟨hm, decide_eq_true rfl⟩)

/-- The indexes fit together if the graph reflects a topology that was declared part by part. -/
theorem Reflects.isIndexed (h : g.Reflects t) (hsound : t.IsSound) (hnumbered : t.IsNumbered)
    (hgrounded : t.IsGrounded) : g.IsIndexed := by
  constructor
  case listed =>
    intro id m hm
    rw [h.members, Option.map_eq_some_iff] at hm
    obtain ⟨m, hfound, rfl⟩ := hm
    obtain rfl : m.id = id := by simpa using List.find?_some hfound
    have hm : m ∈ t.members := List.mem_of_find?_eq_some hfound
    obtain ⟨n, hn⟩ := h.exists_node (hgrounded.groups m hm)
    refine ⟨rfl, n, hn, ?_⟩
    rw [h.members_eq hn, List.getElem?_map]
    exact congrArg (Option.map Member.id) (hnumbered.getElem?_membersOf hm)
  case listed_only =>
    intro group n position id hn hat
    rw [h.members_eq hn, List.getElem?_map, Option.map_eq_some_iff] at hat
    obtain ⟨m, hm, rfl⟩ := hat
    obtain ⟨hmem, hgroup⟩ := List.mem_filter.mp (List.mem_of_getElem? hm)
    exact ⟨m.node, h.find?_member hsound hmem, of_decide_eq_true hgroup, hnumbered.index_eq hm⟩
  case sources =>
    intro w hw
    obtain ⟨m, hm, hsource, hgate⟩ := hgrounded.sources w (h.wires ▸ hw)
    refine ⟨m.node, hsource ▸ h.find?_member hsound hm, ?_⟩
    simp [Member.node, Member.outputGates, Member.outputGate, hgate, hsource]
  case targets =>
    intro w hw
    obtain ⟨m, hm, htarget, hgate⟩ := hgrounded.targets w (h.wires ▸ hw)
    refine ⟨m.node, htarget ▸ h.find?_member hsound hm, ?_⟩
    simp [Member.node, Member.inputGates, Member.inputGate, hgate, htarget]
  case wires =>
    rw [h.wires]
    exact hsound.wires
  case outgoing =>
    intro position w hat
    rw [h.outputs]
    exact count_findIdxs (h.wires ▸ hat) ⟨rfl, rfl⟩
  case outgoing_only =>
    intro id gate position hposition
    rw [h.outputs, mem_findIdxs_iff] at hposition
    rw [h.wires]
    exact hposition
  case incoming =>
    intro position w hat
    rw [h.inputs]
    exact count_findIdxs (h.wires ▸ hat) ⟨rfl, rfl⟩
  case incoming_only =>
    intro id gate position hposition
    rw [h.inputs, mem_findIdxs_iff] at hposition
    rw [h.wires]
    exact hposition
  case origins =>
    intro w hw
    rw [h.wires] at hw
    obtain ⟨e, he, hgate, m, hm, hid, hgroup⟩ := hsound.origins w hw
    obtain ⟨n, hn⟩ := h.exists_node (hgrounded.groups m hm)
    rw [hgroup] at hn
    refine ⟨e, n, hn, ?_, (h.stemsFrom_iff hgrounded).mpr ⟨hw, hgate, m, hm, hid, hgroup⟩⟩
    rw [← node_of_find? hn, h.forward]
    exact hgrounded.find?_forward.mpr ⟨he, rfl, rfl⟩

/-- An edge that is kept at a group is one of the edges of the topology. -/
theorem Reflects.mem_edges (h : g.Reflects t) (ht : t.IsGrounded) {id : GroupId} {n : GroupNode}
    (hn : g.groups.find? id = some n) {gate : ℕ} {e : GroupEdge}
    (hkept : n.forward.find? gate = some e ∨ n.backward.find? gate = some e) : e ∈ t.edges := by
  rw [← node_of_find? hn, h.forward, h.backward] at hkept
  rcases hkept with hforward | hbackward
  · exact (ht.find?_forward.mp hforward).1
  · exact Topology.mem_edges_of_find?_backward hbackward

/-- **The indexes of a graph fit together.**  Whatever was declared, in any order and with any
failures, members and their groups, wires and the gates at their ends, and the lists of wires at the
gates agree with each other.  An edge that is kept at a group was connected at some time, and the
wires that stem from it are those that its pattern prescribed for the members that its groups listed
by then. -/
theorem declared_isIndexed (ds : List Topology.Declaration) : (declared ds).IsIndexed ∧
    ∀ id n gate e, (declared ds).groups.find? id = some n →
      n.forward.find? gate = some e ∨ n.backward.find? gate = some e →
        ∃ before later source target, ds = before ++ .edge e :: later ∧
          (∃ g, (declared before).connect e = .ok g) ∧
          (declared before).groups.find? e.link.source = some source ∧
          (declared before).groups.find? e.link.target = some target ∧
          ∀ w, (declared ds).StemsFrom w e ↔ ∃ i j,
            e.pattern.Prescribes source.members.length target.members.length i j ∧
            source.members[i]? = some w.source ∧ target.members[j]? = some w.target ∧
            w.outputGate = e.link.outputGate ∧ w.inputGate = e.link.inputGate := by
  have hgrounded := Topology.declared_isGrounded ds
  have hreflects := declared_reflects ds
  refine ⟨hreflects.isIndexed (Topology.declared_isSound ds) (Topology.declared_isNumbered ds)
    hgrounded, ?_⟩
  intro id n gate e hn hkept
  have he : e ∈ (Topology.declared ds).edges := hreflects.mem_edges hgrounded hn hkept
  obtain ⟨before, later, t, hds, hconnect, hwires⟩ := Topology.exists_connect_of_mem_edges ds e he
  have hbefore := declared_reflects before
  obtain ⟨g, hg, -⟩ := (hbefore.connect e).exists_ok hconnect
  obtain ⟨hsource, htarget, -⟩ := Topology.connect_eq_ok_iff.mp hconnect
  obtain ⟨source, hsource⟩ := hbefore.exists_node hsource
  obtain ⟨target, htarget⟩ := hbefore.exists_node htarget
  refine ⟨before, later, source, target, hds, ⟨g, hg⟩, hsource, htarget, fun w => ?_⟩
  rw [hreflects.stemsFrom_iff hgrounded, hwires, Topology.mem_wiring, hbefore.members_eq hsource,
    hbefore.members_eq htarget]
  simp only [Pattern.mem_pairs_iff, List.length_map, List.getElem?_map, Option.map_eq_some_iff]
  constructor
  · rintro ⟨i, j, hpair, a, b, ha, hb, rfl⟩
    exact ⟨i, j, hpair, ⟨a, ha, rfl⟩, ⟨b, hb, rfl⟩, rfl, rfl⟩
  · rintro ⟨i, j, hpair, ⟨a, ha, hleft⟩, ⟨b, hb, hright⟩, houtput, hinput⟩
    refine ⟨i, j, hpair, a, b, ha, hb, ?_⟩
    cases w
    simp only [Wire.mk.injEq]
    exact ⟨hleft.symm, houtput, hright.symm, hinput⟩

/-- An edge from a group with two members to one with a single member. -/
def gatheringEdge : GroupEdge :=
  { link := { source := ⟨"A"⟩, outputGate := 1, target := ⟨"B"⟩, inputGate := 0 }
    pattern := .pointwise }

/-- A group that is connected to itself and to another.  A second edge at the same output gate and a
second group of the same name are refused, and one member comes too late to be wired. -/
def gatheringDeclarations : List Topology.Declaration :=
  [.group ⟨"A"⟩ "A", .member ⟨"A"⟩ ⟨"a0"⟩ ⟨"h"⟩, .member ⟨"A"⟩ ⟨"a1"⟩ ⟨"h"⟩,
    .edge { link := { source := ⟨"A"⟩, outputGate := 0, target := ⟨"A"⟩, inputGate := 0 }
            pattern := .bipartite },
    .group ⟨"B"⟩ "B", .member ⟨"B"⟩ ⟨"b"⟩ ⟨"h"⟩, .edge gatheringEdge, .edge gatheringEdge,
    .group ⟨"A"⟩ "A", .member ⟨"A"⟩ ⟨"a2"⟩ ⟨"h"⟩]

theorem declared_isIndexed_gathering :
    (declared gatheringDeclarations).wires.length = 6 ∧
      (declared gatheringDeclarations).incoming ⟨"b"⟩ 0 = [4, 5] ∧
      (declared gatheringDeclarations).outgoing ⟨"a1"⟩ 0 = [2, 3] ∧
      (declared gatheringDeclarations).IsIndexed ∧
      ∃ n, (declared gatheringDeclarations).groups.find? ⟨"B"⟩ = some n ∧
        n.backward.find? 0 = some gatheringEdge ∧
        ∃ before later source target,
          gatheringDeclarations = before ++ .edge gatheringEdge :: later ∧
          (∃ g, (declared before).connect gatheringEdge = .ok g) ∧
          (declared before).groups.find? ⟨"A"⟩ = some source ∧
          (declared before).groups.find? ⟨"B"⟩ = some target ∧
          ∀ w, (declared gatheringDeclarations).StemsFrom w gatheringEdge ↔ ∃ i j,
            Pattern.Prescribes .pointwise source.members.length target.members.length i j ∧
            source.members[i]? = some w.source ∧ target.members[j]? = some w.target ∧
            w.outputGate = 1 ∧ w.inputGate = 0 := by
  have hkept : ((declared gatheringDeclarations).groups.find? ⟨"B"⟩).any
      (fun n => n.backward.find? 0 = some gatheringEdge) = true := by decide +kernel
  obtain ⟨n, hn, hedge⟩ := (Option.any_eq_true _ _).mp hkept
  have hedge := of_decide_eq_true hedge
  obtain ⟨hindexed, hedges⟩ := declared_isIndexed gatheringDeclarations
  exact ⟨by decide +kernel, by decide +kernel, by decide +kernel, hindexed, n, hn, hedge,
    hedges ⟨"B"⟩ n 0 gatheringEdge hn (.inr hedge)⟩

end Graph

end LatencyControl