import LatencyControl.Proofs.Topology.Declared
import Mathlib.Data.List.Induction

/-!
# The topology that a job describes

`Job.topology` declares what a job lists item by item, and every declaration is checked against
those before it.  All of this can be said at once: `Job.IsDeclarable` collects what is asked of the
lists, and `Job.outline` puts the topology together without going through declarations.
`Job.topology_eq_ok_iff` says that a job is accepted exactly if it is declarable, and that it then
has this topology.

Each of the three lists has its own lemma, by induction from its end: what was declared up to then
is the outline of the items up to then.
-/

namespace LatencyControl

/-! ### Folds from the end -/

theorem foldlM_concat_eq_ok {ε α σ : Type} {f : σ → α → Except ε σ} {xs : List α} {x : α}
    {s s' : σ} :
    (xs ++ [x]).foldlM f s = .ok s' ↔ ∃ s₁, xs.foldlM f s = .ok s₁ ∧ f s₁ x = .ok s' := by
  rw [List.foldlM_append, bind_eq_ok]
  simp only [List.foldlM_cons, List.foldlM_nil, bind_pure]

theorem foldlM_nil_eq_ok {ε α σ : Type} {f : σ → α → Except ε σ} {s s' : σ} :
    ([] : List α).foldlM f s = .ok s' ↔ s' = s :=
  ⟨fun h => (Except.ok.inj h).symm, fun h => h ▸ rfl⟩

theorem nodup_concat_iff {α : Type} {xs : List α} {x : α} :
    (xs ++ [x]).Nodup ↔ xs.Nodup ∧ x ∉ xs := by
  rw [← List.concat_eq_append, List.nodup_concat, and_comm]

/-! ### Outlines -/

/-- Members of a group, as they are declared before there are any wires. -/
def Group.place (g : Group) (entries : List MemberEntry) : List Member :=
  entries.zipIdx.map fun (m, i) =>
    { id := m.id, name := s!"{g.name} ({i + 1})", group := g.id, index := i, host := m.host }

namespace GroupEntry

/-- The group that is listed. -/
def group (g : GroupEntry) : Group := { id := g.id, name := g.name }

/-- The members that are listed for a group. -/
def place (g : GroupEntry) : List Member := g.group.place g.members

end GroupEntry

/-- Where an edge leaves: an output gate of a group, which takes one edge only. -/
def GroupEdge.start (e : GroupEdge) : GroupId × Nat := (e.link.source, e.link.outputGate)

namespace Job

/-- All members that a job lists, before there are any wires. -/
def members (job : Job) : List Member := job.groups.flatMap GroupEntry.place

/-- The members that a job lists for a group. -/
def membersOf (job : Job) (g : GroupId) : List Member := job.members.filter fun m => m.group = g

/-- The wires of an edge between all members that a job lists for the groups at its ends. -/
def wiring (job : Job) (e : GroupEdge) : List Wire :=
  Topology.wiring e (job.membersOf e.link.source) (job.membersOf e.link.target)

/-- All wires of a job, edge by edge. -/
def wires (job : Job) : List Wire := job.edges.flatMap job.wiring

/-- The topology that a job describes. -/
def outline (job : Job) : Topology where
  groups := Table.ofList (job.groups.map fun g => (g.id, g.group))
  members := job.members.map fun m => job.wires.foldl Member.openGates m
  edges := job.edges
  wires := job.wires
  constraints := Table.ofList (job.constraints.map fun c => (c.id, c))

/-- What is asked of the lists of a job. -/
structure IsDeclarable (job : Job) : Prop where
  groups : ∀ g ∈ job.groups, g.id.isEmpty = false
  groups_once : (job.groups.map GroupEntry.id).Nodup
  members : ∀ g ∈ job.groups, ∀ m ∈ g.members, m.id.isEmpty = false ∧ m.host.isEmpty = false
  members_once : (job.members.map Member.id).Nodup
  edges : ∀ e ∈ job.edges, e.link.source ∈ job.groups.map GroupEntry.id ∧
    e.link.target ∈ job.groups.map GroupEntry.id
  edges_once : (job.edges.map GroupEdge.start).Nodup
  constraints : ∀ c ∈ job.constraints, c.id.isEmpty = false ∧
    ∀ g ∈ c.sequence.flatMap Element.touched, g ∈ job.groups.map GroupEntry.id

end Job

/-! ### Members -/

section

variable {g : Group} {entries : List MemberEntry}

@[simp] theorem Group.length_place : (g.place entries).length = entries.length := by simp [place]

theorem Group.group_of_mem_place {m : Member} (h : m ∈ g.place entries) : m.group = g.id := by
  obtain ⟨entry, -, rfl⟩ := List.mem_map.mp h
  rfl

theorem Group.place_concat (entry : MemberEntry) :
    g.place (entries ++ [entry]) = g.place entries ++
      [{ id := entry.id, name := s!"{g.name} ({entries.length + 1})", group := g.id,
         index := entries.length, host := entry.host }] := by
  rw [place, List.zipIdx_append, List.map_append, Nat.zero_add]
  rfl

end

namespace Topology

variable {t t' : Topology}

/-- Members that are declared one after the other for a group without members. -/
theorem foldlM_addMember_eq_ok_iff {g : Group} (hg : t.groups.find? g.id = some g)
    (hnew : ∀ m ∈ t.members, m.group ≠ g.id) (hids : (t.members.map Member.id).Nodup)
    {entries : List MemberEntry} :
    entries.foldlM (fun t m => t.addMember g.id m.id m.host) t = .ok t' ↔
      (∀ m ∈ entries, m.id.isEmpty = false ∧ m.host.isEmpty = false) ∧
        ((t.members ++ g.place entries).map Member.id).Nodup ∧
          t' = { t with members := t.members ++ g.place entries } := by
  induction entries using List.reverseRecOn generalizing t' with
  | nil =>
    rw [foldlM_nil_eq_ok]
    simpa [Group.place] using fun _ => hids
  | append_singleton entries entry ih =>
    -- the members up to now are all members of the group, so that they tell the next position
    have hmembers : ({ t with members := t.members ++ g.place entries } : Topology).membersOf g.id
        = g.place entries := by
      have hold : t.members.filter (fun m => m.group = g.id) = [] := by simpa using hnew
      have hplaced : (g.place entries).filter (fun m => m.group = g.id) = g.place entries :=
        List.filter_eq_self.mpr fun m hm => decide_eq_true (Group.group_of_mem_place hm)
      rw [membersOf, List.filter_append, hold, hplaced, List.nil_append]
    have hdiffer : (∀ m ∈ t.members ++ g.place entries, m.id ≠ entry.id) ↔
        entry.id ∉ (t.members ++ g.place entries).map Member.id := by
      simp only [List.mem_map, not_exists, not_and]
    have hstep : ({ t with members := t.members ++ g.place entries } : Topology).addMember g.id
        entry.id entry.host = .ok t' ↔ (entry.id.isEmpty = false ∧ entry.host.isEmpty = false) ∧
          entry.id ∉ (t.members ++ g.place entries).map Member.id ∧
          t' = { t with members := t.members ++ g.place (entries ++ [entry]) } := by
      simp only [addMember_eq_ok_iff, hg, hmembers, hdiffer, Option.some.injEq, exists_eq_left',
        Group.length_place, Group.place_concat, List.append_assoc, and_assoc]
    have hids : ((t.members ++ g.place (entries ++ [entry])).map Member.id).Nodup ↔
        ((t.members ++ g.place entries).map Member.id).Nodup ∧
          entry.id ∉ (t.members ++ g.place entries).map Member.id := by
      rw [Group.place_concat, ← List.append_assoc, List.map_append, List.map_singleton,
        nodup_concat_iff]
    rw [foldlM_concat_eq_ok, hids, List.forall_mem_append, List.forall_mem_singleton]
    constructor
    · rintro ⟨t₁, hfold, hadd⟩
      obtain ⟨hnamed, hdistinct, rfl⟩ := ih.mp hfold
      obtain ⟨hname, hfresh, rfl⟩ := hstep.mp hadd
      exact ⟨⟨hnamed, hname⟩, ⟨hdistinct, hfresh⟩, rfl⟩
    · rintro ⟨⟨hnamed, hname⟩, ⟨hdistinct, hfresh⟩, rfl⟩
      exact ⟨_, ih.mpr ⟨hnamed, hdistinct, rfl⟩, hstep.mpr ⟨hname, hfresh, rfl⟩⟩

/-! ### Groups -/

/-- The groups that are listed, with their members, and nothing else. -/
def ofGroups (gs : List GroupEntry) : Topology where
  groups := Table.ofList (gs.map fun g => (g.id, g.group))
  members := gs.flatMap GroupEntry.place

theorem contains_ofGroups_iff {gs : List GroupEntry} {id : GroupId} :
    (ofGroups gs).groups.contains id = true ↔ id ∈ gs.map GroupEntry.id := by
  simp [ofGroups, Table.contains_ofList_iff]

theorem group_of_mem_ofGroups {gs : List GroupEntry} {m : Member} (h : m ∈ (ofGroups gs).members) :
    m.group ∈ gs.map GroupEntry.id := by
  obtain ⟨g, hg, hm⟩ := List.mem_flatMap.mp h
  rw [Group.group_of_mem_place hm]
  exact List.mem_map_of_mem hg

/-- A group with its members, declared behind others. -/
theorem declareGroup_eq_ok_iff {gs : List GroupEntry} {g : GroupEntry}
    (hids : ((ofGroups gs).members.map Member.id).Nodup) :
    Job.declareGroup (ofGroups gs) g = .ok t' ↔
      (g.id.isEmpty = false ∧ g.id ∉ gs.map GroupEntry.id) ∧
        (∀ m ∈ g.members, m.id.isEmpty = false ∧ m.host.isEmpty = false) ∧
          ((ofGroups (gs ++ [g])).members.map Member.id).Nodup ∧ t' = ofGroups (gs ++ [g]) := by
  set t₁ : Topology := { ofGroups gs with groups := (ofGroups gs).groups.insert g.id g.group }
  have hall : { t₁ with members := t₁.members ++ g.place } = ofGroups (gs ++ [g]) := by
    simp [t₁, ofGroups, Table.ofList]
  have hadd : ∀ t', (ofGroups gs).addGroup g.id g.name = .ok t' ↔
      g.id.isEmpty = false ∧ g.id ∉ gs.map GroupEntry.id ∧ t' = t₁ := by
    intro t'
    rw [addGroup_eq_ok_iff, ← contains_ofGroups_iff, Bool.not_eq_true]
    rfl
  have hfold : g.id ∉ gs.map GroupEntry.id →
      (g.members.foldlM (fun t m => t.addMember g.id m.id m.host) t₁ = .ok t' ↔
        (∀ m ∈ g.members, m.id.isEmpty = false ∧ m.host.isEmpty = false) ∧
          ((ofGroups (gs ++ [g])).members.map Member.id).Nodup ∧ t' = ofGroups (gs ++ [g])) := by
    intro hnew
    rw [← hall]
    refine foldlM_addMember_eq_ok_iff (g := g.group) (t := t₁) ?_ ?_ hids
    · exact Table.find?_insert_self (ofGroups gs).groups g.id g.group
    · intro m hm hgroup
      exact hnew ((show m.group = g.id from hgroup) ▸ group_of_mem_ofGroups hm)
  rw [Job.declareGroup, bind_eq_ok]
  constructor
  · rintro ⟨t₂, hdeclared, h⟩
    obtain ⟨hname, hnew, rfl⟩ := (hadd t₂).mp hdeclared
    exact ⟨⟨hname, hnew⟩, (hfold hnew).mp h⟩
  · rintro ⟨⟨hname, hnew⟩, h⟩
    exact ⟨t₁, (hadd t₁).mpr ⟨hname, hnew, rfl⟩, (hfold hnew).mpr h⟩

/-- All groups of a job, one after the other. -/
theorem foldlM_declareGroup_eq_ok_iff {gs : List GroupEntry} :
    gs.foldlM Job.declareGroup {} = .ok t' ↔
      ((∀ g ∈ gs, g.id.isEmpty = false) ∧ (gs.map GroupEntry.id).Nodup) ∧
        (∀ g ∈ gs, ∀ m ∈ g.members, m.id.isEmpty = false ∧ m.host.isEmpty = false) ∧
          ((ofGroups gs).members.map Member.id).Nodup ∧ t' = ofGroups gs := by
  induction gs using List.reverseRecOn generalizing t' with
  | nil =>
    rw [foldlM_nil_eq_ok]
    simp [ofGroups, Table.ofList]
  | append_singleton gs g ih =>
    have hsublist : ((ofGroups (gs ++ [g])).members.map Member.id).Nodup →
        ((ofGroups gs).members.map Member.id).Nodup := by
      intro hids
      refine hids.sublist (List.Sublist.map _ ?_)
      simp [ofGroups]
    rw [foldlM_concat_eq_ok, List.forall_mem_append, List.forall_mem_singleton,
      List.forall_mem_append, List.forall_mem_singleton, List.map_append, List.map_singleton,
      nodup_concat_iff]
    constructor
    · rintro ⟨t₁, hfold, hdeclare⟩
      obtain ⟨⟨hnames, hdiffer⟩, hnamed, hids, rfl⟩ := ih.mp hfold
      obtain ⟨⟨hname, hnew⟩, hmembers, hdistinct, rfl⟩ := (declareGroup_eq_ok_iff hids).mp hdeclare
      exact ⟨⟨⟨hnames, hname⟩, hdiffer, hnew⟩, ⟨hnamed, hmembers⟩, hdistinct, rfl⟩
    · rintro ⟨⟨⟨hnames, hname⟩, hdiffer, hnew⟩, ⟨hnamed, hmembers⟩, hdistinct, rfl⟩
      have hids := hsublist hdistinct
      exact ⟨_, ih.mpr ⟨⟨hnames, hdiffer⟩, hnamed, hids, rfl⟩,
        (declareGroup_eq_ok_iff hids).mpr ⟨⟨hname, hnew⟩, hmembers, hdistinct, rfl⟩⟩

/-! ### Edges -/

/-- What an edge brings about depends on the names of the members only. -/
theorem wiring_map (e : GroupEdge) {f : Member → Member} (hf : ∀ m, (f m).id = m.id)
    (sources targets : List Member) :
    wiring e (sources.map f) (targets.map f) = wiring e sources targets := by
  unfold wiring
  rw [List.length_map, List.length_map]
  refine List.filterMap_congr ?_
  rintro ⟨i, j⟩ -
  dsimp only
  rw [List.getElem?_map, List.getElem?_map]
  cases sources[i]? with
  | none => rfl
  | some source =>
    cases targets[j]? with
    | none => rfl
    | some target => simp [hf]

/-- A change of members that leaves their groups alone leaves the groups with the same members. -/
theorem filter_group_map {f : Member → Member} (hf : ∀ m, (f m).group = m.group)
    (ms : List Member) (g : GroupId) :
    (ms.map f).filter (fun m => m.group = g) = (ms.filter fun m => m.group = g).map f := by
  rw [List.filter_map]
  simp only [Function.comp_def, hf]

/-- The wires of some edges between the members of a topology. -/
def wiresOf (t : Topology) (es : List GroupEdge) : List Wire :=
  es.flatMap fun e => wiring e (t.membersOf e.link.source) (t.membersOf e.link.target)

/-- A topology with edges between the members that it has. -/
def withEdges (t : Topology) (es : List GroupEdge) : Topology :=
  { t with
    edges := es
    wires := t.wiresOf es
    members := t.members.map fun m => (t.wiresOf es).foldl Member.openGates m }

/-- All edges of a job, one after the other. -/
theorem foldlM_connect_eq_ok_iff (hedges : t.edges = []) (hwires : t.wires = [])
    {es : List GroupEdge} :
    es.foldlM connect t = .ok t' ↔
      (∀ e ∈ es, t.groups.contains e.link.source = true ∧
        t.groups.contains e.link.target = true) ∧
        (es.map GroupEdge.start).Nodup ∧ t' = t.withEdges es := by
  induction es using List.reverseRecOn generalizing t' with
  | nil =>
    have hempty : t.withEdges [] = t := by
      obtain ⟨groups, members, edges, wires, constraints⟩ := t
      obtain rfl : edges = [] := hedges
      obtain rfl : wires = [] := hwires
      simp [withEdges, wiresOf]
    rw [foldlM_nil_eq_ok, hempty]
    simp
  | append_singleton es e ih =>
    -- earlier edges open gates, which does not change what the next edge is wired to
    have hgroup : ∀ g, (t.withEdges es).membersOf g
        = (t.membersOf g).map fun m => (t.wiresOf es).foldl Member.openGates m :=
      fun g => filter_group_map (fun m => (foldl_openGates (t.wiresOf es) m).2) t.members g
    have hwiring : wiring e ((t.withEdges es).membersOf e.link.source)
          ((t.withEdges es).membersOf e.link.target)
        = wiring e (t.membersOf e.link.source) (t.membersOf e.link.target) := by
      rw [hgroup, hgroup]
      exact wiring_map e (fun m => (foldl_openGates (t.wiresOf es) m).1) _ _
    have hfree : (∀ e' ∈ es, e'.link.source = e.link.source →
        e'.link.outputGate ≠ e.link.outputGate) ↔ e.start ∉ es.map GroupEdge.start := by
      simp [GroupEdge.start]
    have hstep : (t.withEdges es).connect e = .ok t' ↔
        (t.groups.contains e.link.source = true ∧ t.groups.contains e.link.target = true) ∧
          e.start ∉ es.map GroupEdge.start ∧ t' = t.withEdges (es ++ [e]) := by
      rw [connect_eq_ok_iff, hwiring, ← hfree]
      simp [withEdges, wiresOf, and_assoc, Function.comp_def]
    rw [foldlM_concat_eq_ok, List.forall_mem_append, List.forall_mem_singleton, List.map_append,
      List.map_singleton, nodup_concat_iff]
    constructor
    · rintro ⟨t₁, hfold, hconnect⟩
      obtain ⟨hends, honce, rfl⟩ := ih.mp hfold
      obtain ⟨hend, hnew, rfl⟩ := hstep.mp hconnect
      exact ⟨⟨hends, hend⟩, ⟨honce, hnew⟩, rfl⟩
    · rintro ⟨⟨hends, hend⟩, ⟨honce, hnew⟩, rfl⟩
      exact ⟨_, ih.mpr ⟨hends, honce, rfl⟩, hstep.mpr ⟨hend, hnew, rfl⟩⟩

/-! ### Constraints -/

/-- All constraints of a job, one after the other. -/
theorem foldlM_addConstraint_eq_ok_iff {cs : List Constraint} :
    cs.foldlM addConstraint t = .ok t' ↔
      (∀ c ∈ cs, c.id.isEmpty = false ∧
        ∀ g ∈ c.sequence.flatMap Element.touched, t.groups.contains g = true) ∧
        t' = { t with
          constraints := cs.foldl (fun table c => table.insert c.id c) t.constraints } := by
  induction cs using List.reverseRecOn generalizing t' with
  | nil =>
    rw [foldlM_nil_eq_ok]
    simp
  | append_singleton cs c ih =>
    rw [foldlM_concat_eq_ok, List.forall_mem_append, List.forall_mem_singleton, List.foldl_append]
    constructor
    · rintro ⟨t₁, hfold, hadd⟩
      obtain ⟨hall, rfl⟩ := ih.mp hfold
      obtain ⟨hname, hknown, rfl⟩ := addConstraint_eq_ok_iff.mp hadd
      exact ⟨⟨hall, hname, hknown⟩, rfl⟩
    · rintro ⟨⟨hall, hname, hknown⟩, rfl⟩
      exact ⟨_, ih.mpr ⟨hall, rfl⟩, addConstraint_eq_ok_iff.mpr ⟨hname, hknown, rfl⟩⟩

end Topology

/-! ### Jobs -/

/-- **What a job describes.**  A job is accepted exactly if it is declarable, and its topology is
then the one that its lists outline. -/
theorem Job.topology_eq_ok_iff {job : Job} {t : Topology} :
    job.topology = .ok t ↔ job.IsDeclarable ∧ t = job.outline := by
  have hconstraints : job.constraints.foldl (fun table c => table.insert c.id c) Table.empty
      = Table.ofList (job.constraints.map fun c => (c.id, c)) := by
    rw [Table.ofList, List.foldl_map]
  have houtline : { (Topology.ofGroups job.groups).withEdges job.edges with
      constraints := job.constraints.foldl (fun table c => table.insert c.id c) Table.empty }
        = job.outline := by
    rw [hconstraints]
    rfl
  simp only [topology, bind_eq_ok]
  constructor
  · rintro ⟨t₁, hgroups, t₂, hedges, h⟩
    obtain ⟨⟨hnames, hdiffer⟩, hnamed, hids, rfl⟩ :=
      Topology.foldlM_declareGroup_eq_ok_iff.mp hgroups
    obtain ⟨hends, honce, rfl⟩ := (Topology.foldlM_connect_eq_ok_iff rfl rfl).mp hedges
    obtain ⟨hall, rfl⟩ := Topology.foldlM_addConstraint_eq_ok_iff.mp h
    refine ⟨⟨hnames, hdiffer, hnamed, hids, fun e he => ?_, honce, fun c hc => ?_⟩, houtline⟩
    · exact (hends e he).imp Topology.contains_ofGroups_iff.mp Topology.contains_ofGroups_iff.mp
    · exact (hall c hc).imp_right fun hknown g hg =>
        Topology.contains_ofGroups_iff.mp (hknown g hg)
  · rintro ⟨hjob, rfl⟩
    refine ⟨_, Topology.foldlM_declareGroup_eq_ok_iff.mpr
      ⟨⟨hjob.groups, hjob.groups_once⟩, hjob.members, hjob.members_once, rfl⟩, _,
      (Topology.foldlM_connect_eq_ok_iff rfl rfl).mpr ⟨fun e he => ?_, hjob.edges_once, rfl⟩,
      Topology.foldlM_addConstraint_eq_ok_iff.mpr ⟨fun c hc => ?_, houtline.symm⟩⟩
    · exact (hjob.edges e he).imp Topology.contains_ofGroups_iff.mpr
        Topology.contains_ofGroups_iff.mpr
    · exact (hjob.constraints c hc).imp_right fun hknown g hg =>
        Topology.contains_ofGroups_iff.mpr (hknown g hg)

end LatencyControl
