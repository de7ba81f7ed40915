import LatencyControl.Proofs.Topology.Stemming
import LatencyControl.Proofs.Topology.Outline

/-!
# What a topology keeps of the lists of a job

A topology is asked by key: for edges by the gates at their ends, for constraints by their
identifiers.  An edge is refused if its output gate is taken, so every edge of a job is found where
it leaves (`Topology.IsStoredForward`).  But nothing is refused at an input gate, or for the
identifier of a constraint: the last edge that enters a gate and the last constraint with an
identifier count, and those before are lost.

The main statements say so for the edges (`Job.edges_stored`) and the constraints
(`Job.constraints_kept`) of every accepted job, and that nothing is lost exactly if the edges enter
different gates and the constraints have different identifiers.
-/

namespace LatencyControl

/-- Where an edge enters: an input gate of a group. -/
def GroupEdge.finish (e : GroupEdge) : GroupId × Nat := (e.link.target, e.link.inputGate)

/-! ### Edges -/

namespace Topology

variable {t : Topology}

/-- An edge is found at the gate where it leaves. -/
def IsStoredForward (t : Topology) (e : GroupEdge) : Prop :=
  (t.forward e.link.source).find? e.link.outputGate = some e

/-- An edge is found at the gate where it enters. -/
def IsStoredBackward (t : Topology) (e : GroupEdge) : Prop :=
  (t.backward e.link.target).find? e.link.inputGate = some e

instance (t : Topology) (e : GroupEdge) : Decidable (t.IsStoredForward e) :=
  inferInstanceAs (Decidable (_ = _))

instance (t : Topology) (e : GroupEdge) : Decidable (t.IsStoredBackward e) :=
  inferInstanceAs (Decidable (_ = _))

/-- The last edge that enters a gate is the one that is stored there. -/
theorem find?_backward {g : GroupId} {gate : ℕ} {e : GroupEdge} :
    (t.backward g).find? gate = some e ↔ IsLastFor GroupEdge.finish t.edges (g, gate) e := by
  have hfinish : (fun e : GroupEdge => decide (e.finish = (g, gate)))
      = fun e => decide (decide (e.link.target = g) ∧ decide (e.link.inputGate = gate)) := by
    funext e
    simp [GroupEdge.finish]
  unfold backward
  rw [Table.find?_ofList_map_iff, ← find?_reverse_eq_some_iff, ← find?_reverse_eq_some_iff,
    ← List.filter_reverse, List.find?_filter, hfinish]

end Topology

namespace Job

variable {job : Job} {t : Topology}

theorem topology_isGrounded (h : job.topology = .ok t) : t.IsGrounded :=
  Job.topology_induction Topology.IsGrounded.empty (fun ht hadd => ht.addGroup hadd)
    (fun ht hadd => ht.addMember hadd) (fun ht hconnect => ht.connect hconnect)
    (fun ht hadd => ht.addConstraint hadd) h

/-- **Where the edges of a job are found.**
- At an output gate, the edge of the job that leaves through it.
- At an input gate, the last of the edges that enter through it.
- So both views have the same edges, and all edges of the job, exactly if no two edges enter through
  one gate. -/
theorem edges_stored (ht : job.topology = .ok t) :
    (∀ g gate e, (t.forward g).find? gate = some e ↔ e ∈ job.edges ∧ e.start = (g, gate)) ∧
      (∀ g gate e, (t.backward g).find? gate = some e ↔
        IsLastFor GroupEdge.finish job.edges (g, gate) e) ∧
      ((∀ e, t.IsStoredForward e ↔ t.IsStoredBackward e) ↔
        (job.edges.map GroupEdge.finish).Nodup) ∧
      ((∀ e ∈ job.edges, t.IsStoredForward e ∧ t.IsStoredBackward e) ↔
        (job.edges.map GroupEdge.finish).Nodup) := by
  have hgrounded := topology_isGrounded ht
  obtain ⟨hjob, rfl⟩ := topology_eq_ok_iff.mp ht
  have hedges : job.edges.Nodup := hjob.edges_once.of_map GroupEdge.start
  have hforward : ∀ g gate e, (job.outline.forward g).find? gate = some e ↔
      e ∈ job.edges ∧ e.start = (g, gate) := by
    intro g gate e
    rw [hgrounded.find?_forward, GroupEdge.start, Prod.mk.injEq]
    rfl
  have hstored : ∀ e, job.outline.IsStoredForward e ↔ e ∈ job.edges := fun e =>
    (hforward _ _ e).trans (and_iff_left rfl)
  have hlast : ∀ e, job.outline.IsStoredBackward e ↔
      IsLastFor GroupEdge.finish job.edges e.finish e := fun e => Topology.find?_backward
  refine ⟨hforward, fun g gate e => Topology.find?_backward, ⟨fun hagree => ?_, fun hends e => ?_⟩,
    ⟨fun hall => ?_, fun hends e he => ?_⟩⟩
  · refine nodup_map_of_isLastFor hedges fun e he => ?_
    exact (hlast e).mp ((hagree e).mp ((hstored e).mpr he))
  · rw [hstored, hlast]
    exact ⟨fun he => isLastFor_of_nodup hends he, fun he => he.mem⟩
  · exact nodup_map_of_isLastFor hedges fun e he => (hlast e).mp (hall e he).2
  · exact ⟨(hstored e).mpr he, (hlast e).mpr (isLastFor_of_nodup hends he)⟩

/-- A pointwise edge from a group to the group `C`, where it enters through the first gate. -/
def crowdedEdge (source : GroupId) : GroupEdge where
  link := { source, outputGate := 0, target := ⟨"C"⟩, inputGate := 0 }
  pattern := .pointwise

/-- A constraint on the work of the group `A`. -/
def crowdedConstraint (id : ConstraintId) (name : String) (bound : Float) : Constraint where
  id
  name
  sequence := [.vertex ⟨"A"⟩ none (some 0) .readWrite]
  bound

/-- A job with two edges that enter through one gate, and with two constraints of one identifier. -/
def crowdedJob : Job where
  id := ⟨"job"⟩
  groups :=
    [{ id := ⟨"A"⟩, name := "A", members := [{ id := ⟨"a"⟩, host := ⟨"h"⟩ }] },
      { id := ⟨"B"⟩, name := "B", members := [{ id := ⟨"b"⟩, host := ⟨"h"⟩ }] },
      { id := ⟨"C"⟩, name := "C", members := [{ id := ⟨"c"⟩, host := ⟨"h"⟩ }] }]
  edges := [crowdedEdge ⟨"A"⟩, crowdedEdge ⟨"B"⟩]
  constraints := [crowdedConstraint ⟨"c"⟩ "first" 10, crowdedConstraint ⟨"d"⟩ "other" 10,
    crowdedConstraint ⟨"c"⟩ "second" 20]

theorem edges_stored_crowdedJob :
    ∃ t, crowdedJob.topology = .ok t ∧ (t.forward ⟨"A"⟩).find? 0 = some (crowdedEdge ⟨"A"⟩) ∧
      (t.backward ⟨"C"⟩).find? 0 = some (crowdedEdge ⟨"B"⟩) ∧
      ¬ ∀ e, t.IsStoredForward e ↔ t.IsStoredBackward e := by
  obtain ⟨t, ht⟩ : ∃ t, crowdedJob.topology = .ok t := exists_eq_ok (by decide +kernel)
  have hends : ¬ (crowdedJob.edges.map GroupEdge.finish).Nodup := by decide
  obtain ⟨hforward, hbackward, hagree, -⟩ := edges_stored ht
  refine ⟨t, ht, (hforward _ _ _).mpr ⟨List.mem_cons_self, rfl⟩, ?_, fun h => hends (hagree.mp h)⟩
  exact (hbackward _ _ _).mpr
    ⟨[crowdedEdge ⟨"A"⟩], [], rfl, rfl, fun e he => (List.not_mem_nil he).elim⟩

/-- The first edge of the job is found where it leaves, and not where it enters. -/
theorem not_isStoredBackward_crowdedJob :
    ∃ t, crowdedJob.topology = .ok t ∧
      ∃ e ∈ crowdedJob.edges, t.IsStoredForward e ∧ ¬ t.IsStoredBackward e :=
  exists_ok_of_check (by decide +kernel)

/-! ### Constraints -/

/-- No constraint of a job is lost. -/
structure KeepsConstraints (job : Job) (t : Topology) : Prop where
  /-- There are as many constraints as the job lists. -/
  count : t.constraints.size = job.constraints.length
  /-- Every constraint is found under its identifier, just as the job lists it: with its name, its
  bound, and its elements at the positions that they have there. -/
  found : ∀ c ∈ job.constraints, t.constraint? c.id = some c
  /-- There are as many topologies to watch as the job lists constraints. -/
  split_count : t.splitByConstraint.length = job.constraints.length
  /-- Every constraint is watched in a topology of its own, which has everything else. -/
  split : ∀ c ∈ job.constraints, ∃ u, (c.id, u) ∈ t.splitByConstraint ∧
    u.singleConstraint = .ok c ∧ u = { t with constraints := u.constraints }

/-- **What becomes of the constraints of a job.**
- Under an identifier, the last constraint is found that the job lists with it.  It is the only
  constraint of the topology that is split off for the identifier, which has everything else.
- There are as many constraints as the job lists different identifiers.
- So no constraint is lost exactly if all identifiers differ.  The job is accepted in any case,
  unlike one that lists a group, a member or a start of an edge twice. -/
theorem constraints_kept (ht : job.topology = .ok t) :
    (∀ id c, t.constraint? id = some c ↔ IsLastFor Constraint.id job.constraints id c) ∧
      (∀ id u, (id, u) ∈ t.splitByConstraint → ∃ c,
        IsLastFor Constraint.id job.constraints id c ∧ u.singleConstraint = .ok c ∧
          u = { t with constraints := u.constraints }) ∧
      t.constraints.size = (job.constraints.map Constraint.id).toFinset.card ∧
      (job.KeepsConstraints t ↔ (job.constraints.map Constraint.id).Nodup) ∧
      (job.groups.map GroupEntry.id).Nodup ∧ (job.members.map Member.id).Nodup ∧
      (job.edges.map GroupEdge.start).Nodup := by
  obtain ⟨hjob, rfl⟩ := topology_eq_ok_iff.mp ht
  have hlast : ∀ id c, job.outline.constraint? id = some c ↔
      IsLastFor Constraint.id job.constraints id c := fun id c => Table.find?_ofList_map_iff
  have hsize : job.outline.constraints.size
      = (job.constraints.map Constraint.id).toFinset.card := by
    refine (Table.size_ofList _).trans ?_
    rw [List.map_map]
    rfl
  have hsplit : job.outline.splitByConstraint.length = job.outline.constraints.size :=
    List.length_map _
  refine ⟨hlast, fun id u hu => ?_, hsize, ⟨fun hkept => ?_, fun hids => ?_⟩, hjob.groups_once,
    hjob.members_once, hjob.edges_once⟩
  · obtain ⟨c, hc, rfl⟩ := Topology.mem_splitByConstraint.mp hu
    exact ⟨c, (hlast id c).mp hc, rfl, rfl⟩
  · have hlength := hkept.count
    rw [hsize, List.card_toFinset, ← List.length_map Constraint.id] at hlength
    exact (List.dedup_sublist _).eq_of_length hlength ▸ List.nodup_dedup _
  · have hcount : job.outline.constraints.size = job.constraints.length := by
      rw [hsize, List.toFinset_card_of_nodup hids, List.length_map]
    have hfound : ∀ c ∈ job.constraints, job.outline.constraint? c.id = some c := fun c hc =>
      (hlast c.id c).mpr (isLastFor_of_nodup hids hc)
    refine ⟨hcount, hfound, hsplit.trans hcount, fun c hc => ?_⟩
    exact ⟨_, Topology.mem_splitByConstraint.mpr ⟨c, hfound c hc, rfl⟩, rfl, rfl⟩

theorem constraints_kept_crowdedJob :
    ∃ t, crowdedJob.topology = .ok t ∧
      t.constraint? ⟨"c"⟩ = some (crowdedConstraint ⟨"c"⟩ "second" 20) ∧
      t.constraints.size = 2 ∧ ¬ crowdedJob.KeepsConstraints t ∧
      (crowdedJob.groups.map GroupEntry.id).Nodup := by
  obtain ⟨t, ht⟩ : ∃ t, crowdedJob.topology = .ok t := exists_eq_ok (by decide +kernel)
  have hids : ¬ (crowdedJob.constraints.map Constraint.id).Nodup := by decide
  obtain ⟨hlast, -, hsize, hkept, hgroups, -⟩ := constraints_kept ht
  refine ⟨t, ht, (hlast _ _).mpr ⟨[crowdedConstraint ⟨"c"⟩ "first" 10,
    crowdedConstraint ⟨"d"⟩ "other" 10], [], rfl, rfl, fun c hc => (List.not_mem_nil hc).elim⟩,
    hsize.trans (by decide), fun h => hids (hkept.mp h), hgroups⟩

/-- The job lists three constraints, and its topology has two. -/
theorem not_keepsConstraints_crowdedJob :
    ∃ t, crowdedJob.topology = .ok t ∧ ¬ crowdedJob.KeepsConstraints t := by
  obtain ⟨t, ht, hsize⟩ : ∃ t, crowdedJob.topology = .ok t ∧ t.constraints.size = 2 :=
    exists_ok_of_check (by decide +kernel)
  refine ⟨t, ht, fun hkept => ?_⟩
  have hcount : t.constraints.size = 3 := hkept.count
  omega

end Job

end LatencyControl
