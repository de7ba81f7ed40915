import LatencyControl.Proofs.Topology.Outline
import Mathlib.Data.List.Perm.Basic

/-!
# Jobs whose lists are rearranged

The groups, edges and constraints of a job may be listed in any order (`Job.IsRearranged`).  A
rearranged job is declarable if the job is (`Job.IsRearranged.isDeclarable`), and what it describes
looks the same in every view (`Job.IsRearranged.exists_alike`): all that may differ is the order in
which edges, wires and members of different groups are listed.

This is read off the outlines of both jobs.  Items that are looked up have different keys, so that
their order does not matter, and the wires of a job open the same gates in any order.
-/

namespace LatencyControl

/-! ### Lists with different keys -/

section

variable {α κ : Type} [DecidableEq κ] {key : α → κ} {xs ys : List α}

/-- If no two items have the same key, it does not matter in which order they are listed. -/
theorem filter_eq_of_perm (h : xs.Perm ys) (hkeys : (xs.map key).Nodup) (k : κ) :
    xs.filter (fun x => key x = k) = ys.filter (fun x => key x = k) := by
  have hsingle : ∀ zs : List α, (zs.map key).Nodup →
      (zs.filter fun x => key x = k).Pairwise fun _ _ => False := by
    intro zs hzs
    refine ((List.pairwise_map.mp hzs).filter _).imp_of_mem ?_
    intro a b ha hb hne
    have ha := of_decide_eq_true (List.mem_filter.mp ha).2
    have hb := of_decide_eq_true (List.mem_filter.mp hb).2
    exact hne (ha.trans hb.symm)
  exact (h.filter _).eq_of_pairwise (fun _ _ _ _ h => h.elim) (hsingle xs hkeys)
    (hsingle ys ((h.map key).nodup hkeys))

theorem find?_eq_of_perm (h : xs.Perm ys) (hkeys : (xs.map key).Nodup) (k : κ) :
    xs.find? (fun x => key x = k) = ys.find? (fun x => key x = k) := by
  rw [← List.head?_filter, ← List.head?_filter, filter_eq_of_perm h hkeys]

end

/-! ### Members and gates -/

/-- The members of a group are those of its entry. -/
theorem GroupEntry.filter_flatMap_place (gs : List GroupEntry) (g : GroupId) :
    (gs.flatMap GroupEntry.place).filter (fun m => m.group = g)
      = (gs.filter fun entry => entry.id = g).flatMap GroupEntry.place := by
  induction gs with
  | nil => rfl
  | cons entry rest ih =>
    have hgroup : ∀ m ∈ entry.place, m.group = entry.id := fun m hm => Group.group_of_mem_place hm
    rw [List.flatMap_cons, List.filter_append, ih]
    by_cases hentry : entry.id = g
    · have hall : entry.place.filter (fun m => m.group = g) = entry.place :=
        List.filter_eq_self.mpr fun m hm => decide_eq_true ((hgroup m hm).trans hentry)
      rw [hall, List.filter_cons_of_pos (by simpa using hentry), List.flatMap_cons]
    · have hnone : entry.place.filter (fun m => m.group = g) = [] :=
        List.filter_eq_nil_iff.mpr fun m hm hsame =>
          hentry ((hgroup m hm).symm.trans (of_decide_eq_true hsame))
      rw [hnone, List.nil_append, List.filter_cons_of_neg (by simpa using hentry)]

theorem Member.openGates_comm (m : Member) (w w' : Wire) :
    (m.openGates w).openGates w' = (m.openGates w').openGates w := by
  unfold Member.openGates
  congr 1 <;> (dsimp only; split_ifs <;> omega)

theorem Topology.find?_id_map {f : Member → Member} (hf : ∀ m, (f m).id = m.id) (ms : List Member)
    (id : MemberId) :
    (ms.map f).find? (fun m => m.id = id) = (ms.find? fun m => m.id = id).map f := by
  rw [List.find?_map]
  simp only [Function.comp_def, hf]

/-! ### Views -/

/-- Two topologies look the same in every view. -/
structure Topology.Alike (t t' : Topology) : Prop where
  groups : t.groups = t'.groups
  constraints : t.constraints = t'.constraints
  membersOf : ∀ g, t.membersOf g = t'.membersOf g
  member? : ∀ id, t.member? id = t'.member? id
  forward : ∀ g, t.forward g = t'.forward g
  wires : ∀ w, w ∈ t.wires ↔ w ∈ t'.wires

/-! ### Rearranged jobs -/

namespace Job

/-- The groups, edges and constraints of a job are listed in some other order.  Every group has its
members in the same order as before. -/
structure IsRearranged (job job' : Job) : Prop where
  id : job.id = job'.id
  groups : job.groups.Perm job'.groups
  edges : job.edges.Perm job'.edges
  constraints : job.constraints.Perm job'.constraints

namespace IsRearranged

variable {job job' : Job}

theorem symm (h : job.IsRearranged job') : job'.IsRearranged job :=
  ⟨h.id.symm, h.groups.symm, h.edges.symm, h.constraints.symm⟩

theorem members (h : job.IsRearranged job') : job.members.Perm job'.members :=
  h.groups.flatMap_right GroupEntry.place

/-- Nothing that is asked of the lists of a job depends on their order. -/
theorem isDeclarable (h : job.IsRearranged job') (hjob : job.IsDeclarable) :
    job'.IsDeclarable where
  groups g hg := hjob.groups g (h.groups.mem_iff.mpr hg)
  groups_once := (h.groups.map GroupEntry.id).nodup hjob.groups_once
  members g hg := hjob.members g (h.groups.mem_iff.mpr hg)
  members_once := (h.members.map Member.id).nodup hjob.members_once
  edges e he := by
    have hends := hjob.edges e (h.edges.mem_iff.mpr he)
    rwa [(h.groups.map GroupEntry.id).mem_iff, (h.groups.map GroupEntry.id).mem_iff] at hends
  edges_once := (h.edges.map GroupEdge.start).nodup hjob.edges_once
  constraints c hc := by
    refine (hjob.constraints c (h.constraints.mem_iff.mpr hc)).imp_right fun hknown g hg => ?_
    exact (h.groups.map GroupEntry.id).mem_iff.mp (hknown g hg)

theorem membersOf_eq (h : job.IsRearranged job') (hjob : job.IsDeclarable) (g : GroupId) :
    job.membersOf g = job'.membersOf g := by
  unfold Job.membersOf Job.members
  rw [GroupEntry.filter_flatMap_place, GroupEntry.filter_flatMap_place,
    filter_eq_of_perm h.groups hjob.groups_once]

theorem wires (h : job.IsRearranged job') (hjob : job.IsDeclarable) :
    job.wires.Perm job'.wires := by
  have hwiring : job.wiring = job'.wiring := by
    funext e
    rw [wiring, wiring, h.membersOf_eq hjob, h.membersOf_eq hjob]
  unfold Job.wires
  rw [hwiring]
  exact h.edges.flatMap_right job'.wiring

/-- The wires of a job open the same gates in any order. -/
theorem foldl_openGates_eq (h : job.IsRearranged job') (hjob : job.IsDeclarable) :
    (fun m => job.wires.foldl Member.openGates m)
      = fun m => job'.wires.foldl Member.openGates m := by
  funext m
  exact (h.wires hjob).foldl_eq' (fun w _ w' _ m => Member.openGates_comm m w w') m

/-! ### Topologies -/

/-- The edges that leave a group, by output gate, do not depend on the order of all edges. -/
theorem forward_eq (h : job.IsRearranged job') (hjob : job.IsDeclarable) (g : GroupId) :
    job.outline.forward g = job'.outline.forward g := by
  refine Table.ofList_perm ((h.edges.filter _).map _) ?_
  -- a gate of the group is a start of edges
  refine List.Nodup.of_map (fun gate => (g, gate)) ?_
  rw [List.map_map, List.map_map]
  refine (List.map_congr_left fun e he => ?_) ▸
    hjob.edges_once.sublist (List.filter_sublist.map GroupEdge.start)
  rw [GroupEdge.start, of_decide_eq_true (List.mem_filter.mp he).2]
  rfl

/-- What a rearranged job describes looks the same in every view. -/
theorem alike_outline (h : job.IsRearranged job') (hjob : job.IsDeclarable)
    (hids : (job.constraints.map Constraint.id).Nodup) : job.outline.Alike job'.outline where
  groups := by
    refine Table.ofList_perm (h.groups.map _) ?_
    rw [List.map_map]
    exact hjob.groups_once
  constraints := by
    refine Table.ofList_perm (h.constraints.map _) ?_
    rw [List.map_map]
    exact hids
  membersOf g := by
    show (job.members.map _).filter _ = (job'.members.map _).filter _
    rw [h.foldl_openGates_eq hjob,
      Topology.filter_group_map fun m => (Topology.foldl_openGates job'.wires m).2,
      Topology.filter_group_map fun m => (Topology.foldl_openGates job'.wires m).2]
    exact congrArg (List.map _) (h.membersOf_eq hjob g)
  member? id := by
    show (job.members.map _).find? _ = (job'.members.map _).find? _
    rw [h.foldl_openGates_eq hjob,
      Topology.find?_id_map fun m => (Topology.foldl_openGates job'.wires m).1,
      Topology.find?_id_map fun m => (Topology.foldl_openGates job'.wires m).1,
      find?_eq_of_perm h.members hjob.members_once]
  forward := h.forward_eq hjob
  wires w := (h.wires hjob).mem_iff

/-- **A job may be rearranged.**  If a job with different constraints is accepted, it is accepted
with its lists in any other order, and its topology looks the same. -/
theorem exists_alike (h : job.IsRearranged job')
    (hids : (job.constraints.map Constraint.id).Nodup) {t : Topology} (ht : job.topology = .ok t) :
    ∃ t', job'.topology = .ok t' ∧ t.Alike t' := by
  obtain ⟨hjob, rfl⟩ := topology_eq_ok_iff.mp ht
  exact ⟨_, topology_eq_ok_iff.mpr ⟨h.isDeclarable hjob, rfl⟩, h.alike_outline hjob hids⟩

end IsRearranged

end Job

end LatencyControl
