import LatencyControl.Proofs.Role.Managing
import LatencyControl.Proofs.Topology.Declared

/-!
# Which hosts watch which constraints

The constraints of a topology choose their anchors one after the other (`Topology.anchors`).  After
a job was deployed, a host has one manager for each constraint whose anchor has members there, in
the order of the constraints, and it has no others (`DeployedJob.anchors_of_ofJob`).
-/

namespace LatencyControl

namespace Deployment

open LatencyControl.Topology

/-- The anchors of the constraints of some topologies, chosen one after the other; `used` holds the
anchors of earlier constraints. -/
def selectAnchors : List Topology → KeySet GroupId → Except Error (List (ConstraintId × GroupId))
  | [], _ => .ok []
  | t :: rest, used => do
    let c ← t.singleConstraint
    let (g, used) ← t.selectAnchor used
    return (c.id, g) :: (← selectAnchors rest used)

theorem selectAnchors_cons {t : Topology} {rest : List Topology} {used : KeySet GroupId}
    {anchors : List (ConstraintId × GroupId)} (h : selectAnchors (t :: rest) used = .ok anchors) :
    ∃ c g used' later, t.singleConstraint = .ok c ∧ t.selectAnchor used = .ok (g, used') ∧
      selectAnchors rest used' = .ok later ∧ anchors = (c.id, g) :: later := by
  obtain ⟨c, hc, h⟩ := bind_eq_ok.mp h
  obtain ⟨⟨g, used'⟩, hg, h⟩ := bind_eq_ok.mp h
  obtain ⟨later, hlater, h⟩ := bind_eq_ok.mp h
  exact ⟨c, g, used', later, hc, hg, hlater, (Except.ok.inj h).symm⟩

/-- Each topology chooses an anchor for its own constraint. -/
theorem forall₂_selectAnchors {ts : List Topology} {used : KeySet GroupId}
    {anchors : List (ConstraintId × GroupId)} (h : selectAnchors ts used = .ok anchors) :
    List.Forall₂ (fun t anchor => ∃ c, t.singleConstraint = .ok c ∧ anchor.1 = c.id) ts anchors := by
  induction ts generalizing used anchors with
  | nil =>
    obtain rfl := Except.ok.inj h
    exact .nil
  | cons t rest ih =>
    obtain ⟨c, g, used', later, hc, -, hlater, rfl⟩ := selectAnchors_cons h
    exact .cons ⟨c, hc, rfl⟩ (ih hlater)

/-! ### Hosts -/

/-- The managers of a host are those of the constraints whose anchors run there. -/
theorem anchors_of_createManagers {t : Topology} {ts : List Topology} {used : KeySet GroupId}
    {roles : List ManagerRole} (h : createManagers ts used = .ok roles)
    (hmembers : ∀ u ∈ ts, u.members = t.members) :
    ∃ anchors, selectAnchors ts used = .ok anchors ∧ ∀ host,
      (roles.filter (fun r => r.host = host)).map (fun r => (r.constraint, r.anchor))
        = anchors.filter (fun anchor => t.RunsOn anchor.2 host) := by
  induction ts generalizing used roles with
  | nil =>
    obtain rfl := Except.ok.inj h
    exact ⟨[], rfl, fun host => rfl⟩
  | cons u rest ih =>
    obtain ⟨c, g, used', parts, own, later, hc, hanchor, hparts, rfl, hlater, rfl⟩ :=
      createManagers_cons h
    obtain ⟨anchors, hanchors, hhosts⟩ := ih hlater fun v hv =>
      hmembers v (List.mem_cons_of_mem u hv)
    refine ⟨(c.id, g) :: anchors, ?_, fun host => ?_⟩
    · simp only [selectAnchors, hc, hanchor, hanchors, bind, Except.bind, pure, Except.pure]
    · have hruns : t.RunsOn g host ↔ u.RunsOn g host := by
        rw [RunsOn, RunsOn, membersOf, membersOf, hmembers u List.mem_cons_self]
      have hown : ((parts.entries.map (managerOfPart u c g)).filter (fun r => r.host = host)).map
          (fun r => (r.constraint, r.anchor)) = if t.RunsOn g host then [(c.id, g)] else [] := by
        rw [List.filter_map, List.map_map]
        change (parts.entries.filter (fun part => part.1 = host)).map (fun _ => (c.id, g)) = _
        rw [Table.filter_entries, find?_partition_eq_ite hparts]
        simp only [hruns]
        split_ifs
        · rfl
        · rfl
      rw [List.filter_append, List.map_append, hhosts, hown]
      by_cases hon : t.RunsOn g host
      · simp only [hon, if_true, decide_true, List.filter_cons_of_pos, List.singleton_append]
      · simp only [hon, if_false, decide_false, Bool.false_eq_true, not_false_eq_true,
          List.filter_cons_of_neg, List.nil_append]

end Deployment

/-! ### Constraints -/

namespace Topology

variable {t : Topology}

/-- The anchors of the constraints, in the order of the constraints. -/
def anchors (t : Topology) : Except Error (List (ConstraintId × GroupId)) :=
  Deployment.selectAnchors (t.splitByConstraint.map Prod.snd) Table.empty

/-- The topologies of the constraints are kept in the order of the constraints. -/
theorem entries_splitByConstraint (t : Topology) :
    (Table.ofList t.splitByConstraint).entries = t.splitByConstraint := by
  have hascending : t.splitByConstraint.Pairwise fun a b => a.1 < b.1 :=
    List.pairwise_map.mpr t.constraints.ascending
  have htable := Table.ofList_entries ⟨t.splitByConstraint, hascending⟩
  exact congrArg Table.entries htable

theorem values_splitByConstraint (t : Topology) :
    (Table.ofList t.splitByConstraint).values = t.splitByConstraint.map Prod.snd := by
  rw [Table.values, entries_splitByConstraint]

theorem members_of_mem_splitByConstraint {u : Topology}
    (hu : u ∈ t.splitByConstraint.map Prod.snd) : u.members = t.members := by
  rw [splitByConstraint, List.map_map] at hu
  obtain ⟨entry, -, rfl⟩ := List.mem_map.mp hu
  rfl

/-- Each constraint has one anchor. -/
theorem anchors_map_fst (hsound : t.IsSound) {anchors : List (ConstraintId × GroupId)}
    (h : t.anchors = .ok anchors) : anchors.map Prod.fst = t.constraints.keys := by
  have hall := Deployment.forall₂_selectAnchors h
  rw [splitByConstraint, List.map_map, List.forall₂_map_left_iff] at hall
  have hsame : List.Forall₂ (fun entry anchor => anchor.1 = entry.1) t.constraints.entries
      anchors := by
    refine forall₂_imp_of_mem hall ?_
    rintro ⟨id, c⟩ hmem anchor ⟨c', hc', hanchor⟩
    obtain rfl : c = c' := Except.ok.inj hc'
    rw [hanchor, hsound.constraints id c (t.constraints.mem_entries_iff.mp hmem)]
  have hmap : List.Forall₂ (· = ·) (anchors.map Prod.fst) (t.constraints.entries.map Prod.fst) :=
    List.forall₂_map_left_iff.mpr (List.forall₂_map_right_iff.mpr hsame.flip)
  rw [List.forall₂_eq_eq_eq] at hmap
  exact hmap

end Topology

/-- After roles were assigned, a host has one manager for each constraint whose anchor runs on the
host. -/
theorem Deployment.anchors_of_run {t : Topology} {d : Deployment}
    (h : assignRoles.run.run { topologies := Table.ofList t.splitByConstraint } = (.ok (), d)) :
    ∃ anchors, t.anchors = .ok anchors ∧ ∀ host,
      (d.managersOn host).map (fun r => (r.constraint, r.anchor))
        = anchors.filter (fun anchor => t.RunsOn anchor.2 host) := by
  obtain ⟨roles, hroles, hon⟩ := managersOn_of_run h
  rw [Topology.values_splitByConstraint] at hroles
  obtain ⟨anchors, hanchors, hhosts⟩ := anchors_of_createManagers hroles
    fun u => Topology.members_of_mem_splitByConstraint
  exact ⟨anchors, hanchors, fun host => by rw [hon, hhosts]⟩

namespace DeployedJob

variable {d : DeployedJob} {t : Topology} {job : Job} {settings : Settings}
  {proposals : Option (List ChainProposal)}

/-- A host of a deployed job has one manager for each constraint whose anchor runs on the host. -/
theorem anchors_of_ofJob (hd : ofJob job settings proposals = .ok d) (ht : job.topology = .ok t) :
    ∃ anchors, t.anchors = .ok anchors ∧ anchors.map Prod.fst = t.constraints.keys ∧
      ∀ host, (d.managersOn host).map (fun r => (r.constraint, r.anchor))
        = anchors.filter (fun anchor => t.RunsOn anchor.2 host) := by
  obtain ⟨t', ht', hd⟩ := bind_eq_ok.mp hd
  obtain rfl : t = t' := Except.ok.inj (ht.symm.trans ht')
  obtain ⟨d', hrun, hmanagers⟩ := deploy_eq_ok hd
  obtain ⟨anchors, hanchors, hhosts⟩ := Deployment.anchors_of_run hrun
  refine ⟨anchors, hanchors, Topology.anchors_map_fst (Job.topology_isSound ht) hanchors,
    fun host => ?_⟩
  rw [hmanagers, hhosts]

end DeployedJob

end LatencyControl
