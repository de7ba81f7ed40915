import LatencyControl.Proofs.Monitor.Staffing
import LatencyControl.Proofs.Role.Candidates
import LatencyControl.Proofs.Topology.Outline

/-!
# Entries of the role table

The role table of a job has an entry for each host that holds a role, and such a host runs a member
of the job.  It can have further entries: the entry for the host of a proposed chain is there before
the chain is looked at, and an empty chain passes the check of its members on any host but is not
kept.  `DeployedJob.entries_of_ofJob` says that this is the only way to an entry without roles.

Managers and reporters are never turned down by a host that has no roles yet, which is why their
entries hold something (`Deployment.mem_keys_iff_of_run`).
-/

namespace LatencyControl

/-! ### Entries -/

/-- A host has an entry with at least one role of any kind. -/
def RoleTable.HoldsRole (roles : RoleTable) (host : HostId) : Prop :=
  ∃ s, roles.find? host = some s ∧ (s.managers ≠ [] ∨ s.reporters ≠ [] ∨ s.chains ≠ [])

namespace Job

/-- A job has a member that the host runs. -/
def RunsOn (job : Job) (host : HostId) : Prop := ∃ g ∈ job.groups, ∃ m ∈ g.members, m.host = host

instance (job : Job) (host : HostId) : Decidable (job.RunsOn host) :=
  inferInstanceAs (Decidable (∃ g ∈ job.groups, ∃ m ∈ g.members, m.host = host))

/-- An empty chain is proposed for a host, under a constraint of the job. -/
def ProposesNothing (job : Job) (proposals : Option (List ChainProposal)) (host : HostId) : Prop :=
  ∃ p ∈ proposals.getD [], p.host = host ∧ p.members = [] ∧ p.constraint ∈ job.constraints.map (·.id)

/-- The members of the topology are those that the job lists. -/
theorem runsOn_of_mem_members {job : Job} {t : Topology} (ht : job.topology = .ok t) {m : Member}
    (hm : m ∈ t.members) : job.RunsOn m.host := by
  obtain ⟨-, rfl⟩ := topology_eq_ok_iff.mp ht
  obtain ⟨listed, hlisted, rfl⟩ := List.mem_map.mp hm
  obtain ⟨g, hg, hplaced⟩ := List.mem_flatMap.mp hlisted
  obtain ⟨⟨entry, i⟩, hentry, rfl⟩ := List.mem_map.mp hplaced
  rw [(Topology.place_foldl_openGates job.wires _).2]
  exact ⟨g, hg, entry, List.fst_mem_of_mem_zipIdx hentry, rfl⟩

theorem exists_topology_iff {job : Job} {t : Topology} (ht : job.topology = .ok t)
    {id : ConstraintId} :
    (∃ u, (Table.ofList t.splitByConstraint).find? id = some u) ↔
      id ∈ job.constraints.map (·.id) := by
  obtain ⟨-, rfl⟩ := topology_eq_ok_iff.mp ht
  have hlisted := Table.contains_ofList_iff (job.constraints.map fun c => (c.id, c)) id
  rw [Table.contains, Option.isSome_iff_exists] at hlisted
  have hsplit : (∃ u, (Table.ofList job.outline.splitByConstraint).find? id = some u) ↔
      ∃ c, job.outline.constraint? id = some c := by
    simp only [find?_splitByConstraint]
    constructor
    · rintro ⟨_, c, hc, -⟩
      exact ⟨c, hc⟩
    · rintro ⟨c, hc⟩
      exact ⟨_, c, hc, rfl⟩
  rw [hsplit, Topology.constraint?, outline, hlisted, List.mem_map]
  simp only [List.mem_map, Prod.mk.injEq]
  constructor
  · rintro ⟨c, c', hc', hid, -⟩
    exact ⟨c', hc', hid⟩
  · rintro ⟨c, hc, hid⟩
    exact ⟨c, c, hc, hid, rfl⟩

end Job

namespace Deployment

theorem holdsRole_iff (d : Deployment) {host : HostId} :
    d.roles.HoldsRole host ↔
      d.managersOn host ≠ [] ∨ d.reportersOn host ≠ [] ∨ d.chainsOn host ≠ [] := by
  unfold RoleTable.HoldsRole managersOn reportersOn chainsOn
  cases d.roles.find? host <;> simp

variable {topologies : Table ConstraintId Topology} {d : Deployment}

/-- After roles were assigned, a host has an entry if it has a manager or a reporter. -/
theorem mem_keys_iff_of_run (h : assignRoles.run.run { topologies } = (.ok (), d))
    {host : HostId} :
    host ∈ d.roles.keys ↔ d.managersOn host ≠ [] ∨ d.reportersOn host ≠ [] := by
  obtain ⟨roles, hroles, hmanagers⟩ := managersOn_of_run h
  have hmanaged : d.managersOn host ≠ [] ↔ ∃ r ∈ roles, r.host = host := by
    rw [hmanagers, Ne, List.filter_eq_nil_iff]
    simp
  have hreported : d.reportersOn host ≠ [] ↔ ∃ a ∈ d.assigned, a.1 = host := by
    constructor
    · intro hne
      obtain ⟨rr, hrr⟩ := List.exists_mem_of_ne_nil _ hne
      exact ⟨(host, rr), mem_assigned_of_mem_reportersOn h hrr, rfl⟩
    · rintro ⟨a, ha, hhost⟩
      obtain ⟨rr, hrr, -⟩ := (exists_mem_reportersOn_iff h).mpr ⟨a, ha, hhost, rfl⟩
      exact List.ne_nil_of_mem hrr
  rw [mem_keys_of_run h hroles, hmanaged, hreported, or_comm]

/-- After roles were assigned and chains were proposed, a host has the proposed chains that suit
it. -/
theorem mem_chainsOn_propose_iff (h : assignRoles.run.run { topologies } = (.ok (), d))
    {proposals : Option (List ChainProposal)} {host : HostId} {chain : List MemberId} :
    chain ∈ (d.propose proposals).chainsOn host ↔ ∃ p ∈ proposals.getD [], p.members = chain ∧
      ∃ t, topologies.find? p.constraint = some t ∧ p.Suits p.constraint t host := by
  obtain rfl := afterRoles_of_run h
  cases proposals with
  | none => simp [propose, chainsOn_afterRoles]
  | some proposals =>
    rw [propose, chainsOn_addChains_afterRoles, List.mem_eraseDups, mem_candidates]
    rfl

/-- Proposed chains add the entries of their hosts, and such an entry holds the chain unless the
chain is empty. -/
theorem mem_keys_propose_iff (h : assignRoles.run.run { topologies } = (.ok (), d))
    (proposals : Option (List ChainProposal)) {host : HostId} :
    host ∈ (d.propose proposals).roles.keys ↔ (d.propose proposals).roles.HoldsRole host ∨
      ∃ p ∈ proposals.getD [], p.host = host ∧ p.members = [] ∧
        ∃ t, topologies.find? p.constraint = some t := by
  have hproposed : host ∈ (d.propose proposals).roles.keys ↔ host ∈ d.roles.keys ∨
      ∃ p ∈ proposals.getD [], p.host = host ∧
        ∃ t, topologies.find? p.constraint = some t ∧ runsOnHost t p = true := by
    cases proposals with
    | none => simp [propose]
    | some proposals =>
      rw [propose, mem_keys_addChains, topologies_of_run h, or_comm]
      refine or_congr_right ?_
      simp only [Prod.exists, Table.mem_entries_iff, List.mem_filter, decide_eq_true_eq,
        Option.getD_some]
      constructor
      · rintro ⟨id, t, ht, p, ⟨hp, rfl, hruns⟩, hhost⟩
        exact ⟨p, hp, hhost, t, ht, hruns⟩
      · rintro ⟨p, hp, hhost, t, ht, hruns⟩
        exact ⟨p.constraint, t, ht, p, ⟨hp, rfl, hruns⟩, hhost⟩
  -- managers and reporters are what they were, so only the entries for chains are left
  rw [hproposed, holdsRole_iff, managersOn_propose, reportersOn_propose, ← or_assoc,
    ← mem_keys_iff_of_run h, or_assoc]
  refine or_congr_right ⟨?_, ?_⟩
  · rintro ⟨p, hp, rfl, t, ht, hruns⟩
    by_cases hempty : p.members = []
    · exact .inr ⟨p, hp, rfl, hempty, t, ht⟩
    · have hsuits : p.Suits p.constraint t p.host := ⟨rfl, rfl, hempty, runsOnHost_iff.mp hruns⟩
      exact .inl (List.ne_nil_of_mem
        ((mem_chainsOn_propose_iff h).mpr ⟨p, hp, rfl, t, ht, hsuits⟩))
  · rintro (hchain | ⟨p, hp, rfl, hempty, t, ht⟩)
    · obtain ⟨chain, hchain⟩ := List.exists_mem_of_ne_nil _ hchain
      obtain ⟨p, hp, -, t, ht, -, rfl, -, hruns⟩ := (mem_chainsOn_propose_iff h).mp hchain
      exact ⟨p, hp, rfl, t, ht, runsOnHost_iff.mpr hruns⟩
    · -- an empty chain has no member that could run elsewhere
      refine ⟨p, hp, rfl, t, ht, runsOnHost_iff.mpr fun member hmember => ?_⟩
      rw [hempty] at hmember
      exact (List.not_mem_nil hmember).elim

variable {t : Topology}

/-- Nothing but the constraints tells the topology of a manager from that of the job. -/
theorem members_topology_of_run
    (h : assignRoles.run.run { topologies := Table.ofList t.splitByConstraint } = (.ok (), d))
    {r : ManagerRole} (hr : r ∈ d.managerRoles) : r.topology.members = t.members := by
  obtain ⟨roles, hroles, -⟩ := managersOn_of_run h
  obtain ⟨htopology, -, -⟩ :=
    members_of_mem_createManagers hroles r ((mem_managerRoles_of_run h hroles).mp hr)
  rw [Topology.values_splitByConstraint] at htopology
  exact Topology.members_of_mem_splitByConstraint htopology

/-- A host that holds a role runs a member: of the anchor that it manages, of what it measures or of
a chain. -/
theorem exists_member_of_holdsRole
    (h : assignRoles.run.run { topologies := Table.ofList t.splitByConstraint } = (.ok (), d))
    {proposals : Option (List ChainProposal)} {host : HostId}
    (hrole : (d.propose proposals).roles.HoldsRole host) : ∃ m ∈ t.members, m.host = host := by
  have hfound : ∀ {u : Topology} {id : MemberId} {m : Member}, u.members = t.members →
      u.member? id = some m → m ∈ t.members := fun hsame hm => hsame ▸ List.mem_of_find?_eq_some hm
  rw [holdsRole_iff, managersOn_propose, reportersOn_propose] at hrole
  rcases hrole with hmanager | hreporter | hchain
  · obtain ⟨anchors, -, hanchors⟩ := anchors_of_run h
    have hne : (d.managersOn host).map (fun r => (r.constraint, r.anchor)) ≠ [] := by
      simpa using hmanager
    rw [hanchors] at hne
    obtain ⟨anchor, hanchor⟩ := List.exists_mem_of_ne_nil _ hne
    obtain ⟨m, hm, hhost⟩ := of_decide_eq_true (List.mem_filter.mp hanchor).2
    exact ⟨m, (List.mem_filter.mp hm).1, hhost⟩
  · obtain ⟨rr, hrr⟩ := List.exists_mem_of_ne_nil _ hreporter
    obtain ⟨hhost, r, hr, -, hruns⟩ := placed_of_mem_assigned h (mem_assigned_of_mem_reportersOn h hrr)
    have hsame := members_topology_of_run h hr
    cases rr with
    | vertex role =>
      obtain ⟨m, hm, hat⟩ := hruns
      have hhost : host = role.host := List.mem_singleton.mp hhost
      exact ⟨m, hfound hsame hm, (hhost.trans hat).symm⟩
    | edge role =>
      obtain ⟨-, source, target, hs, ht, hsource, htarget⟩ := hruns
      rcases List.mem_pair.mp hhost with hhost | hhost
      · exact ⟨source, hfound hsame hs, (hhost.trans hsource).symm⟩
      · exact ⟨target, hfound hsame ht, (hhost.trans htarget).symm⟩
  · obtain ⟨chain, hchain⟩ := List.exists_mem_of_ne_nil _ hchain
    obtain ⟨p, -, -, u, hu, -, -, hne, hruns⟩ := (mem_chainsOn_propose_iff h).mp hchain
    obtain ⟨c, -, rfl⟩ := find?_splitByConstraint.mp hu
    obtain ⟨member, hmember⟩ := List.exists_mem_of_ne_nil _ hne
    obtain ⟨m, hm, hhost⟩ := hruns member hmember
    exact ⟨m, hfound rfl hm, hhost⟩

end Deployment

namespace DeployedJob

variable {job : Job} {settings : Settings} {proposals : Option (List ChainProposal)}
  {d : DeployedJob}

theorem mem_keys_ofJob_iff (h : ofJob job settings proposals = .ok d) {host : HostId} :
    host ∈ d.roles.keys ↔ d.roles.HoldsRole host ∨ job.ProposesNothing proposals host := by
  obtain ⟨t, ht, hdeploy⟩ := bind_eq_ok.mp h
  obtain ⟨-, -, d', hrun, rfl⟩ := deploy_eq_ok_iff.mp hdeploy
  simp only [Deployment.mem_keys_propose_iff hrun, Job.exists_topology_iff ht, Job.ProposesNothing]

theorem runsOn_of_holdsRole (h : ofJob job settings proposals = .ok d) {host : HostId}
    (hrole : d.roles.HoldsRole host) : job.RunsOn host := by
  obtain ⟨t, ht, hdeploy⟩ := bind_eq_ok.mp h
  obtain ⟨-, -, d', hrun, rfl⟩ := deploy_eq_ok_iff.mp hdeploy
  obtain ⟨m, hm, rfl⟩ := Deployment.exists_member_of_holdsRole hrun hrole
  exact Job.runsOn_of_mem_members ht hm

/-- **Entries of the role table.**  The hosts with an entry are those that hold a role and those
that an empty chain is proposed for.  The former run members of the job.  So every entry is as it
should be exactly if empty chains are proposed for hosts with roles only. -/
theorem entries_of_ofJob (h : ofJob job settings proposals = .ok d) :
    (∀ host, host ∈ d.roles.keys ↔
      d.roles.HoldsRole host ∨ job.ProposesNothing proposals host) ∧
    (∀ host, d.roles.HoldsRole host → job.RunsOn host) ∧
    ((∀ host ∈ d.roles.keys, d.roles.HoldsRole host ∧ job.RunsOn host) ↔
      ∀ host, job.ProposesNothing proposals host → d.roles.HoldsRole host) := by
  refine ⟨fun _ => mem_keys_ofJob_iff h, fun _ => runsOn_of_holdsRole h, fun hall host hnothing => ?_,
    fun hall host hentry => ?_⟩
  · exact (hall host ((mem_keys_ofJob_iff h).mpr (.inr hnothing))).1
  · have hrole : d.roles.HoldsRole host := by
      rcases (mem_keys_ofJob_iff h).mp hentry with hrole | hnothing
      · exact hrole
      · exact hall host hnothing
    exact ⟨hrole, runsOn_of_holdsRole h hrole⟩

/-- A chain of two members on one host, and an empty one on a host that runs nothing. -/
def funnelProposals : List ChainProposal :=
  [{ constraint := ⟨"c"⟩, host := ⟨"h"⟩, members := [⟨"a0"⟩, ⟨"b"⟩] },
    { constraint := ⟨"c"⟩, host := ⟨"ghost"⟩, members := [] }]

theorem entries_of_ofJob_funnelJob : ∃ d, ofJob funnelJob {} funnelProposals = .ok d ∧
    ∀ host, host ∈ d.roles.keys ↔
      d.roles.HoldsRole host ∨ funnelJob.ProposesNothing funnelProposals host := by
  obtain ⟨d, hd⟩ : ∃ d, ofJob funnelJob {} funnelProposals = .ok d := exists_eq_ok (by decide +kernel)
  exact ⟨d, hd, (entries_of_ofJob hd).1⟩

/-- There are entries without roles, for hosts that run nothing. -/
theorem exists_idle_entry : ¬∀ (job : Job) (settings : Settings)
    (proposals : Option (List ChainProposal)) (d : DeployedJob),
    ofJob job settings proposals = .ok d →
      ∀ host ∈ d.roles.keys, d.roles.HoldsRole host ∧ job.RunsOn host := by
  intro hall
  obtain ⟨d, hd, hentry⟩ : ∃ d, ofJob funnelJob {} funnelProposals = .ok d ∧
      (⟨"ghost"⟩ : HostId) ∈ d.roles.keys := exists_ok_of_check (by decide +kernel)
  have hruns : ¬funnelJob.RunsOn ⟨"ghost"⟩ := by decide
  exact hruns (runsOn_of_holdsRole hd (hall funnelJob {} funnelProposals d hd ⟨"ghost"⟩ hentry).1)

end DeployedJob

end LatencyControl
