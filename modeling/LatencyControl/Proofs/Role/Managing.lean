import LatencyControl.Proofs.Role.Assigning

/-!
# Who watches a constraint

The managers of a constraint sit on the hosts that run members of its anchor group, and each of them
watches the constraint by way of the members on its own host.  `Deployment.members_watchersOn` says
this of every host once all roles are assigned: together the managers of a constraint have every
member of the anchor group, and no member is had twice.
-/

namespace LatencyControl

/-! ### The anchor -/

namespace Topology

variable {t : Topology}

theorem onMostHosts_subset {candidates found : List GroupId}
    (h : t.onMostHosts candidates = .ok found) : found ⊆ candidates := by
  obtain ⟨counts, hcounts, h⟩ := bind_eq_ok.mp h
  obtain rfl := Except.ok.inj h
  intro g hg
  obtain ⟨⟨g', count⟩, hmem, rfl⟩ := List.mem_map.mp hg
  obtain ⟨g', hg', hcount⟩ := exists_item (mapM_eq_ok.mp hcounts) (List.mem_filter.mp hmem).1
  obtain ⟨n, -, hpair⟩ := bind_eq_ok.mp hcount
  obtain ⟨rfl, -⟩ := Prod.mk.inj (Except.ok.inj hpair)
  exact hg'

theorem atFewestChannels_subset {s : Sequence} {candidates found : List GroupId}
    (h : t.atFewestChannels s candidates = .ok found) : found ⊆ candidates := by
  obtain ⟨counts, -, h⟩ := bind_eq_ok.mp h
  split at h
  · obtain rfl := Except.ok.inj h
    exact List.Subset.refl _
  · obtain rfl := Except.ok.inj h
    exact fun g hg => (List.mem_filter.mp hg).1

theorem mem_of_pickAnchor {candidates : List GroupId} {used used' : KeySet GroupId} {g : GroupId}
    (h : pickAnchor candidates used = some (g, used')) : g ∈ candidates := by
  unfold pickAnchor at h
  split at h
  · next g' hg' =>
    obtain ⟨rfl, -⟩ := Prod.mk.inj (Option.some.inj h)
    rcases Option.or_eq_some_iff.mp hg' with hfree | ⟨-, hhead⟩
    · exact List.mem_of_find?_eq_some hfree
    · exact List.mem_of_head? hhead
  · cases h

/-- The anchor is a group that the sequence touches. -/
theorem mem_touched_of_selectAnchor {c : Constraint} {used used' : KeySet GroupId} {g : GroupId}
    (hc : t.singleConstraint = .ok c) (h : t.selectAnchor used = .ok (g, used')) :
    g ∈ c.sequence.flatMap Element.touched := by
  obtain ⟨c', hc', h⟩ := bind_eq_ok.mp h
  obtain rfl : c = c' := Except.ok.inj (hc.symm.trans hc')
  obtain ⟨most, hmost, h⟩ := bind_eq_ok.mp h
  obtain ⟨fewest, hfewest, h⟩ := bind_eq_ok.mp h
  split at h
  · next found hfound =>
    obtain rfl := Except.ok.inj h
    exact KeySet.mem_ofList.mp
      (onMostHosts_subset hmost (atFewestChannels_subset hfewest (mem_of_pickAnchor hfound)))
  · cases h

end Topology

/-! ### The members of the anchor, host by host -/

theorem ManagerRole.create_eq_ok {host : HostId} {id : ConstraintId} {t : Topology} {g : GroupId}
    {ms : List MemberId} {r : ManagerRole} (h : ManagerRole.create host id t g ms = .ok r) :
    r = { host, constraint := id, topology := t, anchor := g, members := ms } := by
  obtain ⟨-, -, h⟩ := bind_eq_ok.mp h
  obtain ⟨-, -, h⟩ := bind_eq_ok.mp h
  obtain ⟨-, h⟩ := check_eq_ok.mp h
  obtain ⟨-, h⟩ := check_eq_ok.mp h
  obtain ⟨-, -, h⟩ := bind_eq_ok.mp h
  exact (Except.ok.inj h).symm

/-- A group has a member on a host. -/
def Topology.RunsOn (t : Topology) (g : GroupId) (host : HostId) : Prop :=
  ∃ m ∈ t.membersOf g, m.host = host

instance (t : Topology) (g : GroupId) (host : HostId) : Decidable (t.RunsOn g host) :=
  inferInstanceAs (Decidable (∃ m ∈ t.membersOf g, m.host = host))

namespace Deployment

open LatencyControl.Topology

/-- The hosts that a group runs on have a part of it, their own members. -/
theorem find?_partition_eq_ite {t : Topology} {g : GroupId} {parts : Table HostId (List MemberId)}
    (h : partition t g = .ok parts) (host : HostId) :
    parts.find? host = if t.RunsOn g host then
      some (((t.membersOf g).filter (fun m => m.host = host)).map Member.id) else none := by
  obtain ⟨members, hmembers, h⟩ := bind_eq_ok.mp h
  obtain ⟨-, -, hmembers⟩ := bind_eq_ok.mp hmembers
  obtain rfl := Except.ok.inj hmembers
  obtain rfl := Except.ok.inj h
  have hfold : ∀ (ms : List Member) (parts : Table HostId (List MemberId)),
      (ms.foldl (fun parts m => parts.upsert m.host (fun found => found.getD [] ++ [m.id]))
        parts).find? host = if ∃ m ∈ ms, m.host = host then
          some ((parts.find? host).getD [] ++ (ms.filter (fun m => m.host = host)).map Member.id)
        else parts.find? host := by
    intro ms
    induction ms with
    | nil => simp
    | cons m rest ih =>
      intro parts
      rw [List.foldl_cons, ih, Table.find?_upsert]
      by_cases hhost : m.host = host
      · by_cases hrest : ∃ m ∈ rest, m.host = host
        · simp [hhost, hrest]
        · have hnone : rest.filter (fun m => m.host = host) = [] := by simpa using hrest
          simp [hhost, hrest, hnone]
      · simp [hhost]
  exact (hfold _ _).trans rfl

/-- The part of a host: its own members of the group. -/
theorem find?_partition {t : Topology} {g : GroupId} {parts : Table HostId (List MemberId)}
    (h : partition t g = .ok parts) (host : HostId) :
    (parts.find? host).getD []
      = ((t.membersOf g).filter (fun m => m.host = host)).map Member.id := by
  rw [find?_partition_eq_ite h]
  split_ifs with hruns
  · rfl
  · have hnone : (t.membersOf g).filter (fun m => m.host = host) = [] := by
      simpa [RunsOn] using hruns
    rw [hnone]
    rfl

/-! ### The managers, constraint by constraint -/

/-- The manager role of one host, for its part of the anchor group. -/
def managerOfPart (t : Topology) (c : Constraint) (g : GroupId) (part : HostId × List MemberId) :
    ManagerRole :=
  { host := part.1, constraint := c.id, topology := t, anchor := g, members := part.2 }

theorem createManagers_cons {t : Topology} {rest : List Topology} {used : KeySet GroupId}
    {roles : List ManagerRole} (h : createManagers (t :: rest) used = .ok roles) :
    ∃ c g used' parts own later, t.singleConstraint = .ok c ∧ t.selectAnchor used = .ok (g, used') ∧
      partition t g = .ok parts ∧
      own = parts.entries.map (managerOfPart t c g) ∧
      createManagers rest used' = .ok later ∧ roles = own ++ later := by
  obtain ⟨c, hc, h⟩ := bind_eq_ok.mp h
  obtain ⟨⟨g, used'⟩, hanchor, h⟩ := bind_eq_ok.mp h
  obtain ⟨parts, hparts, h⟩ := bind_eq_ok.mp h
  obtain ⟨own, hown, h⟩ := bind_eq_ok.mp h
  obtain ⟨later, hlater, h⟩ := bind_eq_ok.mp h
  refine ⟨c, g, used', parts, own, later, hc, hanchor, hparts, ?_, hlater,
    (Except.ok.inj h).symm⟩
  have hroles : List.Forall₂ (fun part role => managerOfPart t c g part = role) parts.entries own :=
    (mapM_eq_ok.mp hown).imp fun part role hrole => (ManagerRole.create_eq_ok hrole).symm
  rw [← List.forall₂_map_left_iff, List.forall₂_eq_eq_eq] at hroles
  exact hroles.symm

theorem exists_constraint_of_mem_createManagers {ts : List Topology} {used : KeySet GroupId}
    {roles : List ManagerRole} (h : createManagers ts used = .ok roles) :
    ∀ r ∈ roles, ∃ t ∈ ts, ∃ c, t.singleConstraint = .ok c ∧ r.constraint = c.id := by
  induction ts generalizing used roles with
  | nil =>
    obtain rfl := Except.ok.inj h
    exact fun r hr => (List.not_mem_nil hr).elim
  | cons t rest ih =>
    obtain ⟨c, g, used', parts, own, later, hc, -, -, rfl, hlater, rfl⟩ := createManagers_cons h
    intro r hr
    rcases List.mem_append.mp hr with hr | hr
    · obtain ⟨part, -, rfl⟩ := List.mem_map.mp hr
      exact ⟨t, List.mem_cons_self, c, hc, rfl⟩
    · obtain ⟨t', ht', c', hc', hconstraint⟩ := ih hlater r hr
      exact ⟨t', List.mem_cons_of_mem t ht', c', hc', hconstraint⟩

/-- The manager roles for one constraint: one for each part of the anchor group. -/
theorem filter_createManagers {ts : List Topology} {used : KeySet GroupId}
    {roles : List ManagerRole} (h : createManagers ts used = .ok roles)
    (hdiffer : ts.Pairwise fun t t' => ∀ c c', t.singleConstraint = .ok c →
      t'.singleConstraint = .ok c' → c.id ≠ c'.id) {t : Topology} (ht : t ∈ ts) {c : Constraint}
    (hc : t.singleConstraint = .ok c) :
    ∃ g ∈ c.sequence.flatMap Element.touched, ∃ parts, partition t g = .ok parts ∧
      roles.filter (fun r => r.constraint = c.id) =
        parts.entries.map (managerOfPart t c g) := by
  induction ts generalizing used roles with
  | nil => exact (List.not_mem_nil ht).elim
  | cons first rest ih =>
    obtain ⟨c', g, used', parts, own, later, hc', hanchor, hparts, rfl, hlater, rfl⟩ :=
      createManagers_cons h
    obtain ⟨hfirst, hrest⟩ := List.pairwise_cons.mp hdiffer
    rw [List.filter_append]
    rcases List.mem_cons.mp ht with rfl | ht
    · -- all roles of the first topology count, and none of the later ones
      obtain rfl : c = c' := Except.ok.inj (hc.symm.trans hc')
      refine ⟨g, mem_touched_of_selectAnchor hc hanchor, parts, hparts, ?_⟩
      have hnone : later.filter (fun r => r.constraint = c.id) = [] := by
        refine List.filter_eq_nil_iff.mpr fun r hr hconstraint => ?_
        obtain ⟨t', ht', c', hc', hsame⟩ := exists_constraint_of_mem_createManagers hlater r hr
        exact hfirst t' ht' c c' hc hc' ((of_decide_eq_true hconstraint).symm.trans hsame)
      rw [hnone, List.append_nil, List.filter_eq_self]
      intro r hr
      obtain ⟨part, -, rfl⟩ := List.mem_map.mp hr
      exact decide_eq_true rfl
    · obtain ⟨g', hg', parts', hparts', hroles⟩ := ih hlater hrest ht
      refine ⟨g', hg', parts', hparts', ?_⟩
      have hnone : (parts.entries.map (managerOfPart first c' g)).filter
          (fun r => r.constraint = c.id) = [] := by
        refine List.filter_eq_nil_iff.mpr fun r hr hconstraint => ?_
        obtain ⟨part, -, rfl⟩ := List.mem_map.mp hr
        exact hfirst t ht c' c hc' hc (of_decide_eq_true hconstraint)
      rw [hnone, List.nil_append, hroles]

/-! ### The managers, host by host -/

/-- The manager roles of a host for one constraint. -/
def watchersOn (d : Deployment) (id : ConstraintId) (host : HostId) : List ManagerRole :=
  (d.managersOn host).filter (fun r => r.constraint = id)

/-- **The managers of a constraint share the anchor group.**  After a deployment got through, the
managers of a host for a constraint have the host's own members of the anchor group, each of them
once. -/
theorem members_watchersOn {topologies : Table ConstraintId Topology} {d : Deployment}
    (h : assignRoles.run.run { topologies } = (.ok (), d))
    (hkeyed : ∀ id t c, topologies.find? id = some t → t.singleConstraint = .ok c → c.id = id)
    {t : Topology} {c : Constraint} (ht : topologies.find? c.id = some t)
    (hc : t.singleConstraint = .ok c) :
    ∃ g ∈ c.sequence.flatMap Element.touched, ∀ host,
      (∀ r ∈ d.watchersOn c.id host, r.topology = t ∧ r.constraint = c.id) ∧
        (d.watchersOn c.id host).flatMap ManagerRole.members
          = ((t.membersOf g).filter (fun m => m.host = host)).map Member.id := by
  obtain ⟨roles, hroles, hmanagers⟩ := managersOn_of_run h
  -- different topologies have different constraints, as each is kept under that of its own
  have hdiffer : topologies.values.Pairwise fun t t' => ∀ c c', t.singleConstraint = .ok c →
      t'.singleConstraint = .ok c' → c.id ≠ c'.id := by
    refine List.pairwise_map.mpr (topologies.ascending.imp_of_mem ?_)
    rintro ⟨id, t⟩ ⟨id', t'⟩ hmem hmem' hlt c c' hc hc' hsame
    rw [hkeyed id t c (topologies.mem_entries_iff.mp hmem) hc,
      hkeyed id' t' c' (topologies.mem_entries_iff.mp hmem') hc'] at hsame
    exact TableKey.irrefl _ (hsame ▸ hlt)
  obtain ⟨g, hg, parts, hparts, hfilter⟩ := filter_createManagers hroles hdiffer
    ((topologies.mem_values_iff).mpr ⟨c.id, ht⟩) hc
  have hwatchers : ∀ host, d.watchersOn c.id host
      = (parts.entries.filter (fun part => part.1 = host)).map (managerOfPart t c g) := by
    intro host
    rw [watchersOn, hmanagers host, List.filter_comm, hfilter, List.filter_map]
    rfl
  refine ⟨g, hg, fun host => ⟨fun r hr => ?_, ?_⟩⟩
  · rw [hwatchers host] at hr
    obtain ⟨part, -, rfl⟩ := List.mem_map.mp hr
    exact ⟨rfl, rfl⟩
  · rw [hwatchers host, ← find?_partition hparts host, Table.filter_entries]
    cases parts.find? host <;> simp [managerOfPart]

end Deployment

/-! ### Deployed jobs -/

namespace DeployedJob

/-- The manager roles of a host of a deployed job. -/
def managersOn (d : DeployedJob) (host : HostId) : List ManagerRole :=
  ((d.rolesOf? host).map RoleSet.managers).getD []

/-- The reporter roles of a host of a deployed job. -/
def reportersOn (d : DeployedJob) (host : HostId) : List ReporterRole :=
  ((d.rolesOf? host).map RoleSet.reporters).getD []

variable {id : JobId} {topologies : Table ConstraintId Topology} {settings : Settings}
  {proposals : Option (List ChainProposal)} {d : DeployedJob}

/-- A deployed job has the roles of a deployment that got through, with the chains that fit. -/
theorem deploy_eq_ok_iff : deploy id topologies settings proposals = .ok d ↔
    id.isEmpty = false ∧ settings.validate = .ok () ∧ ∃ d',
      Deployment.assignRoles.run.run { topologies } = (.ok (), d') ∧
        d = { id, settings, roles := (d'.propose proposals).roles,
              managersByConstraint := (d'.propose proposals).managersByConstraint } := by
  rw [deploy, step_eq_ok, step_eq_ok, Ident.require_eq_ok_iff]
  refine and_congr_right' (and_congr_right' ?_)
  rcases hrun : Deployment.assignRoles.run.run { topologies } with ⟨_ | _, d'⟩
  · constructor
    · intro h
      cases h
    · rintro ⟨_, h, -⟩
      cases h
  · constructor
    · intro h
      obtain rfl := Except.ok.inj h
      exact ⟨d', rfl, by cases proposals <;> rfl⟩
    · rintro ⟨_, h, rfl⟩
      cases h
      cases proposals <;> rfl

theorem exists_run_of_deploy (h : deploy id topologies settings proposals = .ok d) :
    ∃ d', Deployment.assignRoles.run.run { topologies } = (.ok (), d') ∧
      (∀ host, d.managersOn host = d'.managersOn host) ∧
      ∀ host, d.reportersOn host = d'.reportersOn host := by
  obtain ⟨-, -, d', hrun, rfl⟩ := deploy_eq_ok_iff.mp h
  exact ⟨d', hrun, fun host => Deployment.managersOn_propose d' proposals host,
    fun host => Deployment.reportersOn_propose d' proposals host⟩

theorem deploy_eq_ok (h : deploy id topologies settings proposals = .ok d) :
    ∃ d', Deployment.assignRoles.run.run { topologies } = (.ok (), d') ∧
      ∀ host, d.managersOn host = d'.managersOn host := by
  obtain ⟨d', hrun, hmanagers, -⟩ := exists_run_of_deploy h
  exact ⟨d', hrun, hmanagers⟩

end DeployedJob

end LatencyControl
