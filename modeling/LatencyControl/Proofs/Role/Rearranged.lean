import LatencyControl.Proofs.Path.Met
import LatencyControl.Proofs.Role.Anchoring
import LatencyControl.Proofs.Role.Collection
import LatencyControl.Proofs.Topology.Rearranged

/-!
# Roles of rearranged jobs

The order in which a job lists its groups, edges and constraints does not matter for the roles of
the hosts (`DeployedJob.ofJob_rearranged`).  Topologies that look the same have the same anchors,
parts and manager roles, as all of these are computed from views (`Topology.Alike.selectAnchor`).

Walks are different: they follow the wires in the order in which they are listed.  What a manager
assigns is still the same, because a walk visits exactly what can be met from the anchor members
(`ManagerRole.mem_assignments_iff`), and a host has the keys of whatever is assigned to it.
-/

namespace LatencyControl

/-! ### Topologies that look the same -/

namespace Topology

/-- What can be met depends on the wires that there are, not on their order. -/
theorem mem_reach_congr {next next' : Step}
    (h : ∀ l m w x, (w, x) ∈ next l m ↔ (w, x) ∈ next' l m) (ps : Positions) {m : Member}
    {v : Visit} : v ∈ reach next ps m ↔ v ∈ reach next' ps m := by
  induction ps generalizing m with
  | nil => rfl
  | cons first rest ih =>
    obtain ⟨e, i⟩ := first
    cases e with
    | vertex g inp out sampling =>
      simp only [reach]
      split_ifs
      · rw [List.mem_cons, List.mem_cons, ih]
      · rfl
    | edge l sampling =>
      simp only [reach, List.mem_flatMap, Prod.exists, List.mem_cons, h, ih]

namespace Alike

variable {t t' : Topology}

theorem withConstraints (h : t.Alike t') (constraints : Table ConstraintId Constraint) :
    ({ t with constraints } : Topology).Alike { t' with constraints } :=
  ⟨h.groups, rfl, h.membersOf, h.member?, h.forward, h.wires⟩

theorem member (h : t.Alike t') (id : MemberId) : t.member id = t'.member id := by
  unfold Topology.member
  rw [h.member?]

theorem membersOfGroup (h : t.Alike t') (g : GroupId) :
    t.membersOfGroup g = t'.membersOfGroup g := by
  unfold Topology.membersOfGroup Topology.group
  rw [h.groups, h.membersOf]

theorem constraint (h : t.Alike t') (id : ConstraintId) : t.constraint id = t'.constraint id := by
  unfold Topology.constraint constraint?
  rw [h.constraints]

theorem singleConstraint (h : t.Alike t') : t.singleConstraint = t'.singleConstraint := by
  unfold Topology.singleConstraint
  rw [h.constraints]

/-! ### Managers -/

theorem onMostHosts (h : t.Alike t') (candidates : List GroupId) :
    t.onMostHosts candidates = t'.onMostHosts candidates := by
  unfold Topology.onMostHosts hostCount
  simp only [h.membersOfGroup]

theorem atFewestChannels (h : t.Alike t') (s : Sequence) (candidates : List GroupId) :
    t.atFewestChannels s candidates = t'.atFewestChannels s candidates := by
  unfold Topology.atFewestChannels channelCounts
  simp only [h.membersOfGroup, h.forward]

/-- The same anchor is chosen. -/
theorem selectAnchor (h : t.Alike t') (used : KeySet GroupId) :
    t.selectAnchor used = t'.selectAnchor used := by
  unfold Topology.selectAnchor
  simp only [h.singleConstraint, h.onMostHosts, h.atFewestChannels]

theorem partition (h : t.Alike t') (g : GroupId) :
    Deployment.partition t g = Deployment.partition t' g := by
  unfold Deployment.partition
  rw [h.membersOfGroup]

/-- The same manager roles can be created. -/
theorem create (h : t.Alike t') {host : HostId} {id : ConstraintId} {g : GroupId}
    {ms : List MemberId} {r : ManagerRole} (hr : ManagerRole.create host id t g ms = .ok r) :
    ManagerRole.create host id t' g ms = .ok { r with topology := t' } := by
  have hmember : ManagerRole.checkMember t = ManagerRole.checkMember t' := by
    unfold ManagerRole.checkMember
    simp only [h.member]
  obtain rfl := ManagerRole.create_eq_ok hr
  unfold ManagerRole.create constraint? at hr ⊢
  simp only [step_eq_ok, check_eq_ok, ← h.constraints, ← hmember] at hr ⊢
  obtain ⟨hhost, hid, hms, hheld, hall, -⟩ := hr
  exact ⟨hhost, hid, hms, hheld, hall, rfl⟩

/-! ### Walks -/

theorem mem_ahead (h : t.Alike t') {l : Link} {m : Member} {w : Wire} {x : Member} :
    (w, x) ∈ t.ahead l m ↔ (w, x) ∈ t'.ahead l m := by
  rw [Topology.mem_ahead, Topology.mem_ahead, h.wires, h.member?]

theorem mem_behind (h : t.Alike t') {l : Link} {m : Member} {w : Wire} {x : Member} :
    (w, x) ∈ t.behind l m ↔ (w, x) ∈ t'.behind l m := by
  rw [Topology.mem_behind, Topology.mem_behind, h.wires, h.member?]

/-- The same is met from a member. -/
theorem mem_met (h : t.Alike t') {s : Sequence} {m : Member} {v : Visit} :
    v ∈ t.met s m ↔ v ∈ t'.met s m := by
  have hahead : ∀ ps, v ∈ reach t.ahead ps m ↔ v ∈ reach t'.ahead ps m := fun ps =>
    mem_reach_congr (fun _ _ _ _ => h.mem_ahead) ps
  have hbehind : ∀ ps, v ∈ reach t.behind ps m ↔ v ∈ reach t'.behind ps m := fun ps =>
    mem_reach_congr (fun _ _ _ _ => h.mem_behind) ps
  unfold met
  cases s.vertexIndex? m.group with
  | some i => simp only [List.mem_append, hahead, hbehind]
  | none =>
    simp only [List.mem_append]
    refine or_congr ?_ ?_
    · split_ifs
      · exact hahead _
      · rfl
    · split_ifs
      · exact hbehind _
      · rfl

theorem assignVisit (h : t.Alike t') (s : Sequence) (manager : ManagerRef) (v : Visit) :
    LatencyControl.assignVisit t s manager v = LatencyControl.assignVisit t' s manager v := by
  unfold LatencyControl.assignVisit assignWireVisit
  simp only [h.member]

end Alike

end Topology

/-! ### What a manager assigns -/

namespace ManagerRole

/-- A walk gets through if all its anchors are there. -/
theorem exists_walk {r : ManagerRole} (s : Sequence)
    (h : ∀ anchor ∈ r.members, ∃ m, r.topology.member? anchor = some m) :
    ∃ w, r.walk s = .ok w := by
  refine exists_foldlM_eq_ok (f := walkFrom r.topology s) (fun w anchor hanchor => ?_) {}
  obtain ⟨m, hm⟩ := h anchor hanchor
  have hmember := Topology.member_eq_ok.mpr hm
  unfold walkFrom Walk.forward Walk.backward
  rw [hmember]
  cases hindex : s.vertexIndex? m.group with
  | some i => simp [hindex, bind, Except.bind, pure, Except.pure]
  | none => simp [hindex, bind, Except.bind, pure, Except.pure]

/-- What a manager has to assign can be told if this is so of everything that can be met from its
members. -/
theorem exists_assignments_iff {r : ManagerRole} :
    (∃ as, r.assignments = .ok as) ↔ ∃ c, r.topology.constraint r.constraint = .ok c ∧
      ∀ anchor ∈ r.members, ∃ m, r.topology.member? anchor = some m ∧
        ∀ v ∈ r.topology.met c.sequence m, ∃ l,
          assignVisit r.topology c.sequence r.ref v = .ok l := by
  constructor
  · rintro ⟨as, has⟩
    obtain ⟨c, w, found, hc, hw, hfound, -⟩ := assignments_eq_ok has
    refine ⟨c, hc, fun anchor hanchor => ?_⟩
    obtain ⟨m, hm, hmet⟩ := met_of_walk hw hanchor
    refine ⟨m, hm, fun v hv => ?_⟩
    obtain ⟨l, -, hl⟩ := exists_result hfound (hmet v hv)
    exact ⟨l, hl⟩
  · rintro ⟨c, hc, h⟩
    obtain ⟨w, hw⟩ := exists_walk c.sequence fun anchor hanchor => (h anchor hanchor).imp
      fun m hm => hm.1
    have hvisits : ∀ v ∈ w.visits, ∃ l, assignVisit r.topology c.sequence r.ref v = .ok l := by
      intro v hv
      obtain ⟨anchor, hanchor, m, hm, hmet⟩ := (mem_visits_walk_iff hw).mp hv
      obtain ⟨m', hm', hassign⟩ := h anchor hanchor
      obtain rfl : m = m' := Option.some.inj (hm.symm.trans hm')
      exact hassign v hmet
    obtain ⟨found, hfound⟩ := exists_mapM_eq_ok hvisits
    exact ⟨found.flatten, bind_eq_ok.mpr ⟨c, hc, bind_eq_ok.mpr ⟨w, hw,
      bind_eq_ok.mpr ⟨found, hfound, rfl⟩⟩⟩⟩

/-- **What a manager assigns.**  A manager assigns the reporters that are needed by what can be met
from its members. -/
theorem mem_assignments_iff {r : ManagerRole} {as : List Assignment} (h : r.assignments = .ok as)
    {c : Constraint} (hc : r.topology.constraint r.constraint = .ok c) {a : Assignment} :
    a ∈ as ↔ ∃ anchor ∈ r.members, ∃ m, r.topology.member? anchor = some m ∧
      ∃ v ∈ r.topology.met c.sequence m, ∃ l,
        assignVisit r.topology c.sequence r.ref v = .ok l ∧ a ∈ l := by
  obtain ⟨c', w, found, hc', hw, hfound, rfl⟩ := assignments_eq_ok h
  obtain rfl : c = c' := Except.ok.inj (hc.symm.trans hc')
  rw [mem_flatten_of_mapM (mapM_eq_ok.mpr hfound)]
  simp only [mem_visits_walk_iff hw]
  constructor
  · rintro ⟨v, ⟨anchor, hanchor, m, hm, hmet⟩, l, hl⟩
    exact ⟨anchor, hanchor, m, hm, v, hmet, l, hl⟩
  · rintro ⟨anchor, hanchor, m, hm, v, hmet, l, hl⟩
    exact ⟨v, ⟨anchor, hanchor, m, hm, hmet⟩, l, hl⟩

/-- Two manager roles are the same but for the order in which their topologies list things. -/
structure Alike (r r' : ManagerRole) : Prop where
  host : r.host = r'.host
  constraint : r.constraint = r'.constraint
  topology : r.topology.Alike r'.topology
  anchor : r.anchor = r'.anchor
  members : r.members = r'.members

/-- The same reporters are assigned. -/
theorem Alike.exists_assignments {r r' : ManagerRole} (h : r.Alike r') {as : List Assignment}
    (has : r.assignments = .ok as) :
    ∃ as', r'.assignments = .ok as' ∧ ∀ a, a ∈ as ↔ a ∈ as' := by
  have href : r.ref = r'.ref := by
    unfold ref manager
    rw [h.host, h.constraint]
  obtain ⟨c, hc, hall⟩ := exists_assignments_iff.mp ⟨as, has⟩
  have hc' : r'.topology.constraint r'.constraint = .ok c := by
    rw [← h.topology.constraint, ← h.constraint, hc]
  obtain ⟨as', has'⟩ : ∃ as', r'.assignments = .ok as' := by
    refine exists_assignments_iff.mpr ⟨c, hc', ?_⟩
    simpa only [h.members, h.topology.member?, h.topology.mem_met, h.topology.assignVisit, href]
      using hall
  refine ⟨as', has', fun a => ?_⟩
  rw [mem_assignments_iff has hc, mem_assignments_iff has' hc']
  simp only [h.members, h.topology.member?, h.topology.mem_met, h.topology.assignVisit, href]

end ManagerRole

namespace Deployment

/-- Topologies that look the same get the same managers. -/
theorem exists_createManagers {ts ts' : List Topology} (h : List.Forall₂ Topology.Alike ts ts')
    {used : KeySet GroupId} {roles : List ManagerRole}
    (hroles : createManagers ts used = .ok roles) :
    ∃ roles', createManagers ts' used = .ok roles' ∧
      List.Forall₂ ManagerRole.Alike roles roles' := by
  induction h generalizing used roles with
  | nil => exact ⟨[], rfl, Except.ok.inj hroles ▸ .nil⟩
  | @cons t t' rest rest' hfirst _ ih =>
    obtain ⟨c, hc, hroles⟩ := bind_eq_ok.mp hroles
    obtain ⟨⟨g, used'⟩, hanchor, hroles⟩ := bind_eq_ok.mp hroles
    obtain ⟨parts, hparts, hroles⟩ := bind_eq_ok.mp hroles
    obtain ⟨own, hown, hroles⟩ := bind_eq_ok.mp hroles
    obtain ⟨later, hlater, hroles⟩ := bind_eq_ok.mp hroles
    obtain rfl := Except.ok.inj hroles
    obtain ⟨later', hlater', hrest⟩ := ih hlater
    rw [hfirst.singleConstraint] at hc
    rw [hfirst.selectAnchor] at hanchor
    rw [hfirst.partition] at hparts
    have hown' : parts.entries.mapM (fun part => ManagerRole.create part.1 c.id t' g part.2)
        = .ok (own.map fun r => { r with topology := t' }) := by
      rw [mapM_eq_ok, List.forall₂_map_right_iff]
      exact (mapM_eq_ok.mp hown).imp fun part r hr => hfirst.create hr
    have halike : List.Forall₂ ManagerRole.Alike own
        (own.map fun r => { r with topology := t' }) := by
      rw [List.forall₂_map_right_iff, List.forall₂_same]
      intro r hr
      obtain ⟨part, -, hcreate⟩ := exists_item (mapM_eq_ok.mp hown) hr
      obtain rfl := ManagerRole.create_eq_ok hcreate
      exact ⟨rfl, rfl, hfirst, rfl, rfl⟩
    refine ⟨_, ?_, List.rel_append halike hrest⟩
    simp only [createManagers, hc, hanchor, hparts, hown', hlater', bind, Except.bind, pure,
      Except.pure]

end Deployment

/-! ### Deployments -/

namespace Topology.Alike

variable {t t' : Topology}

/-- The constraints are watched in topologies that look the same. -/
theorem splitByConstraint (h : t.Alike t') :
    List.Forall₂ (fun entry entry' => entry.1 = entry'.1 ∧ entry.2.Alike entry'.2)
      t.splitByConstraint t'.splitByConstraint := by
  unfold Topology.splitByConstraint
  rw [← h.constraints, List.forall₂_map_left_iff, List.forall₂_map_right_iff, List.forall₂_same]
  exact fun entry _ => ⟨rfl, h.withConstraints _⟩

theorem runsOnHost (h : t.Alike t') (p : ChainProposal) :
    Deployment.runsOnHost t p = Deployment.runsOnHost t' p := by
  unfold Deployment.runsOnHost
  simp only [h.member?]

end Topology.Alike

namespace Deployment

/-- Two deployments give the same roles to the hosts, but for the order of the reporters. -/
structure Alike (d d' : Deployment) : Prop where
  hosts : ∀ host, host ∈ d.roles.keys ↔ host ∈ d'.roles.keys
  managers : ∀ host, List.Forall₂ ManagerRole.Alike (d.managersOn host) (d'.managersOn host)
  reporters : ∀ host key, (∃ r ∈ d.reportersOn host, r.key = key) ↔
    ∃ r ∈ d'.reportersOn host, r.key = key

variable {topologies topologies' : Table ConstraintId Topology} {d d' : Deployment}

/-- Managers that are the same assign the same, all together. -/
theorem mem_assigned_iff_of_forall₂ (hd : assignRoles.run.run { topologies } = (.ok (), d))
    (hd' : assignRoles.run.run { topologies := topologies' } = (.ok (), d'))
    {roles roles' : List ManagerRole}
    (hroles : createManagers topologies.values Table.empty = .ok roles)
    (hroles' : createManagers topologies'.values Table.empty = .ok roles')
    (halike : List.Forall₂ ManagerRole.Alike roles roles') (a : Assignment) :
    a ∈ d.assigned ↔ a ∈ d'.assigned := by
  rw [mem_assigned_iff hd, mem_assigned_iff hd']
  simp only [mem_managerRoles_of_run hd hroles, mem_managerRoles_of_run hd' hroles']
  constructor
  · rintro ⟨r, hr, as, has, ha⟩
    obtain ⟨r', hr', hsame⟩ := exists_result halike hr
    obtain ⟨as', has', hiff⟩ := hsame.exists_assignments has
    exact ⟨r', hr', as', has', (hiff a).mp ha⟩
  · rintro ⟨r', hr', as', has', ha⟩
    obtain ⟨r, hr, hsame⟩ := exists_item halike hr'
    obtain ⟨-, -, hassigned, -⟩ := run_assignRoles hd
    have has := hassigned r ((mem_managerRoles_of_run hd hroles).mpr hr)
    obtain ⟨as'', has'', hiff⟩ := hsame.exists_assignments has
    obtain rfl : as' = as'' := Except.ok.inj (has'.symm.trans has'')
    exact ⟨r, hr, r.assigned, has, (hiff a).mpr ha⟩

/-- Roles are assigned in the same way in topologies that look the same. -/
theorem exists_alike_run
    (h : List.Forall₂ Topology.Alike topologies.values topologies'.values)
    (hd : assignRoles.run.run { topologies } = (.ok (), d)) :
    ∃ d', assignRoles.run.run { topologies := topologies' } = (.ok (), d') ∧ d.Alike d' := by
  obtain ⟨roles, hroles, hmanagers⟩ := managersOn_of_run hd
  obtain ⟨roles', hroles', halike⟩ := exists_createManagers h hroles
  obtain ⟨-, -, hassigned, -⟩ := run_assignRoles hd
  obtain ⟨d', hd'⟩ := exists_run_assignRoles hroles' fun r' hr' => by
    obtain ⟨r, hr, hsame⟩ := exists_item halike hr'
    have has := hassigned r ((mem_managerRoles_of_run hd hroles).mpr hr)
    exact (hsame.exists_assignments has).imp fun as' has' => has'.1
  have hmem := mem_assigned_iff_of_forall₂ hd hd' hroles hroles' halike
  obtain ⟨roles'', hroles'', hmanagers'⟩ := managersOn_of_run hd'
  obtain rfl : roles' = roles'' := Except.ok.inj (hroles'.symm.trans hroles'')
  refine ⟨d', hd', fun host => ?_, fun host => ?_, fun host key => ?_⟩
  · rw [mem_keys_of_run hd hroles, mem_keys_of_run hd' hroles']
    simp only [hmem]
    refine or_congr_right ⟨?_, ?_⟩
    · rintro ⟨r, hr, rfl⟩
      obtain ⟨r', hr', hsame⟩ := exists_result halike hr
      exact ⟨r', hr', hsame.host.symm⟩
    · rintro ⟨r', hr', rfl⟩
      obtain ⟨r, hr, hsame⟩ := exists_item halike hr'
      exact ⟨r, hr, hsame.host⟩
  · rw [hmanagers, hmanagers']
    exact List.rel_filter (fun {r r'} hsame => by simp only [hsame.host]) halike
  · rw [exists_mem_reportersOn_iff hd, exists_mem_reportersOn_iff hd']
    simp only [hmem]

/-- Chains that are proposed fit in both or in neither. -/
theorem Alike.propose (h : d.Alike d')
    (htopologies : List.Forall₂ (fun entry entry' => entry.1 = entry'.1 ∧ entry.2.Alike entry'.2)
      d.topologies.entries d'.topologies.entries) (proposals : Option (List ChainProposal)) :
    (d.propose proposals).Alike (d'.propose proposals) := by
  refine ⟨fun host => ?_, fun host => ?_, fun host key => ?_⟩
  · cases proposals with
    | none => exact h.hosts host
    | some proposals =>
      unfold Deployment.propose
      rw [mem_keys_addChains, mem_keys_addChains, h.hosts]
      refine or_congr_left ⟨?_, ?_⟩
      · rintro ⟨entry, hentry, hfits⟩
        obtain ⟨entry', hentry', hid, htopology⟩ := exists_result htopologies hentry
        refine ⟨entry', hentry', ?_⟩
        simpa only [hid, htopology.runsOnHost] using hfits
      · rintro ⟨entry', hentry', hfits⟩
        obtain ⟨entry, hentry, hid, htopology⟩ := exists_item htopologies hentry'
        refine ⟨entry, hentry, ?_⟩
        simpa only [hid, htopology.runsOnHost] using hfits
  · rw [managersOn_propose, managersOn_propose]
    exact h.managers host
  · rw [reportersOn_propose, reportersOn_propose]
    exact h.reporters host key

end Deployment

/-! ### Deployed jobs -/

namespace DeployedJob

/-- Two deployed jobs have the same roles: the same hosts have roles, each host has the same manager
roles in the same order, and its reporters have the same keys. -/
structure AgreesWith (d d' : DeployedJob) : Prop where
  hosts : d.roles.keys = d'.roles.keys
  managers : ∀ host, (d.managersOn host).map (fun r => (r.constraint, r.anchor, r.members))
    = (d'.managersOn host).map (fun r => (r.constraint, r.anchor, r.members))
  reporters : ∀ host key, key ∈ (d.reportersOn host).map ReporterRole.key ↔
    key ∈ (d'.reportersOn host).map ReporterRole.key

variable {job job' : Job} {settings : Settings} {proposals : Option (List ChainProposal)}

/-- If a job can be deployed, it can be deployed with its lists in any other order. -/
theorem exists_agrees_ofJob (h : job.IsRearranged job')
    (hids : (job.constraints.map Constraint.id).Nodup) {d : DeployedJob}
    (hd : ofJob job settings proposals = .ok d) :
    ∃ d', ofJob job' settings proposals = .ok d' ∧ d.AgreesWith d' := by
  obtain ⟨t, ht, hdeploy⟩ := bind_eq_ok.mp hd
  obtain ⟨hname, hsettings, run, hrun, rfl⟩ := deploy_eq_ok_iff.mp hdeploy
  obtain ⟨t', ht', halike⟩ := h.exists_alike hids ht
  have hsplit := halike.splitByConstraint
  have hvalues : List.Forall₂ Topology.Alike (Table.ofList t.splitByConstraint).values
      (Table.ofList t'.splitByConstraint).values := by
    rw [Topology.values_splitByConstraint, Topology.values_splitByConstraint,
      List.forall₂_map_left_iff, List.forall₂_map_right_iff]
    exact hsplit.imp fun _ _ hentry => hentry.2
  obtain ⟨run', hrun', hroles⟩ := Deployment.exists_alike_run hvalues hrun
  have hpropose : (run.propose proposals).Alike (run'.propose proposals) := by
    refine hroles.propose ?_ proposals
    rw [Deployment.topologies_of_run hrun, Deployment.topologies_of_run hrun',
      Topology.entries_splitByConstraint, Topology.entries_splitByConstraint]
    exact hsplit
  refine ⟨_, bind_eq_ok.mpr ⟨t', ht', deploy_eq_ok_iff.mpr
    ⟨h.id ▸ hname, hsettings, run', hrun', rfl⟩⟩, ?_⟩
  refine ⟨Table.keys_eq_of_mem_iff hpropose.hosts, fun host => ?_, fun host key => ?_⟩
  · rw [← List.forall₂_eq_eq_eq, List.forall₂_map_left_iff, List.forall₂_map_right_iff]
    exact (hpropose.managers host).imp fun r r' hsame => by
      rw [hsame.constraint, hsame.anchor, hsame.members]
  · rw [List.mem_map, List.mem_map]
    exact hpropose.reporters host key

/-- **The order of a job's lists does not matter.**  With its groups, edges and constraints in any
other order, a job whose constraints have different identifiers can be deployed if and only if it
can be deployed as it is, and its hosts then have the same roles. -/
theorem ofJob_rearranged (h : job.IsRearranged job')
    (hids : (job.constraints.map Constraint.id).Nodup) (settings : Settings)
    (proposals : Option (List ChainProposal)) :
    ((∃ d, ofJob job settings proposals = .ok d) ↔
      ∃ d, ofJob job' settings proposals = .ok d) ∧
      ∀ d d', ofJob job settings proposals = .ok d → ofJob job' settings proposals = .ok d' →
        d.AgreesWith d' := by
  have hids' : (job'.constraints.map Constraint.id).Nodup :=
    (h.constraints.map Constraint.id).nodup hids
  refine ⟨⟨?_, ?_⟩, ?_⟩
  · rintro ⟨d, hd⟩
    obtain ⟨d', hd', -⟩ := exists_agrees_ofJob h hids hd
    exact ⟨d', hd'⟩
  · rintro ⟨d', hd'⟩
    obtain ⟨d, hd, -⟩ := exists_agrees_ofJob h.symm hids' hd'
    exact ⟨d, hd⟩
  · intro d d' hd hd'
    obtain ⟨d'', hd'', hagrees⟩ := exists_agrees_ofJob h hids hd
    obtain rfl : d' = d'' := Except.ok.inj (hd'.symm.trans hd'')
    exact hagrees

/-- A job with two constraints that would both take the group `A` as their anchor. -/
def rivalJob : Job :=
  let first : Link := { source := ⟨"A"⟩, outputGate := 0, target := ⟨"B"⟩, inputGate := 0 }
  let second : Link := { source := ⟨"B"⟩, outputGate := 0, target := ⟨"C"⟩, inputGate := 0 }
  { id := ⟨"job"⟩
    groups :=
      [{ id := ⟨"A"⟩, name := "A"
         members := [{ id := ⟨"a0"⟩, host := ⟨"h"⟩ }, { id := ⟨"a1"⟩, host := ⟨"k"⟩ }] },
        { id := ⟨"B"⟩, name := "B"
          members := [{ id := ⟨"b0"⟩, host := ⟨"h"⟩ }, { id := ⟨"b1"⟩, host := ⟨"k"⟩ }] },
        { id := ⟨"C"⟩, name := "C"
          members := [{ id := ⟨"c0"⟩, host := ⟨"h"⟩ }, { id := ⟨"c1"⟩, host := ⟨"k"⟩ }] }]
    edges := [{ link := first, pattern := .bipartite }, { link := second, pattern := .bipartite }]
    constraints :=
      [{ id := ⟨"later"⟩, name := "later", sequence := [.edge first .readWrite], bound := 10 },
        { id := ⟨"early"⟩, name := "early", bound := 10
          sequence := [.edge first .readWrite, .vertex ⟨"B"⟩ (some 0) (some 0) .readWrite,
            .edge second .readWrite] }] }

/-- The job with all of its lists reversed. -/
def rivalJobReversed : Job :=
  { rivalJob with
    groups := rivalJob.groups.reverse
    edges := rivalJob.edges.reverse
    constraints := rivalJob.constraints.reverse }

theorem ofJob_rearranged_rivalJob :
    ∃ d d', ofJob rivalJob {} none = .ok d ∧ ofJob rivalJobReversed {} none = .ok d' ∧
      d.AgreesWith d' := by
  have hreversed : rivalJob.IsRearranged rivalJobReversed :=
    ⟨rfl, (List.reverse_perm _).symm, (List.reverse_perm _).symm, (List.reverse_perm _).symm⟩
  have hids : (rivalJob.constraints.map Constraint.id).Nodup := by decide
  obtain ⟨hiff, hagrees⟩ := ofJob_rearranged hreversed hids {} none
  obtain ⟨d, hd⟩ : ∃ d, ofJob rivalJob {} none = .ok d := exists_eq_ok (by decide +kernel)
  obtain ⟨d', hd'⟩ := hiff.mp ⟨d, hd⟩
  exact ⟨d, d', hd, hd', hagrees d d' hd hd'⟩

end DeployedJob

end LatencyControl
