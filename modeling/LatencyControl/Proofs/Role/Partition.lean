import LatencyControl.Proofs.Monitor.Watching
import LatencyControl.Proofs.Role.Anchoring
import LatencyControl.Proofs.Topology.Numbered

/-!
# Managers partition the anchor

The members of the anchor of a constraint are divided among the hosts that run them, and each part
becomes a manager role (`Deployment.managers_partition`).  No part is ever refused, as a part is made
of just the members that a manager role may have (`Deployment.create_of_partition`).

What the managers of a host look like follows from two facts about the roles that are created: each
has all anchor members of its host (`Deployment.members_of_mem_createManagers`), and a host has one
for each constraint whose anchor runs there (`Deployment.anchors_of_run`).
-/

namespace LatencyControl

/-! ### Lists -/

/-- In a list of pairs with different keys, a pair is the only one with its key. -/
theorem filter_fst_eq {α β : Type} [DecidableEq α] {xs : List (α × β)}
    (h : (xs.map Prod.fst).Nodup) {a : α} {b : β} (hmem : (a, b) ∈ xs) :
    xs.filter (fun x => x.1 = a) = [(a, b)] := by
  induction xs with
  | nil => exact (List.not_mem_nil hmem).elim
  | cons x rest ih =>
    obtain ⟨hx, hrest⟩ := List.nodup_cons.mp h
    rcases List.mem_cons.mp hmem with rfl | hmem
    · have hnone : rest.filter (fun x => x.1 = a) = [] := by
        refine List.filter_eq_nil_iff.mpr fun y hy hsame => hx ?_
        exact List.mem_map.mpr ⟨y, hy, of_decide_eq_true hsame⟩
      simp [hnone]
    · have hne : ¬ x.1 = a := fun hsame => hx (List.mem_map.mpr ⟨(a, b), hmem, hsame.symm⟩)
      simp [hne, ih hrest hmem]

/-- If only one item of a list without repetitions yields anything, that is all there is. -/
theorem flatMap_eq_of_only {α β : Type} {xs : List α} {f : α → List β} (h : xs.Nodup) {x : α}
    (hx : x ∈ xs) (hother : ∀ y ∈ xs, y ≠ x → f y = []) : xs.flatMap f = f x := by
  induction xs with
  | nil => exact (List.not_mem_nil hx).elim
  | cons y rest ih =>
    obtain ⟨hy, hrest⟩ := List.nodup_cons.mp h
    rw [List.flatMap_cons]
    rcases List.mem_cons.mp hx with rfl | hx
    · have hnone : rest.flatMap f = [] := by
        refine List.flatMap_eq_nil_iff.mpr fun z hz => ?_
        exact hother z (List.mem_cons_of_mem _ hz) fun hsame => hy (hsame ▸ hz)
      rw [hnone, List.append_nil]
    · have hfirst : f y = [] := hother y List.mem_cons_self fun hsame => hy (hsame ▸ hx)
      rw [hfirst, List.nil_append]
      exact ih hrest hx fun z hz => hother z (List.mem_cons_of_mem _ hz)

namespace Deployment

open LatencyControl.Topology

variable {t : Topology}

/-! ### Parts -/

/-- The parts of a group: for each host that runs members of it, these members. -/
theorem mem_entries_partition {g : GroupId} {parts : Table HostId (List MemberId)}
    (h : partition t g = .ok parts) {host : HostId} {ms : List MemberId} :
    (host, ms) ∈ parts.entries ↔ t.RunsOn g host ∧ ms = (t.membersOn g host).map Member.id := by
  rw [Table.mem_entries_iff, find?_partition_eq_ite h]
  split_ifs with hruns
  · rw [Option.some.injEq, eq_comm]
    exact (and_iff_right hruns).symm
  · exact iff_of_false (fun hnone => by cases hnone) fun hpart => hruns hpart.1

/-- A part of a group is accepted as the members of a manager role. -/
theorem create_of_partition (hsound : t.IsSound) (hnumbered : t.IsNumbered) {id : ConstraintId}
    {u : Topology} (hu : (id, u) ∈ t.splitByConstraint) {g : GroupId}
    {parts : Table HostId (List MemberId)} (hparts : partition u g = .ok parts)
    {part : HostId × List MemberId} (hpart : part ∈ parts.entries) :
    ManagerRole.create part.1 id u g part.2
      = .ok { host := part.1, constraint := id, topology := u, anchor := g,
              members := part.2 } := by
  obtain ⟨host, ms⟩ := part
  obtain ⟨hruns, rfl⟩ := (mem_entries_partition hparts).mp hpart
  obtain ⟨⟨id', c⟩, hmem, hsplit⟩ := List.mem_map.mp hu
  obtain ⟨rfl, rfl⟩ := Prod.mk.inj hsplit
  have hc : t.constraints.find? id' = some c := t.constraints.mem_entries_iff.mp hmem
  obtain ⟨m, hm, rfl⟩ := hruns
  have hmember : ∀ x ∈ t.members, t.member? x.id = some x := fun x hx =>
    member?_of_mem hsound.ids hx
  rw [ManagerRole.create, step_eq_ok, step_eq_ok, check_eq_ok, check_eq_ok, step_eq_ok]
  refine ⟨?_, ?_, ?_, ?_, ?_, rfl⟩
  · exact Ident.require_eq_ok_iff.mpr (hnumbered.hosts m (List.mem_filter.mp hm).1)
  · exact Ident.require_eq_ok_iff.mpr (hnumbered.constraints id' c hc)
  · -- the host has the part because of a member that is in it
    have hhere : m ∈ t.membersOn g m.host := List.mem_filter.mpr ⟨hm, decide_eq_true rfl⟩
    have hpart : m.id ∈ (t.membersOn g m.host).map Member.id := List.mem_map_of_mem hhere
    rw [List.isEmpty_iff]
    exact List.ne_nil_of_mem hpart
  · rw [Topology.constraint?, Table.find?_insert_self]
    exact Bool.false_ne_true
  · rw [forM_eq_ok]
    intro a ha
    obtain ⟨x, hx, rfl⟩ := List.mem_map.mp ha
    obtain ⟨hx, hgroup, hhost⟩ := mem_membersOn.mp hx
    refine bind_eq_ok.mpr ⟨x, member_eq_ok.mpr (hmember x hx), lastCheck_eq_ok.mpr ?_⟩
    rw [not_or, not_not, not_not]
    exact ⟨hgroup, hhost⟩

/-! ### The roles that are created -/

/-- Every manager role that is created has all members of its anchor on its host. -/
theorem members_of_mem_createManagers {ts : List Topology} {used : KeySet GroupId}
    {roles : List ManagerRole} (h : createManagers ts used = .ok roles) :
    ∀ r ∈ roles, r.topology ∈ ts ∧
      (∃ c, r.topology.singleConstraint = .ok c ∧ r.constraint = c.id) ∧
      r.members = (r.topology.membersOn r.anchor r.host).map Member.id := by
  induction ts generalizing used roles with
  | nil =>
    obtain rfl := Except.ok.inj h
    exact fun r hr => (List.not_mem_nil hr).elim
  | cons t rest ih =>
    obtain ⟨c, g, used', parts, own, later, hc, -, hparts, rfl, hlater, rfl⟩ :=
      createManagers_cons h
    intro r hr
    rcases List.mem_append.mp hr with hr | hr
    · obtain ⟨⟨host, ms⟩, hpart, rfl⟩ := List.mem_map.mp hr
      obtain ⟨-, hms⟩ := (mem_entries_partition hparts).mp hpart
      exact ⟨List.mem_cons_self, ⟨c, hc, rfl⟩, hms⟩
    · obtain ⟨htopology, hrole⟩ := ih hlater r hr
      exact ⟨List.mem_cons_of_mem t htopology, hrole⟩

/-! ### All managers -/

theorem managerRoles_eq_flatMap (d : Deployment) :
    d.managerRoles = d.roles.keys.flatMap d.managersOn := by
  rw [managerRoles, Table.values, Table.keys, List.flatMap_map, List.flatMap_map]
  refine List.flatMap_congr fun entry hentry => ?_
  have hfind : d.roles.find? entry.1 = some entry.2 := d.roles.mem_entries_iff.mp hentry
  rw [managersOn, hfind]
  rfl

theorem mem_managers_foldl_addManager (roles : List ManagerRole) (d : Deployment) (id : ManagerId) :
    id ∈ (roles.foldl addManager d).managers.toList ↔
      id ∈ d.managers.toList ∨ ∃ r ∈ roles, r.manager = id := by
  induction roles generalizing d with
  | nil => simp
  | cons r rest ih =>
    have hadd : (d.addManager r).managers = d.managers.add r.manager := rfl
    rw [List.foldl_cons, ih, hadd, KeySet.mem_toList_add, List.exists_mem_cons_iff]
    tauto

theorem managers_foldl_addReporter (as : List Assignment) (d : Deployment) :
    (as.foldl addReporter d).managers = d.managers := by
  induction as generalizing d with
  | nil => rfl
  | cons a rest ih => exact ih (d.addReporter a)

/-- The managers by constraint are those of the manager roles. -/
theorem mem_managersByConstraint (d : Deployment) (id : ConstraintId) (manager : ManagerId) :
    (∃ ids, d.managersByConstraint.find? id = some ids ∧ manager ∈ ids.toList) ↔
      ∃ r ∈ d.managerRoles, r.constraint = id ∧ r.manager = manager := by
  have hfold : ∀ (roles : List ManagerRole) (found : Table ConstraintId (KeySet ManagerId)),
      (∃ ids, (roles.foldl (fun found r => found.upsert r.constraint
        (fun ids => (ids.getD Table.empty).add r.manager)) found).find? id = some ids ∧
          manager ∈ ids.toList) ↔
      (∃ ids, found.find? id = some ids ∧ manager ∈ ids.toList) ∨
        ∃ r ∈ roles, r.constraint = id ∧ r.manager = manager := by
    intro roles
    induction roles with
    | nil => simp
    | cons r rest ih =>
      intro found
      rw [List.foldl_cons, ih, List.exists_mem_cons_iff, ← or_assoc]
      refine or_congr_left ?_
      rw [Table.find?_upsert]
      by_cases hid : r.constraint = id
      · subst hid
        cases found.find? r.constraint with
        | none => simp [KeySet.mem_toList_add, KeySet.not_mem_toList_empty]
        | some ids => simp [KeySet.mem_toList_add, or_comm]
      · simp [hid]
  rw [managersByConstraint, hfold]
  simp

/-! ### The managers of a constraint -/

/-- The managers of a constraint divide the members of its anchor by hosts. -/
structure IsPartitioned (d : Deployment) (t : Topology) (id : ConstraintId) (anchor : GroupId) :
    Prop where
  /-- There is one manager on each host that runs members of the anchor, and none on others. -/
  hosts : ∀ host, (d.watchersOn id host).length = if t.RunsOn anchor host then 1 else 0
  /-- A manager has just the members on its host, in the order of their positions. -/
  members : ∀ host, ∀ r ∈ d.watchersOn id host, r.host = host ∧ r.anchor = anchor ∧
    (id, r.topology) ∈ t.splitByConstraint ∧ ∃ ms : List Member, r.members = ms.map Member.id ∧
      (ms.map Member.index).Pairwise (· < ·) ∧
      ∀ m, m ∈ ms ↔ m ∈ t.members ∧ m.group = anchor ∧ m.host = host
  /-- Each member is with exactly one manager of the constraint. -/
  once : ∀ m ∈ t.membersOf anchor, ∃ r,
    d.managerRoles.filter (fun r => r.constraint = id ∧ m.id ∈ r.members) = [r]

/-- All managers, whatever they watch. -/
theorem mem_managers_of_run {topologies : Table ConstraintId Topology} {d : Deployment}
    (h : assignRoles.run.run { topologies } = (.ok (), d)) (manager : ManagerId) :
    manager ∈ d.managers.toList ↔ ∃ r ∈ d.managerRoles, r.manager = manager := by
  obtain ⟨roles, hroles, -, hd⟩ := run_assignRoles h
  obtain ⟨roles', hroles', hon⟩ := managersOn_of_run h
  obtain rfl : roles = roles' := Except.ok.inj (hroles.symm.trans hroles')
  have hmem : ∀ r, r ∈ d.managerRoles ↔ r ∈ roles := by
    intro r
    rw [mem_managerRoles]
    simp only [hon, List.mem_filter, decide_eq_true_eq]
    exact ⟨fun ⟨_, hr, _⟩ => hr, fun hr => ⟨r.host, hr, rfl⟩⟩
  conv_lhs => rw [hd]
  rw [managers_foldl_addReporter, mem_managers_foldl_addManager]
  simp only [hmem]
  exact or_iff_right (KeySet.not_mem_toList_empty manager)

variable {d : Deployment}

/-- The managers of a constraint on a host: one if its anchor runs there, and none otherwise. -/
theorem watchersOn_of_run (hsound : t.IsSound)
    (h : assignRoles.run.run { topologies := Table.ofList t.splitByConstraint } = (.ok (), d))
    {anchors : List (ConstraintId × GroupId)} (hanchors : t.anchors = .ok anchors)
    {id : ConstraintId} {g : GroupId} (hmem : (id, g) ∈ anchors) (host : HostId) :
    (d.watchersOn id host).map (fun r => (r.constraint, r.anchor))
      = if t.RunsOn g host then [(id, g)] else [] := by
  obtain ⟨anchors', hanchors', hhosts⟩ := anchors_of_run h
  obtain rfl : anchors = anchors' := Except.ok.inj (hanchors.symm.trans hanchors')
  have hnodup : (anchors.map Prod.fst).Nodup := by
    rw [Topology.anchors_map_fst hsound hanchors]
    exact t.constraints.nodup_keys
  calc (d.watchersOn id host).map (fun r => (r.constraint, r.anchor))
      = ((d.managersOn host).map (fun r => (r.constraint, r.anchor))).filter
          (fun anchor => anchor.1 = id) := by
        rw [watchersOn, List.filter_map]
        rfl
    _ = (anchors.filter (fun anchor => anchor.1 = id)).filter
          (fun anchor => t.RunsOn anchor.2 host) := by
        rw [hhosts, List.filter_comm]
    _ = if t.RunsOn g host then [(id, g)] else [] := by
        rw [filter_fst_eq hnodup hmem]
        split_ifs with hruns <;> simp [hruns]

/-- What a manager of a host looks like. -/
theorem shape_of_mem_managersOn (hsound : t.IsSound)
    (h : assignRoles.run.run { topologies := Table.ofList t.splitByConstraint } = (.ok (), d))
    {host : HostId} {r : ManagerRole} (hr : r ∈ d.managersOn host) :
    r.host = host ∧ (r.constraint, r.topology) ∈ t.splitByConstraint ∧
      r.members = (t.membersOn r.anchor host).map Member.id := by
  obtain ⟨roles, hroles, hon⟩ := managersOn_of_run h
  rw [hon] at hr
  obtain ⟨hr, hhost⟩ := List.mem_filter.mp hr
  have hhost : r.host = host := of_decide_eq_true hhost
  obtain ⟨htopology, ⟨c, hc, hid⟩, hmembers⟩ := members_of_mem_createManagers hroles r hr
  rw [Topology.values_splitByConstraint] at htopology
  obtain ⟨⟨id, u⟩, hu, hsame⟩ := List.mem_map.mp htopology
  obtain ⟨⟨id', c'⟩, hc', hsplit⟩ := List.mem_map.mp hu
  obtain ⟨rfl, rfl⟩ := Prod.mk.inj hsplit
  rw [← hsame] at hc hmembers
  -- the only constraint of the topology is kept under its own name
  obtain rfl : c' = c := Except.ok.inj hc
  have hname : c'.id = id' := hsound.constraints id' c' (t.constraints.mem_entries_iff.mp hc')
  refine ⟨hhost, ?_, ?_⟩
  · rw [hid, hname, ← hsame]
    exact hu
  · rw [hmembers, hhost]
    rfl

/-- What a manager of a constraint on a host looks like. -/
theorem shape_of_mem_watchersOn (hsound : t.IsSound)
    (h : assignRoles.run.run { topologies := Table.ofList t.splitByConstraint } = (.ok (), d))
    {anchors : List (ConstraintId × GroupId)} (hanchors : t.anchors = .ok anchors)
    {id : ConstraintId} {g : GroupId} (hmem : (id, g) ∈ anchors) {host : HostId} {r : ManagerRole}
    (hr : r ∈ d.watchersOn id host) :
    r.host = host ∧ r.anchor = g ∧ (id, r.topology) ∈ t.splitByConstraint ∧
      r.members = (t.membersOn g host).map Member.id := by
  obtain ⟨hmanager, hid⟩ := List.mem_filter.mp hr
  have hid : r.constraint = id := of_decide_eq_true hid
  obtain ⟨hhost, htopology, hmembers⟩ := shape_of_mem_managersOn hsound h hmanager
  have hpair : (r.constraint, r.anchor) ∈ if t.RunsOn g host then [(id, g)] else [] :=
    watchersOn_of_run hsound h hanchors hmem host ▸ List.mem_map_of_mem hr
  have hanchor : r.anchor = g := by
    split_ifs at hpair
    · exact (Prod.mk.inj (List.mem_singleton.mp hpair)).2
    · exact (List.not_mem_nil hpair).elim
  rw [hid] at htopology
  rw [hanchor] at hmembers
  exact ⟨hhost, hanchor, htopology, hmembers⟩

/-- Of the managers of a constraint, a member of the anchor is with those on its own host. -/
theorem mem_members_iff_of_mem_watchersOn (hsound : t.IsSound)
    (h : assignRoles.run.run { topologies := Table.ofList t.splitByConstraint } = (.ok (), d))
    {anchors : List (ConstraintId × GroupId)} (hanchors : t.anchors = .ok anchors)
    {id : ConstraintId} {g : GroupId} (hmem : (id, g) ∈ anchors) {m : Member}
    (hm : m ∈ t.membersOf g) {host : HostId} {r : ManagerRole} (hr : r ∈ d.watchersOn id host) :
    m.id ∈ r.members ↔ m.host = host := by
  obtain ⟨-, -, -, hmembers⟩ := shape_of_mem_watchersOn hsound h hanchors hmem hr
  rw [hmembers, List.mem_map]
  constructor
  · rintro ⟨m', hm', hid⟩
    obtain ⟨hlisted, -, hhost⟩ := mem_membersOn.mp hm'
    have hsame : m' = m :=
      List.inj_on_of_nodup_map hsound.ids hlisted (List.mem_filter.mp hm).1 hid
    rw [← hsame, hhost]
  · intro hhost
    exact ⟨m, List.mem_filter.mpr ⟨hm, decide_eq_true hhost⟩, rfl⟩

/-- A member of the anchor is with the manager on its own host, and with no other manager of the
constraint. -/
theorem exists_only_manager (hsound : t.IsSound)
    (h : assignRoles.run.run { topologies := Table.ofList t.splitByConstraint } = (.ok (), d))
    {anchors : List (ConstraintId × GroupId)} (hanchors : t.anchors = .ok anchors)
    {id : ConstraintId} {g : GroupId} (hmem : (id, g) ∈ anchors) {m : Member}
    (hm : m ∈ t.membersOf g) :
    ∃ r, d.managerRoles.filter (fun r => r.constraint = id ∧ m.id ∈ r.members) = [r] := by
  have hhas : ∀ host, ∀ r ∈ d.watchersOn id host, m.id ∈ r.members ↔ m.host = host :=
    fun _ _ hr => mem_members_iff_of_mem_watchersOn hsound h hanchors hmem hm hr
  obtain ⟨r, hr⟩ : ∃ r, d.watchersOn id m.host = [r] := by
    have hpairs := watchersOn_of_run hsound h hanchors hmem m.host
    rw [if_pos ⟨m, hm, rfl⟩] at hpairs
    rw [← List.length_eq_one_iff, ← List.length_map, hpairs]
    rfl
  have hfilter : ∀ host,
      (d.managersOn host).filter (fun r => r.constraint = id ∧ m.id ∈ r.members)
        = (d.watchersOn id host).filter (fun r => m.id ∈ r.members) := by
    intro host
    rw [watchersOn, List.filter_filter]
    refine List.filter_congr fun r _ => ?_
    rw [Bool.decide_and, Bool.and_comm]
  have hmine : r ∈ d.watchersOn id m.host := by simp [hr]
  have hhost : m.host ∈ d.roles.keys :=
    RoleTable.mem_keys_of_mem_managers (List.mem_filter.mp hmine).1
  have hothers : ∀ host ∈ d.roles.keys, host ≠ m.host →
      (d.watchersOn id host).filter (fun r => m.id ∈ r.members) = [] := by
    intro host _ hne
    refine List.filter_eq_nil_iff.mpr fun r hr hlisted => ?_
    exact hne ((hhas host r hr).mp (of_decide_eq_true hlisted)).symm
  refine ⟨r, ?_⟩
  rw [managerRoles_eq_flatMap, List.filter_flatMap]
  simp only [hfilter]
  rw [flatMap_eq_of_only d.roles.nodup_keys hhost hothers, hr]
  simp [(hhas m.host r hmine).mpr rfl]

/-- The managers of a constraint divide the members of its anchor. -/
theorem isPartitioned_of_run (hsound : t.IsSound) (hnumbered : t.IsNumbered)
    (h : assignRoles.run.run { topologies := Table.ofList t.splitByConstraint } = (.ok (), d))
    {anchors : List (ConstraintId × GroupId)} (hanchors : t.anchors = .ok anchors)
    {id : ConstraintId} {g : GroupId} (hmem : (id, g) ∈ anchors) : d.IsPartitioned t id g where
  hosts host := by
    have hlength := congrArg List.length (watchersOn_of_run hsound h hanchors hmem host)
    rw [List.length_map] at hlength
    rw [hlength]
    split_ifs <;> rfl
  members host r hr := by
    obtain ⟨hhost, hanchor, htopology, hmembers⟩ :=
      shape_of_mem_watchersOn hsound h hanchors hmem hr
    exact ⟨hhost, hanchor, htopology, t.membersOn g host, hmembers,
      hnumbered.ascending g host, fun m => mem_membersOn⟩
  once m hm := exists_only_manager hsound h hanchors hmem hm

/-- **Managers partition the anchors.**  Each part of a group is accepted as a manager role.  After
roles were assigned for the constraints of a job, the managers of each constraint divide the members
of its anchor by hosts, and the managers of all constraints are all managers that there are. -/
theorem managers_partition {job : Job} (ht : job.topology = .ok t) :
    (∀ id u, (id, u) ∈ t.splitByConstraint → ∀ g parts, partition u g = .ok parts →
      ∀ part ∈ parts.entries, ∃ r, ManagerRole.create part.1 id u g part.2 = .ok r) ∧
    ∀ d, assignRoles.run.run { topologies := Table.ofList t.splitByConstraint } = (.ok (), d) →
      (∃ anchors, t.anchors = .ok anchors ∧ anchors.map Prod.fst = t.constraints.keys ∧
        ∀ anchor ∈ anchors, d.IsPartitioned t anchor.1 anchor.2) ∧
      ∀ manager, manager ∈ d.managers.toList ↔
        ∃ id ids, d.managersByConstraint.find? id = some ids ∧ manager ∈ ids.toList := by
  have hsound := Job.topology_isSound ht
  have hnumbered := Job.topology_isNumbered ht
  constructor
  · intro id u hu g parts hparts part hpart
    exact ⟨_, create_of_partition hsound hnumbered hu hparts hpart⟩
  · intro d h
    obtain ⟨anchors, hanchors, -⟩ := anchors_of_run h
    refine ⟨⟨anchors, hanchors, Topology.anchors_map_fst hsound hanchors, ?_⟩, ?_⟩
    · intro anchor hanchor
      exact isPartitioned_of_run hsound hnumbered h hanchors hanchor
    · intro manager
      simp only [mem_managers_of_run h, mem_managersByConstraint]
      constructor
      · rintro ⟨r, hr, hmanager⟩
        exact ⟨r.constraint, r, hr, rfl, hmanager⟩
      · rintro ⟨id, r, hr, -, hmanager⟩
        exact ⟨r, hr, hmanager⟩

theorem managers_partition_funnelJob :
    ∃ t d, DeployedJob.funnelJob.topology = .ok t ∧
      assignRoles.run.run { topologies := Table.ofList t.splitByConstraint } = (.ok (), d) ∧
      (∃ anchors, t.anchors = .ok anchors ∧ anchors.map Prod.fst = t.constraints.keys ∧
        ∀ anchor ∈ anchors, d.IsPartitioned t anchor.1 anchor.2) ∧
      ∀ manager, manager ∈ d.managers.toList ↔
        ∃ id ids, d.managersByConstraint.find? id = some ids ∧ manager ∈ ids.toList := by
  obtain ⟨deployed, hd⟩ : ∃ d, DeployedJob.ofJob DeployedJob.funnelJob {} none = .ok d :=
    exists_eq_ok (by decide +kernel)
  obtain ⟨t, ht, hd⟩ := bind_eq_ok.mp hd
  obtain ⟨d, hrun, -⟩ := DeployedJob.deploy_eq_ok hd
  exact ⟨t, d, ht, hrun, (managers_partition ht).2 d hrun⟩

end Deployment

end LatencyControl
