import LatencyControl.Proofs.Monitor.Coverage
import LatencyControl.Proofs.Path.Exact
import LatencyControl.Proofs.Role.Managing
import LatencyControl.Proofs.Topology.Declared

/-!
# Which paths are watched

The managers of a constraint on all hosts watch the paths of the constraint together.  After a job
was deployed, every exact path is watched exactly once (`DeployedJob.watched_once`): it is
enumerated for exactly one member of the anchor group (`IsExactPath.existsUnique_anchor`), and
exactly one manager has this member (`Deployment.members_watchersOn`).
-/

namespace LatencyControl

open LatencyControl.Topology

/-! ### Counting -/

/-- What is listed once for one item and not for any other is listed once. -/
theorem count_flatMap_eq_one {α β : Type} [BEq β] [LawfulBEq β] {xs : List α} {f : α → List β}
    {b : β} (hxs : xs.Nodup) {x : α} (hx : x ∈ xs) (hone : (f x).count b = 1)
    (hother : ∀ y ∈ xs, y ≠ x → b ∉ f y) : (xs.flatMap f).count b = 1 := by
  induction xs with
  | nil => exact (List.not_mem_nil hx).elim
  | cons y rest ih =>
    obtain ⟨hy, hrest⟩ := List.nodup_cons.mp hxs
    rw [List.flatMap_cons, List.count_append]
    rcases List.mem_cons.mp hx with rfl | hx
    · have hzero : (rest.flatMap f).count b = 0 := by
        refine List.count_eq_zero.mpr fun hmem => ?_
        obtain ⟨z, hz, hb⟩ := List.mem_flatMap.mp hmem
        exact hother z (List.mem_cons_of_mem _ hz) (fun heq => hy (heq ▸ hz)) hb
      rw [hone, hzero]
    · have hzero : (f y).count b = 0 :=
        List.count_eq_zero.mpr (hother y List.mem_cons_self fun heq => hy (heq ▸ hx))
      rw [hzero, ih hrest hx fun z hz => hother z (List.mem_cons_of_mem _ hz)]

/-- An exact path is enumerated once for all members of a group that the sequence touches. -/
theorem count_eq_one {t : Topology} {s : Sequence} {p : Path} {g : GroupId} {hosts : List HostId}
    (hids : (t.members.map Member.id).Nodup) (hwires : t.wires.Nodup) (hp : t.IsExactPath s p)
    (hg : g ∈ s.flatMap Element.touched) (hhosts : hosts.Nodup)
    (hall : ∀ m ∈ t.membersOf g, m.host ∈ hosts) :
    (hosts.flatMap fun host =>
      ((t.membersOf g).filter (fun m => m.host = host)).flatMap (t.pathsFrom s)).count p = 1 := by
  obtain ⟨m, hm, hgroup, hpath, hunique⟩ := hp.existsUnique_anchor hg
  have hmem : m ∈ t.membersOf g :=
    List.mem_filter.mpr ⟨List.mem_of_find?_eq_some hm, decide_eq_true hgroup⟩
  have hsame : ∀ m' ∈ t.membersOf g, p ∈ t.pathsFrom s m' → m' = m := fun m' hm' hpath' => by
    obtain ⟨hmem', hgroup'⟩ := List.mem_filter.mp hm'
    exact List.inj_on_of_nodup_map hids hmem' (List.mem_of_find?_eq_some hm)
      (hunique m' (of_decide_eq_true hgroup') hpath')
  have hnodup : ∀ host, ((t.membersOf g).filter (fun m => m.host = host)).Nodup := fun host =>
    (hids.of_map Member.id).sublist (List.filter_sublist.trans List.filter_sublist)
  -- once on the host of `m`, where it is once for `m` and not for any other member
  refine count_flatMap_eq_one hhosts (hall m hmem) ?_ fun host _ hne hlisted => hne ?_
  · refine count_flatMap_eq_one (hnodup m.host)
      (List.mem_filter.mpr ⟨hmem, decide_eq_true rfl⟩) ?_ fun m' hm' hne hpath' => hne ?_
    · exact List.count_eq_one_of_mem (nodup_pathsFrom hwires s m) hpath
    · exact hsame m' (List.mem_filter.mp hm').1 hpath'
  · obtain ⟨m', hm', hpath'⟩ := List.mem_flatMap.mp hlisted
    obtain ⟨hm', hhost⟩ := List.mem_filter.mp hm'
    rw [← hsame m' hm' hpath', of_decide_eq_true hhost]

/-! ### Constraints -/

/-- Each constraint has a topology of its own. -/
theorem find?_splitByConstraint {t u : Topology} {id : ConstraintId} :
    (Table.ofList t.splitByConstraint).find? id = some u ↔
      ∃ c, t.constraint? id = some c ∧ u = { t with constraints := Table.empty.insert id c } := by
  have hkeys : (t.splitByConstraint.map Prod.fst).Nodup := by
    rw [splitByConstraint, List.map_map]
    exact t.constraints.nodup_keys
  rw [Table.find?_ofList_iff hkeys, mem_splitByConstraint]

/-! ### Models -/

/-- The paths through an anchor; none if they cannot be told. -/
def Topology.through (t : Topology) (s : Sequence) (anchor : MemberId) : List Path :=
  (t.pathsThrough s anchor).toOption.getD []

/-- The paths of a model, if all members that it watches are there. -/
theorem Model.paths_eq_flatMap {m : Model} {c : Constraint} (hc : m.constraint = .ok c)
    (hmembers : ∀ a ∈ m.role.members, ∃ x, m.role.topology.member? a = some x) :
    m.paths = .ok (m.role.members.flatMap (m.role.topology.through c.sequence)) := by
  refine (Model.paths_eq_ok hc).mpr ⟨_, ?_, List.flatMap_def⟩
  rw [List.forall₂_map_right_iff, List.forall₂_same]
  intro a ha
  obtain ⟨x, hx⟩ := hmembers a ha
  rw [Topology.through, pathsThrough_eq_ok hx]
  rfl

namespace DeployedJob

/-- All paths that are watched for a constraint, host by host; `clock` says when each host creates
its models. -/
def watched (d : DeployedJob) (id : ConstraintId) (clock : HostId → Int) :
    Except Error (List Path) := do
  let models ← d.roles.keys.mapM fun host => d.models host (clock host)
  let found ← (models.flatten.filter (fun m => m.role.constraint = id)).mapM Model.paths
  return found.flatten

/-- Every host can create its models, if the reporters of their roles could be told. -/
theorem exists_models {d : DeployedJob} {host : HostId} (now : Int)
    (hassigned : ∀ r ∈ d.managersOn host, ∃ found, r.assignments = .ok found) :
    ∃ models, d.models host now = .ok models ∧ models.map Model.role = d.managersOn host := by
  obtain ⟨models, hmodels⟩ := exists_mapM_eq_ok (f := (Model.create · d.settings now))
    fun r hr => by
      obtain ⟨found, hfound⟩ := hassigned r hr
      exact ⟨_, bind_eq_ok.mpr ⟨found, hfound, rfl⟩⟩
  refine ⟨models, hmodels, ?_⟩
  have hroles : List.Forall₂ (fun r m => r = Model.role m) (d.managersOn host) models :=
    (mapM_eq_ok.mp hmodels).imp fun r m hm => (Model.create_role hm).symm
  rw [← List.forall₂_map_right_iff, List.forall₂_eq_eq_eq] at hroles
  exact hroles.symm

/-- The managers of a host for one constraint. -/
def watchersOn (d : DeployedJob) (id : ConstraintId) (host : HostId) : List ManagerRole :=
  (d.managersOn host).filter (fun r => r.constraint = id)

variable {d : DeployedJob} {t : Topology} {id : ConstraintId} {c : Constraint} {g : GroupId}

theorem mem_keys_of_mem_watchersOn {host : HostId} {r : ManagerRole}
    (hr : r ∈ d.watchersOn id host) : host ∈ d.roles.keys :=
  RoleTable.mem_keys_of_mem_managers (List.mem_filter.mp hr).1

/-- The paths through the members of some managers, which are those of a list of members. -/
theorem flatMap_through {roles : List ManagerRole} {ms : List Member} {s : Sequence}
    (hthere : ∀ m ∈ ms, t.member? m.id = some m)
    (hmembers : roles.flatMap ManagerRole.members = ms.map Member.id) :
    roles.flatMap (fun r => r.members.flatMap (t.through s)) = ms.flatMap (t.pathsFrom s) := by
  calc roles.flatMap (fun r => r.members.flatMap (t.through s))
      = (roles.flatMap ManagerRole.members).flatMap (t.through s) := by
        rw [List.flatMap_assoc]
    _ = ms.flatMap (fun m => t.through s m.id) := by
        rw [hmembers, List.flatMap_map]
    _ = ms.flatMap (t.pathsFrom s) := by
        refine List.flatMap_congr fun m hm => ?_
        rw [Topology.through, pathsThrough_eq_ok (hthere m hm)]
        rfl

/-- The paths that are watched, if the managers of each host have its own members of a group. -/
theorem watched_eq_ok (clock : HostId → Int)
    (hassigned : ∀ host, ∀ r ∈ d.managersOn host, ∃ found, r.assignments = .ok found)
    (hids : (t.members.map Member.id).Nodup) (hc : t.constraint id = .ok c)
    (htopology : ∀ host, ∀ r ∈ d.watchersOn id host, r.topology = t ∧ r.constraint = id)
    (hmembers : ∀ host, (d.watchersOn id host).flatMap ManagerRole.members
      = ((t.membersOf g).filter (fun m => m.host = host)).map Member.id) :
    d.watched id clock = .ok (d.roles.keys.flatMap fun host =>
      ((t.membersOf g).filter (fun m => m.host = host)).flatMap (t.pathsFrom c.sequence)) := by
  choose models hmodels hroles using fun host => exists_models (clock host) (hassigned host)
  have hwatchers : ∀ host, ((models host).filter (fun m => m.role.constraint = id)).map Model.role
      = d.watchersOn id host := fun host => by
    rw [watchersOn, ← hroles host, List.filter_map]
    rfl
  have hthere : ∀ host, ∀ m ∈ (t.membersOf g).filter (fun m => m.host = host),
      t.member? m.id = some m := fun host m hm =>
    member?_of_mem hids (List.mem_filter.mp (List.mem_filter.mp hm).1).1
  have hpaths : ∀ m ∈ d.roles.keys.flatMap fun host =>
      (models host).filter (fun m => m.role.constraint = id),
      m.paths = .ok (m.role.members.flatMap (t.through c.sequence)) := by
    intro m hm
    obtain ⟨host, -, hm⟩ := List.mem_flatMap.mp hm
    have hrole : m.role ∈ d.watchersOn id host := hwatchers host ▸ List.mem_map_of_mem hm
    obtain ⟨htopology, hconstraint⟩ := htopology host m.role hrole
    rw [← htopology]
    refine Model.paths_eq_flatMap (by rw [Model.constraint, htopology, hconstraint, hc]) ?_
    intro a ha
    have hlisted : a ∈ (d.watchersOn id host).flatMap ManagerRole.members :=
      List.mem_flatMap.mpr ⟨m.role, hrole, ha⟩
    rw [hmembers host] at hlisted
    obtain ⟨x, hx, rfl⟩ := List.mem_map.mp hlisted
    exact ⟨x, htopology ▸ hthere host x hx⟩
  have hhost : ∀ host, ((models host).filter (fun m => m.role.constraint = id)).flatMap
      (fun m => m.role.members.flatMap (t.through c.sequence))
        = ((t.membersOf g).filter (fun m => m.host = host)).flatMap (t.pathsFrom c.sequence) := by
    intro host
    rw [← flatMap_through (hthere host) (hmembers host), ← hwatchers host, List.flatMap_map]
  have hwatching : (d.roles.keys.map models).flatten.filter (fun m => m.role.constraint = id)
      = d.roles.keys.flatMap fun host =>
          (models host).filter (fun m => m.role.constraint = id) := by
    rw [← List.flatMap_def, List.filter_flatMap]
  refine bind_eq_ok.mpr ⟨_, mapM_eq_ok_map fun host _ => hmodels host, ?_⟩
  rw [hwatching]
  refine bind_eq_ok.mpr ⟨_, mapM_eq_ok_map hpaths, congrArg Except.ok ?_⟩
  rw [← List.flatMap_def, List.flatMap_assoc]
  exact List.flatMap_congr fun host _ => hhost host

/-- **Every exact path is watched once.**  After a job was deployed, each exact path of each of its
constraints occurs exactly once among the paths that the managers of the constraint watch on all
hosts. -/
theorem watched_once {job : Job} {settings : Settings} {proposals : Option (List ChainProposal)}
    (hd : ofJob job settings proposals = .ok d) (ht : job.topology = .ok t)
    (hc : t.constraint? id = some c) (clock : HostId → Int) :
    ∃ paths, d.watched id clock = .ok paths ∧
      ∀ p, t.IsExactPath c.sequence p → paths.count p = 1 := by
  obtain ⟨t', ht', hd⟩ := bind_eq_ok.mp hd
  obtain rfl : t = t' := Except.ok.inj (ht.symm.trans ht')
  have hsound := Job.topology_isSound ht
  obtain ⟨d', hrun, hmanagers⟩ := deploy_eq_ok hd
  set u : Topology := { t with constraints := Table.empty.insert id c }
  obtain rfl : c.id = id := hsound.constraints id c hc
  have hkeyed : ∀ id u c, (Table.ofList t.splitByConstraint).find? id = some u →
      u.singleConstraint = .ok c → c.id = id := by
    intro id u c' hu hc'
    obtain ⟨c, hc, rfl⟩ := find?_splitByConstraint.mp hu
    obtain rfl : c = c' := Except.ok.inj hc'
    exact hsound.constraints id c hc
  obtain ⟨g, hg, hhosts⟩ := Deployment.members_watchersOn hrun hkeyed
    (find?_splitByConstraint.mpr ⟨c, hc, rfl⟩) rfl
  have hwatchers : ∀ host, d.watchersOn c.id host = d'.watchersOn c.id host := fun host => by
    rw [watchersOn, hmanagers, Deployment.watchersOn]
  have hassigned : ∀ host, ∀ r ∈ d.managersOn host, ∃ found, r.assignments = .ok found := by
    intro host r hr
    obtain ⟨-, -, hassigned, -⟩ := Deployment.run_assignRoles hrun
    rw [hmanagers] at hr
    exact ⟨_, hassigned r (d'.mem_managerRoles.mpr ⟨host, hr⟩)⟩
  have hmembers : ∀ host, (d.watchersOn c.id host).flatMap ManagerRole.members
      = ((u.membersOf g).filter (fun m => m.host = host)).map Member.id := fun host => by
    rw [hwatchers]
    exact (hhosts host).2
  refine ⟨_, watched_eq_ok clock hassigned hsound.ids (t := u) (c := c) ?_
    (fun host => hwatchers host ▸ (hhosts host).1) hmembers, fun p hp => ?_⟩
  · rw [Topology.constraint, Topology.constraint?, Table.find?_insert_self]
  · -- the host of a member of the anchor group has a manager for it
    have hhost : ∀ m ∈ u.membersOf g, m.host ∈ d.roles.keys := by
      intro m hm
      have hmem : m.id ∈ (d.watchersOn c.id m.host).flatMap ManagerRole.members := by
        rw [hmembers]
        exact List.mem_map_of_mem (List.mem_filter.mpr ⟨hm, decide_eq_true rfl⟩)
      obtain ⟨r, hr, -⟩ := List.mem_flatMap.mp hmem
      exact mem_keys_of_mem_watchersOn hr
    exact count_eq_one (t := u) hsound.ids hsound.wires ⟨hp.fits, hp.meets⟩ hg d.roles.nodup_keys
      hhost

/-- A job with the constraint of `Model.funnelConstraint`, which two hosts watch. -/
def funnelJob : Job where
  id := ⟨"job"⟩
  groups :=
    [{ id := ⟨"A"⟩, name := "A"
       members := [{ id := ⟨"a0"⟩, host := ⟨"h"⟩ }, { id := ⟨"a1"⟩, host := ⟨"k"⟩ }] },
      { id := ⟨"B"⟩, name := "B", members := [{ id := ⟨"b"⟩, host := ⟨"h"⟩ }] }]
  edges :=
    [{ link := { source := ⟨"A"⟩, outputGate := 0, target := ⟨"B"⟩, inputGate := 0 }
       pattern := .bipartite }]
  constraints := [Model.funnelConstraint]

/-- The path through the second member. -/
def funnelPath : Path :=
  [.member ⟨"a1"⟩, .wire { source := ⟨"a1"⟩, outputGate := 0, target := ⟨"b"⟩, inputGate := 0 },
    .member ⟨"b"⟩]

theorem watched_once_funnelJob :
    ∃ d t c, ofJob funnelJob {} none = .ok d ∧ funnelJob.topology = .ok t ∧
      t.constraint? ⟨"c"⟩ = some c ∧ t.IsExactPath c.sequence funnelPath ∧
        ∃ paths, d.watched ⟨"c"⟩ (fun _ => 0) = .ok paths ∧
          ∀ p, t.IsExactPath c.sequence p → paths.count p = 1 := by
  obtain ⟨d, hd⟩ : ∃ d, ofJob funnelJob {} none = .ok d := exists_eq_ok (by decide +kernel)
  obtain ⟨t, ht, hd'⟩ := bind_eq_ok.mp hd
  have hexact : (funnelJob.topology.toOption.bind fun t => (t.constraint? ⟨"c"⟩).map fun c =>
      decide (t.IsExactPath c.sequence funnelPath)) = some true := by decide +kernel
  rw [ht] at hexact
  obtain ⟨c, hc, hpath⟩ := Option.map_eq_some_iff.mp hexact
  exact ⟨d, t, c, hd, ht, hc, of_decide_eq_true hpath, watched_once hd ht hc _⟩

end DeployedJob

end LatencyControl
