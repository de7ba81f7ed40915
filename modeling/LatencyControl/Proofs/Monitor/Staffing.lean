import LatencyControl.Proofs.Monitor.Reporting
import LatencyControl.Proofs.Role.Partition
import LatencyControl.Proofs.Role.Sampling

/-!
# Reporters where they are needed

Managers assign reporters without regard to each other, and a host drops a reporter whose key it has
already.  Still no key is missing in the end (`Deployment.isStaffed_of_run`): each host has exactly
the keys that were assigned to it, that of a member is on its own host and that of a channel on the
hosts at both of its ends, and so every model gets reports under all keys that it makes room for.

This rests on one fact about what a manager assigns: it assigns whole roles, each to all of its
hosts (`ManagerRole.exists_spread`), in one order that is the same for all hosts.

The names of members are arbitrary, so that two channels can end up with one name.  Unless they do,
both hosts of a channel have the very same role (`Deployment.mem_reportersOn_of_mem_hosts`).
-/

namespace LatencyControl

/-! ### The hosts of a role -/

namespace ReporterRole

/-- The hosts that a role is for: that of a member, or those at the ends of a channel. -/
def hosts : ReporterRole → List HostId
  | .vertex r => [r.host]
  | .edge r => [r.sourceHost, r.targetHost]

/-- The role, assigned to each of its hosts. -/
def spread (r : ReporterRole) : List Assignment := r.hosts.map fun host => (host, r)

/-- The hosts of a role are those that run what it measures. -/
def RunsAt (t : Topology) : ReporterRole → Prop
  | .vertex r => ∃ m, t.member? r.member = some m ∧ r.host = m.host
  | .edge r => r.wire ∈ t.wires ∧ ∃ source target, t.member? r.wire.source = some source ∧
      t.member? r.wire.target = some target ∧ r.sourceHost = source.host ∧
      r.targetHost = target.host

theorem mem_spread {r : ReporterRole} {a : Assignment} :
    a ∈ r.spread ↔ a.1 ∈ r.hosts ∧ a.2 = r := by
  obtain ⟨host, r'⟩ := a
  simp only [spread, List.mem_map, Prod.mk.injEq]
  constructor
  · rintro ⟨host', hhost, rfl, rfl⟩
    exact ⟨hhost, rfl⟩
  · rintro ⟨hhost, rfl⟩
    exact ⟨host, hhost, rfl, rfl⟩

theorem exists_mem_hosts (r : ReporterRole) : ∃ host, host ∈ r.hosts := by
  cases r with
  | vertex r => exact ⟨r.host, List.mem_cons_self⟩
  | edge r => exact ⟨r.sourceHost, List.mem_cons_self⟩

/-- Of all roles with a key, a host that each of them is for gets the first one first. -/
theorem find?_flatMap_spread {roles : List ReporterRole} {host : HostId}
    {key : ReporterId × ManagerId} (hall : ∀ r ∈ roles, r.key = key → host ∈ r.hosts) :
    ((roles.flatMap spread).find? (fun a => a.1 = host ∧ a.2.key = key)).map Prod.snd
      = roles.find? (fun r => r.key = key) := by
  induction roles with
  | nil => rfl
  | cons r rest ih =>
    have hrest := ih fun r' hr' => hall r' (List.mem_cons_of_mem r hr')
    rw [List.flatMap_cons, List.find?_append, List.find?_cons]
    by_cases hkey : r.key = key
    · have hfirst : r.spread.find? (fun a => a.1 = host ∧ a.2.key = key) = some (host, r) := by
        have hhost : host ∈ r.hosts := hall r List.mem_cons_self hkey
        have hpred : ((fun a : Assignment => decide (a.1 = host ∧ a.2.key = key)) ∘
            fun h => (h, r)) = fun h => decide (h = host) := by
          funext h
          simp [hkey]
        rw [spread, List.find?_map, hpred]
        obtain ⟨h, hh⟩ : ∃ h, r.hosts.find? (fun h => decide (h = host)) = some h := by
          rw [← Option.isSome_iff_exists, List.find?_isSome]
          exact ⟨host, hhost, decide_eq_true rfl⟩
        have hsame : h = host := by simpa using List.find?_some hh
        rw [hh, hsame, Option.map_some]
      rw [hfirst, Option.some_or, Option.map_some, decide_eq_true hkey]
    · have hnone : r.spread.find? (fun a => a.1 = host ∧ a.2.key = key) = none := by
        rw [List.find?_eq_none]
        intro a ha
        rw [(mem_spread.mp ha).2]
        simp [hkey]
      rw [hnone, Option.none_or, hrest, decide_eq_false hkey]

end ReporterRole

open ReporterRole (spread)

/-- What is made of lists of whole roles is itself a list of whole roles. -/
theorem exists_flatMap_spread {α : Type} {P : α → ReporterRole → Prop} {xs : List α}
    {f : α → List Assignment}
    (h : ∀ x ∈ xs, ∃ roles : List ReporterRole, f x = roles.flatMap spread ∧
      ∀ r ∈ roles, P x r) :
    ∃ roles : List ReporterRole, xs.flatMap f = roles.flatMap spread ∧ ∀ r ∈ roles, ∃ x ∈ xs, P x r := by
  induction xs with
  | nil => exact ⟨[], rfl, fun r hr => (List.not_mem_nil hr).elim⟩
  | cons x rest ih =>
    obtain ⟨first, hfirst, hP⟩ := h x List.mem_cons_self
    obtain ⟨later, hlater, hrest⟩ := ih fun y hy => h y (List.mem_cons_of_mem x hy)
    refine ⟨first ++ later, by rw [List.flatMap_cons, List.flatMap_append, hfirst, hlater], ?_⟩
    intro r hr
    rcases List.mem_append.mp hr with hr | hr
    · exact ⟨x, List.mem_cons_self, hP r hr⟩
    · obtain ⟨y, hy, hPy⟩ := hrest r hr
      exact ⟨y, List.mem_cons_of_mem x hy, hPy⟩

/-! ### What a manager assigns -/

namespace Topology

variable {t : Topology} {s : Sequence} {m : Member} {v : Visit}

/-- Wires that are met on the way are wires of the topology. -/
theorem mem_wires_of_mem_reach {next : Step} (hnext : ∀ l m w x, (w, x) ∈ next l m → w ∈ t.wires)
    {ps : Positions} (hv : v ∈ reach next ps m) {w : Wire} (hw : v.place = .wire w) :
    w ∈ t.wires := by
  induction ps generalizing m with
  | nil => exact (List.not_mem_nil hv).elim
  | cons first rest ih =>
    obtain ⟨e, i⟩ := first
    cases e with
    | vertex g inp out sampling =>
      rw [reach] at hv
      split_ifs at hv with hg
      · rcases List.mem_cons.mp hv with rfl | hv
        · cases hw
        · exact ih hv
      · exact (List.not_mem_nil hv).elim
    | edge l sampling =>
      rw [reach] at hv
      obtain ⟨⟨w', y⟩, hy, hv⟩ := List.mem_flatMap.mp hv
      rcases List.mem_cons.mp hv with rfl | hv
      · obtain rfl := Place.wire.inj hw
        exact hnext l m w' y hy
      · exact ih hv

theorem IsReached.mem_wires (h : t.IsReached s m v) {w : Wire} (hw : v.place = .wire w) :
    w ∈ t.wires := by
  obtain ⟨i, -, hv | hv⟩ := h
  · exact mem_wires_of_mem_reach (fun l m w x hx => (mem_ahead.mp hx).1) hv hw
  · exact mem_wires_of_mem_reach (fun l m w x hx => (mem_behind.mp hx).1) hv hw

end Topology

/-- The reporter of a member is for the host that runs the member. -/
theorem assignVertex_spread {t : Topology} {m : Member} (hm : t.member? m.id = some m)
    {input output : Option ℕ} {sampling : Sampling} {isDummy : Bool} {manager : ManagerRef}
    {a : Assignment} (h : assignVertex m input output sampling isDummy manager = .ok a) :
    a.2.spread = [a] ∧ a.2.RunsAt t := by
  obtain ⟨r, hr, rfl⟩ := assignVertex_eq_ok h
  obtain ⟨hfields, -⟩ := VertexRole.create_eq_ok hr
  rw [hfields]
  exact ⟨rfl, m, hm, rfl⟩

/-- A visit is answered with whole roles. -/
theorem assignVisit_spread {t : Topology} {s : Sequence} {manager : ManagerRef} {v : Visit}
    (hmember : ∀ x, v.place = .member x → t.member? x.id = some x)
    (hwire : ∀ w, v.place = .wire w → w ∈ t.wires) {as : List Assignment}
    (h : assignVisit t s manager v = .ok as) :
    ∃ roles : List ReporterRole, as = roles.flatMap spread ∧ ∀ r ∈ roles, r.RunsAt t := by
  rw [assignVisit] at h
  split at h
  · next m hplace =>
    obtain ⟨a, ha, rfl⟩ := assignMemberVisit_eq_ok h
    obtain ⟨hspread, hruns⟩ := assignVertex_spread (hmember m hplace) ha
    refine ⟨[a.2], by rw [List.flatMap_singleton, hspread], fun r hr => ?_⟩
    rw [List.mem_singleton.mp hr]
    exact hruns
  · next w hplace =>
    obtain ⟨source, target, r, dummies, hsource, htarget, hr, rfl, hdummies⟩ :=
      assignWireVisit_eq_ok h
    rw [Topology.member_eq_ok] at hsource htarget
    have hends : ∀ m ∈ [source, target], t.member? m.id = some m := by
      intro m hm
      rcases List.mem_pair.mp hm with rfl | rfl
      · rw [Topology.member?_id hsource, hsource]
      · rw [Topology.member?_id htarget, htarget]
    have hedge : (ReporterRole.edge r).spread
          = [(source.host, ReporterRole.edge r), (target.host, ReporterRole.edge r)] ∧
        (ReporterRole.edge r).RunsAt t := by
      rw [EdgeRole.create_eq_ok hr]
      exact ⟨rfl, hwire w hplace, source, target, hsource, htarget, rfl, rfl⟩
    -- every dummy is a role of its own, of the member at one end
    have hrest : ∀ a ∈ dummies, a.2.spread = [a] ∧ a.2.RunsAt t := by
      intro a ha
      obtain ⟨m, hm, input, output, hassign⟩ := hdummies a ha
      exact assignVertex_spread (hends m hm) hassign
    have hdummy : dummies = (dummies.map Prod.snd).flatMap spread := by
      calc dummies = dummies.flatMap fun a => [a] := (List.flatMap_singleton' dummies).symm
        _ = dummies.flatMap fun a => a.2.spread :=
            List.flatMap_congr fun a ha => (hrest a ha).1.symm
        _ = (dummies.map Prod.snd).flatMap spread := (List.flatMap_map Prod.snd spread dummies).symm
    refine ⟨.edge r :: dummies.map Prod.snd, ?_, ?_⟩
    · rw [List.flatMap_cons, hedge.1, ← hdummy]
      rfl
    · intro r' hr'
      rcases List.mem_cons.mp hr' with rfl | hr'
      · exact hedge.2
      · obtain ⟨a, ha, rfl⟩ := List.mem_map.mp hr'
        exact (hrest a ha).2

/-- **A manager assigns whole roles.**  Each of its reporters is assigned to all hosts that run what
it measures, and to no others. -/
theorem ManagerRole.exists_spread {r : ManagerRole} {as : List Assignment}
    (h : r.assignments = .ok as) :
    ∃ roles : List ReporterRole, as = roles.flatMap spread ∧
      ∀ rr ∈ roles, rr.IsFor r.ref ∧ rr.RunsAt r.topology := by
  obtain ⟨c, w, found, -, hw, hfound, hflatten⟩ := assignments_eq_ok h
  have hvisits : ∀ l ∈ found, ∃ roles : List ReporterRole, l = roles.flatMap spread ∧
      ∀ rr ∈ roles, rr.RunsAt r.topology := by
    intro l hl
    obtain ⟨v, hv, hassign⟩ := exists_item hfound hl
    obtain ⟨m, hm, hreached⟩ := walk_visits hw v hv
    exact assignVisit_spread (fun x hx => hreached.member? hm hx)
      (fun w hw => hreached.mem_wires hw) hassign
  obtain ⟨roles, hroles, hruns⟩ := exists_flatMap_spread (f := id) hvisits
  have has : as = roles.flatMap spread := by rw [hflatten, ← List.flatMap_id, hroles]
  refine ⟨roles, has, fun rr hrr => ⟨?_, ?_⟩⟩
  · -- the role is on one host at least, so that it is one of the assigned ones
    obtain ⟨host, hhost⟩ := rr.exists_mem_hosts
    have hmem : (host, rr) ∈ as := by
      rw [has]
      exact List.mem_flatMap.mpr ⟨rr, hrr, ReporterRole.mem_spread.mpr ⟨hhost, rfl⟩⟩
    exact isFor_of_mem_assignments h hmem
  · obtain ⟨-, -, hrun⟩ := hruns rr hrr
    exact hrun

/-- What a manager assigns is for the manager, and it is meant for the hosts that run it. -/
theorem ManagerRole.place_of_mem_assignments {r : ManagerRole} {as : List Assignment}
    (h : r.assignments = .ok as) {a : Assignment} (ha : a ∈ as) :
    a.2.IsFor r.ref ∧ a.2.RunsAt r.topology := by
  obtain ⟨roles, rfl, hplaces⟩ := exists_spread h
  obtain ⟨rr, hrr, hmem⟩ := List.mem_flatMap.mp ha
  obtain ⟨-, rfl⟩ := ReporterRole.mem_spread.mp hmem
  exact hplaces a.2 hrr

/-! ### What is deployed -/

namespace Deployment

/-- The host has a reporter role with the given key. -/
def HasReporter (d : Deployment) (host : HostId) (key : ReporterId × ManagerId) : Prop :=
  ∃ rr ∈ d.reportersOn host, rr.key = key

/-- Everything that a model makes room for is measured for its manager: the members on the hosts
that run them, the channels at both of their ends. -/
structure Serves (d : Deployment) (m : Model) : Prop where
  members : ∀ id gates, (m.history? id gates).isSome = true →
    ∃ x, m.role.topology.member? id = some x ∧
      d.HasReporter x.host (x.key gates, m.role.manager)
  channels : ∀ channel, (m.channels.find? channel).isSome = true →
    ∃ w ∈ m.role.topology.wires, w.sourceChannel = channel ∧
      ∀ id ∈ [w.source, w.target], ∃ x, m.role.topology.member? id = some x ∧
        d.HasReporter x.host (.edge channel, m.role.manager)

/-- The hosts have the reporters that the managers need: all of them, each key once, and in the
places where something is measured. -/
structure IsStaffed (d : Deployment) : Prop where
  /-- The reporters of every manager could be told. -/
  assigned : ∀ r ∈ d.managerRoles, ∃ as, r.assignments = .ok as
  distinct : ∀ host, ((d.reportersOn host).map ReporterRole.key).Nodup
  keys : ∀ host key, d.HasReporter host key ↔ ∃ r ∈ d.managerRoles, ∃ as,
    r.assignments = .ok as ∧ ∃ a ∈ as, a.1 = host ∧ a.2.key = key
  /-- A role is on a host that it is for, and each host that it is for has its key. -/
  placed : ∀ host, ∀ rr ∈ d.reportersOn host, host ∈ rr.hosts ∧
    (∃ r ∈ d.managerRoles, rr.IsFor r.ref ∧ rr.RunsAt r.topology) ∧
    ∀ other ∈ rr.hosts, d.HasReporter other rr.key
  /-- Hosts that share a role share the very same one, if no other place goes by the same key. -/
  shared : ∀ host, ∀ rr ∈ d.reportersOn host,
    (∀ r ∈ d.managerRoles, ∀ as, r.assignments = .ok as → ∀ a ∈ as, a.2.key = rr.key →
      a.2.hosts = rr.hosts) → ∀ other ∈ rr.hosts, rr ∈ d.reportersOn other
  /-- Every model of a manager is served, whatever is done to it. -/
  serves : ∀ r ∈ d.managerRoles, ∀ settings now, ∃ m, Model.create r settings now = .ok m ∧
    ∀ ops, d.Serves (m.after ops)

variable {topologies : Table ConstraintId Topology} {d : Deployment}

/-- All that is assigned are whole roles. -/
theorem exists_spread_of_run (h : assignRoles.run.run { topologies } = (.ok (), d)) :
    ∃ roles : List ReporterRole, d.assigned = roles.flatMap spread ∧
      ∀ rr ∈ roles, ∃ r ∈ d.managerRoles, rr.IsFor r.ref ∧ rr.RunsAt r.topology := by
  obtain ⟨-, -, hassigned, -⟩ := run_assignRoles h
  exact exists_flatMap_spread fun r hr => ManagerRole.exists_spread (hassigned r hr)

/-- A host has a role if it is the first one with its key that is assigned to it. -/
theorem mem_reportersOn_iff (h : assignRoles.run.run { topologies } = (.ok (), d)) {host : HostId}
    {rr : ReporterRole} : rr ∈ d.reportersOn host ↔
      (d.assigned.find? (fun a => a.1 = host ∧ a.2.key = rr.key)).map Prod.snd = some rr := by
  rw [← find?_reportersOn_of_run h]
  constructor
  · intro hrr
    obtain ⟨r, hr⟩ : ∃ r, (d.reportersOn host).find? (fun r => r.key = rr.key) = some r := by
      rw [← Option.isSome_iff_exists, List.find?_isSome]
      exact ⟨rr, hrr, decide_eq_true rfl⟩
    have hkey : r.key = rr.key := by simpa using List.find?_some hr
    have hsame : r = rr := List.inj_on_of_nodup_map (nodup_reportersOn_of_run h host)
      (List.mem_of_find?_eq_some hr) hrr hkey
    rw [hr, hsame]
  · exact fun hfind => List.mem_of_find?_eq_some hfind

/-- A host has no roles but those that are assigned to it. -/
theorem mem_assigned_of_mem_reportersOn (h : assignRoles.run.run { topologies } = (.ok (), d))
    {host : HostId} {rr : ReporterRole} (hrr : rr ∈ d.reportersOn host) :
    (host, rr) ∈ d.assigned := by
  obtain ⟨⟨host', rr'⟩, hfind, rfl⟩ := Option.map_eq_some_iff.mp ((mem_reportersOn_iff h).mp hrr)
  have hhost : host' = host := by
    have hplace := List.find?_some hfind
    simp only [decide_eq_true_eq] at hplace
    exact hplace.1
  exact hhost ▸ List.mem_of_find?_eq_some hfind

/-- A host has the keys that are assigned to it. -/
theorem hasReporter_iff (h : assignRoles.run.run { topologies } = (.ok (), d)) {host : HostId}
    {key : ReporterId × ManagerId} :
    d.HasReporter host key ↔ ∃ a ∈ d.assigned, a.1 = host ∧ a.2.key = key :=
  exists_mem_reportersOn_iff h

/-- What is assigned to a host are roles that are for it, each for a manager in whose topology it
runs there. -/
theorem placed_of_mem_assigned (h : assignRoles.run.run { topologies } = (.ok (), d))
    {a : Assignment} (ha : a ∈ d.assigned) : a.1 ∈ a.2.hosts ∧
      ∃ r ∈ d.managerRoles, a.2.IsFor r.ref ∧ a.2.RunsAt r.topology := by
  obtain ⟨roles, hroles, hplaces⟩ := exists_spread_of_run h
  rw [hroles] at ha
  obtain ⟨rr, hrr, hmem⟩ := List.mem_flatMap.mp ha
  obtain ⟨hhost, rfl⟩ := ReporterRole.mem_spread.mp hmem
  exact ⟨hhost, hplaces a.2 hrr⟩

/-- Every role that is assigned has its key on each of its hosts. -/
theorem hasReporter_of_mem_assigned (h : assignRoles.run.run { topologies } = (.ok (), d))
    {a : Assignment} (ha : a ∈ d.assigned) {host : HostId} (hhost : host ∈ a.2.hosts) :
    d.HasReporter host a.2.key := by
  obtain ⟨roles, hroles, -⟩ := exists_spread_of_run h
  rw [hroles] at ha
  obtain ⟨rr, hrr, hmem⟩ := List.mem_flatMap.mp ha
  obtain ⟨-, rfl⟩ := ReporterRole.mem_spread.mp hmem
  have hother : (host, a.2) ∈ a.2.spread := ReporterRole.mem_spread.mpr ⟨hhost, rfl⟩
  refine (hasReporter_iff h).mpr ⟨(host, a.2), ?_, rfl, rfl⟩
  rw [hroles]
  exact List.mem_flatMap.mpr ⟨a.2, hrr, hother⟩

/-- Roles that no other place shares the key of are the same on all of their hosts. -/
theorem mem_reportersOn_of_mem (h : assignRoles.run.run { topologies } = (.ok (), d))
    {host other : HostId} {rr : ReporterRole} (hrr : rr ∈ d.reportersOn host)
    (hhost : host ∈ rr.hosts) (hother : other ∈ rr.hosts)
    (hkeys : ∀ a ∈ d.assigned, a.2.key = rr.key → a.2.hosts = rr.hosts) :
    rr ∈ d.reportersOn other := by
  obtain ⟨roles, hroles, -⟩ := exists_spread_of_run h
  have hall : ∀ on ∈ rr.hosts, ∀ r ∈ roles, r.key = rr.key → on ∈ r.hosts := by
    intro on hon r hr hkey
    obtain ⟨at_, hat⟩ := r.exists_mem_hosts
    have hmem : (at_, r) ∈ d.assigned := by
      rw [hroles]
      exact List.mem_flatMap.mpr ⟨r, hr, ReporterRole.mem_spread.mpr ⟨hat, rfl⟩⟩
    rw [hkeys _ hmem hkey]
    exact hon
  rw [mem_reportersOn_iff h, hroles] at hrr ⊢
  rw [ReporterRole.find?_flatMap_spread (hall host hhost)] at hrr
  rw [ReporterRole.find?_flatMap_spread (hall other hother)]
  exact hrr

/-- Every reporter that a manager assigns is there for the manager. -/
theorem hasReporter_of_mem_assignments (h : assignRoles.run.run { topologies } = (.ok (), d))
    {r : ManagerRole} (hr : r ∈ d.managerRoles) {as : List Assignment}
    (has : r.assignments = .ok as) {a : Assignment} (ha : a ∈ as) {host : HostId}
    (hhost : host ∈ a.2.hosts) : d.HasReporter host (a.2.reporter, r.manager) := by
  obtain ⟨hfor, -⟩ := ManagerRole.place_of_mem_assignments has ha
  have hkey : a.2.key = (a.2.reporter, r.manager) := by
    rw [ReporterRole.key, hfor.manager_eq]
    rfl
  rw [← hkey]
  exact hasReporter_of_mem_assigned h ((mem_assigned_iff h).mpr ⟨r, hr, as, has, ha⟩) hhost

/-- What a model of a manager makes room for was assigned by the manager, and so it is measured. -/
theorem serves_of_run (h : assignRoles.run.run { topologies } = (.ok (), d)) {r : ManagerRole}
    (hr : r ∈ d.managerRoles) {as : List Assignment} (has : r.assignments = .ok as)
    {settings : Settings} {now : Int} {m : Model} (hm : Model.create r settings now = .ok m)
    (ops : List ModelOp) : d.Serves (m.after ops) := by
  obtain ⟨hhistories, hchannels⟩ := Model.room_after hm has ops
  have hrole : (m.after ops).role = r := (m.after_role ops).trans (Model.create_role hm)
  constructor
  · intro id gates hroom
    rw [hrole]
    obtain ⟨⟨host, rr⟩, ha, hgates, hstep⟩ := (hhistories id gates).mp hroom
    have hall : ∀ on ∈ rr.hosts, d.HasReporter on (rr.reporter, r.manager) := fun on hon =>
      hasReporter_of_mem_assignments h hr has ha hon
    cases rr with
    | edge e => cases hgates
    | vertex v =>
      obtain rfl := Option.some.inj hgates
      obtain rfl := PathStep.member.inj hstep
      obtain ⟨x, hx, -, hkey⟩ := ManagerRole.hasKey_of_mem_assignments has ha
      obtain ⟨-, x', hx', hhost⟩ := ManagerRole.place_of_mem_assignments has ha
      obtain rfl : x = x' := Option.some.inj (hx.symm.trans hx')
      refine ⟨x, hx, ?_⟩
      rw [← hkey, ← hhost]
      exact hall v.host List.mem_cons_self
  · intro channel hroom
    rw [hrole]
    obtain ⟨⟨host, rr⟩, ha, w, hstep, rfl⟩ := (hchannels channel).mp hroom
    have hall : ∀ on ∈ rr.hosts, d.HasReporter on (rr.reporter, r.manager) := fun on hon =>
      hasReporter_of_mem_assignments h hr has ha hon
    cases rr with
    | vertex v => cases hstep
    | edge e =>
      obtain rfl := PathStep.wire.inj hstep
      obtain ⟨⟨-, hkey⟩, hwire, source, target, hsource, htarget, hsourceHost, htargetHost⟩ :=
        ManagerRole.place_of_mem_assignments has ha
      have hends : ∀ on ∈ [source.host, target.host],
          d.HasReporter on (.edge e.wire.sourceChannel, r.manager) := by
        rw [← hsourceHost, ← htargetHost, ← hkey]
        exact hall
      refine ⟨e.wire, hwire, rfl, fun id hid => ?_⟩
      rcases List.mem_pair.mp hid with rfl | rfl
      · exact ⟨source, hsource, hends _ List.mem_cons_self⟩
      · exact ⟨target, htarget, hends _ (List.mem_cons_of_mem _ List.mem_cons_self)⟩

/-- **Every deployment is staffed.**  After roles were assigned, the hosts have the reporters that
the managers need, and they have them where members run and channels end. -/
theorem isStaffed_of_run (h : assignRoles.run.run { topologies } = (.ok (), d)) : d.IsStaffed where
  assigned := by
    obtain ⟨-, -, hassigned, -⟩ := run_assignRoles h
    exact fun r hr => ⟨r.assigned, hassigned r hr⟩
  distinct := nodup_reportersOn_of_run h
  keys host key := by
    rw [hasReporter_iff h]
    simp only [mem_assigned_iff h]
    constructor
    · rintro ⟨a, ⟨r, hr, as, has, ha⟩, hplace⟩
      exact ⟨r, hr, as, has, a, ha, hplace⟩
    · rintro ⟨r, hr, as, has, a, ha, hplace⟩
      exact ⟨a, ⟨r, hr, as, has, ha⟩, hplace⟩
  placed host rr hrr := by
    have hassigned := mem_assigned_of_mem_reportersOn h hrr
    obtain ⟨hhost, hplace⟩ := placed_of_mem_assigned h hassigned
    exact ⟨hhost, hplace, fun other hother => hasReporter_of_mem_assigned h hassigned hother⟩
  shared host rr hrr hkeys other hother := by
    obtain ⟨hhost, -⟩ := placed_of_mem_assigned h (mem_assigned_of_mem_reportersOn h hrr)
    refine mem_reportersOn_of_mem h hrr hhost hother fun a ha hkey => ?_
    obtain ⟨r, hr, as, has, ha⟩ := (mem_assigned_iff h).mp ha
    exact hkeys r hr as has a ha hkey
  serves r hr settings now := by
    obtain ⟨-, -, hassigned, -⟩ := run_assignRoles h
    have hcreate : Model.create r settings now
        = .ok (r.assigned.foldl (fun m a => m.expect settings now a.2) { role := r }) :=
      bind_eq_ok.mpr ⟨r.assigned, hassigned r hr, rfl⟩
    exact ⟨_, hcreate, serves_of_run h hr (hassigned r hr) hcreate⟩

/-! ### Roles that hosts share -/

/-- If channels are known by their names, roles with the same reporter are for the same hosts. -/
theorem hosts_eq_of_reporter_eq {t : Topology}
    (hchannels : ∀ w ∈ t.wires, ∀ w' ∈ t.wires, w.sourceChannel = w'.sourceChannel → w = w')
    {rr rr' : ReporterRole} {m m' : ManagerRef} (hfor : rr.IsFor m) (hfor' : rr'.IsFor m')
    (hruns : rr.RunsAt t) (hruns' : rr'.RunsAt t) (hsame : rr.reporter = rr'.reporter) :
    rr.hosts = rr'.hosts := by
  cases rr with
  | vertex v =>
    obtain ⟨-, i, o, hkey⟩ := hfor
    have hsame : v.reporter = rr'.reporter := hsame
    cases rr' with
    | vertex v' =>
      obtain ⟨-, i', o', hkey'⟩ := hfor'
      obtain ⟨x, hx, hhost⟩ := hruns
      obtain ⟨x', hx', hhost'⟩ := hruns'
      have hmember : v.member = v'.member :=
        (ReporterId.vertex.inj (hkey.symm.trans (hsame.trans hkey'))).1
      obtain rfl : x = x' := Option.some.inj (hx.symm.trans (hmember ▸ hx'))
      simp only [ReporterRole.hosts, hhost, hhost']
    | edge e' =>
      obtain ⟨-, hkey'⟩ := hfor'
      cases hkey.symm.trans (hsame.trans hkey')
  | edge e =>
    obtain ⟨-, hkey⟩ := hfor
    have hsame : e.reporter = rr'.reporter := hsame
    cases rr' with
    | vertex v' =>
      obtain ⟨-, i', o', hkey'⟩ := hfor'
      cases hkey.symm.trans (hsame.trans hkey')
    | edge e' =>
      obtain ⟨-, hkey'⟩ := hfor'
      obtain ⟨hw, x, y, hx, hy, hsource, htarget⟩ := hruns
      obtain ⟨hw', x', y', hx', hy', hsource', htarget'⟩ := hruns'
      have hwire : e.wire = e'.wire :=
        hchannels _ hw _ hw' (ReporterId.edge.inj (hkey.symm.trans (hsame.trans hkey')))
      rw [hwire] at hx hy
      obtain rfl : x = x' := Option.some.inj (hx.symm.trans hx')
      obtain rfl : y = y' := Option.some.inj (hy.symm.trans hy')
      simp only [ReporterRole.hosts, hsource, htarget, hsource', htarget']

/-- **Hosts share roles.**  If the constraints of one sound topology are deployed, and channels are
known by their names there, a role that one host has is the role that each of its hosts has. -/
theorem mem_reportersOn_of_mem_hosts {t : Topology} (hsound : t.IsSound)
    (hchannels : ∀ w ∈ t.wires, ∀ w' ∈ t.wires, w.sourceChannel = w'.sourceChannel → w = w')
    (h : assignRoles.run.run { topologies := Table.ofList t.splitByConstraint } = (.ok (), d))
    {host other : HostId} {rr : ReporterRole} (hrr : rr ∈ d.reportersOn host)
    (hother : other ∈ rr.hosts) : rr ∈ d.reportersOn other := by
  have hstaffed := isStaffed_of_run h
  -- The topologies of the managers differ in their constraints only.
  have hruns : ∀ r ∈ d.managerRoles, ∀ x : ReporterRole, x.RunsAt r.topology → x.RunsAt t := by
    intro r hr x hx
    obtain ⟨on, hon⟩ := d.mem_managerRoles.mp hr
    obtain ⟨-, htopology, -⟩ := shape_of_mem_managersOn hsound h hon
    obtain ⟨entry, -, hsplit⟩ := List.mem_map.mp htopology
    rw [← (Prod.mk.inj hsplit).2] at hx
    cases x <;> exact hx
  obtain ⟨-, ⟨r₀, hr₀, hfor₀, hruns₀⟩, -⟩ := hstaffed.placed host rr hrr
  refine hstaffed.shared host rr hrr (fun r hr as has a ha hkey => ?_) other hother
  obtain ⟨hfor, hplace⟩ := ManagerRole.place_of_mem_assignments has ha
  exact hosts_eq_of_reporter_eq hchannels hfor hfor₀ (hruns r hr a.2 hplace)
    (hruns r₀ hr₀ rr hruns₀) (congrArg Prod.fst hkey)

end Deployment

end LatencyControl
