import LatencyControl.Proofs.Monitor.Staffing

/-!
# Roles on all of their hosts

Managers assign whole roles: that of a channel goes to the hosts at both of its ends.  But a host
keeps one role for each key, the first that is assigned to it, and the key has the name of the
channel in it.  Two channels can go by one name, and then a host that is at the ends of both keeps
the role of one of them only, while a host at the end of the other one keeps the other role.
`Deployment.measures_iff_first` says what there is on which host: a role is kept where it is the
first one with its key, and what it measures is measured where the first one measures the same.
This is so on all of its hosts if no other place goes by its key, and always for a member.

`Deployment.not_measures_crossedJob` is a job in which it is not so: a channel is measured on the
host of its target, and not on that of its source.
-/

namespace LatencyControl

/-- Reporters of members with the same key measure the same member. -/
theorem ReporterRole.step_eq_of_key_eq {rr : ReporterRole} {v : VertexRole} {m m' : ManagerRef}
    (hfor : rr.IsFor m) (hfor' : (ReporterRole.vertex v).IsFor m')
    (hkey : rr.key = (ReporterRole.vertex v).key) : rr.step = (ReporterRole.vertex v).step := by
  obtain ⟨-, i', o', hreporter'⟩ := hfor'
  have hsame : rr.reporter = .vertex v.member i' o' := (congrArg Prod.fst hkey).trans hreporter'
  cases rr with
  | vertex u =>
    obtain ⟨-, i, o, hreporter⟩ := hfor
    have hmember : u.member = v.member := (ReporterId.vertex.inj (hreporter.symm.trans hsame)).1
    exact congrArg PathStep.member hmember
  | edge e =>
    obtain ⟨-, hreporter⟩ := hfor
    cases hreporter.symm.trans hsame

namespace Deployment

/-- Of the roles with a key that are assigned to a host, the first one. -/
def first? (d : Deployment) (host : HostId) (key : ReporterId × ManagerId) : Option ReporterRole :=
  (d.assigned.find? (fun a => a.1 = host ∧ a.2.key = key)).map Prod.snd

/-- The host measures what the role is to measure, and for the same manager. -/
def Measures (d : Deployment) (host : HostId) (rr : ReporterRole) : Prop :=
  ∃ rr' ∈ d.reportersOn host, rr'.key = rr.key ∧ rr'.step = rr.step

instance (d : Deployment) (host : HostId) (rr : ReporterRole) : Decidable (d.Measures host rr) :=
  inferInstanceAs (Decidable (∃ rr' ∈ d.reportersOn host, rr'.key = rr.key ∧ rr'.step = rr.step))

section

variable {topologies : Table ConstraintId Topology} {d : Deployment}
  (h : assignRoles.run.run { topologies } = (.ok (), d))

include h

/-- Of whole roles, each is assigned to all of its hosts. -/
theorem mem_assigned_of_mem_hosts {a : Assignment} (ha : a ∈ d.assigned) {host : HostId}
    (hhost : host ∈ a.2.hosts) : (host, a.2) ∈ d.assigned := by
  obtain ⟨roles, hroles, -⟩ := exists_spread_of_run h
  rw [hroles] at ha ⊢
  obtain ⟨rr, hrr, hmem⟩ := List.mem_flatMap.mp ha
  obtain ⟨-, hsame⟩ := ReporterRole.mem_spread.mp hmem
  refine List.mem_flatMap.mpr ⟨rr, hrr, ReporterRole.mem_spread.mpr ⟨?_, hsame⟩⟩
  rw [← hsame]
  exact hhost

/-- Where a role is assigned there is a first one with its key, which is assigned and kept. -/
theorem exists_first? {host : HostId} {rr : ReporterRole} (hassigned : (host, rr) ∈ d.assigned) :
    ∃ first, d.first? host rr.key = some first ∧ (host, first) ∈ d.assigned ∧
      first.key = rr.key ∧ first ∈ d.reportersOn host := by
  obtain ⟨⟨host', first⟩, hfind⟩ :
      ∃ b, d.assigned.find? (fun a => a.1 = host ∧ a.2.key = rr.key) = some b := by
    rw [← Option.isSome_iff_exists, List.find?_isSome]
    exact ⟨(host, rr), hassigned, decide_eq_true ⟨rfl, rfl⟩⟩
  have hplace := List.find?_some hfind
  rw [decide_eq_true_iff] at hplace
  obtain ⟨rfl, hkey⟩ : host' = host ∧ first.key = rr.key := hplace
  have hfirst : d.first? host' rr.key = some first := by rw [first?, hfind, Option.map_some]
  refine ⟨first, hfirst, List.mem_of_find?_eq_some hfind, hkey, ?_⟩
  rw [mem_reportersOn_iff h, hkey]
  exact hfirst

/-- A host measures what an assigned role is to measure if the first role with its key does. -/
theorem measures_iff {host : HostId} {rr : ReporterRole} (hassigned : (host, rr) ∈ d.assigned) :
    d.Measures host rr ↔ ∃ first, d.first? host rr.key = some first ∧ first.step = rr.step := by
  obtain ⟨first, hfirst, -, hkey, hkept⟩ := exists_first? h hassigned
  constructor
  · rintro ⟨rr', hrr', hkey', hstep⟩
    have hsame := (mem_reportersOn_iff h).mp hrr'
    rw [hkey'] at hsame
    exact ⟨rr', hsame, hstep⟩
  · rintro ⟨first', hfirst', hstep⟩
    obtain rfl := Option.some.inj (hfirst.symm.trans hfirst')
    exact ⟨first, hkept, hkey, hstep⟩

/-- If all that goes by the key of a role is what it measures, each of its hosts measures that. -/
theorem measures_of_only {a : Assignment} (ha : a ∈ d.assigned)
    (honly : ∀ b ∈ d.assigned, b.2.key = a.2.key → b.2.step = a.2.step) {host : HostId}
    (hhost : host ∈ a.2.hosts) : d.Measures host a.2 := by
  have hassigned := mem_assigned_of_mem_hosts h ha hhost
  obtain ⟨first, hfirst, hmem, hkey, -⟩ := exists_first? h hassigned
  exact (measures_iff h hassigned).mpr ⟨first, hfirst, honly _ hmem hkey⟩

/-- **What is measured where.**  After roles were assigned, the hosts are staffed: each has the keys
that are assigned to it, once and in the right place.  Moreover, of a role that is assigned,
- each of its hosts has this very role exactly if it is the first one with its key there, and
  measures what it is to measure exactly if the first one with its key does;
- if it is that of a member, the member is measured on its host;
- if nothing else goes by its key, all of its hosts measure what it is to measure. -/
theorem measures_iff_first : d.IsStaffed ∧ ∀ a ∈ d.assigned,
    (∀ host ∈ a.2.hosts,
      (a.2 ∈ d.reportersOn host ↔ d.first? host a.2.key = some a.2) ∧
      (d.Measures host a.2 ↔
        ∃ first, d.first? host a.2.key = some first ∧ first.step = a.2.step)) ∧
    (∀ v, a.2 = .vertex v → d.Measures v.host a.2) ∧
    ((∀ b ∈ d.assigned, b.2.key = a.2.key → b.2.step = a.2.step) →
      ∀ host ∈ a.2.hosts, d.Measures host a.2) := by
  refine ⟨isStaffed_of_run h, fun a ha => ⟨fun host hhost => ?_, fun v hv => ?_, fun honly host =>
    measures_of_only h ha honly⟩⟩
  · have hassigned := mem_assigned_of_mem_hosts h ha hhost
    exact ⟨mem_reportersOn_iff h, measures_iff h hassigned⟩
  · refine measures_of_only h ha (fun b hb hkey => ?_) (hv ▸ List.mem_cons_self)
    obtain ⟨-, r, -, hfor, -⟩ := placed_of_mem_assigned h ha
    obtain ⟨-, r', -, hfor', -⟩ := placed_of_mem_assigned h hb
    rw [hv] at hfor hkey ⊢
    exact ReporterRole.step_eq_of_key_eq hfor' hfor hkey

end

/-- A job in which the channel from `a` to `b[0]->c` and that from `a[0]->b` to `c` go by one name.
Both leave the first host; the second one leads to another. -/
def crossedJob : Job :=
  let link : Link := { source := ⟨"A"⟩, outputGate := 0, target := ⟨"B"⟩, inputGate := 0 }
  { id := ⟨"job"⟩
    groups :=
      [{ id := ⟨"A"⟩, name := "A"
         members :=
          [{ id := ⟨"a"⟩, host := ⟨"h1"⟩ }, { id := ⟨"a[0]->b"⟩, host := ⟨"h1"⟩ },
            { id := ⟨"z"⟩, host := ⟨"h2"⟩ }] },
        { id := ⟨"B"⟩, name := "B"
          members := [{ id := ⟨"b[0]->c"⟩, host := ⟨"h1"⟩ }, { id := ⟨"c"⟩, host := ⟨"h2"⟩ }] }]
    edges := [{ link, pattern := .bipartite }]
    constraints :=
      [{ id := ⟨"c"⟩, name := "c", sequence := [.edge link .readWrite], bound := 10 }] }

/-- The topologies of the job, one for each constraint. -/
def crossedTopologies : Table ConstraintId Topology :=
  match crossedJob.topology with
  | .ok t => Table.ofList t.splitByConstraint
  | .error _ => Table.empty

/-- What the deployment of the job comes to. -/
def crossedDeployment : Deployment :=
  (assignRoles.run.run { topologies := crossedTopologies }).2

theorem run_crossedTopologies :
    assignRoles.run.run { topologies := crossedTopologies } = (.ok (), crossedDeployment) :=
  run_of_isOk (by decide +kernel)

theorem measures_iff_first_border :
    assignRoles.run.run { topologies := borderTopologies } = (.ok (), borderDeployment) ∧
      borderDeployment.IsStaffed ∧
      ∀ a ∈ borderDeployment.assigned, ∀ host ∈ a.2.hosts,
        borderDeployment.Measures host a.2 := by
  obtain ⟨hstaffed, hplaces⟩ := measures_iff_first run_borderTopologies
  have honly : ∀ a ∈ borderDeployment.assigned, ∀ b ∈ borderDeployment.assigned,
      b.2.key = a.2.key → b.2.step = a.2.step := by decide +kernel
  refine ⟨run_borderTopologies, hstaffed, fun a ha => ?_⟩
  obtain ⟨-, -, hall⟩ := hplaces a ha
  exact hall (honly a ha)

/-- The role of the second channel is kept on the host of its target, and it is not kept on that of
its source, which does not measure the channel. -/
theorem not_measures_crossedJob :
    assignRoles.run.run { topologies := crossedTopologies } = (.ok (), crossedDeployment) ∧
      ∃ rr ∈ crossedDeployment.reportersOn ⟨"h2"⟩, ⟨"h1"⟩ ∈ rr.hosts ∧
        rr ∉ crossedDeployment.reportersOn ⟨"h1"⟩ ∧ ¬ crossedDeployment.Measures ⟨"h1"⟩ rr :=
  ⟨run_crossedTopologies, by decide +kernel⟩

end Deployment

end LatencyControl
