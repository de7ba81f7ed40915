import LatencyControl.Proofs.Role.Assigning
import LatencyControl.Proofs.Role.Collection

/-!
# Reporters that measure

A host keeps one reporter role for each key, the first that is assigned to it.  A dummy has the same
key as a reporter that measures a member between the same gates, so if the border of one constraint
puts a dummy where another constraint needs a measurement, the order decides which of them the host
keeps (`Deployment.samples_iff_first`), and the measurement may be lost
(`Deployment.not_keepsSampling`).
-/

namespace LatencyControl

namespace ReporterRole

/-- Whether the role is to measure a member. -/
def samples : ReporterRole → Bool
  | .vertex r => !r.isDummy
  | .edge _ => false

/-- Whether the role stands in for a member and measures nothing. -/
def isDummy : ReporterRole → Bool
  | .vertex r => r.isDummy
  | .edge _ => false

theorem IsFor.manager_eq {m : ManagerRef} {r : ReporterRole} (h : r.IsFor m) : r.manager = m := by
  cases r with
  | vertex v => exact h.1
  | edge e => exact h.1

theorem isDummy_of_samples {r : ReporterRole} (h : r.samples = true) : r.isDummy = false := by
  cases r with
  | vertex v => simpa [samples, isDummy] using h
  | edge e => rfl

/-- A role with the key of a member's reporter measures that member, unless it is a dummy. -/
theorem samples_of_key_eq {m m' : ManagerRef} {r r' : ReporterRole} (hr : r.IsFor m)
    (hr' : r'.IsFor m') (hsamples : r.samples = true) (hkey : r'.reporter = r.reporter)
    (hdummy : r'.isDummy = false) : r'.samples = true := by
  cases r with
  | edge e => cases hsamples
  | vertex v =>
    cases r' with
    | vertex v' => simpa [samples, isDummy] using hdummy
    | edge e' =>
      obtain ⟨-, i, o, hvertex⟩ := hr
      obtain ⟨-, hedge⟩ := hr'
      simp only [reporter] at hkey
      rw [hvertex, hedge] at hkey
      cases hkey

end ReporterRole

namespace Deployment

/-- The host has a role that measures a member, with the given key. -/
def Samples (d : Deployment) (host : HostId) (key : ReporterId × ManagerId) : Prop :=
  ∃ r ∈ d.reportersOn host, r.samples = true ∧ r.key = key

instance (d : Deployment) (host : HostId) (key : ReporterId × ManagerId) :
    Decidable (d.Samples host key) :=
  inferInstanceAs (Decidable (∃ r ∈ d.reportersOn host, r.samples = true ∧ r.key = key))

/-- Every measurement of a member that a manager assigns to a host is made there for it. -/
def KeepsSampling (d : Deployment) : Prop :=
  ∀ r ∈ d.managerRoles, ∀ a ∈ r.assigned, a.2.samples = true →
    d.Samples a.1 (a.2.reporter, r.manager)

instance (d : Deployment) : Decidable d.KeepsSampling :=
  inferInstanceAs (Decidable (∀ r ∈ d.managerRoles, ∀ a ∈ r.assigned, a.2.samples = true →
    d.Samples a.1 (a.2.reporter, r.manager)))

variable {topologies : Table ConstraintId Topology} {d : Deployment}

/-- The host measures for a key if the first role with this key that it keeps is one of
measuring. -/
theorem samples_iff_find? (h : assignRoles.run.run { topologies } = (.ok (), d)) (host : HostId)
    (key : ReporterId × ManagerId) :
    d.Samples host key ↔
      ∃ r, (d.reportersOn host).find? (fun r => r.key = key) = some r ∧ r.samples = true := by
  constructor
  · rintro ⟨r, hr, hsamples, hkey⟩
    obtain ⟨r', hr'⟩ : ∃ r', (d.reportersOn host).find? (fun r => r.key = key) = some r' := by
      rw [← Option.isSome_iff_exists, List.find?_isSome]
      exact ⟨r, hr, by simpa using hkey⟩
    have hkey' : r'.key = key := by simpa using List.find?_some hr'
    have hsame : r' = r := List.inj_on_of_nodup_map (nodup_reportersOn_of_run h host)
      (List.mem_of_find?_eq_some hr') hr (hkey'.trans hkey.symm)
    exact ⟨r', hr', hsame ▸ hsamples⟩
  · rintro ⟨r, hr, hsamples⟩
    exact ⟨r, List.mem_of_find?_eq_some hr, hsamples, by simpa using List.find?_some hr⟩

/-- **When a measurement is kept.**  If a manager assigns the measurement of a member to a host, the
host makes it for this manager exactly if no dummy with the same key was assigned to the host before
all other roles with that key. -/
theorem samples_iff_first (h : assignRoles.run.run { topologies } = (.ok (), d)) :
    ∀ r ∈ d.managerRoles, ∀ a ∈ r.assigned, a.2.samples = true →
      (d.Samples a.1 (a.2.reporter, r.manager) ↔
        ∀ first, d.assigned.find? (fun b => b.1 = a.1 ∧ b.2.key = (a.2.reporter, r.manager))
          = some first → first.2.isDummy = false) := by
  intro r hr a ha hsamples
  obtain ⟨roles, -, hassigned, -⟩ := run_assignRoles h
  have hfor : ∀ r ∈ d.managerRoles, ∀ a ∈ r.assigned, a.2.IsFor r.ref := fun r hr a ha =>
    ManagerRole.isFor_of_mem_assignments (hassigned r hr) ha
  have hkey : a.2.key = (a.2.reporter, r.manager) := by
    rw [ReporterRole.key, (hfor r hr a ha).manager_eq]
    rfl
  rw [samples_iff_find? h, find?_reportersOn_of_run h]
  constructor
  · rintro ⟨r', hr', hsamples'⟩ first hfirst
    rw [hfirst, Option.map_some, Option.some.injEq] at hr'
    rw [hr']
    exact ReporterRole.isDummy_of_samples hsamples'
  · intro hdummy
    -- there is a first role, as `a` is one of them; it measures since its key is that of a member
    obtain ⟨first, hfirst⟩ : ∃ first, d.assigned.find?
        (fun b => b.1 = a.1 ∧ b.2.key = (a.2.reporter, r.manager)) = some first := by
      rw [← Option.isSome_iff_exists, List.find?_isSome]
      exact ⟨a, List.mem_flatMap.mpr ⟨r, hr, ha⟩, by simp [hkey]⟩
    obtain ⟨r', hr', hmem⟩ := List.mem_flatMap.mp (List.mem_of_find?_eq_some hfirst)
    have hsame : first.2.key = (a.2.reporter, r.manager) := by
      have := List.find?_some hfirst
      simp only [decide_eq_true_eq] at this
      exact this.2
    refine ⟨first.2, by rw [hfirst, Option.map_some], ?_⟩
    exact ReporterRole.samples_of_key_eq (hfor r hr a ha) (hfor r' hr' first hmem) hsamples
      (congrArg Prod.fst hsame) (hdummy first hfirst)

/-! ### A measurement that is lost -/

/-- A job whose first constraint puts a dummy where the second one needs a measurement. -/
def borderJob : Job :=
  let link : Link := { source := ⟨"A"⟩, outputGate := 0, target := ⟨"B"⟩, inputGate := 0 }
  { id := ⟨"job"⟩
    groups :=
      [{ id := ⟨"A"⟩, name := "A", members := [{ id := ⟨"a"⟩, host := ⟨"h"⟩ }] },
        { id := ⟨"B"⟩, name := "B", members := [{ id := ⟨"b"⟩, host := ⟨"h"⟩ }] }]
    edges := [{ link, pattern := .pointwise }]
    constraints :=
      [{ id := ⟨"c1"⟩, name := "c1", sequence := [.edge link .readWrite], bound := 10 },
        { id := ⟨"c2"⟩, name := "c2", sequence := [.vertex ⟨"A"⟩ none (some 0) .readWrite],
          bound := 10 }] }

/-- The topologies of the job, one for each constraint. -/
def borderTopologies : Table ConstraintId Topology :=
  match borderJob.topology with
  | .ok t => Table.ofList t.splitByConstraint
  | .error _ => Table.empty

/-- What the deployment of the job comes to. -/
def borderDeployment : Deployment :=
  (assignRoles.run.run { topologies := borderTopologies }).2

theorem run_borderTopologies :
    assignRoles.run.run { topologies := borderTopologies } = (.ok (), borderDeployment) :=
  run_of_isOk (by decide +kernel)

theorem samples_iff_first_border :
    assignRoles.run.run { topologies := borderTopologies } = (.ok (), borderDeployment) ∧
      ∀ r ∈ borderDeployment.managerRoles, ∀ a ∈ r.assigned, a.2.samples = true →
        (borderDeployment.Samples a.1 (a.2.reporter, r.manager) ↔
          ∀ first, borderDeployment.assigned.find?
            (fun b => b.1 = a.1 ∧ b.2.key = (a.2.reporter, r.manager)) = some first →
              first.2.isDummy = false) :=
  ⟨run_borderTopologies, samples_iff_first run_borderTopologies⟩

/-- Not every measurement is made, although nothing fails. -/
theorem not_keepsSampling :
    ¬ ∀ (topologies : Table ConstraintId Topology) (d : Deployment),
      assignRoles.run.run { topologies } = (.ok (), d) → d.KeepsSampling := by
  intro h
  have hkeeps := h borderTopologies borderDeployment run_borderTopologies
  have hloses : ¬ borderDeployment.KeepsSampling := by decide +kernel
  exact hloses hkeeps

end Deployment

end LatencyControl
