import LatencyControl.Proofs.Result
import LatencyControl.Proofs.Role.RoleTable

/-!
# What assigning roles comes to

Assigning roles changes a deployment step by step and may stop at a fault.  If it gets through, all
of it can be said at once: `Deployment.createManagers` computes the manager roles without touching a
deployment, and `run_assignRoles` says that the deployment then holds exactly these manager roles
and has taken all their reporters, manager by manager.
-/

namespace LatencyControl

/-- The reporters of a manager role; none if they cannot be told. -/
def ManagerRole.assigned (r : ManagerRole) : List Assignment := r.assignments.toOption.getD []

namespace Deployment

/-- The manager roles of the constraints of some topologies, one topology after the other; `used`
holds the anchors of earlier constraints. -/
def createManagers : List Topology → KeySet GroupId → Except Error (List ManagerRole)
  | [], _ => .ok []
  | t :: rest, used => do
    let c ← t.singleConstraint
    let (anchor, used) ← t.selectAnchor used
    let parts ← partition t anchor
    let roles ← parts.entries.mapM fun part => ManagerRole.create part.1 c.id t anchor part.2
    return roles ++ (← createManagers rest used)

/-- The managers of one constraint, one on each host with anchor members. -/
theorem run_forM_assignManager_eq_ok_iff {t : Topology} {c : ConstraintId} {anchor : GroupId}
    (parts : List (HostId × List MemberId)) {d d' : Deployment} :
    (parts.forM (assignManager t c anchor)).run.run d = (.ok (), d') ↔ ∃ roles,
      parts.mapM (fun part => ManagerRole.create part.1 c t anchor part.2) = .ok roles ∧
        d' = roles.foldl addManager d := by
  induction parts generalizing d with
  | nil =>
    constructor
    · intro h
      cases h
      exact ⟨[], rfl, rfl⟩
    · rintro ⟨roles, hroles, rfl⟩
      cases hroles
      rfl
  | cons part rest ih =>
    constructor
    · intro h
      obtain ⟨_, d₁, hfirst, hrest⟩ := run_bind_eq_ok.mp h
      obtain ⟨role, d₂, hrole, hadd⟩ := run_bind_eq_ok.mp hfirst
      obtain ⟨hcreate, rfl⟩ := run_lift_eq_ok.mp hrole
      cases hadd
      obtain ⟨roles, hroles, rfl⟩ := ih.mp hrest
      refine ⟨role :: roles, ?_, rfl⟩
      rw [List.mapM_cons, hcreate, hroles]
      rfl
    · rintro ⟨roles, hroles, rfl⟩
      rw [List.mapM_cons] at hroles
      obtain ⟨role, hcreate, hroles⟩ := bind_eq_ok.mp hroles
      obtain ⟨later, hlater, hroles⟩ := bind_eq_ok.mp hroles
      obtain rfl := Except.ok.inj hroles
      have hfirst : (assignManager t c anchor part).run.run d = (.ok (), d.addManager role) :=
        run_bind_eq_ok.mpr ⟨role, d, run_lift_eq_ok.mpr ⟨hcreate, rfl⟩, rfl⟩
      exact run_bind_eq_ok.mpr ⟨(), _, hfirst, ih.mpr ⟨later, hlater, rfl⟩⟩

theorem run_assignManagers_eq_ok_iff (ts : List Topology) {used : KeySet GroupId}
    {d d' : Deployment} :
    (assignManagers ts used).run.run d = (.ok (), d') ↔
      ∃ roles, createManagers ts used = .ok roles ∧ d' = roles.foldl addManager d := by
  induction ts generalizing used d with
  | nil =>
    constructor
    · intro h
      cases h
      exact ⟨[], rfl, rfl⟩
    · rintro ⟨roles, hroles, rfl⟩
      cases hroles
      rfl
  | cons t rest ih =>
    constructor
    · intro h
      obtain ⟨c, d₁, hc, h₁⟩ := run_bind_eq_ok.mp h
      obtain ⟨hconstraint, rfl⟩ := run_lift_eq_ok.mp hc
      obtain ⟨⟨anchor, used'⟩, d₂, ha, h₂⟩ := run_bind_eq_ok.mp h₁
      obtain ⟨hanchor, rfl⟩ := run_lift_eq_ok.mp ha
      obtain ⟨parts, d₃, hp, h₃⟩ := run_bind_eq_ok.mp h₂
      obtain ⟨hparts, rfl⟩ := run_lift_eq_ok.mp hp
      obtain ⟨_, d₄, hforM, h₄⟩ := run_bind_eq_ok.mp h₃
      obtain ⟨roles, hroles, rfl⟩ := (run_forM_assignManager_eq_ok_iff parts.entries).mp hforM
      obtain ⟨later, hlater, rfl⟩ := ih.mp h₄
      refine ⟨roles ++ later, ?_, by rw [List.foldl_append]⟩
      simp only [createManagers, hconstraint, hanchor, hparts, hroles, hlater, bind, Except.bind,
        pure, Except.pure]
    · rintro ⟨roles, h, rfl⟩
      obtain ⟨c, hconstraint, h⟩ := bind_eq_ok.mp h
      obtain ⟨⟨anchor, used'⟩, hanchor, h⟩ := bind_eq_ok.mp h
      obtain ⟨parts, hparts, h⟩ := bind_eq_ok.mp h
      obtain ⟨own, hown, h⟩ := bind_eq_ok.mp h
      obtain ⟨later, hlater, h⟩ := bind_eq_ok.mp h
      obtain rfl := Except.ok.inj h
      have hforM := (run_forM_assignManager_eq_ok_iff (d := d) parts.entries).mpr ⟨own, hown, rfl⟩
      have hrest : (assignManagers rest used').run.run (own.foldl addManager d)
          = (.ok (), (own ++ later).foldl addManager d) :=
        ih.mpr ⟨later, hlater, by rw [List.foldl_append]⟩
      exact run_bind_eq_ok.mpr ⟨c, d, run_lift_eq_ok.mpr ⟨hconstraint, rfl⟩,
        run_bind_eq_ok.mpr ⟨(anchor, used'), d, run_lift_eq_ok.mpr ⟨hanchor, rfl⟩,
          run_bind_eq_ok.mpr ⟨parts, d, run_lift_eq_ok.mpr ⟨hparts, rfl⟩,
            run_bind_eq_ok.mpr ⟨(), _, hforM, hrest⟩⟩⟩⟩

/-- The reporters of some manager roles. -/
theorem run_assignReporters (roles : List ManagerRole) {d d' : Deployment}
    (h : (assignReporters roles).run.run d = (.ok (), d')) :
    (∀ r ∈ roles, r.assignments = .ok r.assigned) ∧
      d' = (roles.flatMap ManagerRole.assigned).foldl addReporter d := by
  induction roles generalizing d with
  | nil =>
    cases h
    exact ⟨fun r hr => (List.not_mem_nil hr).elim, rfl⟩
  | cons r rest ih =>
    obtain ⟨found, d₁, hr, h₁⟩ := run_bind_eq_ok.mp h
    obtain ⟨hfound, rfl⟩ := run_lift_eq_ok.mp hr
    obtain ⟨_, d₂, hmodify, h₂⟩ := run_bind_eq_ok.mp h₁
    cases hmodify
    obtain ⟨hlater, rfl⟩ := ih h₂
    have hassigned : r.assigned = found := by
      rw [ManagerRole.assigned, hfound]
      rfl
    refine ⟨fun r' hr' => ?_, ?_⟩
    · rcases List.mem_cons.mp hr' with rfl | hr'
      · rw [hfound, hassigned]
      · exact hlater r' hr'
    · rw [List.flatMap_cons, List.foldl_append, hassigned]

/-- If the reporters of all manager roles can be told, they are assigned. -/
theorem exists_run_assignReporters {roles : List ManagerRole}
    (h : ∀ r ∈ roles, ∃ as, r.assignments = .ok as) (d : Deployment) :
    ∃ d', (assignReporters roles).run.run d = (.ok (), d') := by
  induction roles generalizing d with
  | nil => exact ⟨d, rfl⟩
  | cons r rest ih =>
    obtain ⟨found, hfound⟩ := h r List.mem_cons_self
    obtain ⟨d', hrest⟩ := ih (fun r' hr' => h r' (List.mem_cons_of_mem r hr'))
      (found.foldl addReporter d)
    refine ⟨d', run_bind_eq_ok.mpr ⟨found, d, run_lift_eq_ok.mpr ⟨hfound, rfl⟩, ?_⟩⟩
    exact run_bind_eq_ok.mpr ⟨(), _, rfl, hrest⟩

/-- Adding managers adds them to those that there are. -/
theorem mem_managerRoles_foldl_addManager {roles : List ManagerRole} {d : Deployment}
    {r : ManagerRole} :
    r ∈ (roles.foldl addManager d).managerRoles ↔ r ∈ d.managerRoles ∨ r ∈ roles := by
  simp [mem_managerRoles, managersOn_foldl_addManager, exists_or]

/-- All reporters of the managers of a deployment, in the order in which they are added. -/
def assigned (d : Deployment) : List Assignment := d.managerRoles.flatMap ManagerRole.assigned

/-- What a deployment that gets through comes to. -/
theorem run_of_isOk {topologies : Table ConstraintId Topology}
    (h : (assignRoles.run.run { topologies }).1.isOk = true) :
    assignRoles.run.run { topologies } = (.ok (), (assignRoles.run.run { topologies }).2) := by
  obtain ⟨⟨⟩, hok⟩ := exists_eq_ok h
  exact Prod.ext hok rfl

/-- A deployment that got through: the managers were created and added, and then the reporters of
all managers. -/
theorem run_assignRoles {topologies : Table ConstraintId Topology} {d : Deployment}
    (h : assignRoles.run.run { topologies } = (.ok (), d)) :
    ∃ roles, createManagers topologies.values Table.empty = .ok roles ∧
      (∀ r ∈ d.managerRoles, r.assignments = .ok r.assigned) ∧
      d = d.assigned.foldl addReporter (roles.foldl addManager { topologies }) := by
  obtain ⟨_, d₁, hget, h₁⟩ := run_bind_eq_ok.mp h
  cases hget
  obtain ⟨_, d₂, hmanagers, h₂⟩ := run_bind_eq_ok.mp h₁
  obtain ⟨roles, hroles, rfl⟩ := (run_assignManagers_eq_ok_iff _).mp hmanagers
  obtain ⟨_, d₃, hget, h₃⟩ := run_bind_eq_ok.mp h₂
  cases hget
  obtain ⟨hfound, rfl⟩ := run_assignReporters _ h₃
  refine ⟨roles, hroles, ?_, ?_⟩
  · rw [managerRoles_foldl_addReporter]
    exact hfound
  · rw [assigned, managerRoles_foldl_addReporter]

/-- Roles are assigned if the managers can be created and their reporters can be told. -/
theorem exists_run_assignRoles {topologies : Table ConstraintId Topology}
    {roles : List ManagerRole} (hroles : createManagers topologies.values Table.empty = .ok roles)
    (h : ∀ r ∈ roles, ∃ as, r.assignments = .ok as) :
    ∃ d, assignRoles.run.run { topologies } = (.ok (), d) := by
  have hmanagers := (run_assignManagers_eq_ok_iff (d := { topologies }) _).mpr ⟨roles, hroles, rfl⟩
  have hfound : ∀ r ∈ (roles.foldl addManager { topologies }).managerRoles,
      ∃ as, r.assignments = .ok as := by
    intro r hr
    rcases mem_managerRoles_foldl_addManager.mp hr with hr | hr
    · exact (List.not_mem_nil hr).elim
    · exact h r hr
  obtain ⟨d, hreporters⟩ :=
    exists_run_assignReporters hfound (roles.foldl addManager { topologies })
  exact ⟨d, run_bind_eq_ok.mpr ⟨_, _, rfl, run_bind_eq_ok.mpr ⟨(), _, hmanagers,
    run_bind_eq_ok.mpr ⟨_, _, rfl, hreporters⟩⟩⟩⟩

variable {topologies : Table ConstraintId Topology} {d : Deployment}

/-- The managers of a host after a deployment got through. -/
theorem managersOn_of_run (h : assignRoles.run.run { topologies } = (.ok (), d)) :
    ∃ roles, createManagers topologies.values Table.empty = .ok roles ∧
      ∀ host, d.managersOn host = roles.filter (fun r => r.host = host) := by
  obtain ⟨roles, hroles, -, hd⟩ := run_assignRoles h
  refine ⟨roles, hroles, fun host => ?_⟩
  rw [hd, managersOn_foldl_addReporter, managersOn_foldl_addManager]
  rfl

/-- The manager roles of a deployment that got through are those that were created. -/
theorem mem_managerRoles_of_run (h : assignRoles.run.run { topologies } = (.ok (), d))
    {roles : List ManagerRole} (hroles : createManagers topologies.values Table.empty = .ok roles)
    {r : ManagerRole} : r ∈ d.managerRoles ↔ r ∈ roles := by
  obtain ⟨roles', hroles', -, hd⟩ := run_assignRoles h
  obtain rfl : roles = roles' := Except.ok.inj (hroles.symm.trans hroles')
  have hnone : r ∉ ({ topologies } : Deployment).managerRoles := List.not_mem_nil
  rw [hd, managerRoles_foldl_addReporter, mem_managerRoles_foldl_addManager]
  simp only [hnone, false_or]

theorem mem_assigned_iff (h : assignRoles.run.run { topologies } = (.ok (), d)) {a : Assignment} :
    a ∈ d.assigned ↔ ∃ r ∈ d.managerRoles, ∃ as, r.assignments = .ok as ∧ a ∈ as := by
  obtain ⟨-, -, hassigned, -⟩ := run_assignRoles h
  rw [assigned, List.mem_flatMap]
  constructor
  · rintro ⟨r, hr, ha⟩
    exact ⟨r, hr, r.assigned, hassigned r hr, ha⟩
  · rintro ⟨r, hr, as, has, ha⟩
    obtain rfl := Except.ok.inj (has.symm.trans (hassigned r hr))
    exact ⟨r, hr, ha⟩

/-- The hosts that have roles after a deployment got through: those of the managers, and those that
reporters were assigned to. -/
theorem mem_keys_of_run (h : assignRoles.run.run { topologies } = (.ok (), d))
    {roles : List ManagerRole} (hroles : createManagers topologies.values Table.empty = .ok roles)
    {host : HostId} :
    host ∈ d.roles.keys ↔ (∃ a ∈ d.assigned, a.1 = host) ∨ ∃ r ∈ roles, r.host = host := by
  obtain ⟨roles', hroles', -, hd⟩ := run_assignRoles h
  obtain rfl : roles = roles' := Except.ok.inj (hroles.symm.trans hroles')
  have hnone : host ∉ ({ topologies } : Deployment).roles.keys := List.not_mem_nil
  conv_lhs => rw [hd]
  rw [mem_keys_foldl_addReporter, mem_keys_foldl_addManager]
  simp only [hnone, or_false]

theorem topologies_of_run (h : assignRoles.run.run { topologies } = (.ok (), d)) :
    d.topologies = topologies := by
  obtain ⟨roles, -, -, hd⟩ := run_assignRoles h
  rw [hd, topologies_foldl_addReporter, topologies_foldl_addManager]

/-- Of all reporters with one key that are assigned to a host, it holds the first. -/
theorem find?_reportersOn_of_run (h : assignRoles.run.run { topologies } = (.ok (), d))
    (host : HostId) (key : ReporterId × ManagerId) :
    (d.reportersOn host).find? (fun r => r.key = key)
      = (d.assigned.find? (fun a => a.1 = host ∧ a.2.key = key)).map Prod.snd := by
  obtain ⟨roles, -, -, hd⟩ := run_assignRoles h
  have hnone : (roles.foldl addManager { topologies }).reportersOn host = [] := by
    rw [reportersOn_foldl_addManager]
    rfl
  conv_lhs => rw [hd]
  rw [find?_reportersOn_foldl, hnone, List.find?_nil, Option.none_or]

/-- A host has the keys that are assigned to it. -/
theorem exists_mem_reportersOn_iff (h : assignRoles.run.run { topologies } = (.ok (), d))
    {host : HostId} {key : ReporterId × ManagerId} :
    (∃ r ∈ d.reportersOn host, r.key = key) ↔ ∃ a ∈ d.assigned, a.1 = host ∧ a.2.key = key := by
  have hsome := congrArg Option.isSome (find?_reportersOn_of_run h host key)
  rw [Option.isSome_map, Bool.eq_iff_iff, List.find?_isSome, List.find?_isSome] at hsome
  simp only [decide_eq_true_eq] at hsome
  exact hsome

/-- The reporters of a host have different keys. -/
theorem nodup_reportersOn_of_run (h : assignRoles.run.run { topologies } = (.ok (), d))
    (host : HostId) : ((d.reportersOn host).map ReporterRole.key).Nodup := by
  obtain ⟨roles, -, -, hd⟩ := run_assignRoles h
  rw [hd]
  refine nodup_reportersOn_foldl d.assigned ?_
  rw [reportersOn_foldl_addManager]
  exact List.nodup_nil

end Deployment

end LatencyControl
