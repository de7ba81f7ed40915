import Mathlib.Logic.Function.Basic
import LatencyControl.Proofs.Monitor.Watching
import LatencyControl.Proofs.Report.Accounting
import LatencyControl.Proofs.Report.Center

/-!
# Configurations reach the tasks

On a host, the tasks listen to the center, and the scheduler of a task registers the reporters of
its own member.  A center drops what it knows by the reporter and the manager, and a scheduler drops
what it has by the reporter alone.  Between the two, every task that listens comes to have each
reporter that is configured for it, once, in whatever order things happen (`reporters_spread`).

What a task does is said once, by `Scheduler.Registers`: it has come to have the wanted reporters,
and it has not changed otherwise.  `Host.IsBound` says this of a whole run, with what the known
configurations want, and each thing that happens preserves it.
-/

namespace LatencyControl

namespace Scheduler

variable {τ : Type}

/-! ### Configured reporters -/

/-- A configuration asks for a reporter of a member that its task can register. -/
def Wants (s : Scheduler τ) (member : MemberId) (config : Config) (id : ReporterId) : Prop :=
  ∃ c, config = .vertex c ∧ c.member = member ∧ c.isDummy = false ∧ s.HasGates c.input c.output ∧
    c.reporter = id

/-- **What a configuration makes a task do.**  The reporter that it asks for is registered unless it
is there; nothing else changes. -/
theorem configure_cases (s : Scheduler τ) (now : τ) (member : MemberId) (config : Config) :
    (s.configure now member config = s ∧ ∀ id, s.Wants member config id → id ∈ s.ids) ∨
      ∃ r : Reporter τ, s.Wants member config r.id ∧ r.id ∉ s.ids ∧
        s.configure now member config = { s with reporters := s.reporters ++ [r] } := by
  cases config with
  | edge c =>
    refine .inl ⟨rfl, ?_⟩
    rintro id ⟨c', hc', -⟩
    cases hc'
  | vertex c =>
    rw [configure]
    split_ifs with hmine
    · obtain ⟨hmember, hdummy⟩ := hmine
      rcases s.register_cases now c.input c.output c.reporter with
        ⟨hgates, e, hregister⟩ | ⟨hfound, hregister⟩ | ⟨hgates, hnew, hregister⟩
      · rw [hregister]
        refine .inl ⟨rfl, ?_⟩
        rintro id ⟨c', hc', -, -, hgates', -⟩
        obtain rfl := Config.vertex.inj hc'
        exact absurd hgates' hgates
      · rw [hregister]
        refine .inl ⟨rfl, ?_⟩
        rintro id ⟨c', hc', -, -, -, rfl⟩
        obtain rfl := Config.vertex.inj hc'
        exact hfound
      · rw [hregister]
        have hdummy : c.isDummy = false := Bool.not_eq_true _ ▸ hdummy
        exact .inr ⟨_, ⟨c, rfl, hmember, hdummy, hgates, rfl⟩, hnew, rfl⟩
    · refine .inl ⟨rfl, ?_⟩
      rintro id ⟨c', hc', hmember, hdummy, -⟩
      obtain rfl := Config.vertex.inj hc'
      exact absurd ⟨hmember, Bool.not_eq_true _ ▸ hdummy⟩ hmine

/-- A task has come to have the wanted reporters, each of them once, and is the same otherwise. -/
structure Registers (s s' : Scheduler τ) (wanted : ReporterId → Prop) : Prop where
  inputs : s'.inputs = s.inputs
  outputs : s'.outputs = s.outputs
  distinct : s.HasDistinctIds → s'.HasDistinctIds
  mem_ids : ∀ id, id ∈ s'.ids ↔ id ∈ s.ids ∨ wanted id

namespace Registers

variable {s s' s'' : Scheduler τ} {wanted wanted' : ReporterId → Prop}

theorem congr (h : s.Registers s' wanted) (hsame : ∀ id, wanted id ↔ wanted' id) :
    s.Registers s' wanted' where
  inputs := h.inputs
  outputs := h.outputs
  distinct := h.distinct
  mem_ids id := by rw [h.mem_ids, hsame]

theorem refl (s : Scheduler τ) : s.Registers s (fun _ => False) where
  inputs := rfl
  outputs := rfl
  distinct := fun h => h
  mem_ids id := by rw [or_false]

theorem trans (h : s.Registers s' wanted) (h' : s'.Registers s'' wanted') :
    s.Registers s'' (fun id => wanted id ∨ wanted' id) where
  inputs := h'.inputs.trans h.inputs
  outputs := h'.outputs.trans h.outputs
  distinct := fun hids => h'.distinct (h.distinct hids)
  mem_ids id := by rw [h'.mem_ids, h.mem_ids, or_assoc]

/-- A task goes on having the gates that it had. -/
theorem wants_iff (h : s.Registers s' wanted) {member : MemberId} {config : Config}
    {id : ReporterId} : s'.Wants member config id ↔ s.Wants member config id := by
  simp only [Wants, hasGates_iff, h.inputs, h.outputs]

end Registers

theorem registers_configure (s : Scheduler τ) (now : τ) (member : MemberId) (config : Config) :
    s.Registers (s.configure now member config) (s.Wants member config) := by
  rcases s.configure_cases now member config with ⟨hsame, hwants⟩ | ⟨r, hwants, hnew, hadd⟩
  · rw [hsame]
    exact ⟨rfl, rfl, fun h => h, fun id => ⟨.inl, fun h => h.elim (fun h => h) (hwants id)⟩⟩
  · rw [hadd]
    have hids : ({ s with reporters := s.reporters ++ [r] } : Scheduler τ).ids = s.ids ++ [r.id] :=
      List.map_append
    refine ⟨rfl, rfl, fun hdistinct => ?_, fun id => ?_⟩
    · show List.Nodup (ids _)
      rw [hids, ← List.concat_eq_append, List.nodup_concat]
      exact ⟨hnew, hdistinct⟩
    · rw [hids, List.mem_append, List.mem_singleton]
      obtain ⟨c, rfl, hmember, hdummy, hgates, hid⟩ := hwants
      refine or_congr_right ⟨?_, ?_⟩
      · rintro rfl
        exact ⟨c, rfl, hmember, hdummy, hgates, hid⟩
      · rintro ⟨c', hc', -, -, -, rfl⟩
        obtain rfl := Config.vertex.inj hc'
        exact hid

theorem registers_configureAll (s : Scheduler τ) (now : τ) (told : List (Center.Notice MemberId)) :
    s.Registers (s.configureAll now told)
      (fun id => ∃ notice ∈ told, s.Wants notice.1 notice.2 id) := by
  induction told generalizing s with
  | nil => exact (Registers.refl s).congr fun id => by simp
  | cons notice rest ih =>
    have hfirst := s.registers_configure now notice.1 notice.2
    refine (hfirst.trans (ih (s.configure now notice.1 notice.2))).congr fun id => ?_
    simp only [hfirst.wants_iff, List.exists_mem_cons_iff]

theorem registers_hear [Millis τ] (s : Scheduler τ) (clock : ReporterId → Readings τ)
    (e : GateEvent) : s.Registers (s.hear clock e).1 (fun _ => False) where
  inputs := rfl
  outputs := rfl
  distinct h := h.step (.event clock e)
  mem_ids id := by rw [ids, ids_hear, ids, or_false]

end Scheduler

/-! ### Hosts -/

/-- A host: its center, which the tasks listen to, and the schedulers of the tasks. -/
structure Host (τ : Type) where
  center : Center MemberId
  tasks : MemberId → Scheduler τ

namespace Host

variable {τ : Type}

/-- What happens on a host: the center is called, or there is an event at a gate of a task.  A task
is bound to the center by making it a listener. -/
inductive Call (τ : Type)
  | center (now : τ) (call : Center.Call MemberId)
  | event (member : MemberId) (clock : ReporterId → Readings τ) (e : GateEvent)

/-- The tasks that listen have come to have what the known configurations want. -/
def IsBound (h : Host τ) (member : MemberId) (s : Scheduler τ) : Prop :=
  s.Registers (h.tasks member) fun id =>
    ∃ config, (member ∈ h.center.listeners ∧ config ∈ h.center.configs) ∧ s.Wants member config id

section

variable [Millis τ]

/-- The host after something has happened.  Every task hears of the notices that are for it. -/
def step (h : Host τ) : Call τ → Host τ
  | .center now call =>
    let (center, told) := h.center.step call
    { center, tasks := fun member =>
        (h.tasks member).configureAll now (told.filter (fun notice => notice.1 = member)) }
  | .event member clock e =>
    { h with tasks := Function.update h.tasks member ((h.tasks member).hear clock e).1 }

/-- The host after several things have happened. -/
def after (h : Host τ) (calls : List (Call τ)) : Host τ := calls.foldl step h

/-- **Whatever happens, tasks stay bound.** -/
theorem IsBound.step {h : Host τ} {member : MemberId} {s : Scheduler τ}
    (hbound : h.IsBound member s) (call : Call τ) : (h.step call).IsBound member s := by
  cases call with
  | center now call =>
    have htold := (h.tasks member).registers_configureAll now
      ((h.center.step call).2.filter (fun notice => notice.1 = member))
    refine (hbound.trans htold).congr fun id => ?_
    simp only [hbound.wants_iff]
    constructor
    · -- what the task has registered so far, or what it is told now, is known to the center
      rintro (⟨config, hknown, hwants⟩ | ⟨⟨member', config⟩, hnotice, hwants⟩)
      · exact ⟨config, h.center.mem_step_iff.mp (.inl hknown), hwants⟩
      · rw [List.mem_filter, decide_eq_true_eq] at hnotice
        obtain ⟨hnotice, rfl⟩ := hnotice
        exact ⟨config, h.center.mem_step_iff.mp (.inr hnotice), hwants⟩
    · rintro ⟨config, hknown, hwants⟩
      rcases h.center.mem_step_iff.mpr hknown with hknown | hnotice
      · exact .inl ⟨config, hknown, hwants⟩
      · exact .inr ⟨(member, config),
          List.mem_filter.mpr ⟨hnotice, decide_eq_true rfl⟩, hwants⟩
  | event member' clock e =>
    by_cases hmember : member = member'
    · subst hmember
      have hsame : (h.step (.event member clock e)).tasks member
          = ((h.tasks member).hear clock e).1 := Function.update_self _ _ _
      unfold IsBound
      rw [hsame]
      exact (hbound.trans ((h.tasks member).registers_hear clock e)).congr
        fun id => Iff.of_eq (or_false _)
    · have hsame : (h.step (.event member' clock e)).tasks member = h.tasks member :=
        Function.update_of_ne hmember _ _
      unfold IsBound
      rw [hsame]
      exact hbound

theorem IsBound.after {h : Host τ} {member : MemberId} {s : Scheduler τ}
    (hbound : h.IsBound member s) (calls : List (Call τ)) : (h.after calls).IsBound member s := by
  induction calls generalizing h with
  | nil => exact hbound
  | cons call rest ih => exact ih (hbound.step call)

end

/-- No task of a host whose center has no listeners is bound to it yet. -/
theorem isBound_of_listeners {h : Host τ} (hl : h.center.listeners = []) (member : MemberId) :
    h.IsBound member (h.tasks member) := by
  refine (Scheduler.Registers.refl _).congr fun id => ?_
  rw [hl]
  simp

/-- The reporters of a task that listens are those that the known configurations of its member want,
as far as the task has their gates. -/
theorem IsBound.mem_ids_iff {h : Host τ} {member : MemberId} {s : Scheduler τ}
    (hbound : h.IsBound member s) (hs : s.reporters = []) (hl : member ∈ h.center.listeners)
    (id : ReporterId) :
    id ∈ (h.tasks member).ids ↔ ∃ c ∈ h.center.vertexConfigsOf member,
      c.isDummy = false ∧ s.HasGates c.input c.output ∧ c.reporter = id := by
  have hnone : id ∉ s.ids := by
    rw [Scheduler.ids, hs]
    exact List.not_mem_nil
  rw [hbound.mem_ids, or_iff_right hnone]
  constructor
  · rintro ⟨_, ⟨-, hkept⟩, c, rfl, hmember, hwants⟩
    refine ⟨c, List.mem_filter.mpr ⟨?_, decide_eq_true hmember⟩, hwants⟩
    exact List.mem_filterMap.mpr ⟨_, hkept, rfl⟩
  · rintro ⟨c, hc, hwants⟩
    obtain ⟨hc, hmember⟩ := List.mem_filter.mp hc
    obtain ⟨config, hkept, hvertex⟩ := List.mem_filterMap.mp hc
    cases config with
    | edge c' => cases hvertex
    | vertex c' =>
      obtain rfl := Option.some.inj hvertex
      exact ⟨_, ⟨hl, hkept⟩, c', rfl, of_decide_eq_true hmember, hwants⟩

end Host

/-! ### The roles of a host -/

/-- The configurations for the roles of a host have the keys of the roles. -/
theorem RoleSet.map_key_configs_perm (s : RoleSet) :
    (s.configs.map Config.key).Perm (s.reporters.map ReporterRole.key) := by
  unfold configs vertexRoles edgeRoles
  induction s.reporters with
  | nil => exact List.Perm.nil
  | cons r rest ih =>
    cases r with
    | vertex r => exact ih.cons _
    | edge r =>
      simp only [List.filterMap_cons, List.map_cons, List.map_append] at ih ⊢
      exact List.perm_middle.trans (ih.cons _)

theorem DeployedJob.announceAll_configsOf {id : JobId} {topologies : Table ConstraintId Topology}
    {settings : Settings} {proposals : Option (List ChainProposal)} {d : DeployedJob}
    (h : deploy id topologies settings proposals = .ok d) (host : HostId) {ℓ : Type} {c : Center ℓ}
    (hc : c.configs = []) :
    (c.announceAll (d.configsOf host)).1 = (d.reportersOn host).length ∧
      ((c.announceAll (d.configsOf host)).2.1.announceAll (d.configsOf host)).1 = 0 := by
  obtain ⟨d', hrun, -, hreporters⟩ := exists_run_of_deploy h
  have hperm : ((d.configsOf host).map Config.key).Perm
      ((d.reportersOn host).map ReporterRole.key) := by
    unfold configsOf reportersOn
    cases d.rolesOf? host with
    | none => exact List.Perm.nil
    | some s => exact s.map_key_configs_perm
  have hnodup : ((c.configs ++ d.configsOf host).map Config.key).Nodup := by
    rw [hc, List.nil_append, hperm.nodup_iff, hreporters]
    exact Deployment.nodup_reportersOn_of_run hrun host
  obtain ⟨hcount, hconfigs⟩ := Center.announceAll_of_nodup hnodup
  refine ⟨?_, Center.announceAll_of_knows fun config hconfig => ?_⟩
  · -- the roles have different keys, so all of them are news to a center that knows nothing
    rw [hcount]
    simpa using hperm.length_eq
  · rw [Center.knows_iff, hconfigs]
    exact ⟨config, List.mem_append_right _ hconfig, rfl⟩

/-! ### All together -/

/-- **Every reporter is configured once.**
- Whatever a new center is called for, a listener is told of each configuration that is the first of
  its key to be announced as often as the listener was added, and of no other; and the answer to an
  announcement says whether it is the first of its key.
- On a host whose tasks have the gates that are configured, the tasks that listen have exactly the
  reporters of their members' known configurations but the dummies, each of them once.
- Announcing the roles of a host of a deployed job to a new center is answered with the number of
  its reporters, and with none the second time. -/
theorem reporters_spread :
    (∀ (ℓ : Type) [DecidableEq ℓ] (interval : Int64) (calls : List (Center.Call ℓ)),
      (∀ listener config, (Center.told { interval } calls).count (listener, config)
        = if Center.IsFirst config (calls.filterMap Center.Call.config?) then
            calls.count (.listen listener) else 0) ∧
      ∀ before config later, calls = before ++ .announce config :: later →
        (((Center.after { interval } before).announce config).1 = true ↔
          ∀ earlier ∈ before.filterMap Center.Call.config?, earlier.key ≠ config.key)) ∧
    (∀ (τ : Type) [Millis τ] (interval : Int64) (tasks : MemberId → Scheduler τ)
      (calls : List (Host.Call τ)) (member : MemberId), (tasks member).reporters = [] →
      let host := Host.after { center := { interval }, tasks } calls
      member ∈ host.center.listeners →
      (∀ c ∈ host.center.vertexConfigsOf member, c.isDummy = false →
        (tasks member).HasGates c.input c.output) →
      (host.tasks member).ids.Nodup ∧
        ∀ id, id ∈ (host.tasks member).ids ↔
          ∃ c ∈ host.center.vertexConfigsOf member, c.isDummy = false ∧ c.reporter = id) ∧
    ∀ (id : JobId) (topologies : Table ConstraintId Topology) (settings : Settings)
      (proposals : Option (List ChainProposal)) (d : DeployedJob),
      DeployedJob.deploy id topologies settings proposals = .ok d →
      ∀ (host : HostId) (ℓ : Type) (c : Center ℓ), c.configs = [] →
        (c.announceAll (d.configsOf host)).1 = (d.reportersOn host).length ∧
          ((c.announceAll (d.configsOf host)).2.1.announceAll (d.configsOf host)).1 = 0 := by
  refine ⟨?_, ?_, ?_⟩
  · intro ℓ _ interval calls
    constructor
    · exact Center.count_told_eq_ite rfl rfl calls
    · rintro before config later rfl
      exact Center.announce_after_eq_true_iff rfl before config
  · intro τ _ interval tasks calls member hnone host hl hgates
    have hbound : host.IsBound member (tasks member) :=
      (Host.isBound_of_listeners rfl member).after calls
    refine ⟨hbound.distinct (Scheduler.HasDistinctIds.of_reporters_eq_nil hnone), fun id => ?_⟩
    rw [hbound.mem_ids_iff hnone hl]
    constructor
    · rintro ⟨c, hc, hdummy, -, hid⟩
      exact ⟨c, hc, hdummy, hid⟩
    · rintro ⟨c, hc, hdummy, hid⟩
      exact ⟨c, hc, hdummy, hgates c hc hdummy, hid⟩
  · intro id topologies settings proposals d hd host ℓ c hc
    exact DeployedJob.announceAll_configsOf hd host hc

/-- The configuration of `Scheduler.throughReporter` for a manager. -/
def throughConfig (manager : ManagerId) : Config :=
  .vertex { reporter := Scheduler.throughReporter, member := ⟨"v"⟩, input := some 0
            output := some 0, sampling := .readWrite, isDummy := false, manager }

/-- The configuration is announced for two managers, and again for the first of them; in between,
the member's task starts to listen. -/
def throughAnnouncements : List (Center.Call MemberId) :=
  [.announce (throughConfig ⟨"m"⟩), .listen ⟨"v"⟩, .announce (throughConfig ⟨"n"⟩),
    .announce (throughConfig ⟨"m"⟩)]

/-- The host of a task with one gate on either side, after the announcements. -/
def throughHost : Host ℤ :=
  Host.after { center := { interval := 1000 }, tasks := fun _ => Scheduler.throughScheduler }
    (throughAnnouncements.map (.center 0))

theorem reporters_spread_through :
    (Center.told { interval := 1000 } throughAnnouncements).count (⟨"v"⟩, throughConfig ⟨"m"⟩) = 1 ∧
      ((Center.after { interval := 1000 } (throughAnnouncements.take 3)).announce
        (throughConfig ⟨"m"⟩)).1 ≠ true ∧
      (throughHost.tasks ⟨"v"⟩).ids.Nodup ∧
      Scheduler.throughReporter ∈ (throughHost.tasks ⟨"v"⟩).ids ∧
      ∃ d, DeployedJob.ofJob DeployedJob.funnelJob {} none = .ok d ∧
        (Center.announceAll ({ interval := 1000 } : Center MemberId) (d.configsOf ⟨"h"⟩)).1
          = (d.reportersOn ⟨"h"⟩).length := by
  obtain ⟨hcenter, hhost, hroles⟩ := reporters_spread
  obtain ⟨htold, hanswer⟩ := hcenter MemberId 1000 throughAnnouncements
  obtain ⟨hnodup, hids⟩ := hhost ℤ 1000 (fun _ => Scheduler.throughScheduler)
    (throughAnnouncements.map (.center 0)) ⟨"v"⟩ rfl (by decide +kernel) (by decide +kernel)
  obtain ⟨d, hd⟩ : ∃ d, DeployedJob.ofJob DeployedJob.funnelJob {} none = .ok d :=
    exists_eq_ok (by decide +kernel)
  obtain ⟨t, -, hdeploy⟩ := bind_eq_ok.mp hd
  refine ⟨?_, ?_, hnodup, ?_, d, hd, (hroles _ _ _ _ d hdeploy ⟨"h"⟩ MemberId _ rfl).1⟩
  · rw [htold]
    decide +kernel
  · rw [ne_eq, hanswer _ _ [] rfl]
    decide +kernel
  · exact (hids _).mpr (by decide +kernel)

end LatencyControl
