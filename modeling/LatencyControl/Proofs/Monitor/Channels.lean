import LatencyControl.Proofs.Monitor.Staffing
import LatencyControl.Proofs.Topology.Naming

/-!
# What identifiers of channels denote

The reporters of channels and what models keep of them go by the names of channels
(`DeployedJob.Mentions`).  Each such name is that of a wire of the job
(`DeployedJob.exists_wire_of_mentions`), and the wires at one member have different names.  But the
wires of a whole job may share names, if its members are called in certain ways
(`Job.not_denotes_nestedJob`).  So a name denotes one wire only as far as there is no other that it
can be read as, which is so in any job that calls its members plainly (`Job.names_denote`).
-/

namespace LatencyControl

namespace Deployment

variable {t : Topology} {d : Deployment}

/-- The managers of a job know the wires of its topology. -/
theorem wires_of_mem_managerRoles (hsound : t.IsSound)
    (h : assignRoles.run.run { topologies := Table.ofList t.splitByConstraint } = (.ok (), d))
    {r : ManagerRole} (hr : r ∈ d.managerRoles) : r.topology.wires = t.wires := by
  obtain ⟨host, hon⟩ := d.mem_managerRoles.mp hr
  obtain ⟨-, htopology, -⟩ := shape_of_mem_managersOn hsound h hon
  obtain ⟨entry, -, hsplit⟩ := List.mem_map.mp htopology
  rw [← (Prod.mk.inj hsplit).2]

end Deployment

namespace DeployedJob

variable {d : DeployedJob} {t : Topology} {job : Job} {settings : Settings}
  {proposals : Option (List ChainProposal)}

/-- A name of a channel is in use on a host: as the key of a reporter, or for what a model keeps. -/
def Mentions (d : DeployedJob) (channel : ChannelId) : Prop :=
  ∃ host, (∃ rr ∈ d.reportersOn host, rr.reporter = .edge channel) ∨
    ∃ now models, d.models host now = .ok models ∧
      ∃ m ∈ models, ∃ ops, ((m.after ops).channels.find? channel).isSome = true

/-- The names of channels that are in use are names of wires. -/
theorem exists_wire_of_mentions (hd : ofJob job settings proposals = .ok d)
    (ht : job.topology = .ok t) {channel : ChannelId} (h : d.Mentions channel) :
    ∃ w ∈ t.wires, w.sourceChannel = channel := by
  obtain ⟨t', ht', hdeploy⟩ := bind_eq_ok.mp hd
  obtain rfl : t' = t := Except.ok.inj (ht'.symm.trans ht)
  obtain ⟨d', hrun, hmanagers, hreporters⟩ := exists_run_of_deploy hdeploy
  have hstaffed := Deployment.isStaffed_of_run hrun
  have hwires : ∀ r ∈ d'.managerRoles, r.topology.wires = t'.wires := fun r hr =>
    Deployment.wires_of_mem_managerRoles (Job.topology_isSound ht) hrun hr
  obtain ⟨host, ⟨rr, hrr, hkey⟩ | ⟨now, models, hmodels, m, hm, ops, hkept⟩⟩ := h
  · rw [hreporters] at hrr
    obtain ⟨-, ⟨r, hr, hfor, hruns⟩, -⟩ := hstaffed.placed host rr hrr
    cases rr with
    | vertex v =>
      -- the key of a member's reporter has no channel in it
      obtain ⟨-, i, o, hvertex⟩ := hfor
      cases hvertex.symm.trans hkey
    | edge e =>
      obtain ⟨-, hedge⟩ := hfor
      exact ⟨e.wire, hwires r hr ▸ hruns.1, ReporterId.edge.inj (hedge.symm.trans hkey)⟩
  · -- a model has room for what was assigned when it was created, whatever is done to it later
    obtain ⟨r, hr, hcreate⟩ := exists_item (mapM_eq_ok.mp hmodels) hm
    have hrole : r ∈ d'.managerRoles := d'.mem_managerRoles.mpr ⟨host, hmanagers host ▸ hr⟩
    obtain ⟨m', hm', hserves⟩ := hstaffed.serves r hrole d.settings now
    obtain rfl : m = m' := Except.ok.inj (hcreate.symm.trans hm')
    obtain ⟨w, hw, hname, -⟩ := (hserves ops).channels channel hkept
    rw [Model.after_role, Model.create_role hcreate, hwires r hrole] at hw
    exact ⟨w, hw, hname⟩

end DeployedJob

namespace Job

/-- **What names of channels denote.**
- The name of a wire denotes it exactly if there is no other wire that it can be read as, which
  takes members that are called like pieces of a name.
- If the description calls its members plainly, the name of every wire denotes it.
- The wires that leave or enter one member always have different names, so that a name together with
  the member denotes one wire at most.
- The names that reporters and models go by are names of wires. -/
theorem names_denote {job : Job} {t : Topology} (ht : job.topology = .ok t) :
    (∀ w ∈ t.wires, (t.Denotes w.sourceChannel w ↔
        ∀ w' ∈ t.wires, ¬ w.Nests w' ∧ ¬ w'.Nests w)) ∧
      (job.IsPlain → ∀ w ∈ t.wires, t.Denotes w.sourceChannel w) ∧
      (∀ w ∈ t.wires, ∀ w' ∈ t.wires, w.sourceChannel = w'.sourceChannel →
        w.source = w'.source ∨ w.target = w'.target → w = w') ∧
      ∀ settings proposals d, DeployedJob.ofJob job settings proposals = .ok d →
        ∀ channel, d.Mentions channel → ∃ w ∈ t.wires, w.sourceChannel = channel :=
  ⟨fun _ hw => Topology.denotes_iff (topology_isSound ht).wires hw,
    fun hplain _ hw => hplain.denotes ht hw,
    fun _ _ _ _ hname hends => Wire.eq_of_sourceChannel_eq hname hends,
    fun _ _ _ hd _ hmentions => DeployedJob.exists_wire_of_mentions hd ht hmentions⟩

theorem names_denote_funnelJob :
    ∃ t d, DeployedJob.funnelJob.topology = .ok t ∧
      DeployedJob.ofJob DeployedJob.funnelJob {} none = .ok d ∧ d.Mentions ⟨"a0[0]->b[0]"⟩ ∧
      (∀ w ∈ t.wires, (t.Denotes w.sourceChannel w ↔
        ∀ w' ∈ t.wires, ¬ w.Nests w' ∧ ¬ w'.Nests w)) ∧
      (∀ w ∈ t.wires, t.Denotes w.sourceChannel w) ∧
      (∀ w ∈ t.wires, ∀ w' ∈ t.wires, w.sourceChannel = w'.sourceChannel →
        w.source = w'.source ∨ w.target = w'.target → w = w') ∧
      ∃ w ∈ t.wires, w.sourceChannel = ⟨"a0[0]->b[0]"⟩ := by
  obtain ⟨d, hd⟩ : ∃ d, DeployedJob.ofJob DeployedJob.funnelJob {} none = .ok d :=
    exists_eq_ok (by decide +kernel)
  obtain ⟨t, ht, -⟩ := bind_eq_ok.mp hd
  have hcheck : ((DeployedJob.ofJob DeployedJob.funnelJob {} none).toOption.map fun d =>
      decide (∃ rr ∈ d.reportersOn ⟨"h"⟩, rr.reporter = .edge ⟨"a0[0]->b[0]"⟩)) = some true := by
    decide +kernel
  rw [hd] at hcheck
  have hmentions : d.Mentions ⟨"a0[0]->b[0]"⟩ :=
    ⟨⟨"h"⟩, .inl (of_decide_eq_true (Option.some.inj hcheck))⟩
  have hplain : DeployedJob.funnelJob.IsPlain := by decide +kernel
  obtain ⟨hdenotes, hall, hends, hused⟩ := names_denote ht
  exact ⟨t, d, ht, hd, hmentions, hdenotes, hall hplain, hends, hused {} none d hd _ hmentions⟩

/-- A job in which the member `a[0]->b` is called like a name that is broken off, and the member
`b[0]->c` like the end of one. -/
def nestedJob : Job where
  id := ⟨"job"⟩
  groups :=
    [{ id := ⟨"A"⟩, name := "A"
       members := [{ id := ⟨"a"⟩, host := ⟨"h"⟩ }, { id := ⟨"a[0]->b"⟩, host := ⟨"h"⟩ }] },
      { id := ⟨"B"⟩, name := "B"
        members := [{ id := ⟨"b[0]->c"⟩, host := ⟨"h"⟩ }, { id := ⟨"c"⟩, host := ⟨"h"⟩ }] }]
  edges :=
    [{ link := { source := ⟨"A"⟩, outputGate := 0, target := ⟨"B"⟩, inputGate := 0 }
       pattern := .pointwise }]
  constraints := []

/-- Both wires of the job have one name, under which only the second is found. -/
theorem not_denotes_nestedJob : ∃ t, nestedJob.topology = .ok t ∧
    ∃ w ∈ t.wires, ∃ w' ∈ t.wires, w ≠ w' ∧ w.sourceChannel = w'.sourceChannel ∧
      t.wire? w.sourceChannel ≠ some w := by
  obtain ⟨t, ht⟩ : ∃ t, nestedJob.topology = .ok t := exists_eq_ok (by decide +kernel)
  have hcheck : (nestedJob.topology.toOption.map fun t =>
      decide (∃ w ∈ t.wires, ∃ w' ∈ t.wires, w ≠ w' ∧ w.sourceChannel = w'.sourceChannel ∧
        t.wire? w.sourceChannel ≠ some w)) = some true := by decide +kernel
  rw [ht] at hcheck
  exact ⟨t, ht, of_decide_eq_true (Option.some.inj hcheck)⟩

end Job

end LatencyControl
