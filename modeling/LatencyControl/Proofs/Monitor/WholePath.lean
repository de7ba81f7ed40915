import LatencyControl.Proofs.Monitor.Watching
import LatencyControl.Proofs.Path.Twins

/-!
# Constraints that are watched on their whole path

A job may be accepted although one of its constraints cannot be watched as a whole: only the
references of a sequence are checked, not that it is a path through groups with members
(`DeployedJob.not_monitors`).  If it is one, then managers are deployed for the constraint and each
of them gets a reporter for every element of the sequence (`DeployedJob.monitors`): every edge
serves all members at both of its ends, so that a walk from any anchor member gets to every element,
and every visit is given a reporter.
-/

namespace LatencyControl

open LatencyControl.Topology

/-! ### Walks that get everywhere -/

namespace Topology

variable {t : Topology} {s : Sequence}

/-- Every group that the sequence touches has members. -/
def Populates (t : Topology) (s : Sequence) : Prop :=
  ∀ g ∈ s.flatMap Element.touched, t.membersOf g ≠ []

instance (t : Topology) (s : Sequence) : Decidable (t.Populates s) :=
  inferInstanceAs (Decidable (∀ g ∈ s.flatMap Element.touched, t.membersOf g ≠ []))

theorem exists_isMemberOf (hids : (t.members.map Member.id).Nodup) (hpopulated : t.Populates s)
    {g : GroupId} (hg : g ∈ s.flatMap Element.touched) : ∃ id, t.IsMemberOf id g := by
  obtain ⟨m, hm⟩ := List.exists_mem_of_ne_nil _ (hpopulated g hg)
  exact ⟨m.id, isMemberOf_of_mem hids hm⟩

/-- At an edge element one can go on from every member of the one group, and go back from every
member of the other, by a wire of the edge. -/
theorem IsWired.exists_step (hwired : t.IsWired) (hids : (t.members.map Member.id).Nodup)
    (hdeclared : t.Declares s) (hpopulated : t.Populates s) {l : Link} {sampling : Sampling}
    (hl : .edge l sampling ∈ s) :
    (∀ m, t.member? m.id = some m → m.group = l.source →
      ∃ w x, (w, x) ∈ t.ahead l m ∧ t.Fits (.edge l sampling) (.wire w)) ∧
    ∀ m, t.member? m.id = some m → m.group = l.target →
      ∃ w x, (w, x) ∈ t.behind l m ∧ t.Fits (.edge l sampling) (.wire w) := by
  obtain ⟨e, he, rfl⟩ := hdeclared _ hl
  have hsource : e.link.source ∈ s.flatMap Element.touched :=
    List.mem_flatMap.mpr ⟨_, hl, List.mem_cons_self⟩
  have htarget : e.link.target ∈ s.flatMap Element.touched :=
    List.mem_flatMap.mpr ⟨_, hl, List.mem_cons_of_mem _ List.mem_cons_self⟩
  obtain ⟨source, hsource⟩ := exists_isMemberOf hids hpopulated hsource
  obtain ⟨target, htarget⟩ := exists_isMemberOf hids hpopulated htarget
  constructor
  · intro m hm hgroup
    obtain ⟨w, hwire, hid⟩ := (hwired.serves e he m.id target ⟨m, hm, hgroup⟩ htarget).1
    have hfits : t.Fits (.edge e.link sampling) (.wire w) := fits_edge_iff.mpr hwire
    obtain ⟨x, hx, -⟩ := exists_mem_ahead_of_fits e.link sampling w m hfits hid
    exact ⟨w, x, hx, hfits⟩
  · intro m hm hgroup
    obtain ⟨w, hwire, hid⟩ := (hwired.serves e he source m.id hsource ⟨m, hm, hgroup⟩).2
    have hfits : t.Fits (.edge e.link sampling) (.wire w) := fits_edge_iff.mpr hwire
    obtain ⟨x, hx, -⟩ := exists_mem_behind_of_fits e.link sampling w m hfits hid
    exact ⟨w, x, hx, hfits⟩

/-- A walk that has left nothing out has visited every element with a step that agrees with it. -/
theorem exists_visit_of_covers (hwired : t.IsWired) (hids : (t.members.map Member.id).Nodup)
    (hs : s.IsConnected) (hdeclared : t.Declares s) (hpopulated : t.Populates s) {w : Walk}
    {m : Member} (hm : t.member? m.id = some m) (hg : m.group ∈ s.flatMap Element.touched)
    (hw : w.Covers t s m) : ∀ e ∈ s, ∃ v ∈ w.visits, v.element = e ∧ t.Fits e v.step := by
  have hstep := fun {l sampling} (hl : .edge l sampling ∈ s) =>
    hwired.exists_step hids hdeclared hpopulated hl
  obtain ⟨i, hi⟩ := exists_splitAt?_of_touched hs hg
  obtain ⟨hahead, hbehind⟩ := departs_of_hasPlace hs (splitAt?_eq_some hi)
  obtain ⟨hmetahead, hmetbehind⟩ := hw i hi
  rw [← map_fst_drop_zipIdx] at hahead
  rw [← map_fst_take_zipIdx] at hbehind
  have hon := exists_mem_reach t.arrives_ahead (fun l sampling hl => by
    rw [map_fst_drop_zipIdx] at hl
    exact (hstep (List.mem_of_mem_drop hl)).1) (map_fst_drop_zipIdx s i ▸ runs_drop hs i) hm hahead
  have hback := exists_mem_reach t.arrives_behind (fun l sampling hl => by
    rw [map_fst_take_zipIdx] at hl
    exact (hstep (List.mem_of_mem_take (List.mem_reverse.mp hl))).2)
    (map_fst_take_zipIdx s i ▸ runs_take_reverse hs i) hm hbehind
  -- every element is behind the member or ahead of it
  intro e he
  obtain ⟨j, hj⟩ := List.getElem?_of_mem he
  have hp : (e, j) ∈ s.zipIdx := List.mem_of_getElem? (getElem?_zipIdx_of_getElem? hj)
  rw [← List.take_append_drop i s.zipIdx] at hp
  rcases List.mem_append.mp hp with hp | hp
  · obtain ⟨v, hv, hvisit⟩ := hback (e, j) (List.mem_reverse.mpr hp)
    exact ⟨v, hmetbehind v hv, hvisit⟩
  · obtain ⟨v, hv, hvisit⟩ := hon (e, j) hp
    exact ⟨v, hmetahead v hv, hvisit⟩

end Topology

/-! ### Reporters of elements -/

/-- A reporter measures what an element stands for: a member of its group between its gates, or a
wire between the groups and gates of its link.  A dummy measures nothing. -/
def ReporterRole.Measures (t : Topology) (e : Element) : ReporterRole → Prop
  | .vertex r =>
    r.isDummy = false ∧ t.Fits e (.member r.member) ∧ r.input = e.input ∧ r.output = e.output
  | .edge r => t.Fits e (.wire r.wire)

instance (t : Topology) (e : Element) : (r : ReporterRole) → Decidable (r.Measures t e)
  | .vertex r => inferInstanceAs (Decidable (r.isDummy = false ∧ t.Fits e (.member r.member) ∧
      r.input = e.input ∧ r.output = e.output))
  | .edge r => inferInstanceAs (Decidable (t.Fits e (.wire r.wire)))

/-- What is visited gets a reporter that measures it. -/
theorem exists_measures_of_assignVisit {t : Topology} {s : Sequence} {manager : ManagerRef}
    {v : Visit} {as : List Assignment} (h : assignVisit t s manager v = .ok as)
    (hfits : t.Fits v.element v.step) : ∃ a ∈ as, a.2.Measures t v.element := by
  unfold assignVisit at h
  unfold Visit.step at hfits
  split at h
  · next m hplace =>
    rw [hplace] at hfits
    obtain ⟨a, ha, rfl⟩ := assignMemberVisit_eq_ok h
    obtain ⟨r, hr, rfl⟩ := assignVertex_eq_ok ha
    refine ⟨_, List.mem_singleton_self _, ?_⟩
    rw [(VertexRole.create_eq_ok hr).1]
    exact ⟨rfl, hfits, rfl, rfl⟩
  · next w hplace =>
    rw [hplace] at hfits
    obtain ⟨source, target, r, dummies, -, -, hr, rfl, -⟩ := assignWireVisit_eq_ok h
    refine ⟨_, List.mem_cons_self, ?_⟩
    rw [EdgeRole.create_eq_ok hr]
    exact hfits

namespace ManagerRole

/-- The reporters of the manager role can be told, and every element of the sequence is measured by
one of them. -/
def ReportsOn (r : ManagerRole) (t : Topology) (s : Sequence) : Prop :=
  ∃ assigned, r.assignments = .ok assigned ∧ ∀ e ∈ s, ∃ a ∈ assigned, a.2.Measures t e

instance (r : ManagerRole) (t : Topology) (s : Sequence) : Decidable (r.ReportsOn t s) :=
  match h : r.assignments with
  | .ok assigned => decidable_of_iff (∀ e ∈ s, ∃ a ∈ assigned, a.2.Measures t e)
      ⟨fun hall => ⟨assigned, h, hall⟩, fun ⟨_, h', hall⟩ => Except.ok.inj (h.symm.trans h') ▸ hall⟩
  | .error _ => .isFalse fun ⟨_, h', _⟩ => by cases h.symm.trans h'

/-- A manager role reports on the whole path if one of its members is in a group of it. -/
theorem reportsOn {r : ManagerRole} {c : Constraint} {assigned : List Assignment}
    (hwired : r.topology.IsWired) (hids : (r.topology.members.map Member.id).Nodup)
    (hc : r.topology.constraint r.constraint = .ok c) (hs : c.sequence.IsConnected)
    (hdeclared : r.topology.Declares c.sequence) (hpopulated : r.topology.Populates c.sequence)
    (hassigned : r.assignments = .ok assigned) {anchor : MemberId} (hanchor : anchor ∈ r.members)
    {g : GroupId} (hmember : r.topology.IsMemberOf anchor g)
    (hg : g ∈ c.sequence.flatMap Element.touched) : r.ReportsOn r.topology c.sequence := by
  obtain ⟨c', w, found, hc', hw, hfound, rfl⟩ := assignments_eq_ok hassigned
  obtain rfl : c = c' := Except.ok.inj (hc.symm.trans hc')
  obtain ⟨m, hm, hcovers⟩ := walk_covers hw hanchor
  have hgroup : m.group = g := IsMemberOf.group_eq ⟨m, hm, rfl⟩ hmember
  have hself : r.topology.member? m.id = some m := by rw [member?_id hm, hm]
  refine ⟨_, hassigned, fun e he => ?_⟩
  obtain ⟨v, hv, rfl, hfits⟩ := exists_visit_of_covers hwired hids hs hdeclared hpopulated hself
    (hgroup ▸ hg) hcovers e he
  obtain ⟨as, has, hassign⟩ := exists_result hfound hv
  obtain ⟨a, ha, hmeasures⟩ := exists_measures_of_assignVisit hassign hfits
  exact ⟨a, List.mem_flatten.mpr ⟨as, has, ha⟩, hmeasures⟩

end ManagerRole

/-! ### The managers of a constraint -/

/-- No manager role is created without members. -/
theorem Deployment.members_ne_nil_of_mem_createManagers {ts : List Topology}
    {used : KeySet GroupId} {roles : List ManagerRole} (h : createManagers ts used = .ok roles) :
    ∀ r ∈ roles, r.members ≠ [] := by
  induction ts generalizing used roles with
  | nil =>
    obtain rfl := Except.ok.inj h
    exact fun r hr => (List.not_mem_nil hr).elim
  | cons t rest ih =>
    obtain ⟨c, hc, h⟩ := bind_eq_ok.mp h
    obtain ⟨⟨g, used'⟩, hanchor, h⟩ := bind_eq_ok.mp h
    obtain ⟨parts, hparts, h⟩ := bind_eq_ok.mp h
    obtain ⟨own, hown, h⟩ := bind_eq_ok.mp h
    obtain ⟨later, hlater, h⟩ := bind_eq_ok.mp h
    obtain rfl := Except.ok.inj h
    intro r hr
    rcases List.mem_append.mp hr with hr | hr
    · obtain ⟨part, -, hcreate⟩ := exists_item (mapM_eq_ok.mp hown) hr
      have hrole := ManagerRole.create_eq_ok hcreate
      obtain ⟨-, -, hcreate⟩ := bind_eq_ok.mp hcreate
      obtain ⟨-, -, hcreate⟩ := bind_eq_ok.mp hcreate
      obtain ⟨hempty, -⟩ := check_eq_ok.mp hcreate
      rw [hrole]
      simpa using hempty
    · exact ih hlater r hr

namespace DeployedJob

variable {d : DeployedJob} {t : Topology} {id : ConstraintId} {c : Constraint}

/-- All manager roles for a constraint. -/
def watchers (d : DeployedJob) (id : ConstraintId) : List ManagerRole :=
  d.roles.keys.flatMap (d.watchersOn id)

theorem mem_watchers {r : ManagerRole} : r ∈ d.watchers id ↔ ∃ host, r ∈ d.watchersOn id host := by
  rw [watchers, List.mem_flatMap]
  constructor
  · intro ⟨host, _, hr⟩
    exact ⟨host, hr⟩
  · intro ⟨host, hr⟩
    exact ⟨host, mem_keys_of_mem_watchersOn hr, hr⟩

/-- The managers of a constraint share the members of one group that its sequence touches. -/
theorem exists_anchor_of_ofJob {job : Job} {settings : Settings}
    {proposals : Option (List ChainProposal)} (hd : ofJob job settings proposals = .ok d)
    (ht : job.topology = .ok t) (hc : t.constraint? id = some c) :
    ∃ g ∈ c.sequence.flatMap Element.touched,
      (∀ r ∈ d.watchers id, r.topology = { t with constraints := Table.empty.insert id c } ∧
        r.constraint = id ∧ r.members ≠ [] ∧ (∀ a ∈ r.members, t.IsMemberOf a g) ∧
        ∃ assigned, r.assignments = .ok assigned) ∧
      ∀ m ∈ t.membersOf g, ∃ r ∈ d.watchers id, m.id ∈ r.members := by
  obtain ⟨t', ht', hd⟩ := bind_eq_ok.mp hd
  obtain rfl : t = t' := Except.ok.inj (ht.symm.trans ht')
  have hsound := Job.topology_isSound ht
  obtain rfl : c.id = id := hsound.constraints id c hc
  obtain ⟨d', hrun, hmanagers⟩ := deploy_eq_ok hd
  have hkeyed : ∀ id u c, (Table.ofList t.splitByConstraint).find? id = some u →
      u.singleConstraint = .ok c → c.id = id := by
    intro id u c' hu hc'
    obtain ⟨c, hc, rfl⟩ := find?_splitByConstraint.mp hu
    obtain rfl : c = c' := Except.ok.inj hc'
    exact hsound.constraints id c hc
  obtain ⟨g, hg, hhosts⟩ := Deployment.members_watchersOn hrun hkeyed
    (find?_splitByConstraint.mpr ⟨c, hc, rfl⟩) rfl
  obtain ⟨roles, hroles, hon⟩ := Deployment.managersOn_of_run hrun
  obtain ⟨-, -, hassigned, -⟩ := Deployment.run_assignRoles hrun
  have hwatchers : ∀ host, d.watchersOn c.id host = d'.watchersOn c.id host := fun host => by
    rw [watchersOn, hmanagers, Deployment.watchersOn]
  refine ⟨g, hg, fun r hr => ?_, fun m hm => ?_⟩
  · obtain ⟨host, hr⟩ := mem_watchers.mp hr
    rw [hwatchers] at hr
    have hmanager : r ∈ d'.managersOn host := (List.mem_filter.mp hr).1
    obtain ⟨htopology, hconstraint⟩ := (hhosts host).1 r hr
    refine ⟨htopology, hconstraint, ?_, fun a ha => ?_,
      _, hassigned r (d'.mem_managerRoles.mpr ⟨host, hmanager⟩)⟩
    · rw [hon] at hmanager
      exact Deployment.members_ne_nil_of_mem_createManagers hroles r (List.mem_filter.mp hmanager).1
    · have hlisted : a ∈ (d'.watchersOn c.id host).flatMap ManagerRole.members :=
        List.mem_flatMap.mpr ⟨r, hr, ha⟩
      rw [(hhosts host).2] at hlisted
      obtain ⟨m, hm, rfl⟩ := List.mem_map.mp hlisted
      exact isMemberOf_of_mem hsound.ids (List.mem_filter.mp hm).1
  · have hlisted : m.id ∈ (d'.watchersOn c.id m.host).flatMap ManagerRole.members := by
      rw [(hhosts m.host).2]
      exact List.mem_map_of_mem (List.mem_filter.mpr ⟨hm, decide_eq_true rfl⟩)
    obtain ⟨r, hr, hmem⟩ := List.mem_flatMap.mp hlisted
    exact ⟨r, mem_watchers.mpr ⟨m.host, hwatchers m.host ▸ hr⟩, hmem⟩

/-- The constraint is watched on its whole path: it has managers, and each of them gets reporters
for all elements. -/
structure Monitors (d : DeployedJob) (t : Topology) (c : Constraint) : Prop where
  watched : d.watchers c.id ≠ []
  reported : ∀ r ∈ d.watchers c.id, r.ReportsOn t c.sequence

instance (d : DeployedJob) (t : Topology) (c : Constraint) : Decidable (d.Monitors t c) :=
  decidable_of_iff (d.watchers c.id ≠ [] ∧ ∀ r ∈ d.watchers c.id, r.ReportsOn t c.sequence)
    ⟨fun h => ⟨h.1, h.2⟩, fun h => ⟨h.watched, h.reported⟩⟩

/-- **Paths are watched as a whole.**  If the sequence of a constraint of a deployed job is
connected, its edge elements are declared edges and all groups that it touches have members, then
the constraint has managers, and each of them gets a reporter for every element of the sequence. -/
theorem monitors {job : Job} {settings : Settings} {proposals : Option (List ChainProposal)}
    (hd : ofJob job settings proposals = .ok d) (ht : job.topology = .ok t)
    (hc : t.constraint? id = some c) (hs : c.sequence.IsConnected)
    (hdeclared : t.Declares c.sequence) (hpopulated : t.Populates c.sequence) :
    d.Monitors t c := by
  obtain ⟨g, hg, hroles, hwatched⟩ := exists_anchor_of_ofJob hd ht hc
  have hsound := Job.topology_isSound ht
  have hwired := Job.topology_isWired ht
  obtain rfl : c.id = id := hsound.constraints id c hc
  constructor
  · obtain ⟨m, hm⟩ := List.exists_mem_of_ne_nil _ (hpopulated g hg)
    obtain ⟨r, hr, -⟩ := hwatched m hm
    exact List.ne_nil_of_mem hr
  · intro r hr
    obtain ⟨htopology, hconstraint, hmembers, hanchors, assigned, hassigned⟩ := hroles r hr
    obtain ⟨anchor, hanchor⟩ := List.exists_mem_of_ne_nil _ hmembers
    have hheld : r.topology.constraint r.constraint = .ok c := by
      rw [htopology, hconstraint, Topology.constraint, Topology.constraint?,
        Table.find?_insert_self]
    have hmember := hanchors anchor hanchor
    obtain ⟨host, constraint, topology, group, members⟩ := r
    obtain rfl : topology = _ := htopology
    exact ManagerRole.reportsOn (hwired.withConstraints _) hsound.ids hheld hs hdeclared hpopulated
      hassigned hanchor hmember hg

theorem monitors_funnelJob :
    ∃ d t c, ofJob funnelJob {} none = .ok d ∧ funnelJob.topology = .ok t ∧
      t.constraint? ⟨"c"⟩ = some c ∧ c.sequence.IsConnected ∧ t.Declares c.sequence ∧
        t.Populates c.sequence ∧ d.Monitors t c := by
  obtain ⟨d, hd⟩ : ∃ d, ofJob funnelJob {} none = .ok d := exists_eq_ok (by decide +kernel)
  obtain ⟨t, ht, -⟩ := bind_eq_ok.mp hd
  have hcheck : (funnelJob.topology.toOption.bind fun t => (t.constraint? ⟨"c"⟩).map fun c =>
      decide (c.sequence.IsConnected ∧ t.Declares c.sequence ∧ t.Populates c.sequence))
      = some true := by decide +kernel
  rw [ht] at hcheck
  obtain ⟨c, hc, hpath⟩ := Option.map_eq_some_iff.mp hcheck
  obtain ⟨hs, hdeclared, hpopulated⟩ := of_decide_eq_true hpath
  have hmonitors := monitors hd ht hc hs hdeclared hpopulated
  exact ⟨d, t, c, hd, ht, hc, hs, hdeclared, hpopulated, hmonitors⟩

/-! ### Constraints that are accepted all the same -/

/-- A job with three groups in a line, and a constraint on them. -/
def lineJob (members : List MemberEntry) (s : Sequence) : Job where
  id := ⟨"job"⟩
  groups :=
    [{ id := ⟨"A"⟩, name := "A", members },
      { id := ⟨"B"⟩, name := "B", members := [{ id := ⟨"b"⟩, host := ⟨"h"⟩ }] },
      { id := ⟨"C"⟩, name := "C", members := [{ id := ⟨"c"⟩, host := ⟨"h"⟩ }] }]
  edges :=
    [{ link := { source := ⟨"A"⟩, outputGate := 0, target := ⟨"B"⟩, inputGate := 0 }
       pattern := .pointwise },
      { link := { source := ⟨"B"⟩, outputGate := 0, target := ⟨"C"⟩, inputGate := 0 }
        pattern := .pointwise }]
  constraints := [{ id := ⟨"c"⟩, name := "c", sequence := s, bound := 10 }]

/-- A job that meets a condition is accepted, and yet does not watch its constraint on the whole
path. -/
def AcceptsUnmonitored (job : Job) (condition : Topology → Sequence → Prop) : Prop :=
  ∃ d t c, ofJob job {} none = .ok d ∧ job.topology = .ok t ∧ t.constraint? ⟨"c"⟩ = some c ∧
    condition t c.sequence ∧ ¬ d.Monitors t c

theorem acceptsUnmonitored_of_decide {job : Job} {condition : Topology → Sequence → Prop}
    [∀ t s, Decidable (condition t s)]
    (h : ((ofJob job {} none).toOption.bind fun d => job.topology.toOption.bind fun t =>
      (t.constraint? ⟨"c"⟩).map fun c => decide (condition t c.sequence ∧ ¬ d.Monitors t c))
      = some true) : AcceptsUnmonitored job condition := by
  obtain ⟨d, hd, h⟩ := Option.bind_eq_some_iff.mp h
  obtain ⟨t, ht, h⟩ := Option.bind_eq_some_iff.mp h
  obtain ⟨c, hc, h⟩ := Option.map_eq_some_iff.mp h
  obtain ⟨hcondition, hmonitors⟩ := of_decide_eq_true h
  exact ⟨d, t, c, eq_ok_of_toOption hd, eq_ok_of_toOption ht, hc, hcondition, hmonitors⟩

/-- A constraint is accepted without being watched as a whole if a group has no members, if there is
no such edge, or if the elements do not belong together. -/
theorem not_monitors :
    AcceptsUnmonitored (lineJob [] [.vertex ⟨"A"⟩ none (some 0) .readWrite])
      (fun t s => s.IsConnected ∧ t.Declares s) ∧
    AcceptsUnmonitored (lineJob [{ id := ⟨"a"⟩, host := ⟨"h"⟩ }]
      [.vertex ⟨"A"⟩ none (some 0) .readWrite,
        .edge { source := ⟨"A"⟩, outputGate := 0, target := ⟨"C"⟩, inputGate := 0 } .readWrite,
        .vertex ⟨"C"⟩ (some 0) none .readWrite])
      (fun t s => s.IsConnected ∧ t.Populates s) ∧
    AcceptsUnmonitored (lineJob [{ id := ⟨"a"⟩, host := ⟨"h"⟩ }]
      [.vertex ⟨"A"⟩ none (some 0) .readWrite, .vertex ⟨"C"⟩ (some 0) none .readWrite])
      (fun t s => t.Declares s ∧ t.Populates s) := by
  refine ⟨?_, ?_, ?_⟩ <;> exact acceptsUnmonitored_of_decide (by decide +kernel)

end DeployedJob

end LatencyControl
