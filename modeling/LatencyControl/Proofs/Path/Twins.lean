import LatencyControl.Proofs.Path.Met
import LatencyControl.Proofs.Role.Collection
import LatencyControl.Proofs.Topology.Wired

/-!
# Wires beside the path

What a path enumeration lists and what a manager reports on should be wires of the constrained path
only.  A step forward follows the output gate of a link, which takes one edge only; therefore it
meets no other wires.  A step backward follows the input gate and asks for the source group.  That
does not tell the link from a twin, a link between the same groups that feeds the same input gate
from another output gate (`not_keepsTo_fits`).

So all wires are wires of the links of the sequence or of their twins, those ahead of the anchor are
wires of the links themselves, and if no link has a twin, all are (`Job.topology_keepsTo`).
-/

namespace LatencyControl

/-- Two links that differ in nothing but their output gates. -/
def Link.IsTwin (l l' : Link) : Prop :=
  l.source = l'.source ∧ l.target = l'.target ∧ l.inputGate = l'.inputGate

instance (l l' : Link) : Decidable (l.IsTwin l') :=
  inferInstanceAs (Decidable (_ ∧ _))

namespace Topology

/-! ### Links and their twins -/

/-- The element is a declared edge, unless it is a vertex. -/
def DeclaresElement (t : Topology) : Element → Prop
  | .vertex .. => True
  | .edge l _ => ∃ e ∈ t.edges, e.link = l

instance (t : Topology) : (e : Element) → Decidable (t.DeclaresElement e)
  | .vertex .. => .isTrue trivial
  | .edge l _ => inferInstanceAs (Decidable (∃ e ∈ t.edges, e.link = l))

/-- All edge elements of the sequence are declared edges. -/
def Declares (t : Topology) (s : Sequence) : Prop := ∀ e ∈ s, t.DeclaresElement e

instance (t : Topology) (s : Sequence) : Decidable (t.Declares s) :=
  inferInstanceAs (Decidable (∀ e ∈ s, t.DeclaresElement e))

/-- No declared edge is a twin of the element. -/
def TellsElementApart (t : Topology) : Element → Prop
  | .vertex .. => True
  | .edge l _ => ∀ e ∈ t.edges, e.link.IsTwin l → e.link = l

instance (t : Topology) : (e : Element) → Decidable (t.TellsElementApart e)
  | .vertex .. => .isTrue trivial
  | .edge l _ => inferInstanceAs (Decidable (∀ e ∈ t.edges, e.link.IsTwin l → e.link = l))

/-- No declared edge is a twin of an edge element of the sequence. -/
def TellsApart (t : Topology) (s : Sequence) : Prop := ∀ e ∈ s, t.TellsElementApart e

instance (t : Topology) (s : Sequence) : Decidable (t.TellsApart s) :=
  inferInstanceAs (Decidable (∀ e ∈ s, t.TellsElementApart e))

/-- A step agrees with an element up to twins. -/
def Resembles (t : Topology) : Element → PathStep → Prop
  | .vertex g .., .member id => t.IsMemberOf id g
  | .edge l _, .wire w => ∃ e ∈ t.edges, e.link.IsTwin l ∧ t.IsWireOf w e.link
  | _, _ => False

variable {t : Topology} {s : Sequence} {e : Element} {step : PathStep}

theorem Fits.resembles (h : t.Fits e step) (hdeclared : t.DeclaresElement e) :
    t.Resembles e step := by
  cases e <;> cases step
  · exact h
  · exact h
  · exact h
  · obtain ⟨e, he, rfl⟩ := hdeclared
    exact ⟨e, he, ⟨rfl, rfl, rfl⟩, fits_edge_iff.mp h⟩

theorem Resembles.fits (h : t.Resembles e step) (hapart : t.TellsElementApart e) :
    t.Fits e step := by
  cases e <;> cases step
  · exact h
  · exact h
  · exact h
  · obtain ⟨e, he, htwin, hwire⟩ := h
    rw [hapart e he htwin] at hwire
    exact fits_edge_iff.mpr hwire

/-- A step forward meets no twins, since an output gate takes one edge only. -/
theorem IsWired.fits_of_isMet (h : t.IsWired) (hdeclared : t.DeclaresElement e)
    (hmet : t.IsMet t.ahead Link.source e step) : t.Fits e step := by
  cases e <;> cases step
  · exact hmet
  · exact hmet
  · exact hmet
  · next l _ w =>
    obtain ⟨m, x, hm, hgroup, hx⟩ := hmet
    obtain ⟨hw, hsource, houtput, -⟩ := mem_ahead.mp hx
    obtain ⟨e, he, rfl⟩ := hdeclared
    obtain ⟨e', he', hwire⟩ := h.origins w hw
    -- the edge that the wire stems from leaves the same group at the same gate
    have hsame : e'.link.source = e.link.source :=
      hwire.source.group_eq ⟨m, hsource ▸ hm, hgroup⟩
    have hgate : e'.link.outputGate = e.link.outputGate := hwire.output.symm.trans houtput
    obtain rfl : e' = e := h.outputs e' he' e he hsame hgate
    exact fits_edge_iff.mpr hwire

/-- A step backward meets wires of twins at most. -/
theorem IsWired.resembles_of_isMet (h : t.IsWired)
    (hmet : t.IsMet t.behind Link.target e step) : t.Resembles e step := by
  cases e <;> cases step
  · exact hmet
  · exact hmet
  · exact hmet
  · next l _ w =>
    obtain ⟨m, x, hm, hgroup, hx⟩ := hmet
    obtain ⟨hw, htarget, hinput, hx, hsource⟩ := mem_behind.mp hx
    obtain ⟨e, he, hwire⟩ := h.origins w hw
    refine ⟨e, he, ⟨?_, ?_, ?_⟩, hwire⟩
    · exact hwire.source.group_eq ⟨x, hx, hsource⟩
    · exact hwire.target.group_eq ⟨m, htarget ▸ hm, hgroup⟩
    · exact hwire.input.symm.trans hinput

/-! ### What is listed and reported on -/

/-- All that is made of a sequence stands in a relation to its elements: each step of the paths
through any anchor, and each wire that a manager role gets a reporter of, at the element that it is
visited at. -/
structure KeepsTo (t : Topology) (s : Sequence) (R : Element → PathStep → Prop) : Prop where
  paths : ∀ anchor paths, t.pathsThrough s anchor = .ok paths → ∀ p ∈ paths, List.Forall₂ R s p
  reporters : ∀ (r : ManagerRole) (c : Constraint) (assigned : List Assignment), r.topology = t →
    t.constraint r.constraint = .ok c → c.sequence = s → r.assignments = .ok assigned →
    ∃ w found, r.walk s = .ok w ∧ assigned = found.flatten ∧
      List.Forall₂ (fun v as => assignVisit t s r.ref v = .ok as ∧
        s[v.position]? = some v.element ∧
        ∀ host role, (host, ReporterRole.edge role) ∈ as → R v.element (.wire role.wire))
        w.visits found

/-- A reporter of a wire is only assigned where this wire is visited. -/
theorem step_of_mem_assignVisit {manager : ManagerRef} {v : Visit} {as : List Assignment}
    (h : assignVisit t s manager v = .ok as) {host : HostId} {role : EdgeRole}
    (hrole : (host, ReporterRole.edge role) ∈ as) : v.step = .wire role.wire := by
  unfold assignVisit at h
  split at h
  · obtain ⟨a, ha, rfl⟩ := assignMemberVisit_eq_ok h
    obtain ⟨r, -, rfl⟩ := assignVertex_eq_ok ha
    simp at hrole
  · next w hplace =>
    obtain ⟨source, target, r, dummies, -, -, hr, rfl, hdummies⟩ := assignWireVisit_eq_ok h
    have hwire : r.wire = w := by rw [EdgeRole.create_eq_ok hr]
    have hdummy : (host, ReporterRole.edge role) ∉ dummies := by
      intro hmem
      obtain ⟨m, -, input, output, hassign⟩ := hdummies _ hmem
      obtain ⟨dummy, -, hvertex⟩ := assignVertex_eq_ok hassign
      cases hvertex
    have hsame : role = r := by
      rcases List.mem_cons.mp hrole with heq | hrole
      · simpa using (Prod.mk.inj heq).2
      · rcases List.mem_cons.mp hrole with heq | hmem
        · simpa using (Prod.mk.inj heq).2
        · exact absurd hmem hdummy
    have hstep : v.step = .wire w := by
      unfold Visit.step
      rw [hplace]
    rw [hstep, hsame, hwire]

/-- The steps of a path through a member: behind it they were met on the way back, and ahead of it
on the way on. -/
theorem forall₂_isMet_of_mem_pathsFrom (hs : s.IsConnected) {m : Member}
    (hm : t.member? m.id = some m) {i : ℕ} (hi : splitAt? s m.group = some i) {p : Path}
    (hp : p ∈ t.pathsFrom s m) :
    List.Forall₂ (t.IsMet t.behind Link.target) (s.take i) (p.take i) ∧
      List.Forall₂ (t.IsMet t.ahead Link.source) (s.drop i) (p.drop i) := by
  obtain ⟨hback, hon⟩ := (mem_pathsFrom_iff hi).mp hp
  obtain ⟨hahead, hbehind⟩ := departs_of_hasPlace hs (splitAt?_eq_some hi)
  have hfirst := forall₂_isMet_of_mem_ways t.arrives_behind (runs_take_reverse hs i) hm hbehind
    hback
  have hlast := forall₂_isMet_of_mem_ways t.arrives_ahead (runs_drop hs i) hm hahead hon
  exact ⟨List.forall₂_reverse_iff.mp hfirst, hlast⟩

/-- It is enough to look at single steps. -/
theorem keepsTo_of_isMet (hs : s.IsConnected) {R : Element → PathStep → Prop}
    (hahead : ∀ e ∈ s, ∀ step, t.IsMet t.ahead Link.source e step → R e step)
    (hbehind : ∀ e ∈ s, ∀ step, t.IsMet t.behind Link.target e step → R e step) :
    t.KeepsTo s R := by
  constructor
  · intro anchor paths hpaths p hp
    obtain ⟨m, hm, -⟩ := bind_eq_ok.mp hpaths
    rw [member_eq_ok] at hm
    rw [pathsThrough_eq_ok hm] at hpaths
    obtain rfl := Except.ok.inj hpaths
    have hself : t.member? m.id = some m := by rw [member?_id hm, hm]
    cases hi : splitAt? s m.group with
    | none =>
      rw [pathsFrom, hi] at hp
      exact (List.not_mem_nil hp).elim
    | some i =>
      obtain ⟨hfirst, hlast⟩ := forall₂_isMet_of_mem_pathsFrom hs hself hi hp
      have hfirst' : List.Forall₂ R (s.take i) (p.take i) :=
        forall₂_imp_of_mem hfirst fun e he => hbehind e (List.mem_of_mem_take he)
      have hlast' : List.Forall₂ R (s.drop i) (p.drop i) :=
        forall₂_imp_of_mem hlast fun e he => hahead e (List.mem_of_mem_drop he)
      have hboth : List.Forall₂ R (s.take i ++ s.drop i) (p.take i ++ p.drop i) :=
        List.rel_append hfirst' hlast'
      rwa [List.take_append_drop, List.take_append_drop] at hboth
  · rintro r c assigned rfl hc rfl hassigned
    obtain ⟨c', w, found, hc', hw, hfound, rfl⟩ := ManagerRole.assignments_eq_ok hassigned
    obtain rfl : c = c' := Except.ok.inj (hc.symm.trans hc')
    refine ⟨w, found, hw, rfl, forall₂_imp_of_mem hfound fun v hv as has => ⟨has, ?_⟩⟩
    obtain ⟨hposition, hmet⟩ := ManagerRole.walk_meets hs hw v hv
    have helement : v.element ∈ c.sequence := List.mem_of_getElem? hposition
    refine ⟨hposition, fun host role hrole => ?_⟩
    rw [← step_of_mem_assignVisit has hrole]
    rcases hmet with hmet | hmet
    · exact hahead _ helement _ hmet
    · exact hbehind _ helement _ hmet

end Topology

/-! ### Declared topologies -/

open LatencyControl.Topology

/-- **Nothing but the path and its twins is watched.**  In the topology of a job, whatever its
constraints, take a connected sequence of declared edges.  All steps of the paths through any anchor
and all wires that get reporters agree with their elements up to the output gates of twins; the
steps at and ahead of the anchor's place agree in all; and if no edge of the sequence has a declared
twin, then everything agrees in all. -/
theorem Job.topology_keepsTo {job : Job} {t : Topology} (ht : job.topology = .ok t)
    (cs : Table ConstraintId Constraint) {s : Sequence} (hs : s.IsConnected)
    (hdeclared : t.Declares s) :
    let u : Topology := { t with constraints := cs }
    u.KeepsTo s u.Resembles ∧
      (∀ m i paths, u.pathsThrough s m.id = .ok paths → u.member? m.id = some m →
        splitAt? s m.group = some i → ∀ p ∈ paths, List.Forall₂ u.Fits (s.drop i) (p.drop i)) ∧
      (u.TellsApart s → u.KeepsTo s u.Fits) := by
  intro u
  have hwired : u.IsWired := (Job.topology_isWired ht).withConstraints cs
  have hdeclares : ∀ e ∈ s, u.DeclaresElement e := hdeclared
  have hahead : ∀ e ∈ s, ∀ step, u.IsMet u.ahead Link.source e step → u.Fits e step :=
    fun e he step => hwired.fits_of_isMet (hdeclares e he)
  have hbehind : ∀ e ∈ s, ∀ step, u.IsMet u.behind Link.target e step → u.Resembles e step :=
    fun e _ step => hwired.resembles_of_isMet
  refine ⟨?_, ?_, fun hapart => ?_⟩
  · exact keepsTo_of_isMet hs (fun e he step hmet => (hahead e he step hmet).resembles
      (hdeclares e he)) hbehind
  · intro m i paths hpaths hm hi p hp
    rw [pathsThrough_eq_ok hm] at hpaths
    obtain rfl := Except.ok.inj hpaths
    have hlast := (forall₂_isMet_of_mem_pathsFrom hs hm hi hp).2
    exact forall₂_imp_of_mem hlast fun e he => hahead e (List.mem_of_mem_drop he)
  · exact keepsTo_of_isMet hs hahead fun e he step hmet =>
      (hbehind e he step hmet).fits (hapart e he)

/-- A job whose group `A` feeds its group `B` from two output gates: from one at input gate 0, and
from the other at the given one. -/
def doubleFeedJob (gate : ℕ) : Job where
  id := ⟨"job"⟩
  groups :=
    [{ id := ⟨"A"⟩, name := "A", members := [{ id := ⟨"a"⟩, host := ⟨"h"⟩ }] },
      { id := ⟨"B"⟩, name := "B"
        members := [{ id := ⟨"b0"⟩, host := ⟨"h"⟩ }, { id := ⟨"b1"⟩, host := ⟨"k"⟩ }] }]
  edges :=
    [{ link := { source := ⟨"A"⟩, outputGate := 0, target := ⟨"B"⟩, inputGate := 0 }
       pattern := .pointwise },
      { link := { source := ⟨"A"⟩, outputGate := 1, target := ⟨"B"⟩, inputGate := gate }
        pattern := .pointwise }]
  constraints := []

/-- The path of records through the first of the two feeds. -/
def feedSequence : Sequence :=
  [.vertex ⟨"A"⟩ none (some 0) .readWrite,
    .edge { source := ⟨"A"⟩, outputGate := 0, target := ⟨"B"⟩, inputGate := 0 } .readWrite,
    .vertex ⟨"B"⟩ (some 0) none .readWrite]

theorem topology_keepsTo_doubleFeedJob :
    ∃ t, (doubleFeedJob 1).topology = .ok t ∧ feedSequence.IsConnected ∧ t.Declares feedSequence ∧
      t.TellsApart feedSequence ∧ t.KeepsTo feedSequence t.Fits := by
  obtain ⟨t, ht⟩ : ∃ t, (doubleFeedJob 1).topology = .ok t := exists_eq_ok (by decide +kernel)
  have hcheck : ((doubleFeedJob 1).topology.toOption.map fun t =>
      decide (t.Declares feedSequence ∧ t.TellsApart feedSequence)) = some true := by
    decide +kernel
  rw [ht] at hcheck
  obtain ⟨hdeclared, hapart⟩ := of_decide_eq_true (Option.some.inj hcheck)
  have hs : feedSequence.IsConnected := by decide
  have hkeeps := (Job.topology_keepsTo ht t.constraints hs hdeclared).2.2 hapart
  exact ⟨t, ht, hs, hdeclared, hapart, hkeeps⟩

/-- If both feeds enter at one input gate, the path back from `B` also leads through the second. -/
theorem not_keepsTo_fits : ∃ t, (doubleFeedJob 0).topology = .ok t ∧ feedSequence.IsConnected ∧
    t.Declares feedSequence ∧ ¬ t.KeepsTo feedSequence t.Fits := by
  obtain ⟨t, ht⟩ : ∃ t, (doubleFeedJob 0).topology = .ok t := exists_eq_ok (by decide +kernel)
  have hcheck : ((doubleFeedJob 0).topology.toOption.map fun t =>
      decide (t.Declares feedSequence ∧ ∃ paths ∈ (t.pathsThrough feedSequence ⟨"b0"⟩).toOption,
        ∃ p ∈ paths, ¬ List.Forall₂ t.Fits feedSequence p)) = some true := by decide +kernel
  rw [ht] at hcheck
  obtain ⟨hdeclared, paths, hpaths, p, hp, hstray⟩ :=
    of_decide_eq_true (Option.some.inj hcheck)
  have hthrough := eq_ok_of_toOption hpaths
  exact ⟨t, ht, by decide, hdeclared, fun hkeeps => hstray (hkeeps.paths _ paths hthrough p hp)⟩

end LatencyControl
