import LatencyControl.Monitor.Model
import LatencyControl.Proofs.Path.Connected
import LatencyControl.Proofs.Role.Collection

/-!
# What a model keeps data of

A model makes room for the reports of the reporters that its manager role assigns, and later asks
for the data of every step of every path.  If the sequence is connected, the data is there
(`Model.holdsDataFor_paths`): the walk that assigns the reporters has visited every step of every
path (`Walk.Covers.visited`), and every visit makes room for the reports of its place.
-/

namespace LatencyControl

namespace VertexData

theorem expects_expect (d : VertexData Float) (gates gates' : GatePair) :
    (d.expect gates).expects gates' = true ↔ d.expects gates' = true ∨ gates = gates' := by
  unfold expect
  split_ifs with hexpects
  · exact ⟨.inl, fun h => h.elim id fun heq => heq ▸ hexpects⟩
  · simp only [expects, history?, List.lookup_append, Option.isSome_or, Bool.or_eq_true]
    by_cases hgates : gates = gates'
    · simp [hgates]
    · simp [hgates, beq_eq_false_iff_ne.mpr (Ne.symm hgates), List.lookup_cons]

theorem expect_member (d : VertexData Float) (gates : GatePair) :
    (d.expect gates).member = d.member := by
  unfold expect
  split_ifs <;> rfl

end VertexData

namespace ReporterRole

/-- The gates that a reporter measures between, if it measures a member. -/
def gates : ReporterRole → Option GatePair
  | .vertex r => some { input := r.input, output := r.output }
  | .edge _ => none

/-- What a reporter measures. -/
def step : ReporterRole → PathStep
  | .vertex r => .member r.member
  | .edge r => .wire r.wire

end ReporterRole

namespace Model

/-! ### Room for reports -/

/-- The model keeps the data that a summary needs of one step: of a member if it makes room for
reports between the given gates, of a wire if it knows the channel. -/
def HoldsDataFor (m : Model) : Option GatePair → PathStep → Prop
  | some gates, .member id =>
    ∃ data, m.members.find? id = some data ∧ data.member = id ∧ data.expects gates = true
  | none, .wire w =>
    ∃ data, m.channels.find? w.sourceChannel = some data ∧ data.channel = w.sourceChannel
  | _, _ => False

/-- The data of every member and channel is kept under its name. -/
structure IsKeyed (m : Model) : Prop where
  members : ∀ id data, m.members.find? id = some data → data.member = id
  channels : ∀ id data, m.channels.find? id = some data → data.channel = id

variable {m : Model} {settings : Settings} {now : Int}

theorem IsKeyed.expect (h : m.IsKeyed) (r : ReporterRole) : (m.expect settings now r).IsKeyed := by
  cases r with
  | vertex r =>
    refine ⟨fun id data hdata => ?_, h.channels⟩
    simp only [Model.expect, Table.find?_upsert] at hdata
    split_ifs at hdata with hid
    · obtain rfl := Option.some.inj hdata
      rw [VertexData.expect_member]
      cases hfound : m.members.find? r.member with
      | none => exact hid
      | some found => exact (h.members _ found hfound).trans hid
    · exact h.members id data hdata
  | edge r =>
    refine ⟨h.members, fun id data hdata => ?_⟩
    simp only [Model.expect, Table.find?_upsert] at hdata
    split_ifs at hdata with hid
    · obtain rfl := Option.some.inj hdata
      cases hfound : m.channels.find? r.wire.sourceChannel with
      | none => exact hid
      | some found => exact (h.channels _ found hfound).trans hid
    · exact h.channels id data hdata

/-- Room for more reports leaves all other room as it is. -/
theorem HoldsDataFor.expect {gates : Option GatePair} {step : PathStep}
    (h : m.HoldsDataFor gates step) (r : ReporterRole) :
    (m.expect settings now r).HoldsDataFor gates step := by
  cases gates with
  | some gates =>
    cases step with
    | wire w => exact h.elim
    | member id =>
      obtain ⟨data, hfind, hmember, hexpects⟩ := h
      cases r with
      | edge r => exact ⟨data, hfind, hmember, hexpects⟩
      | vertex r =>
        by_cases hid : r.member = id
        · subst hid
          refine ⟨_, Table.find?_upsert_self _ _ _, ?_, ?_⟩
          · rw [VertexData.expect_member, hfind]
            exact hmember
          · rw [hfind, VertexData.expects_expect]
            exact .inl hexpects
        · exact ⟨data, (Table.find?_upsert_of_ne _ hid _).trans hfind, hmember, hexpects⟩
  | none =>
    cases step with
    | member id => exact h.elim
    | wire w =>
      obtain ⟨data, hfind, hchannel⟩ := h
      cases r with
      | vertex r => exact ⟨data, hfind, hchannel⟩
      | edge r =>
        by_cases hid : r.wire.sourceChannel = w.sourceChannel
        · refine ⟨_, by rw [← hid]; exact Table.find?_upsert_self _ _ _, ?_⟩
          rw [hid, hfind]
          exact hchannel
        · exact ⟨data, (Table.find?_upsert_of_ne _ hid _).trans hfind, hchannel⟩

theorem HoldsDataFor.foldl {gates : Option GatePair} {step : PathStep} (assigned : List Assignment)
    {m : Model} (h : m.HoldsDataFor gates step) :
    (assigned.foldl (fun m a => m.expect settings now a.2) m).HoldsDataFor gates step := by
  induction assigned generalizing m with
  | nil => exact h
  | cons first rest ih => exact ih (h.expect first.2)

/-- The room for the reports of one reporter. -/
theorem holdsDataFor_expect (hkeyed : m.IsKeyed) (r : ReporterRole) :
    (m.expect settings now r).HoldsDataFor r.gates r.step := by
  have hkeyed' : (m.expect settings now r).IsKeyed := hkeyed.expect r
  cases r with
  | vertex r =>
    have hfind : (m.expect settings now (.vertex r)).members.find? r.member = some _ :=
      Table.find?_upsert_self _ _ _
    refine ⟨_, hfind, hkeyed'.members _ _ hfind, ?_⟩
    rw [VertexData.expects_expect]
    exact .inr rfl
  | edge r =>
    have hfind : (m.expect settings now (.edge r)).channels.find? r.wire.sourceChannel = some _ :=
      Table.find?_upsert_self _ _ _
    exact ⟨_, hfind, hkeyed'.channels _ _ hfind⟩

/-- The room for the reports of several reporters. -/
theorem holdsDataFor_foldl (assigned : List Assignment) {m : Model} (hkeyed : m.IsKeyed) :
    ∀ a ∈ assigned, (assigned.foldl (fun m a => m.expect settings now a.2) m).HoldsDataFor
      a.2.gates a.2.step := by
  induction assigned generalizing m with
  | nil => exact fun a ha => (List.not_mem_nil ha).elim
  | cons first rest ih =>
    intro a ha
    rcases List.mem_cons.mp ha with rfl | ha
    · exact (holdsDataFor_expect hkeyed a.2).foldl rest
    · exact ih (hkeyed.expect first.2) a ha

/-! ### Room for every step of every path -/

/-- What is visited on a walk is measured by a reporter that is assigned for the visit. -/
theorem exists_assigned_of_visited {t : Topology} {s : Sequence} {manager : ManagerRef}
    {visits : List Visit} {found : List (List Assignment)}
    (hfound : List.Forall₂ (fun v l => assignVisit t s manager v = .ok l) visits found)
    {p : Element × ℕ} {step : PathStep} (h : Visited visits p step) :
    ∃ a ∈ found.flatten, a.2.gates = Summary.gatesOf p.1 ∧ a.2.step = step := by
  obtain ⟨e, i⟩ := p
  cases step with
  | member id =>
    obtain ⟨hvertex, x, rfl, hvisit⟩ := h
    obtain ⟨l, hl, hassign⟩ := exists_result hfound hvisit
    obtain ⟨a, ha, rfl⟩ := assignMemberVisit_eq_ok hassign
    obtain ⟨r, hr, rfl⟩ := assignVertex_eq_ok ha
    refine ⟨_, List.mem_flatten.mpr ⟨_, hl, List.mem_singleton_self _⟩, ?_⟩
    cases e with
    | edge => cases hvertex
    | vertex g inp out sampling =>
      rw [(VertexRole.create_eq_ok hr).1]
      exact ⟨rfl, rfl⟩
  | wire w =>
    obtain ⟨hvertex, hvisit⟩ := h
    obtain ⟨l, hl, hassign⟩ := exists_result hfound hvisit
    obtain ⟨source, target, r, dummies, -, -, hr, rfl, -⟩ := assignWireVisit_eq_ok hassign
    refine ⟨_, List.mem_flatten.mpr ⟨_, hl, List.mem_cons_self⟩, ?_⟩
    cases e with
    | vertex => cases hvertex
    | edge l sampling =>
      rw [EdgeRole.create_eq_ok hr]
      exact ⟨rfl, rfl⟩

theorem create_eq_ok {role : ManagerRole} (h : create role settings now = .ok m) :
    ∃ assigned, role.assignments = .ok assigned ∧
      m = assigned.foldl (fun m a => m.expect settings now a.2) { role } := by
  obtain ⟨assigned, hassigned, h⟩ := bind_eq_ok.mp h
  exact ⟨assigned, hassigned, (Except.ok.inj h).symm⟩

theorem foldl_expect_role (assigned : List Assignment) (m : Model) :
    (assigned.foldl (fun m a => m.expect settings now a.2) m).role = m.role := by
  induction assigned generalizing m with
  | nil => rfl
  | cons first rest ih =>
    have hfirst : (m.expect settings now first.2).role = m.role := by cases first.2 <;> rfl
    rw [List.foldl_cons, ih, hfirst]

theorem create_role {role : ManagerRole} (h : create role settings now = .ok m) :
    m.role = role := by
  obtain ⟨assigned, -, hfold⟩ := create_eq_ok h
  rw [hfold, foldl_expect_role]

/-- The paths of a model can be told if all members that it watches are there. -/
theorem paths_eq_ok {c : Constraint} {paths : List Path} (hc : m.constraint = .ok c) :
    m.paths = .ok paths ↔ ∃ found,
      List.Forall₂ (fun anchor l => m.role.topology.pathsThrough c.sequence anchor = .ok l)
        m.role.members found ∧ paths = found.flatten := by
  constructor
  · intro h
    obtain ⟨c', hc', h⟩ := bind_eq_ok.mp h
    obtain rfl : c = c' := Except.ok.inj (hc.symm.trans hc')
    obtain ⟨found, hfound, h⟩ := bind_eq_ok.mp h
    exact ⟨found, mapM_eq_ok.mp hfound, (Except.ok.inj h).symm⟩
  · rintro ⟨found, hfound, rfl⟩
    exact bind_eq_ok.mpr ⟨c, hc, bind_eq_ok.mpr ⟨found, mapM_eq_ok.mpr hfound, rfl⟩⟩

/-- **Every step of every path is prepared for.**  For a connected sequence the paths that a model
watches can be told, and along each of them the model keeps the data of every step, for a member
between the gates that a summary of the sequence reads at this position. -/
theorem holdsDataFor_paths {role : ManagerRole} {c : Constraint}
    (hm : create role settings now = .ok m) (hc : m.constraint = .ok c)
    (hconnected : c.sequence.IsConnected) :
    ∃ paths, m.paths = .ok paths ∧ ∀ p ∈ paths,
      List.Forall₂ m.HoldsDataFor (Summary.ofSequence c.sequence : Summary Float).gates p := by
  obtain ⟨assigned, hassigned, hfold⟩ := create_eq_ok hm
  have hrole := create_role hm
  obtain ⟨c', w, visited, hc', hw, hvisited, rfl⟩ := ManagerRole.assignments_eq_ok hassigned
  obtain rfl : c = c' := by
    rw [Model.constraint, hrole] at hc
    exact Except.ok.inj (hc.symm.trans hc')
  have hcovers : ∀ anchor ∈ m.role.members, ∃ x, m.role.topology.member? anchor = some x ∧
      w.Covers m.role.topology c.sequence x := by
    rw [hrole]
    exact fun anchor hanchor => ManagerRole.walk_covers hw hanchor
  obtain ⟨found, hfound⟩ := exists_mapM_eq_ok (f := m.role.topology.pathsThrough c.sequence)
    fun anchor hanchor => by
      obtain ⟨x, hx, -⟩ := hcovers anchor hanchor
      exact ⟨_, Topology.pathsThrough_eq_ok hx⟩
  refine ⟨found.flatten, (paths_eq_ok hc).mpr ⟨found, mapM_eq_ok.mp hfound, rfl⟩, fun p hp => ?_⟩
  obtain ⟨paths, hpaths, hp⟩ := List.mem_flatten.mp hp
  obtain ⟨anchor, hanchor, hthrough⟩ := exists_item (mapM_eq_ok.mp hfound) hpaths
  obtain ⟨x, hx, hx'⟩ := hcovers anchor hanchor
  have hsteps := hx'.visited hconnected hx hthrough p hp
  -- a visit of a step gives it a reporter, and a reporter gives it room
  have hkeyed : IsKeyed { role } := ⟨fun _ _ h => (by cases h), fun _ _ h => (by cases h)⟩
  have hheld : List.Forall₂ (fun q step => m.HoldsDataFor (Summary.gatesOf q.1) step)
      c.sequence.zipIdx p := hsteps.imp fun q step hq => by
    obtain ⟨a, ha, hgates, hstep⟩ := exists_assigned_of_visited hvisited hq
    rw [← hgates, ← hstep, hfold]
    exact holdsDataFor_foldl _ hkeyed a ha
  have hsequence : (Summary.ofSequence c.sequence : Summary Float).gates
      = c.sequence.zipIdx.map fun q => Summary.gatesOf q.1 := by
    rw [← Function.comp_def, ← List.map_map, List.zipIdx_map_fst]
    rfl
  rwa [hsequence, List.forall₂_map_left_iff]

/-- A constraint on the whole way from one group to another. -/
def funnelConstraint : Constraint where
  id := ⟨"c"⟩
  name := "c"
  bound := 10
  sequence :=
    [.vertex ⟨"A"⟩ none (some 0) .readWrite,
      .edge { source := ⟨"A"⟩, outputGate := 0, target := ⟨"B"⟩, inputGate := 0 } .readWrite,
      .vertex ⟨"B"⟩ (some 0) none .readWrite]

/-- A manager of two members that both feed a third one. -/
def funnelRole : ManagerRole where
  host := ⟨"h"⟩
  constraint := funnelConstraint.id
  anchor := ⟨"A"⟩
  members := [⟨"a0"⟩, ⟨"a1"⟩]
  topology :=
    { members :=
        [⟨⟨"a0"⟩, "A (1)", ⟨"A"⟩, 0, ⟨"h"⟩, 0, 1⟩, ⟨⟨"a1"⟩, "A (2)", ⟨"A"⟩, 1, ⟨"h"⟩, 0, 1⟩,
          ⟨⟨"b"⟩, "B (1)", ⟨"B"⟩, 0, ⟨"k"⟩, 1, 0⟩]
      wires :=
        [{ source := ⟨"a0"⟩, outputGate := 0, target := ⟨"b"⟩, inputGate := 0 },
          { source := ⟨"a1"⟩, outputGate := 0, target := ⟨"b"⟩, inputGate := 0 }]
      constraints := Table.empty.insert funnelConstraint.id funnelConstraint }

theorem holdsDataFor_paths_funnelRole :
    ∃ m, create funnelRole {} 0 = .ok m ∧ m.constraint = .ok funnelConstraint ∧
      funnelConstraint.sequence.IsConnected ∧ ∃ paths, m.paths = .ok paths ∧ ∀ p ∈ paths,
        List.Forall₂ m.HoldsDataFor
          (Summary.ofSequence funnelConstraint.sequence : Summary Float).gates p := by
  obtain ⟨m, hm⟩ : ∃ m, create funnelRole {} 0 = .ok m := exists_eq_ok (by decide +kernel)
  have hc : m.constraint = .ok funnelConstraint := by
    rw [Model.constraint, create_role hm, Topology.constraint, Topology.constraint?]
    simp only [funnelRole, Table.find?_insert_self]
  have hconnected : funnelConstraint.sequence.IsConnected := by decide
  exact ⟨m, hm, hc, hconnected, holdsDataFor_paths hm hc hconnected⟩

end Model

end LatencyControl
