import LatencyControl.Proofs.Result
import LatencyControl.Role.Collection

/-!
# The reporters that a manager gets

What the roles look like that a manager role assigns: each of them reports to the manager, the key
of a vertex role is that of a member and the key of an edge role that of a channel.  A visited
member gets a reporter between the gates of its element (`assignMemberVisit_eq_ok`), and a visited
wire gets one of its own (`assignWireVisit_eq_ok`).
-/

namespace LatencyControl

/-! ### Keys -/

namespace ReporterId

theorem ofGates_eq_ok {m : MemberId} {input output : Option GateId} {id : ReporterId}
    (h : ofGates m input output = .ok id) : id = .vertex m input output := by
  obtain ⟨-, -, h⟩ := bind_eq_ok.mp h
  obtain ⟨-, h⟩ := check_eq_ok.mp h
  obtain ⟨-, -, h⟩ := bind_eq_ok.mp h
  exact (Except.ok.inj h).symm

theorem inputGateOf_eq_ok {m : Member} {input : Option Nat} {gate : Option GateId}
    (h : inputGateOf m input = .ok gate) :
    gate = input.map m.inputGate ∧ ∀ i ∈ input, i < m.inputs := by
  cases input with
  | none => exact ⟨(Except.ok.inj h).symm, fun i hi => (Option.not_mem_none i hi).elim⟩
  | some i =>
    rw [inputGateOf] at h
    split_ifs at h with hi
    exact ⟨(Except.ok.inj h).symm, fun j hj => Option.mem_some_iff.mp hj ▸ hi⟩

theorem outputGateOf_eq_ok {m : Member} {output : Option Nat} {gate : Option GateId}
    (h : outputGateOf m output = .ok gate) :
    gate = output.map m.outputGate ∧ ∀ i ∈ output, i < m.outputs := by
  cases output with
  | none => exact ⟨(Except.ok.inj h).symm, fun i hi => (Option.not_mem_none i hi).elim⟩
  | some i =>
    rw [outputGateOf] at h
    split_ifs at h with hi
    exact ⟨(Except.ok.inj h).symm, fun j hj => Option.mem_some_iff.mp hj ▸ hi⟩

/-- The key of a member's reporter names the member and its gates, which the member has. -/
theorem ofMember_eq_ok {m : Member} {input output : Option Nat} {id : ReporterId}
    (h : ofMember m input output = .ok id) :
    id = .vertex m.id (input.map m.inputGate) (output.map m.outputGate) ∧
      (∀ i ∈ input, i < m.inputs) ∧ ∀ i ∈ output, i < m.outputs := by
  obtain ⟨i, hi, h⟩ := bind_eq_ok.mp h
  obtain ⟨o, ho, h⟩ := bind_eq_ok.mp h
  obtain ⟨rfl, hinput⟩ := inputGateOf_eq_ok hi
  obtain ⟨rfl, houtput⟩ := outputGateOf_eq_ok ho
  exact ⟨ofGates_eq_ok h, hinput, houtput⟩

/-- The key of a wire's reporter names its channel. -/
theorem ofWire_eq_ok {w : Wire} {id : ReporterId} (h : ofWire w = .ok id) :
    id = .edge w.sourceChannel := by
  obtain ⟨-, -, h⟩ := bind_eq_ok.mp h
  exact (Except.ok.inj h).symm

end ReporterId

/-! ### Roles -/

theorem VertexRole.create_eq_ok {m : Member} {input output : Option Nat} {sampling : Sampling}
    {isDummy : Bool} {manager : ManagerRef} {r : VertexRole}
    (h : VertexRole.create m input output sampling isDummy manager = .ok r) :
    r = { reporter := r.reporter, member := m.id, group := m.group, host := m.host, input, output,
          sampling, isDummy, manager } ∧ ReporterId.ofMember m input output = .ok r.reporter := by
  obtain ⟨reporter, hreporter, h⟩ := bind_eq_ok.mp h
  obtain rfl := Except.ok.inj h
  exact ⟨rfl, hreporter⟩

theorem EdgeRole.create_eq_ok {w : Wire} {source target : Member} {sampling : Sampling}
    {manager : ManagerRef} {r : EdgeRole}
    (h : EdgeRole.create w source target sampling manager = .ok r) :
    r = { reporter := .edge w.sourceChannel, wire := w, sourceHost := source.host,
          targetHost := target.host, sampling, manager } := by
  rw [EdgeRole.create] at h
  obtain ⟨-, h⟩ := check_eq_ok.mp h
  obtain ⟨reporter, hreporter, h⟩ := bind_eq_ok.mp h
  rw [← ReporterId.ofWire_eq_ok hreporter]
  exact (Except.ok.inj h).symm

theorem assignVertex_eq_ok {m : Member} {input output : Option Nat} {sampling : Sampling}
    {isDummy : Bool} {manager : ManagerRef} {a : Assignment}
    (h : assignVertex m input output sampling isDummy manager = .ok a) :
    ∃ r, VertexRole.create m input output sampling isDummy manager = .ok r ∧
      a = (m.host, .vertex r) := by
  obtain ⟨r, hr, h⟩ := bind_eq_ok.mp h
  exact ⟨r, hr, (Except.ok.inj h).symm⟩

/-! ### Visits -/

/-- What holds of every role that is assigned for a manager. -/
def ReporterRole.IsFor (manager : ManagerRef) : ReporterRole → Prop
  | .vertex r => r.manager = manager ∧ ∃ i o, r.reporter = .vertex r.member i o
  | .edge r => r.manager = manager ∧ r.reporter = .edge r.wire.sourceChannel

theorem assignVertex_isFor {m : Member} {input output : Option Nat} {sampling : Sampling}
    {isDummy : Bool} {manager : ManagerRef} {a : Assignment}
    (h : assignVertex m input output sampling isDummy manager = .ok a) : a.2.IsFor manager := by
  obtain ⟨r, hr, rfl⟩ := assignVertex_eq_ok h
  obtain ⟨hfields, hreporter⟩ := VertexRole.create_eq_ok hr
  rw [hfields]
  exact ⟨rfl, _, _, (ReporterId.ofMember_eq_ok hreporter).1⟩

theorem assignMemberVisit_eq_ok {manager : ManagerRef} {m : Member} {e : Element}
    {as : List Assignment} (h : assignMemberVisit manager m e = .ok as) :
    ∃ a, assignVertex m e.input e.output e.sampling false manager = .ok a ∧ as = [a] := by
  obtain ⟨a, ha, h⟩ := bind_eq_ok.mp h
  exact ⟨a, ha, (Except.ok.inj h).symm⟩

/-- A reporter that is only needed at an end of a sequence. -/
theorem optional_eq_ok {p : Prop} [Decidable p] {α β : Type} {x : Except Error α}
    {f : List α → Except Error β} {b : β}
    (h : (if p then do f (← pure [← x]) else do f (← pure [])) = .ok b) :
    ∃ found, f found = .ok b ∧ ∀ a ∈ found, x = .ok a := by
  split_ifs at h
  · obtain ⟨a, ha, h⟩ := bind_eq_ok.mp h
    exact ⟨[a], h, fun a' ha' => by rw [List.mem_singleton.mp ha', ha]⟩
  · exact ⟨[], h, fun a' ha' => (List.not_mem_nil ha').elim⟩

/-- A visited wire gets a reporter of its own at both ends; dummies of the members at its ends may
follow. -/
theorem assignWireVisit_eq_ok {t : Topology} {s : Sequence} {manager : ManagerRef} {w : Wire}
    {position : Nat} {e : Element} {as : List Assignment}
    (h : assignWireVisit t s manager w position e = .ok as) :
    ∃ source target r dummies, t.member w.source = .ok source ∧ t.member w.target = .ok target ∧
      EdgeRole.create w source target e.sampling manager = .ok r ∧
      as = (source.host, .edge r) :: (target.host, .edge r) :: dummies ∧
      ∀ a ∈ dummies, ∃ m ∈ [source, target], ∃ input output,
        assignVertex m input output e.sampling true manager = .ok a := by
  obtain ⟨source, hsource, h₁⟩ := bind_eq_ok.mp h
  obtain ⟨target, htarget, h₂⟩ := bind_eq_ok.mp h₁
  obtain ⟨r, hr, h₃⟩ := bind_eq_ok.mp h₂
  obtain ⟨first, h₄, hfirst⟩ := optional_eq_ok h₃
  obtain ⟨last, h₅, hlast⟩ := optional_eq_ok h₄
  refine ⟨source, target, r, first ++ last, hsource, htarget, hr, (Except.ok.inj h₅).symm, ?_⟩
  -- one dummy may be at the head of the first edge, one at the end of the last
  intro a ha
  rcases List.mem_append.mp ha with ha | ha
  · exact ⟨source, List.mem_cons_self, _, _, hfirst a ha⟩
  · exact ⟨target, List.mem_cons_of_mem _ List.mem_cons_self, _, _, hlast a ha⟩

theorem assignVisit_isFor {t : Topology} {s : Sequence} {manager : ManagerRef} {v : Visit}
    {as : List Assignment} (h : assignVisit t s manager v = .ok as) :
    ∀ a ∈ as, a.2.IsFor manager := by
  rw [assignVisit] at h
  split at h
  · obtain ⟨a, ha, rfl⟩ := assignMemberVisit_eq_ok h
    intro a' ha'
    rw [List.mem_singleton.mp ha']
    exact assignVertex_isFor ha
  · obtain ⟨source, target, r, dummies, -, -, hr, rfl, hdummies⟩ := assignWireVisit_eq_ok h
    have hedge : ReporterRole.IsFor manager (.edge r) := by
      rw [EdgeRole.create_eq_ok hr]
      exact ⟨rfl, rfl⟩
    intro a ha
    rcases List.mem_cons.mp ha with rfl | ha
    · exact hedge
    · rcases List.mem_cons.mp ha with rfl | ha
      · exact hedge
      · obtain ⟨m, -, input, output, hassign⟩ := hdummies a ha
        exact assignVertex_isFor hassign

/-! ### All reporters of a manager role -/

namespace ManagerRole

/-- The reporters of a manager role are those of the visits of its walk. -/
theorem assignments_eq_ok {r : ManagerRole} {as : List Assignment} (h : r.assignments = .ok as) :
    ∃ c w found, r.topology.constraint r.constraint = .ok c ∧ r.walk c.sequence = .ok w ∧
      List.Forall₂ (fun v l => assignVisit r.topology c.sequence r.ref v = .ok l) w.visits found ∧
      as = found.flatten := by
  obtain ⟨c, hc, h⟩ := bind_eq_ok.mp h
  obtain ⟨w, hw, h⟩ := bind_eq_ok.mp h
  obtain ⟨found, hfound, h⟩ := bind_eq_ok.mp h
  exact ⟨c, w, found, hc, hw, mapM_eq_ok.mp hfound, (Except.ok.inj h).symm⟩

theorem isFor_of_mem_assignments {r : ManagerRole} {as : List Assignment}
    (h : r.assignments = .ok as) {a : Assignment} (ha : a ∈ as) : a.2.IsFor r.ref := by
  obtain ⟨c, w, found, -, -, hvisits, rfl⟩ := assignments_eq_ok h
  obtain ⟨l, hl, ha⟩ := List.mem_flatten.mp ha
  obtain ⟨v, -, hv⟩ := exists_item hvisits hl
  exact assignVisit_isFor hv a ha

end ManagerRole

end LatencyControl
