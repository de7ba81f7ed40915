import LatencyControl.Proofs.Monitor.Keys
import LatencyControl.Proofs.Monitor.Operating

/-!
# Reports that a model takes in

A model makes room for the reporters that its manager role assigns, and for nothing else
(`Model.room_after`).  What these report is taken in, and stored just where the reporter measures
(`Model.process_assigned`).

All else should be refused.  A model goes by the gates that it recognizes in the key of a reporter,
though, and not by the key itself (`Model.expects_after_iff`).  So it refuses what is not recognized
as the report of an assigned reporter (`Model.process_eq_false_iff`), and it takes in the report of
a foreign one if nothing but the name of an unknown gate makes it differ from an assigned one
(`Model.not_refusesForeign`).
-/

namespace LatencyControl

/-- A sample is of the kind of its reporter. -/
def Sample.IsOfKind {α : Type} (s : Sample α) : Prop :=
  match s.reporter, s.metrics with
  | .vertex .., .vertex _ => True
  | .edge _, .edge _ => True
  | _, _ => False

/-! ### Recognized keys -/

namespace ReporterRole

variable {t : Topology} {r : ReporterRole}

/-- A reporter is recognized in a key if it measures the named member between the gates that the
member has of those in the key. -/
theorem HasKey.reporter_eq_recognized_vertex_iff (h : r.HasKey t) {id : MemberId}
    {input output : Option GateId} :
    r.reporter = t.recognized (.vertex id input output) ↔
      ∃ m, t.member? id = some m ∧ r.gates = some (Model.gatesOf m input output) ∧
        r.step = .member id := by
  obtain ⟨i, o, hrecognized⟩ := t.exists_recognized_vertex id input output
  cases r with
  | edge r =>
    have hkey : r.reporter = .edge r.wire.sourceChannel := h
    rw [reporter, hkey, hrecognized]
    constructor
    · intro hvertex
      cases hvertex
    · rintro ⟨m, -, -, hstep⟩
      cases hstep
  | vertex r =>
    obtain ⟨m, hm, -, hkey⟩ := h
    rw [reporter, hkey]
    constructor
    · intro hreporter
      -- the key names the member, and the member tells the gates in it
      obtain rfl : m.id = id := (ReporterId.vertex.inj (hreporter.trans hrecognized)).1
      have hid : m.id = r.member := Topology.member?_id hm
      have hself : t.member? m.id = some m := by rw [hid, hm]
      rw [Topology.recognized_vertex hself] at hreporter
      exact ⟨m, hself, congrArg some (m.key_injective hreporter),
        congrArg PathStep.member hid.symm⟩
    · rintro ⟨m', hm', hgates, hstep⟩
      obtain rfl : r.member = id := PathStep.member.inj hstep
      obtain rfl : m = m' := Option.some.inj (hm.symm.trans hm')
      rw [Topology.recognized_vertex hm]
      exact congrArg m.key (Option.some.inj hgates)

theorem HasKey.reporter_eq_edge_iff (h : r.HasKey t) {channel : ChannelId} :
    r.reporter = .edge channel ↔ ∃ w, r.step = .wire w ∧ w.sourceChannel = channel := by
  cases r with
  | edge r =>
    have hkey : r.reporter = .edge r.wire.sourceChannel := h
    rw [reporter, hkey, ReporterId.edge.injEq]
    constructor
    · exact fun hchannel => ⟨r.wire, rfl, hchannel⟩
    · rintro ⟨w, hw, hchannel⟩
      rw [PathStep.wire.inj hw]
      exact hchannel
  | vertex r =>
    obtain ⟨m, -, -, hkey⟩ := h
    rw [reporter, hkey]
    constructor
    · intro hedge
      cases hedge
    · rintro ⟨w, hw, -⟩
      cases hw

end ReporterRole

namespace Model

variable {role : ManagerRole} {settings : Settings} {deployed : Int} {m : Model}
  {assigned : List Assignment}

/-! ### Room for reports -/

/-- At any time there is room for the reports of the assigned reporters, and for no others. -/
theorem room_after (hm : create role settings deployed = .ok m)
    (hassigned : role.assignments = .ok assigned) (ops : List ModelOp) :
    (∀ id gates, ((m.after ops).history? id gates).isSome = true ↔
        ∃ a ∈ assigned, a.2.gates = some gates ∧ a.2.step = .member id) ∧
      ∀ channel, ((m.after ops).channels.find? channel).isSome = true ↔
        ∃ a ∈ assigned, ∃ w, a.2.step = .wire w ∧ w.sourceChannel = channel := by
  have hnew := create_isNew hm hassigned
  obtain ⟨assigned', hassigned', hfold⟩ := create_eq_ok hm
  obtain rfl := Except.ok.inj (hassigned.symm.trans hassigned')
  have hkeyed : IsKeyed { role } := ⟨fun _ _ h => (by cases h), fun _ _ h => (by cases h)⟩
  have hheld : ∀ a ∈ assigned, m.HoldsDataFor a.2.gates a.2.step := by
    rw [hfold]
    exact holdsDataFor_foldl assigned hkeyed
  obtain ⟨hhistories, hchannels⟩ := m.isSome_after ops
  refine ⟨fun id gates => ?_, fun channel => ?_⟩
  · rw [hhistories]
    constructor
    · intro h
      obtain ⟨hist, hhist⟩ := Option.isSome_iff_exists.mp h
      exact (hnew.histories id gates hist hhist).2
    · rintro ⟨a, ha, hgates, hstep⟩
      have hroom := hheld a ha
      rw [hgates, hstep] at hroom
      obtain ⟨d, hd, -, hexpects⟩ := hroom
      exact isSome_history?.mpr ⟨d, hd, hexpects⟩
  · rw [hchannels]
    constructor
    · intro h
      obtain ⟨d, hd⟩ := Option.isSome_iff_exists.mp h
      exact (hnew.channels channel d hd).2
    · rintro ⟨⟨host, r | r⟩, ha, w, hstep, rfl⟩
      · cases hstep
      · obtain rfl := PathStep.wire.inj hstep
        obtain ⟨d, hd, -⟩ := hheld _ ha
        exact Option.isSome_iff_exists.mpr ⟨d, hd⟩

/-- A model expects what it recognizes as the report of an assigned reporter. -/
theorem expects_after_iff (hm : create role settings deployed = .ok m)
    (hassigned : role.assignments = .ok assigned) (ops : List ModelOp) (s : Sample Float) :
    (m.after ops).Expects s ↔
      s.IsOfKind ∧ ∃ a ∈ assigned, a.2.reporter = role.topology.recognized s.reporter := by
  obtain ⟨hhistories, hchannels⟩ := room_after hm hassigned ops
  have hrole : (m.after ops).role = role := (m.after_role ops).trans (create_role hm)
  have hkeys : ∀ a ∈ assigned, a.2.HasKey role.topology := fun a ha =>
    ManagerRole.hasKey_of_mem_assignments hassigned ha
  obtain ⟨⟨id, input, output⟩ | channel, metrics | metrics⟩ := s
  · simp only [Expects, hrole, hhistories, Sample.IsOfKind, true_and]
    constructor
    · rintro ⟨member, hmember, a, ha, hgates, hstep⟩
      exact ⟨a, ha, (hkeys a ha).reporter_eq_recognized_vertex_iff.mpr
        ⟨member, hmember, hgates, hstep⟩⟩
    · rintro ⟨a, ha, hreporter⟩
      obtain ⟨member, hmember, hplace⟩ :=
        (hkeys a ha).reporter_eq_recognized_vertex_iff.mp hreporter
      exact ⟨member, hmember, a, ha, hplace⟩
  · exact ⟨False.elim, fun h => h.1⟩
  · exact ⟨False.elim, fun h => h.1⟩
  · simp only [Expects, hchannels, Sample.IsOfKind, true_and]
    constructor
    · rintro ⟨a, ha, hwire⟩
      exact ⟨a, ha, (hkeys a ha).reporter_eq_edge_iff.mpr hwire⟩
    · rintro ⟨a, ha, hreporter⟩
      exact ⟨a, ha, (hkeys a ha).reporter_eq_edge_iff.mp hreporter⟩

/-! ### Reports of assigned reporters -/

/-- A measurement was stored where a reporter measures: between its gates of its member, or in the
metrics of its channel.  All else is as it was. -/
def StoresFor (m m' : Model) (timestamp : Int) : ReporterRole → Metrics Float → Prop
  | .vertex r, .vertex metrics => m.GainsBetween m' r.member
      { input := r.input, output := r.output } { value := metrics, timestamp }
  | .edge r, .edge metrics => m.GainsOn m' r.wire.sourceChannel metrics timestamp
  | _, _ => False

/-- **Assigned reporters are listened to.**  Whatever was done to a model, a sample that has the key
of an assigned reporter and is of its kind is taken in, and stored just where the reporter
measures. -/
theorem process_assigned (hm : create role settings deployed = .ok m)
    (hassigned : role.assignments = .ok assigned) {a : Assignment} (ha : a ∈ assigned)
    (ops : List ModelOp) {s : Sample Float} (hreporter : s.reporter = a.2.reporter)
    (hkind : s.IsOfKind) (timestamp : Int) :
    ∃ m', (m.after ops).process s timestamp = (true, m') ∧
      (m.after ops).StoresFor m' timestamp a.2 s.metrics := by
  obtain ⟨hhistories, hchannels⟩ := room_after hm hassigned ops
  have hrole : (m.after ops).role = role := (m.after_role ops).trans (create_role hm)
  have hkey := ManagerRole.hasKey_of_mem_assignments hassigned ha
  obtain ⟨reporter, metrics⟩ := s
  obtain ⟨host, r | r⟩ := a
  · obtain ⟨member, hmember, hgates, hkey⟩ := hkey
    obtain rfl : reporter = member.key { input := r.input, output := r.output } :=
      hreporter.trans hkey
    have hread := gatesOf_of_hasGates hgates
    cases metrics with
    | edge metrics => exact hkind.elim
    | vertex metrics =>
      have hid : member.id = r.member := Topology.member?_id hmember
      have hself : (m.after ops).role.topology.member? member.id = some member := by
        rw [hrole, hid, hmember]
      have hexpects : (m.after ops).Expects
          ⟨member.key { input := r.input, output := r.output }, .vertex metrics⟩ :=
        ⟨member, hself, (hhistories _ _).mpr
          ⟨_, ha, congrArg some hread.symm, congrArg PathStep.member hid.symm⟩⟩
      obtain ⟨m', hm', member', hmember', hgains⟩ := process_of_expects hexpects timestamp
      obtain rfl : member = member' := Option.some.inj (hself.symm.trans hmember')
      rw [hread, hid] at hgains
      exact ⟨m', hm', hgains⟩
  · obtain rfl : reporter = .edge r.wire.sourceChannel := hreporter.trans hkey
    cases metrics with
    | vertex metrics => exact hkind.elim
    | edge metrics =>
      have hexpects : (m.after ops).Expects ⟨.edge r.wire.sourceChannel, .edge metrics⟩ :=
        (hchannels _).mpr ⟨_, ha, r.wire, rfl, rfl⟩
      exact process_of_expects hexpects timestamp

theorem process_assigned_funnelRole :
    ∃ m assigned, create funnelRole {} 0 = .ok m ∧ funnelRole.assignments = .ok assigned ∧
      ∃ a ∈ assigned, a.2.reporter = .vertex ⟨"a0"⟩ none (some ⟨"a0/out0"⟩) ∧
        ∃ m', (m.after []).process
            ⟨.vertex ⟨"a0"⟩ none (some ⟨"a0/out0"⟩), .vertex ⟨some 3, none, none⟩⟩ 10 = (true, m') ∧
          (m.after []).StoresFor m' 10 a.2 (.vertex ⟨some 3, none, none⟩) := by
  obtain ⟨m, hm⟩ : ∃ m, create funnelRole {} 0 = .ok m := exists_eq_ok (by decide +kernel)
  have hcheck : (funnelRole.assignments.toOption.map fun assigned => decide (∃ a ∈ assigned,
      a.2.reporter = .vertex ⟨"a0"⟩ none (some ⟨"a0/out0"⟩))) = some true := by decide +kernel
  obtain ⟨assigned, hassigned, hcheck⟩ := Option.map_eq_some_iff.mp hcheck
  have hassigned := eq_ok_of_toOption hassigned
  obtain ⟨a, ha, hreporter⟩ := of_decide_eq_true hcheck
  have hprocess := process_assigned hm hassigned ha []
    (s := ⟨.vertex ⟨"a0"⟩ none (some ⟨"a0/out0"⟩), .vertex ⟨some 3, none, none⟩⟩)
    hreporter.symm trivial 10
  exact ⟨m, assigned, hm, hassigned, a, ha, hreporter, hprocess⟩

/-! ### Other reports -/

/-- **What is not recognized is refused.**  A model leaves a sample alone that is not of the kind of
its reporter, or that it does not recognize as the report of an assigned one, and no others. -/
theorem process_eq_false_iff (hm : create role settings deployed = .ok m)
    (hassigned : role.assignments = .ok assigned) (ops : List ModelOp) (s : Sample Float)
    (timestamp : Int) :
    (m.after ops).process s timestamp = (false, m.after ops) ↔
      ¬ s.IsOfKind ∨ ∀ a ∈ assigned, a.2.reporter ≠ role.topology.recognized s.reporter := by
  have hexpects := expects_after_iff hm hassigned ops s
  by_cases h : (m.after ops).Expects s
  · obtain ⟨m', hm', -⟩ := process_of_expects h timestamp
    obtain ⟨hkind, a, ha, hreporter⟩ := hexpects.mp h
    constructor
    · intro hfalse
      cases hm'.symm.trans hfalse
    · rintro (hnot | hnone)
      · exact absurd hkind hnot
      · exact absurd hreporter (hnone a ha)
  · refine iff_of_true (process_of_not_expects h timestamp) ?_
    by_cases hkind : s.IsOfKind
    · exact .inr fun a ha hreporter => h (hexpects.mpr ⟨hkind, a, ha, hreporter⟩)
    · exact .inl hkind

theorem process_eq_false_funnelRole :
    ∃ m assigned, create funnelRole {} 0 = .ok m ∧ funnelRole.assignments = .ok assigned ∧
      (∀ a ∈ assigned, a.2.reporter ≠
        funnelRole.topology.recognized (.edge ⟨"b[0]->a0[0]"⟩)) ∧
      (m.after []).process ⟨.edge ⟨"b[0]->a0[0]"⟩, .edge ⟨some 3, none, none, none⟩⟩ 10 =
        (false, m.after []) := by
  obtain ⟨m, hm⟩ : ∃ m, create funnelRole {} 0 = .ok m := exists_eq_ok (by decide +kernel)
  have hcheck : (funnelRole.assignments.toOption.map fun assigned => decide (∀ a ∈ assigned,
      a.2.reporter ≠ funnelRole.topology.recognized (.edge ⟨"b[0]->a0[0]"⟩))) = some true := by
    decide +kernel
  obtain ⟨assigned, hassigned, hcheck⟩ := Option.map_eq_some_iff.mp hcheck
  have hassigned := eq_ok_of_toOption hassigned
  have hforeign := of_decide_eq_true hcheck
  exact ⟨m, assigned, hm, hassigned, hforeign,
    (process_eq_false_iff hm hassigned [] _ 10).mpr (.inr hforeign)⟩

/-- Every sample that does not have the key of an assigned reporter is refused, and every one of
another kind. -/
def RefusesForeign (m : Model) (assigned : List Assignment) : Prop :=
  ∀ s timestamp, (¬ s.IsOfKind ∨ ∀ a ∈ assigned, a.2.reporter ≠ s.reporter) →
    m.process s timestamp = (false, m)

/-- A reporter is listened to although its key is a foreign one, as the name of an unknown gate in
it counts for nothing. -/
theorem not_refusesForeign :
    ∃ m assigned, create funnelRole {} 0 = .ok m ∧ funnelRole.assignments = .ok assigned ∧
      ¬ m.RefusesForeign assigned := by
  have hcheck : ((create funnelRole {} 0).toOption.bind fun m =>
      funnelRole.assignments.toOption.map fun assigned =>
        (decide (∀ a ∈ assigned,
          a.2.reporter ≠ .vertex ⟨"a0"⟩ (some ⟨"bogus"⟩) (some ⟨"a0/out0"⟩)),
        (m.process ⟨.vertex ⟨"a0"⟩ (some ⟨"bogus"⟩) (some ⟨"a0/out0"⟩),
          .vertex ⟨some 3, none, none⟩⟩ 10).1)) = some (true, true) := by decide +kernel
  obtain ⟨m, hm, hcheck⟩ := Option.bind_eq_some_iff.mp hcheck
  obtain ⟨assigned, hassigned, hcheck⟩ := Option.map_eq_some_iff.mp hcheck
  obtain ⟨hforeign, htaken⟩ := Prod.mk.inj hcheck
  refine ⟨m, assigned, eq_ok_of_toOption hm, eq_ok_of_toOption hassigned, fun hrefuses => ?_⟩
  rw [hrefuses _ 10 (.inr (of_decide_eq_true hforeign))] at htaken
  cases htaken

end Model

end LatencyControl
