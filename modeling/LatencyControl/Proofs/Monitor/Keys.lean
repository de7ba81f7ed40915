import LatencyControl.Monitor.Model
import LatencyControl.Proofs.Path.Met
import LatencyControl.Proofs.Role.Collection
import LatencyControl.Proofs.Topology.Naming

/-!
# Keys of reporters

A reporter of a member is known by its key, which has the names of gates where its role has their
indices.  The gates of a member have different names, so that a key tells the gates apart
(`Member.key_injective`) and a model reads them back from it (`Model.gatesOf_of_hasGates`).

A name in a key that is not one of the member's gates counts for nothing to a model.  So it takes
the key for the one that is left without such names (`Topology.recognized`).
-/

namespace LatencyControl

/-! ### Names of gates -/

theorem numbered_injective (stem : String) : Function.Injective fun i : ℕ => stem ++ i.repr :=
  fun _ _ h => repr_injective ((String.append_right_inj stem).mp h)

section

variable {name : ℕ → GateId} (hname : Function.Injective name) {n : ℕ}

include hname

/-- The index of a name among different names. -/
theorem findIdx?_names {gate : GateId} {i : ℕ} :
    ((List.range n).map name).findIdx? (· = gate) = some i ↔ i < n ∧ name i = gate := by
  rw [List.findIdx?_eq_some_iff_getElem]
  simp only [List.length_map, List.length_range, List.getElem_map, List.getElem_range,
    decide_eq_true_eq]
  constructor
  · rintro ⟨hi, hgate, -⟩
    exact ⟨hi, hgate⟩
  · rintro ⟨hi, rfl⟩
    exact ⟨hi, rfl, fun j hj hsame => hj.ne (hname hsame)⟩

/-- An index is read back from its name. -/
theorem bind_map_names {index : Option ℕ} (hindex : ∀ i ∈ index, i < n) :
    ((index.map name).bind fun g => ((List.range n).map name).findIdx? (· = g)) = index := by
  cases index with
  | none => rfl
  | some i => exact (findIdx?_names hname).mpr ⟨hindex i rfl, rfl⟩

/-- A name that has an index is found again under this index. -/
theorem map_bind_names (gate : Option GateId) :
    (gate.bind fun g => ((List.range n).map name).findIdx? (· = g)).map name =
      gate.filter (· ∈ (List.range n).map name) := by
  cases gate with
  | none => rfl
  | some g =>
    rw [Option.bind_some]
    cases hindex : ((List.range n).map name).findIdx? (· = g) with
    | none =>
      have hnone : ∀ i < n, ¬ name i = g := by simpa using hindex
      rw [Option.filter_some, if_neg (by simpa using hnone)]
      rfl
    | some i =>
      obtain ⟨hi, rfl⟩ := (findIdx?_names hname).mp hindex
      have hmem : name i ∈ (List.range n).map name := List.mem_map_of_mem (List.mem_range.mpr hi)
      rw [Option.filter_some, if_pos (decide_eq_true hmem)]
      rfl

end

namespace Member

variable (m : Member)

theorem inputGate_injective : Function.Injective m.inputGate := fun _ _ h =>
  numbered_injective (m.id.text ++ "/in") (congrArg Ident.text h)

theorem outputGate_injective : Function.Injective m.outputGate := fun _ _ h =>
  numbered_injective (m.id.text ++ "/out") (congrArg Ident.text h)

/-! ### Keys -/

/-- The key of the reporter of a member between two of its gates. -/
def key (gates : GatePair) : ReporterId :=
  .vertex m.id (gates.input.map m.inputGate) (gates.output.map m.outputGate)

theorem key_injective : Function.Injective m.key := by
  rintro ⟨i, o⟩ ⟨i', o'⟩ h
  obtain ⟨-, hinput, houtput⟩ := ReporterId.vertex.inj h
  obtain rfl : i = i' := Option.map_injective m.inputGate_injective hinput
  obtain rfl : o = o' := Option.map_injective m.outputGate_injective houtput
  rfl

/-- The member has the gates of a pair. -/
structure HasGates (gates : GatePair) : Prop where
  input : ∀ i ∈ gates.input, i < m.inputs
  output : ∀ i ∈ gates.output, i < m.outputs

end Member

/-- A model reads the gates of a member back from their names. -/
theorem Model.gatesOf_of_hasGates {m : Member} {gates : GatePair} (h : m.HasGates gates) :
    gatesOf m (gates.input.map m.inputGate) (gates.output.map m.outputGate) = gates := by
  obtain ⟨i, o⟩ := gates
  exact congrArg₂ GatePair.mk (bind_map_names m.inputGate_injective h.input)
    (bind_map_names m.outputGate_injective h.output)

/-- The key that a model takes a key for: the names in it that are not those of gates of the member
count for nothing. -/
def Topology.recognized (t : Topology) : ReporterId → ReporterId
  | .vertex id input output =>
    match t.member? id with
    | some m =>
      .vertex id (input.filter (· ∈ m.inputGates)) (output.filter (· ∈ m.outputGates))
    | none => .vertex id input output
  | .edge channel => .edge channel

theorem Topology.exists_recognized_vertex (t : Topology) (id : MemberId)
    (input output : Option GateId) :
    ∃ i o, t.recognized (.vertex id input output) = .vertex id i o := by
  rw [recognized]
  cases t.member? id with
  | none => exact ⟨_, _, rfl⟩
  | some m => exact ⟨_, _, rfl⟩

theorem Topology.recognized_vertex {t : Topology} {id : MemberId} {m : Member}
    (hm : t.member? id = some m) (input output : Option GateId) :
    t.recognized (.vertex id input output) = m.key (Model.gatesOf m input output) := by
  have hin := map_bind_names m.inputGate_injective (n := m.inputs) input
  have hout := map_bind_names m.outputGate_injective (n := m.outputs) output
  rw [recognized, hm, Member.key, Topology.member?_id hm]
  exact congrArg₂ (ReporterId.vertex id) hin.symm hout.symm

/-! ### Keys of roles -/

/-- The reporter has the key of what it measures; a member that it measures has the gates between
which it does. -/
def ReporterRole.HasKey (t : Topology) : ReporterRole → Prop
  | .vertex r => ∃ m, t.member? r.member = some m ∧
      m.HasGates { input := r.input, output := r.output } ∧
      r.reporter = m.key { input := r.input, output := r.output }
  | .edge r => r.reporter = .edge r.wire.sourceChannel

namespace Topology

variable {t : Topology} {s : Sequence} {m : Member} {v : Visit}

/-- Members that are met on the way are members of the topology. -/
theorem member?_of_mem_reach {next : Step} {far : Link → GroupId} (hnext : t.Arrives next far)
    {ps : Positions} (hm : t.member? m.id = some m) (hv : v ∈ reach next ps m) {x : Member}
    (hx : v.place = .member x) : t.member? x.id = some x := by
  induction ps generalizing m with
  | nil => exact (List.not_mem_nil hv).elim
  | cons first rest ih =>
    obtain ⟨e, i⟩ := first
    cases e with
    | vertex g inp out sampling =>
      rw [reach] at hv
      split_ifs at hv with hg
      · rcases List.mem_cons.mp hv with rfl | hv
        · obtain rfl := Place.member.inj hx
          exact hm
        · exact ih hm hv
      · exact (List.not_mem_nil hv).elim
    | edge l sampling =>
      rw [reach] at hv
      obtain ⟨⟨w, y⟩, hy, hv⟩ := List.mem_flatMap.mp hv
      rcases List.mem_cons.mp hv with rfl | hv
      · cases hx
      · exact ih (hnext l m w y hy).1 hv

theorem IsReached.member? (h : t.IsReached s m v) (hm : t.member? m.id = some m) {x : Member}
    (hx : v.place = .member x) : t.member? x.id = some x := by
  obtain ⟨i, -, hv | hv⟩ := h
  · exact member?_of_mem_reach t.arrives_ahead hm hv hx
  · exact member?_of_mem_reach t.arrives_behind hm hv hx

end Topology

theorem assignVertex_hasKey {t : Topology} {m : Member} (hm : t.member? m.id = some m)
    {input output : Option ℕ} {sampling : Sampling} {isDummy : Bool} {manager : ManagerRef}
    {a : Assignment} (h : assignVertex m input output sampling isDummy manager = .ok a) :
    a.2.HasKey t := by
  obtain ⟨r, hr, rfl⟩ := assignVertex_eq_ok h
  obtain ⟨hfields, hreporter⟩ := VertexRole.create_eq_ok hr
  obtain ⟨hkey, hinput, houtput⟩ := ReporterId.ofMember_eq_ok hreporter
  rw [hfields]
  exact ⟨m, hm, ⟨hinput, houtput⟩, hkey⟩

theorem assignVisit_hasKey {t : Topology} {s : Sequence} {manager : ManagerRef} {v : Visit}
    (hv : ∀ x, v.place = .member x → t.member? x.id = some x) {as : List Assignment}
    (h : assignVisit t s manager v = .ok as) : ∀ a ∈ as, a.2.HasKey t := by
  rw [assignVisit] at h
  split at h
  · next m hplace =>
    obtain ⟨a, ha, rfl⟩ := assignMemberVisit_eq_ok h
    intro a' ha'
    rw [List.mem_singleton.mp ha']
    exact assignVertex_hasKey (hv m hplace) ha
  · next w hplace =>
    obtain ⟨source, target, r, dummies, hsource, htarget, hr, rfl, hdummies⟩ :=
      assignWireVisit_eq_ok h
    have hedge : ReporterRole.HasKey t (.edge r) := by
      rw [EdgeRole.create_eq_ok hr]
      rfl
    have hends : ∀ m ∈ [source, target], t.member? m.id = some m := by
      intro m hm
      rcases List.mem_pair.mp hm with rfl | rfl
      · rw [Topology.member_eq_ok] at hsource
        rw [Topology.member?_id hsource, hsource]
      · rw [Topology.member_eq_ok] at htarget
        rw [Topology.member?_id htarget, htarget]
    intro a ha
    rcases List.mem_cons.mp ha with rfl | ha
    · exact hedge
    · rcases List.mem_cons.mp ha with rfl | ha
      · exact hedge
      · obtain ⟨m, hm, input, output, hassign⟩ := hdummies a ha
        exact assignVertex_hasKey (hends m hm) hassign

/-- All reporters of a manager role have the keys of what they measure. -/
theorem ManagerRole.hasKey_of_mem_assignments {r : ManagerRole} {as : List Assignment}
    (h : r.assignments = .ok as) {a : Assignment} (ha : a ∈ as) : a.2.HasKey r.topology := by
  obtain ⟨c, w, found, -, hw, hfound, rfl⟩ := assignments_eq_ok h
  obtain ⟨l, hl, ha⟩ := List.mem_flatten.mp ha
  obtain ⟨v, hv, hassign⟩ := exists_item hfound hl
  obtain ⟨m, hm, hreached⟩ := walk_visits hw v hv
  exact assignVisit_hasKey (fun x hx => hreached.member? hm hx) hassign a ha

end LatencyControl
