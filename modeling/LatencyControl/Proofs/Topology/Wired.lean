import LatencyControl.Proofs.Path.Exact
import LatencyControl.Proofs.Topology.Shares

/-!
# Wiring

What the wires of a topology have to do with its edges (`Topology.IsWired`): every wire is one of a
declared edge, an output gate takes one edge only, and an edge between two groups with members
serves all of them, as the patterns leave nobody out (`Pattern.serves_left`,
`Pattern.serves_right`).  Every topology of a job is wired (`Job.topology_isWired`).
-/

namespace LatencyControl

/-! ### Patterns -/

namespace Pattern

variable {sources targets : ℕ}

/-- Every source is wired to a target, if there is any. -/
theorem serves_left (pattern : Pattern) {i : ℕ} (hi : i < sources) (htargets : 0 < targets) :
    ∃ j < targets, (i, j) ∈ pattern.pairs sources targets := by
  cases pattern with
  | bipartite =>
    unfold pairs
    rw [if_neg (by omega)]
    refine ⟨0, htargets, List.mem_flatMap.mpr ⟨i, List.mem_range.mpr hi, ?_⟩⟩
    exact List.mem_map.mpr ⟨0, List.mem_range.mpr htargets, rfl⟩
  | pointwise =>
    have hsources := Nat.zero_lt_of_lt hi
    obtain ⟨⟨_, j⟩, hpair, rfl⟩ :=
      List.mem_map.mp ((sharesOut_sources hsources htargets).served i hi)
    have hj := (sharesOut_targets hsources htargets).bounds j (List.mem_map_of_mem hpair)
    exact ⟨j, hj, hpair⟩

/-- Every target is wired to a source, if there is any. -/
theorem serves_right (pattern : Pattern) {j : ℕ} (hj : j < targets) (hsources : 0 < sources) :
    ∃ i < sources, (i, j) ∈ pattern.pairs sources targets := by
  cases pattern with
  | bipartite =>
    unfold pairs
    rw [if_neg (by omega)]
    refine ⟨0, hsources, List.mem_flatMap.mpr ⟨0, List.mem_range.mpr hsources, ?_⟩⟩
    exact List.mem_map.mpr ⟨j, List.mem_range.mpr hj, rfl⟩
  | pointwise =>
    have htargets := Nat.zero_lt_of_lt hj
    obtain ⟨⟨i, _⟩, hpair, rfl⟩ :=
      List.mem_map.mp ((sharesOut_targets hsources htargets).served j hj)
    have hi := (sharesOut_sources hsources htargets).bounds i (List.mem_map_of_mem hpair)
    exact ⟨i, hi, hpair⟩

end Pattern

namespace Topology

/-! ### The wires of a link -/

/-- A wire runs between the gates and the groups of a link. -/
structure IsWireOf (t : Topology) (w : Wire) (l : Link) : Prop where
  wired : w ∈ t.wires
  source : t.IsMemberOf w.source l.source
  output : w.outputGate = l.outputGate
  target : t.IsMemberOf w.target l.target
  input : w.inputGate = l.inputGate

theorem fits_edge_iff {t : Topology} {l : Link} {sampling : Sampling} {w : Wire} :
    t.Fits (.edge l sampling) (.wire w) ↔ t.IsWireOf w l :=
  ⟨fun ⟨hw, hsource, houtput, htarget, hinput⟩ => ⟨hw, hsource, houtput, htarget, hinput⟩,
    fun h => ⟨h.wired, h.source, h.output, h.target, h.input⟩⟩

theorem IsWireOf.mono {t t' : Topology} {w : Wire} {l : Link} (h : t.IsWireOf w l)
    (hwires : t.wires ⊆ t'.wires) (hgroup : ∀ id g, t.IsMemberOf id g → t'.IsMemberOf id g) :
    t'.IsWireOf w l :=
  ⟨hwires h.wired, hgroup _ _ h.source, h.output, hgroup _ _ h.target, h.input⟩

/-- What holds of the wires of a topology that was declared part by part. -/
structure IsWired (t : Topology) : Prop where
  /-- Every wire is one of a declared edge. -/
  origins : ∀ w ∈ t.wires, ∃ e ∈ t.edges, t.IsWireOf w e.link
  /-- An output gate takes one edge only. -/
  outputs : ∀ e ∈ t.edges, ∀ e' ∈ t.edges, e.link.source = e'.link.source →
    e.link.outputGate = e'.link.outputGate → e = e'
  /-- An edge between groups that both have members serves each of these. -/
  serves : ∀ e ∈ t.edges, ∀ id id', t.IsMemberOf id e.link.source →
    t.IsMemberOf id' e.link.target →
    (∃ w, t.IsWireOf w e.link ∧ w.source = id) ∧ ∃ w, t.IsWireOf w e.link ∧ w.target = id'

variable {t t' : Topology}

/-! ### Members -/

theorem isMemberOf_of_mem (hids : (t.members.map Member.id).Nodup) {g : GroupId} {m : Member}
    (hm : m ∈ t.membersOf g) : t.IsMemberOf m.id g := by
  obtain ⟨hmem, hgroup⟩ := List.mem_filter.mp hm
  exact ⟨m, member?_of_mem hids hmem, of_decide_eq_true hgroup⟩

theorem exists_getElem?_of_isMemberOf {id : MemberId} {g : GroupId} (h : t.IsMemberOf id g) :
    ∃ (i : ℕ) (m : Member), (t.membersOf g)[i]? = some m ∧ m.id = id := by
  obtain ⟨m, hm, hgroup⟩ := h
  have hmem : m ∈ t.membersOf g :=
    List.mem_filter.mpr ⟨List.mem_of_find?_eq_some hm, decide_eq_true hgroup⟩
  obtain ⟨i, hi⟩ := List.getElem?_of_mem hmem
  exact ⟨i, m, hi, member?_id hm⟩

/-- Gates are opened without regard to groups. -/
theorem isMemberOf_openGates {ws : List Wire}
    (h : t'.members = t.members.map fun m => ws.foldl Member.openGates m) (id : MemberId)
    (g : GroupId) : t'.IsMemberOf id g ↔ t.IsMemberOf id g := by
  have hfind : t'.member? id = (t.member? id).map fun m => ws.foldl Member.openGates m := by
    have hsame : (fun m : Member => decide (m.id = id)) ∘ (fun m => ws.foldl Member.openGates m)
        = fun m => decide (m.id = id) := by
      funext m
      simp [(foldl_openGates ws m).1]
    rw [member?, member?, h, List.find?_map, hsame]
  unfold IsMemberOf
  rw [hfind]
  simp only [Option.map_eq_some_iff]
  constructor
  · rintro ⟨_, ⟨m, hm, rfl⟩, hgroup⟩
    exact ⟨m, hm, (foldl_openGates ws m).2.symm.trans hgroup⟩
  · rintro ⟨m, hm, hgroup⟩
    exact ⟨_, ⟨m, hm, rfl⟩, (foldl_openGates ws m).2.trans hgroup⟩

/-! ### Declarations -/

/-- No edge has been declared yet. -/
def IsUnwired (t : Topology) : Prop := t.edges = [] ∧ t.wires = []

theorem IsUnwired.isWired (h : t.IsUnwired) : t.IsWired := by
  obtain ⟨hedges, hwires⟩ := h
  constructor
  · intro w hw
    rw [hwires] at hw
    exact (List.not_mem_nil hw).elim
  · intro e he
    rw [hedges] at he
    exact (List.not_mem_nil he).elim
  · intro e he
    rw [hedges] at he
    exact (List.not_mem_nil he).elim

theorem IsUnwired.addGroup (h : t.IsUnwired) {id : GroupId} {name : String}
    (hadd : t.addGroup id name = .ok t') : t'.IsUnwired := by
  obtain ⟨-, -, rfl⟩ := addGroup_eq_ok hadd
  exact h

theorem IsUnwired.addMember (h : t.IsUnwired) {g : GroupId} {id : MemberId} {host : HostId}
    (hadd : t.addMember g id host = .ok t') : t'.IsUnwired := by
  obtain ⟨-, -, -, -, name, rfl⟩ := addMember_eq_ok hadd
  exact h

/-- The wires that a new edge brings about are wires of its link, and serve both groups. -/
theorem isWireOf_wiring (hids : (t.members.map Member.id).Nodup) {e : GroupEdge} {w : Wire}
    (hw : w ∈ wiring e (t.membersOf e.link.source) (t.membersOf e.link.target)) :
    t.IsMemberOf w.source e.link.source ∧ w.outputGate = e.link.outputGate ∧
      t.IsMemberOf w.target e.link.target ∧ w.inputGate = e.link.inputGate := by
  obtain ⟨i, j, -, source, target, hsource, htarget, rfl⟩ := mem_wiring.mp hw
  exact ⟨isMemberOf_of_mem hids (List.mem_of_getElem? hsource), rfl,
    isMemberOf_of_mem hids (List.mem_of_getElem? htarget), rfl⟩

theorem exists_mem_wiring {e : GroupEdge} {id id' : MemberId}
    (hsource : t.IsMemberOf id e.link.source) (htarget : t.IsMemberOf id' e.link.target) :
    let ws := wiring e (t.membersOf e.link.source) (t.membersOf e.link.target)
    (∃ w ∈ ws, w.source = id) ∧ ∃ w ∈ ws, w.target = id' := by
  intro ws
  obtain ⟨i, source, hi, rfl⟩ := exists_getElem?_of_isMemberOf hsource
  obtain ⟨j, target, hj, rfl⟩ := exists_getElem?_of_isMemberOf htarget
  have hi' := (List.getElem?_eq_some_iff.mp hi).1
  have hj' := (List.getElem?_eq_some_iff.mp hj).1
  constructor
  · obtain ⟨k, hk, hpair⟩ := e.pattern.serves_left hi' (Nat.zero_lt_of_lt hj')
    exact ⟨_, mem_wiring.mpr ⟨i, k, hpair, source, _, hi, List.getElem?_eq_getElem hk, rfl⟩, rfl⟩
  · obtain ⟨k, hk, hpair⟩ := e.pattern.serves_right hj' (Nat.zero_lt_of_lt hi')
    exact ⟨_, mem_wiring.mpr ⟨k, j, hpair, _, target, List.getElem?_eq_getElem hk, hj, rfl⟩, rfl⟩

theorem IsWired.connect (h : t.IsWired) (hids : (t.members.map Member.id).Nodup) {e : GroupEdge}
    (hconnect : t.connect e = .ok t') : t'.IsWired := by
  obtain ⟨hfree, hedges, hwires, hmembers, -⟩ := connect_eq_ok hconnect
  set ws := wiring e (t.membersOf e.link.source) (t.membersOf e.link.target)
  have hgroup := isMemberOf_openGates hmembers
  have hold : ∀ {w l}, t.IsWireOf w l → t'.IsWireOf w l := fun hw =>
    hw.mono (hwires ▸ List.subset_append_left t.wires ws) fun id g => (hgroup id g).mpr
  have hnew : ∀ {w}, w ∈ ws → t'.IsWireOf w e.link := fun {w} hw => by
    obtain ⟨hsource, houtput, htarget, hinput⟩ := isWireOf_wiring hids hw
    exact ⟨hwires ▸ List.mem_append_right t.wires hw, (hgroup _ _).mpr hsource, houtput,
      (hgroup _ _).mpr htarget, hinput⟩
  have hedge : ∀ {e'}, e' ∈ t'.edges → e' ∈ t.edges ∨ e' = e := fun {e'} he' => by
    rw [hedges] at he'
    exact (List.mem_append.mp he').imp_right List.mem_singleton.mp
  constructor
  · intro w hw
    rw [hwires] at hw
    rw [hedges]
    rcases List.mem_append.mp hw with hw | hw
    · obtain ⟨e', he', horigin⟩ := h.origins w hw
      exact ⟨e', List.mem_append_left _ he', hold horigin⟩
    · exact ⟨e, List.mem_append_right _ (List.mem_singleton_self e), hnew hw⟩
  · intro e₁ he₁ e₂ he₂ hsource hgate
    -- the new edge is at an output gate that was free before
    rcases hedge he₁ with he₁ | rfl <;> rcases hedge he₂ with he₂ | rfl
    · exact h.outputs e₁ he₁ e₂ he₂ hsource hgate
    · exact absurd hgate (hfree e₁ he₁ hsource)
    · exact absurd hgate.symm (hfree e₂ he₂ hsource.symm)
    · rfl
  · intro e' he' id id' hsource htarget
    rw [hgroup] at hsource htarget
    rcases hedge he' with he' | rfl
    · obtain ⟨⟨w, hw, hid⟩, w', hw', hid'⟩ := h.serves e' he' id id' hsource htarget
      exact ⟨⟨w, hold hw, hid⟩, w', hold hw', hid'⟩
    · obtain ⟨⟨w, hw, hid⟩, w', hw', hid'⟩ := exists_mem_wiring hsource htarget
      exact ⟨⟨w, hnew hw, hid⟩, w', hnew hw', hid'⟩

/-- Constraints have nothing to do with the wires. -/
theorem IsWired.withConstraints (h : t.IsWired) (cs : Table ConstraintId Constraint) :
    IsWired { t with constraints := cs } := by
  have hsame : ∀ {w l}, t.IsWireOf w l → IsWireOf { t with constraints := cs } w l := fun hw =>
    hw.mono (List.Subset.refl _) fun _ _ => id
  constructor
  · intro w hw
    obtain ⟨e, he, horigin⟩ := h.origins w hw
    exact ⟨e, he, hsame horigin⟩
  · exact h.outputs
  · intro e he id id' hsource htarget
    obtain ⟨⟨w, hw, hid⟩, w', hw', hid'⟩ := h.serves e he id id' hsource htarget
    exact ⟨⟨w, hsame hw, hid⟩, w', hsame hw', hid'⟩

theorem IsWired.addConstraint (h : t.IsWired) {c : Constraint}
    (hadd : t.addConstraint c = .ok t') : t'.IsWired := by
  obtain ⟨-, -, rfl⟩ := addConstraint_eq_ok hadd
  exact h.withConstraints _

end Topology

/-- The topology of a job is wired. -/
theorem Job.topology_isWired {job : Job} {t : Topology} (h : job.topology = .ok t) :
    t.IsWired := by
  obtain ⟨t₁, hgroups, h⟩ := bind_eq_ok.mp h
  obtain ⟨t₂, hedges, hconstraints⟩ := bind_eq_ok.mp h
  -- edges are only declared after all members were
  have h₁ : t₁.IsSound ∧ t₁.IsUnwired :=
    foldlM_preserves (fun t => t.IsSound ∧ t.IsUnwired) (fun t t' g _ ht hdeclare => by
      obtain ⟨t'', hadd, hmembers⟩ := bind_eq_ok.mp hdeclare
      exact foldlM_preserves (fun t => t.IsSound ∧ t.IsUnwired)
        (fun _ _ _ _ ht hadd => ⟨ht.1.addMember hadd, ht.2.addMember hadd⟩)
        ⟨ht.1.addGroup hadd, ht.2.addGroup hadd⟩ hmembers)
      ⟨Topology.IsSound.empty, rfl, rfl⟩ hgroups
  have h₂ : t₂.IsSound ∧ t₂.IsWired :=
    foldlM_preserves (fun t => t.IsSound ∧ t.IsWired)
      (fun _ _ _ _ ht hconnect => ⟨ht.1.connect hconnect, ht.2.connect ht.1.ids hconnect⟩)
      ⟨h₁.1, h₁.2.isWired⟩ hedges
  exact foldlM_preserves Topology.IsWired (fun _ _ _ _ ht hadd => ht.addConstraint hadd) h₂.2
    hconstraints

end LatencyControl
