import Mathlib.Data.List.Induction
import LatencyControl.Proofs.Topology.Numbered

/-!
# Edges and their wires

A topology is declared part by part, and a declaration that fails leaves it as it was
(`Topology.declared`).  An edge that was connected in this way keeps the wires that its pattern
prescribed for the members of its groups at that time, whatever comes later
(`Topology.exists_connect_of_mem_edges`).

That needs the history, which a topology does not keep.  What it keeps is from which edge a wire
stems (`Topology.StemsFrom`): a member is in one group only, and an output gate of a group takes one
edge only.  So no later declaration can add a wire to an earlier edge, or take one away.
-/

namespace LatencyControl

/-! ### Patterns -/

namespace Pattern

/-- The pattern wires the members at the given positions of two groups of the given sizes.  In a
pointwise pattern, the members of the larger group are shared out among those of the smaller. -/
def Prescribes (pattern : Pattern) (sources targets i j : ℕ) : Prop :=
  i < sources ∧ j < targets ∧
    match pattern with
    | .bipartite => True
    | .pointwise =>
      if sources ≤ targets then i = j * sources / targets else j = i * targets / sources

/-- The pairs of a pattern are the positions that it wires. -/
theorem mem_pairs_iff {pattern : Pattern} {sources targets i j : ℕ} :
    (i, j) ∈ pattern.pairs sources targets ↔ pattern.Prescribes sources targets i j := by
  unfold pairs Prescribes
  by_cases hempty : sources = 0 ∨ targets = 0
  · rw [if_pos hempty]
    simp only [List.not_mem_nil, false_iff]
    omega
  · rw [if_neg hempty]
    have hsources : 0 < sources := by omega
    have htargets : 0 < targets := by omega
    cases pattern with
    | bipartite => simp
    | pointwise =>
      simp only [List.mem_map, List.mem_range, Prod.mk.injEq]
      -- the position on the larger side is the number of the pair
      split_ifs with hle
      · have hlt : j < targets → j * sources / targets < sources := fun hj => by
          rw [Nat.div_lt_iff_lt_mul htargets, Nat.mul_comm sources]
          exact Nat.mul_lt_mul_of_pos_right hj hsources
        rw [Nat.max_eq_right hle]
        constructor
        · rintro ⟨k, hk, rfl, hj⟩
          obtain rfl : k = j := (Nat.mul_div_cancel k htargets).symm.trans hj
          exact ⟨hlt hk, hk, rfl⟩
        · rintro ⟨-, hj, rfl⟩
          exact ⟨j, hj, rfl, Nat.mul_div_cancel j htargets⟩
      · have hlt : i < sources → i * targets / sources < targets := fun hi => by
          rw [Nat.div_lt_iff_lt_mul hsources, Nat.mul_comm targets]
          exact Nat.mul_lt_mul_of_pos_right hi htargets
        rw [Nat.max_eq_left (Nat.le_of_not_le hle)]
        constructor
        · rintro ⟨k, hk, hi, rfl⟩
          obtain rfl : k = i := (Nat.mul_div_cancel k hsources).symm.trans hi
          exact ⟨hk, hlt hk, rfl⟩
        · rintro ⟨hi, -, rfl⟩
          exact ⟨i, hi, Nat.mul_div_cancel i hsources, rfl⟩

end Pattern

namespace Topology

/-! ### Runs of declarations -/

/-- A part of a topology that is declared. -/
inductive Declaration
  | group (id : GroupId) (name : String)
  | member (g : GroupId) (id : MemberId) (host : HostId)
  | edge (e : GroupEdge)
  | constraint (c : Constraint)

/-- Declares a part. -/
def declare (t : Topology) : Declaration → Except Error Topology
  | .group id name => t.addGroup id name
  | .member g id host => t.addMember g id host
  | .edge e => t.connect e
  | .constraint c => t.addConstraint c

/-- The topology after some declarations.  One that fails leaves the topology as it was. -/
def declared (ds : List Declaration) : Topology :=
  ds.foldl (fun t d => (t.declare d).toOption.getD t) {}

theorem declared_concat (ds : List Declaration) (d : Declaration) :
    declared (ds ++ [d]) = ((declared ds).declare d).toOption.getD (declared ds) := by
  rw [declared, List.foldl_append]
  rfl

/-- What every declaration preserves holds of all declared topologies. -/
theorem declared_induction {P : Topology → Prop} (hempty : P {})
    (hgroup : ∀ {t t' : Topology} {id : GroupId} {name : String}, P t →
      t.addGroup id name = .ok t' → P t')
    (hmember : ∀ {t t' : Topology} {g : GroupId} {id : MemberId} {host : HostId}, P t →
      t.addMember g id host = .ok t' → P t')
    (hedge : ∀ {t t' : Topology} {e : GroupEdge}, P t → t.connect e = .ok t' → P t')
    (hconstraint : ∀ {t t' : Topology} {c : Constraint}, P t → t.addConstraint c = .ok t' → P t')
    (ds : List Declaration) : P (declared ds) := by
  induction ds using List.reverseRecOn with
  | nil => exact hempty
  | append_singleton ds d ih =>
    rw [declared_concat]
    cases hdeclare : (declared ds).declare d with
    | error e => exact ih
    | ok t' =>
      cases d with
      | group id name => exact hgroup ih hdeclare
      | member g id host => exact hmember ih hdeclare
      | edge e => exact hedge ih hdeclare
      | constraint c => exact hconstraint ih hdeclare

theorem declared_isSound (ds : List Declaration) : (declared ds).IsSound :=
  declared_induction IsSound.empty (fun ht hadd => ht.addGroup hadd)
    (fun ht hadd => ht.addMember hadd) (fun ht hconnect => ht.connect hconnect)
    (fun ht hadd => ht.addConstraint hadd) ds

theorem declared_isNumbered (ds : List Declaration) : (declared ds).IsNumbered :=
  declared_induction IsNumbered.empty (fun ht hadd => ht.addGroup hadd)
    (fun ht hadd => ht.addMember hadd) (fun ht hconnect => ht.connect hconnect)
    (fun ht hadd => ht.addConstraint hadd) ds

/-! ### Groups, gates and edges -/

theorem outputs_openGates (m : Member) (w : Wire) : m.outputs ≤ (m.openGates w).outputs ∧
    (w.source = m.id → w.outputGate < (m.openGates w).outputs) := by
  have houtputs : (m.openGates w).outputs
      = if w.source = m.id then max m.outputs (w.outputGate + 1) else m.outputs := rfl
  rw [houtputs]
  split_ifs with hsource
  · exact ⟨Nat.le_max_left _ _, fun _ => Nat.le_max_right _ _⟩
  · exact ⟨Nat.le_refl _, fun h => absurd h hsource⟩

theorem inputs_openGates (m : Member) (w : Wire) : m.inputs ≤ (m.openGates w).inputs ∧
    (w.target = m.id → w.inputGate < (m.openGates w).inputs) := by
  have hinputs : (m.openGates w).inputs
      = if w.target = m.id then max m.inputs (w.inputGate + 1) else m.inputs := rfl
  rw [hinputs]
  split_ifs with htarget
  · exact ⟨Nat.le_max_left _ _, fun _ => Nat.le_max_right _ _⟩
  · exact ⟨Nat.le_refl _, fun h => absurd h htarget⟩

section

/-! Outputs and inputs are counted in the same way. -/

variable {count : Member → ℕ} {gate : Wire → ℕ} {member : Wire → MemberId}
  (hopen : ∀ m w, count m ≤ count (m.openGates w) ∧
    (member w = m.id → gate w < count (m.openGates w)))

include hopen

/-- Opening gates for some wires opens one for each that has its end at the member, and closes
none. -/
theorem foldl_openGates_of (ws : List Wire) (m : Member) :
    count m ≤ count (ws.foldl Member.openGates m) ∧
      ∀ w ∈ ws, member w = m.id → gate w < count (ws.foldl Member.openGates m) := by
  induction ws generalizing m with
  | nil => exact ⟨Nat.le_refl _, fun w hw => (List.not_mem_nil hw).elim⟩
  | cons w rest ih =>
    obtain ⟨hfirst, hgate⟩ := hopen m w
    obtain ⟨hrest, hgates⟩ := ih (m.openGates w)
    rw [List.foldl_cons]
    refine ⟨Nat.le_trans hfirst hrest, fun w' hw' hmember => ?_⟩
    rcases List.mem_cons.mp hw' with rfl | hw'
    · exact Nat.lt_of_lt_of_le (hgate hmember) hrest
    · exact hgates w' hw' hmember

/-- With new wires, members have the gates for the old ones and for the new ones. -/
theorem exists_open_gate {old ws : List Wire} {ms : List Member}
    (hold : ∀ w ∈ old, ∃ m ∈ ms, m.id = member w ∧ gate w < count m)
    (hnew : ∀ w ∈ ws, ∃ m ∈ ms, m.id = member w) :
    ∀ w ∈ old ++ ws, ∃ m ∈ ms.map (fun m => ws.foldl Member.openGates m),
      m.id = member w ∧ gate w < count m := by
  intro w hw
  rcases List.mem_append.mp hw with hw | hw
  · obtain ⟨m, hm, hid, hgate⟩ := hold w hw
    obtain ⟨hkept, -⟩ := foldl_openGates_of hopen ws m
    exact ⟨_, List.mem_map_of_mem hm, (foldl_openGates ws m).1.trans hid,
      Nat.lt_of_lt_of_le hgate hkept⟩
  · obtain ⟨m, hm, hid⟩ := hnew w hw
    obtain ⟨-, hgates⟩ := foldl_openGates_of hopen ws m
    exact ⟨_, List.mem_map_of_mem hm, (foldl_openGates ws m).1.trans hid, hgates w hw hid.symm⟩

end

/-- What else holds of a topology that was declared part by part. -/
structure IsGrounded (t : Topology) : Prop where
  groups : ∀ m ∈ t.members, t.groups.contains m.group = true
  /-- A wire leaves its source through a gate that is open. -/
  sources : ∀ w ∈ t.wires, ∃ m ∈ t.members, m.id = w.source ∧ w.outputGate < m.outputs
  /-- A wire enters its target through a gate that is open. -/
  targets : ∀ w ∈ t.wires, ∃ m ∈ t.members, m.id = w.target ∧ w.inputGate < m.inputs
  /-- An output gate of a group takes one edge only. -/
  edges : (t.edges.map fun e => (e.link.source, e.link.outputGate)).Nodup

variable {t t' : Topology}

theorem IsGrounded.empty : IsGrounded {} where
  groups _ hm := (List.not_mem_nil hm).elim
  sources _ hw := (List.not_mem_nil hw).elim
  targets _ hw := (List.not_mem_nil hw).elim
  edges := List.nodup_nil

theorem IsGrounded.addGroup (h : t.IsGrounded) {id : GroupId} {name : String}
    (hadd : t.addGroup id name = .ok t') : t'.IsGrounded := by
  obtain ⟨-, -, rfl⟩ := addGroup_eq_ok hadd
  refine ⟨fun m hm => ?_, h.sources, h.targets, h.edges⟩
  show ((t.groups.insert id _).find? m.group).isSome = true
  by_cases hid : id = m.group
  · rw [hid, Table.find?_insert_self]
    rfl
  · rw [Table.find?_insert_of_ne _ hid]
    exact h.groups m hm

theorem IsGrounded.addMember (h : t.IsGrounded) {g : GroupId} {id : MemberId} {host : HostId}
    (hadd : t.addMember g id host = .ok t') : t'.IsGrounded := by
  obtain ⟨-, -, -, hgroup, name, rfl⟩ := addMember_eq_ok hadd
  refine ⟨fun m hm => ?_, fun w hw => ?_, fun w hw => ?_, h.edges⟩
  · rcases List.mem_append.mp hm with hm | hm
    · exact h.groups m hm
    · obtain rfl := List.mem_singleton.mp hm
      exact hgroup
  · obtain ⟨m, hm, hsource⟩ := h.sources w hw
    exact ⟨m, List.mem_append_left _ hm, hsource⟩
  · obtain ⟨m, hm, htarget⟩ := h.targets w hw
    exact ⟨m, List.mem_append_left _ hm, htarget⟩

theorem groups_of_connect {e : GroupEdge} (h : t.connect e = .ok t') : t'.groups = t.groups := by
  obtain ⟨sources, -, h⟩ := bind_eq_ok.mp h
  obtain ⟨targets, -, h⟩ := bind_eq_ok.mp h
  obtain ⟨-, h⟩ := check_eq_ok.mp h
  rw [← Except.ok.inj h]

theorem IsGrounded.connect (h : t.IsGrounded) {e : GroupEdge} (hconnect : t.connect e = .ok t') :
    t'.IsGrounded := by
  have hgroups : t'.groups = t.groups := groups_of_connect hconnect
  obtain ⟨hfree, hedges, hwires, hmembers, -⟩ := connect_eq_ok hconnect
  have hends : ∀ w ∈ wiring e (t.membersOf e.link.source) (t.membersOf e.link.target),
      (∃ m ∈ t.members, m.id = w.source) ∧ ∃ m ∈ t.members, m.id = w.target := by
    intro w hw
    obtain ⟨i, j, -, source, target, hsource, htarget, rfl⟩ := mem_wiring.mp hw
    exact ⟨⟨source, List.mem_of_mem_filter (List.mem_of_getElem? hsource), rfl⟩,
      target, List.mem_of_mem_filter (List.mem_of_getElem? htarget), rfl⟩
  generalize wiring e (t.membersOf e.link.source) (t.membersOf e.link.target) = ws at *
  constructor
  · intro m hm
    rw [hmembers] at hm
    obtain ⟨m₀, hm₀, rfl⟩ := List.mem_map.mp hm
    rw [(foldl_openGates ws m₀).2, hgroups]
    exact h.groups m₀ hm₀
  · rw [hwires, hmembers]
    exact exists_open_gate outputs_openGates h.sources fun w hw => (hends w hw).1
  · rw [hwires, hmembers]
    exact exists_open_gate inputs_openGates h.targets fun w hw => (hends w hw).2
  · rw [hedges, List.map_append, List.map_singleton, ← List.concat_eq_append, List.nodup_concat]
    refine ⟨fun hgate => ?_, h.edges⟩
    obtain ⟨e', he', hsame⟩ := List.mem_map.mp hgate
    obtain ⟨hsource, houtput⟩ := Prod.mk.inj hsame
    exact hfree e' he' hsource houtput

theorem IsGrounded.addConstraint (h : t.IsGrounded) {c : Constraint}
    (hadd : t.addConstraint c = .ok t') : t'.IsGrounded := by
  obtain ⟨-, -, rfl⟩ := addConstraint_eq_ok hadd
  exact ⟨h.groups, h.sources, h.targets, h.edges⟩

theorem declared_isGrounded (ds : List Declaration) : (declared ds).IsGrounded :=
  declared_induction IsGrounded.empty (fun ht hadd => ht.addGroup hadd)
    (fun ht hadd => ht.addMember hadd) (fun ht hconnect => ht.connect hconnect)
    (fun ht hadd => ht.addConstraint hadd) ds

/-! ### The wires of an edge -/

/-- A wire leaves the source group of an edge through the edge's output gate. -/
structure StemsFrom (t : Topology) (w : Wire) (e : GroupEdge) : Prop where
  wired : w ∈ t.wires
  gate : e.link.outputGate = w.outputGate
  source : ∃ m ∈ t.members, m.id = w.source ∧ m.group = e.link.source

/-- What an accepted declaration does to the edges. -/
theorem edges_declare {d : Declaration} (h : t.declare d = .ok t') :
    t'.edges = t.edges ∨ ∃ e, d = .edge e ∧ t'.edges = t.edges ++ [e] := by
  cases d with
  | group id name =>
    obtain ⟨-, -, rfl⟩ := addGroup_eq_ok h
    exact .inl rfl
  | member g id host =>
    obtain ⟨-, -, -, -, name, rfl⟩ := addMember_eq_ok h
    exact .inl rfl
  | edge e =>
    obtain ⟨-, hedges, -⟩ := connect_eq_ok h
    exact .inr ⟨e, rfl, hedges⟩
  | constraint c =>
    obtain ⟨-, -, rfl⟩ := addConstraint_eq_ok h
    exact .inl rfl

theorem stemsFrom_addMember (h : t.IsGrounded) {g : GroupId} {id : MemberId} {host : HostId}
    (hadd : t.addMember g id host = .ok t') {w : Wire} {e : GroupEdge} :
    t'.StemsFrom w e ↔ t.StemsFrom w e := by
  obtain ⟨-, -, hnew, -, name, rfl⟩ := addMember_eq_ok hadd
  constructor
  · rintro ⟨hw, hgate, m, hm, hsource, hgroup⟩
    refine ⟨hw, hgate, m, ?_, hsource, hgroup⟩
    rcases List.mem_append.mp hm with hm | hm
    · exact hm
    · -- the source of a wire is no new member
      obtain rfl := List.mem_singleton.mp hm
      obtain ⟨m', hm', hid, -⟩ := h.sources w hw
      exact absurd (hid.trans hsource.symm) (hnew m' hm')
  · rintro ⟨hw, hgate, m, hm, hsource⟩
    exact ⟨hw, hgate, m, List.mem_append_left _ hm, hsource⟩

/-- Opening gates moves no member to another group. -/
theorem exists_foldl_openGates_iff {ms : List Member} (ws : List Wire) {id : MemberId}
    {g : GroupId} :
    (∃ m ∈ ms.map (fun m => ws.foldl Member.openGates m), m.id = id ∧ m.group = g) ↔
      ∃ m ∈ ms, m.id = id ∧ m.group = g := by
  refine ⟨?_, exists_foldl_openGates ws⟩
  rintro ⟨m', hm', hid, hgroup⟩
  obtain ⟨m, hm, rfl⟩ := List.mem_map.mp hm'
  obtain ⟨hid', hgroup'⟩ := foldl_openGates ws m
  exact ⟨m, hm, hid'.symm.trans hid, hgroup'.symm.trans hgroup⟩

/-- A wire stems from one edge only, as a member is in one group only. -/
theorem IsSound.link_eq (h : t.IsSound) {w : Wire} {e e' : GroupEdge}
    (hgate : e.link.outputGate = w.outputGate) (hgate' : e'.link.outputGate = w.outputGate)
    (hsource : ∃ m ∈ t.members, m.id = w.source ∧ m.group = e.link.source)
    (hsource' : ∃ m ∈ t.members, m.id = w.source ∧ m.group = e'.link.source) :
    e.link.source = e'.link.source ∧ e.link.outputGate = e'.link.outputGate := by
  obtain ⟨m, hm, hid, hgroup⟩ := hsource
  obtain ⟨m', hm', hid', hgroup'⟩ := hsource'
  obtain rfl : m = m' := List.inj_on_of_nodup_map h.ids hm hm' (hid.trans hid'.symm)
  exact ⟨hgroup.symm.trans hgroup', hgate.trans hgate'.symm⟩

/-- The wires that stem from a new edge are those that it brings about. -/
theorem stemsFrom_connect (h : t.IsSound) {e : GroupEdge} (hconnect : t.connect e = .ok t')
    {w : Wire} :
    t'.StemsFrom w e ↔ w ∈ wiring e (t.membersOf e.link.source) (t.membersOf e.link.target) := by
  obtain ⟨hfree, -, hwires, hmembers, -⟩ := connect_eq_ok hconnect
  have hnew : w ∈ wiring e (t.membersOf e.link.source) (t.membersOf e.link.target) →
      e.link.outputGate = w.outputGate ∧ ∃ m ∈ t.members, m.id = w.source ∧
        m.group = e.link.source := source_of_mem_wiring
  generalize wiring e (t.membersOf e.link.source) (t.membersOf e.link.target) = ws at *
  constructor
  · rintro ⟨hw, hgate, hsource⟩
    rw [hmembers, exists_foldl_openGates_iff] at hsource
    rw [hwires] at hw
    refine (List.mem_append.mp hw).resolve_left fun hw => ?_
    -- an earlier wire stems from an earlier edge, and the gate was free
    obtain ⟨e', he', hgate', hsource'⟩ := h.origins w hw
    obtain ⟨hsame, hsame'⟩ := h.link_eq hgate' hgate hsource' hsource
    exact hfree e' he' hsame hsame'
  · intro hw
    obtain ⟨hgate, hsource⟩ := hnew hw
    refine ⟨hwires ▸ List.mem_append_right _ hw, hgate, ?_⟩
    rw [hmembers, exists_foldl_openGates_iff]
    exact hsource

/-- The wires that stem from an earlier edge stay the same. -/
theorem stemsFrom_connect_of_mem (h : t.IsSound) {e e' : GroupEdge}
    (hconnect : t.connect e' = .ok t') (he : e ∈ t.edges) {w : Wire} :
    t'.StemsFrom w e ↔ t.StemsFrom w e := by
  obtain ⟨hfree, -, hwires, hmembers, -⟩ := connect_eq_ok hconnect
  have hnew : w ∈ wiring e' (t.membersOf e'.link.source) (t.membersOf e'.link.target) →
      e'.link.outputGate = w.outputGate ∧ ∃ m ∈ t.members, m.id = w.source ∧
        m.group = e'.link.source := source_of_mem_wiring
  generalize wiring e' (t.membersOf e'.link.source) (t.membersOf e'.link.target) = ws at *
  constructor
  · rintro ⟨hw, hgate, hsource⟩
    rw [hmembers, exists_foldl_openGates_iff] at hsource
    rw [hwires] at hw
    refine ⟨(List.mem_append.mp hw).resolve_right fun hw => ?_, hgate, hsource⟩
    obtain ⟨hgate', hsource'⟩ := hnew hw
    obtain ⟨hsame, hsame'⟩ := h.link_eq hgate hgate' hsource hsource'
    exact hfree e he hsame hsame'
  · rintro ⟨hw, hgate, hsource⟩
    refine ⟨hwires ▸ List.mem_append_left _ hw, hgate, ?_⟩
    rw [hmembers, exists_foldl_openGates_iff]
    exact hsource

/-- No accepted declaration changes which wires stem from the edges that are there. -/
theorem stemsFrom_declare (hsound : t.IsSound) (hgrounded : t.IsGrounded) {d : Declaration}
    (h : t.declare d = .ok t') {e : GroupEdge} (he : e ∈ t.edges) {w : Wire} :
    t'.StemsFrom w e ↔ t.StemsFrom w e := by
  cases d with
  | group id name =>
    obtain ⟨-, -, rfl⟩ := addGroup_eq_ok h
    exact ⟨fun ⟨hw, hgate, hsource⟩ => ⟨hw, hgate, hsource⟩,
      fun ⟨hw, hgate, hsource⟩ => ⟨hw, hgate, hsource⟩⟩
  | member g id host => exact stemsFrom_addMember hgrounded h
  | edge e' => exact stemsFrom_connect_of_mem hsound h he
  | constraint c =>
    obtain ⟨-, -, rfl⟩ := addConstraint_eq_ok h
    exact ⟨fun ⟨hw, hgate, hsource⟩ => ⟨hw, hgate, hsource⟩,
      fun ⟨hw, hgate, hsource⟩ => ⟨hw, hgate, hsource⟩⟩

/-- Every edge was connected at some time, and it has the wires that it brought about then. -/
theorem exists_connect_of_mem_edges (ds : List Declaration) :
    ∀ e ∈ (declared ds).edges, ∃ before later t, ds = before ++ .edge e :: later ∧
      (declared before).connect e = .ok t ∧ ∀ w, (declared ds).StemsFrom w e ↔
        w ∈ wiring e ((declared before).membersOf e.link.source)
          ((declared before).membersOf e.link.target) := by
  induction ds using List.reverseRecOn with
  | nil => exact fun e he => (List.not_mem_nil he).elim
  | append_singleton ds d ih =>
    intro e he
    rw [declared_concat] at he ⊢
    cases hdeclare : (declared ds).declare d with
    | error err =>
      rw [hdeclare] at he
      obtain ⟨before, later, t, rfl, hconnect, hwires⟩ := ih e he
      exact ⟨before, later ++ [d], t, by simp, hconnect, hwires⟩
    | ok t' =>
      rw [hdeclare] at he
      have he : e ∈ t'.edges := he
      have hold : e ∈ (declared ds).edges →
          ∃ before later t, ds ++ [d] = before ++ .edge e :: later ∧
            (declared before).connect e = .ok t ∧ ∀ w, t'.StemsFrom w e ↔
              w ∈ wiring e ((declared before).membersOf e.link.source)
                ((declared before).membersOf e.link.target) := by
        intro he
        obtain ⟨before, later, t, hds, hconnect, hwires⟩ := ih e he
        refine ⟨before, later ++ [d], t, by rw [hds, List.append_assoc, List.cons_append], hconnect,
          fun w => ?_⟩
        rw [stemsFrom_declare (declared_isSound ds) (declared_isGrounded ds) hdeclare he]
        exact hwires w
      rcases edges_declare hdeclare with hsame | ⟨e', rfl, hedges⟩
      · exact hold (hsame ▸ he)
      · rw [hedges] at he
        rcases List.mem_append.mp he with he | he
        · exact hold he
        · obtain rfl := List.mem_singleton.mp he
          exact ⟨ds, [], t', rfl, hdeclare, fun w =>
            stemsFrom_connect (declared_isSound ds) hdeclare⟩

/-! ### Stored edges -/

/-- An edge is stored at its output gate, which takes no other. -/
theorem IsGrounded.find?_forward (h : t.IsGrounded) {g : GroupId} {gate : ℕ} {e : GroupEdge} :
    (t.forward g).find? gate = some e ↔
      e ∈ t.edges ∧ e.link.source = g ∧ e.link.outputGate = gate := by
  have hgates : ((t.edges.filter fun e => e.link.source = g).map fun e =>
      e.link.outputGate).Nodup := by
    refine List.Nodup.of_map (fun gate => (g, gate)) ?_
    rw [List.map_map]
    refine (List.map_congr_left fun e he => ?_) ▸ h.edges.sublist (List.filter_sublist.map _)
    rw [← of_decide_eq_true (List.mem_filter.mp he).2]
    rfl
  unfold forward
  rw [Table.find?_ofList_iff (by simpa [Function.comp_def] using hgates), List.mem_map]
  constructor
  · rintro ⟨e', he', hpair⟩
    obtain ⟨rfl, rfl⟩ := Prod.mk.inj hpair
    obtain ⟨he', hsource⟩ := List.mem_filter.mp he'
    exact ⟨he', of_decide_eq_true hsource, rfl⟩
  · rintro ⟨he, rfl, rfl⟩
    exact ⟨e, List.mem_filter.mpr ⟨he, decide_eq_true rfl⟩, rfl⟩

/-- An edge that is stored at an input gate was connected there. -/
theorem mem_edges_of_find?_backward {g : GroupId} {gate : ℕ} {e : GroupEdge}
    (h : (t.backward g).find? gate = some e) : e ∈ t.edges := by
  rw [backward, Table.find?_ofList, Option.map_eq_some_iff] at h
  obtain ⟨entry, hfound, rfl⟩ := h
  obtain ⟨e, he, rfl⟩ := List.mem_map.mp (List.mem_reverse.mp (List.mem_of_find?_eq_some hfound))
  exact List.mem_of_mem_filter he

end Topology

end LatencyControl
