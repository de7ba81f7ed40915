import LatencyControl.Job
import LatencyControl.Proofs.Result
import LatencyControl.Proofs.Table

/-!
# Declared topologies

What holds of every topology that was declared part by part (`Topology.IsSound`): the members have
different identifiers, no two wires are the same, and every constraint is kept under its own
identifier.  That the wires differ rests on two things: an edge wires no two members twice, and an
output gate takes one edge only.
-/

namespace LatencyControl

/-! ### Wiring -/

/-- No two members are paired twice. -/
theorem Pattern.nodup_pairs (pattern : Pattern) (sources targets : ℕ) :
    (pattern.pairs sources targets).Nodup := by
  unfold pairs
  split_ifs with hempty
  · exact List.nodup_nil
  rw [not_or] at hempty
  cases pattern with
  | bipartite => exact List.nodup_range.product List.nodup_range
  | pointwise =>
    refine List.nodup_range.map fun i j hij => ?_
    obtain ⟨hsource, htarget⟩ := Prod.mk.inj hij
    -- the index on the larger side is the number of the pair
    rcases Nat.le_total sources targets with hle | hle
    · rw [Nat.max_eq_right hle, Nat.mul_div_cancel _ (Nat.pos_of_ne_zero hempty.2),
        Nat.mul_div_cancel _ (Nat.pos_of_ne_zero hempty.2)] at htarget
      exact htarget
    · rw [Nat.max_eq_left hle, Nat.mul_div_cancel _ (Nat.pos_of_ne_zero hempty.1),
        Nat.mul_div_cancel _ (Nat.pos_of_ne_zero hempty.1)] at hsource
      exact hsource

theorem index_eq_of_id_eq {ms : List Member} (h : (ms.map Member.id).Nodup) {i j : ℕ} {a b : Member}
    (ha : ms[i]? = some a) (hb : ms[j]? = some b) (hid : a.id = b.id) : i = j := by
  have hi : i < (ms.map Member.id).length := by
    rw [List.length_map]
    exact (List.getElem?_eq_some_iff.mp ha).1
  refine (List.getElem?_inj hi h).mp ?_
  rw [List.getElem?_map, List.getElem?_map, ha, hb, Option.map_some, Option.map_some, hid]

namespace Topology

theorem mem_wiring {e : GroupEdge} {sources targets : List Member} {w : Wire} :
    w ∈ wiring e sources targets ↔ ∃ i j, (i, j) ∈ e.pattern.pairs sources.length targets.length ∧
      ∃ source target, sources[i]? = some source ∧ targets[j]? = some target ∧
        w = { source := source.id, outputGate := e.link.outputGate, target := target.id,
              inputGate := e.link.inputGate } := by
  simp only [wiring, List.mem_filterMap, Prod.exists, Option.bind_eq_bind, Option.bind_eq_some_iff,
    Option.pure_def, Option.some.injEq, exists_and_left, eq_comm (b := w)]

/-- An edge brings about each wire once. -/
theorem nodup_wiring (e : GroupEdge) {sources targets : List Member}
    (hsources : (sources.map Member.id).Nodup) (htargets : (targets.map Member.id).Nodup) :
    (wiring e sources targets).Nodup := by
  refine (e.pattern.nodup_pairs _ _).filterMap ?_
  -- a wire tells the members at its ends, and the members tell the pair
  rintro ⟨i, j⟩ ⟨i', j'⟩ w hw hw'
  simp only [Option.mem_def, Option.bind_eq_bind, Option.bind_eq_some_iff] at hw hw'
  obtain ⟨source, hs, target, ht, h⟩ := hw
  obtain ⟨source', hs', target', ht', h'⟩ := hw'
  have hwire := (Option.some.inj h).trans (Option.some.inj h').symm
  simp only [Wire.mk.injEq, true_and, and_true] at hwire
  rw [index_eq_of_id_eq hsources hs hs' hwire.1, index_eq_of_id_eq htargets ht ht' hwire.2]

/-! ### Gates -/

theorem foldl_openGates (ws : List Wire) (m : Member) :
    (ws.foldl Member.openGates m).id = m.id ∧ (ws.foldl Member.openGates m).group = m.group := by
  induction ws generalizing m with
  | nil => exact ⟨rfl, rfl⟩
  | cons w rest ih => exact ih (m.openGates w)

theorem exists_foldl_openGates {ms : List Member} (ws : List Wire) {id : MemberId} {g : GroupId}
    (h : ∃ m ∈ ms, m.id = id ∧ m.group = g) :
    ∃ m ∈ ms.map (fun m => ws.foldl Member.openGates m), m.id = id ∧ m.group = g := by
  obtain ⟨m, hm, hid, hgroup⟩ := h
  obtain ⟨hid', hgroup'⟩ := foldl_openGates ws m
  exact ⟨_, List.mem_map_of_mem hm, hid'.trans hid, hgroup'.trans hgroup⟩

theorem source_of_mem_wiring {t : Topology} {e : GroupEdge} {targets : List Member} {w : Wire}
    (h : w ∈ wiring e (t.membersOf e.link.source) targets) :
    e.link.outputGate = w.outputGate ∧
      ∃ m ∈ t.members, m.id = w.source ∧ m.group = e.link.source := by
  obtain ⟨i, j, -, source, target, hsource, -, rfl⟩ := mem_wiring.mp h
  obtain ⟨hmem, hgroup⟩ := List.mem_filter.mp (List.mem_of_getElem? hsource)
  exact ⟨rfl, source, hmem, rfl, of_decide_eq_true hgroup⟩

/-! ### Declarations

What a declaration does if it is accepted, and what it was checked for. -/

variable {t t' : Topology}

theorem group_eq_ok {id : GroupId} {g : Group} :
    t.group id = .ok g ↔ t.groups.find? id = some g := by
  unfold group
  cases t.groups.find? id <;> simp

theorem membersOfGroup_eq_ok {g : GroupId} {ms : List Member} :
    t.membersOfGroup g = .ok ms ↔ t.groups.contains g = true ∧ ms = t.membersOf g := by
  unfold membersOfGroup group Table.contains
  cases t.groups.find? g <;> simp [bind, Except.bind, pure, Except.pure, eq_comm]

theorem contains_forward_iff {g : GroupId} {gate : ℕ} :
    (t.forward g).contains gate = true ↔
      ∃ e ∈ t.edges, e.link.source = g ∧ e.link.outputGate = gate := by
  simp [forward, Table.contains_ofList_iff, and_assoc]

theorem addGroup_eq_ok_iff {id : GroupId} {name : String} :
    t.addGroup id name = .ok t' ↔ id.isEmpty = false ∧ t.groups.contains id = false ∧
      t' = { t with groups := t.groups.insert id { id, name } } := by
  rw [addGroup, step_eq_ok, check_eq_ok, Ident.require_eq_ok_iff, Bool.not_eq_true]
  exact and_congr_right' (and_congr_right' ⟨fun h => (Except.ok.inj h).symm, fun h => h ▸ rfl⟩)

theorem addGroup_eq_ok {id : GroupId} {name : String} (h : t.addGroup id name = .ok t') :
    id.isEmpty = false ∧ t.groups.contains id = false ∧
      t' = { t with groups := t.groups.insert id { id, name } } := addGroup_eq_ok_iff.mp h

/-- A new member joins a group that is there, at the position behind the last member, and takes its
name from both. -/
theorem addMember_eq_ok_iff {g : GroupId} {id : MemberId} {host : HostId} :
    t.addMember g id host = .ok t' ↔ id.isEmpty = false ∧ host.isEmpty = false ∧
      (∀ m ∈ t.members, m.id ≠ id) ∧ ∃ owner, t.groups.find? g = some owner ∧
        t' = { t with members := t.members ++
          [{ id, name := s!"{owner.name} ({(t.membersOf g).length + 1})", group := g,
             index := (t.membersOf g).length, host }] } := by
  have hfresh : ¬ (t.member? id).isSome ↔ ∀ m ∈ t.members, m.id ≠ id := by simp [member?]
  rw [addMember, step_eq_ok, step_eq_ok, check_eq_ok, Ident.require_eq_ok_iff,
    Ident.require_eq_ok_iff, hfresh, bind_eq_ok]
  simp only [group_eq_ok]
  refine and_congr_right' (and_congr_right' (and_congr_right' (exists_congr fun owner => ?_)))
  exact and_congr_right' ⟨fun h => (Except.ok.inj h).symm, fun h => h ▸ rfl⟩

theorem addMember_eq_ok {g : GroupId} {id : MemberId} {host : HostId}
    (h : t.addMember g id host = .ok t') :
    id.isEmpty = false ∧ host.isEmpty = false ∧ (∀ m ∈ t.members, m.id ≠ id) ∧
      t.groups.contains g = true ∧ ∃ name, t' = { t with members := t.members ++
        [{ id, name, group := g, index := (t.membersOf g).length, host }] } := by
  obtain ⟨hname, hhost, hnew, owner, howner, rfl⟩ := addMember_eq_ok_iff.mp h
  exact ⟨hname, hhost, hnew, by rw [Table.contains, howner, Option.isSome_some], _, rfl⟩

theorem addConstraint_eq_ok_iff {c : Constraint} :
    t.addConstraint c = .ok t' ↔ c.id.isEmpty = false ∧
      (∀ g ∈ c.sequence.flatMap Element.touched, t.groups.contains g = true) ∧
        t' = { t with constraints := t.constraints.insert c.id c } := by
  rw [addConstraint, step_eq_ok, Ident.require_eq_ok_iff]
  refine and_congr_right' ⟨fun h => ?_, ?_⟩
  · split at h
    · cases h
    · next hknown =>
      refine ⟨fun g hg => ?_, (Except.ok.inj h).symm⟩
      simpa using List.find?_eq_none.mp hknown g hg
  · rintro ⟨hknown, rfl⟩
    have hnone : (c.sequence.flatMap Element.touched).find? (fun g => !t.groups.contains g)
        = none := List.find?_eq_none.mpr fun g hg => by simp [hknown g hg]
    rw [hnone]
    rfl

theorem addConstraint_eq_ok {c : Constraint} (h : t.addConstraint c = .ok t') :
    c.id.isEmpty = false ∧ (∀ g ∈ c.sequence.flatMap Element.touched, t.groups.contains g = true) ∧
      t' = { t with constraints := t.constraints.insert c.id c } := addConstraint_eq_ok_iff.mp h

/-- Connecting two groups adds an edge at a free output gate, with its wires. -/
theorem connect_eq_ok_iff {e : GroupEdge} :
    t.connect e = .ok t' ↔ t.groups.contains e.link.source = true ∧
      t.groups.contains e.link.target = true ∧
      (∀ e' ∈ t.edges, e'.link.source = e.link.source →
        e'.link.outputGate ≠ e.link.outputGate) ∧
      t' = { t with
        edges := t.edges ++ [e]
        wires := t.wires ++ wiring e (t.membersOf e.link.source) (t.membersOf e.link.target)
        members := t.members.map fun m =>
          (wiring e (t.membersOf e.link.source) (t.membersOf e.link.target)).foldl
            Member.openGates m } := by
  have hfree : ¬ (t.forward e.link.source).contains e.link.outputGate = true ↔
      ∀ e' ∈ t.edges, e'.link.source = e.link.source →
        e'.link.outputGate ≠ e.link.outputGate := by
    rw [contains_forward_iff]
    simp
  simp only [connect, bind_eq_ok, membersOfGroup_eq_ok]
  constructor
  · rintro ⟨_, ⟨hsource, rfl⟩, _, ⟨htarget, rfl⟩, h⟩
    obtain ⟨hgate, h⟩ := check_eq_ok.mp h
    exact ⟨hsource, htarget, hfree.mp hgate, (Except.ok.inj h).symm⟩
  · rintro ⟨hsource, htarget, hgate, rfl⟩
    exact ⟨_, ⟨hsource, rfl⟩, _, ⟨htarget, rfl⟩, check_eq_ok.mpr ⟨hfree.mpr hgate, rfl⟩⟩

theorem connect_eq_ok {e : GroupEdge} (h : t.connect e = .ok t') :
    let ws := wiring e (t.membersOf e.link.source) (t.membersOf e.link.target)
    (∀ e' ∈ t.edges, e'.link.source = e.link.source → e'.link.outputGate ≠ e.link.outputGate) ∧
      t'.edges = t.edges ++ [e] ∧ t'.wires = t.wires ++ ws ∧
        (t'.members = t.members.map fun m => ws.foldl Member.openGates m) ∧
          t'.constraints = t.constraints := by
  obtain ⟨-, -, hfree, rfl⟩ := connect_eq_ok_iff.mp h
  exact ⟨hfree, rfl, rfl, rfl, rfl⟩

/-! ### Splitting -/

/-- Splitting gives each constraint a topology of its own. -/
theorem mem_splitByConstraint {u : Topology} {id : ConstraintId} :
    (id, u) ∈ t.splitByConstraint ↔
      ∃ c, t.constraint? id = some c ∧ u = { t with constraints := Table.empty.insert id c } := by
  rw [splitByConstraint, List.mem_map]
  constructor
  · rintro ⟨⟨id', c⟩, hmem, heq⟩
    obtain ⟨rfl, rfl⟩ := Prod.mk.inj heq
    exact ⟨c, t.constraints.mem_entries_iff.mp hmem, rfl⟩
  · rintro ⟨c, hc, rfl⟩
    exact ⟨(id, c), t.constraints.mem_entries_iff.mpr hc, rfl⟩

/-! ### Soundness -/

/-- What holds of a topology that was declared part by part. -/
structure IsSound (t : Topology) : Prop where
  ids : (t.members.map Member.id).Nodup
  wires : t.wires.Nodup
  /-- Every wire stems from an edge at its output gate. -/
  origins : ∀ w ∈ t.wires, ∃ e ∈ t.edges, e.link.outputGate = w.outputGate ∧
    ∃ m ∈ t.members, m.id = w.source ∧ m.group = e.link.source
  constraints : ∀ id c, t.constraints.find? id = some c → c.id = id

theorem member?_of_mem (h : (t.members.map Member.id).Nodup) {m : Member} (hm : m ∈ t.members) :
    t.member? m.id = some m := by
  obtain ⟨m', hm'⟩ : ∃ m', t.member? m.id = some m' := by
    rw [← Option.isSome_iff_exists, member?, List.find?_isSome]
    exact ⟨m, hm, decide_eq_true rfl⟩
  have hid : m'.id = m.id := by simpa using List.find?_some hm'
  rw [hm', List.inj_on_of_nodup_map h (List.mem_of_find?_eq_some hm') hm hid]

theorem IsSound.empty : IsSound {} where
  ids := List.nodup_nil
  wires := List.nodup_nil
  origins _ hw := (List.not_mem_nil hw).elim
  constraints _ _ hc := by cases hc

theorem IsSound.addGroup (h : t.IsSound) {id : GroupId} {name : String}
    (hadd : t.addGroup id name = .ok t') : t'.IsSound := by
  obtain ⟨-, -, rfl⟩ := addGroup_eq_ok hadd
  exact ⟨h.ids, h.wires, h.origins, h.constraints⟩

theorem IsSound.addMember (h : t.IsSound) {g : GroupId} {id : MemberId} {host : HostId}
    (hadd : t.addMember g id host = .ok t') : t'.IsSound := by
  obtain ⟨-, -, hnew, -, name, rfl⟩ := addMember_eq_ok hadd
  refine ⟨?_, h.wires, fun w hw => ?_, h.constraints⟩
  · rw [List.map_append, List.map_singleton, ← List.concat_eq_append, List.nodup_concat]
    refine ⟨fun hid => ?_, h.ids⟩
    obtain ⟨m, hm, hid⟩ := List.mem_map.mp hid
    exact hnew m hm hid
  · obtain ⟨e, he, hgate, m, hm, hsource⟩ := h.origins w hw
    exact ⟨e, he, hgate, m, List.mem_append_left _ hm, hsource⟩

theorem IsSound.connect (h : t.IsSound) {e : GroupEdge} (hconnect : t.connect e = .ok t') :
    t'.IsSound := by
  obtain ⟨hfree, hedges, hwires, hmembers, hconstraints⟩ := connect_eq_ok hconnect
  have hgroup : ∀ g, ((t.membersOf g).map Member.id).Nodup := fun g =>
    h.ids.sublist (List.filter_sublist.map _)
  have hnew := nodup_wiring e (hgroup e.link.source) (hgroup e.link.target)
  have hgate : ∀ w ∈ wiring e (t.membersOf e.link.source) (t.membersOf e.link.target),
      e.link.outputGate = w.outputGate ∧ ∃ m ∈ t.members, m.id = w.source ∧
        m.group = e.link.source := fun w hw => source_of_mem_wiring hw
  generalize wiring e (t.membersOf e.link.source) (t.membersOf e.link.target) = ws at *
  refine ⟨?_, ?_, fun w hw => ?_, hconstraints ▸ h.constraints⟩
  · have hsame : Member.id ∘ (fun m => ws.foldl Member.openGates m) = Member.id :=
      funext fun m => (foldl_openGates ws m).1
    rw [hmembers, List.map_map, hsame]
    exact h.ids
  · rw [hwires]
    refine List.nodup_append.mpr ⟨h.wires, hnew, fun w hold w' hw' heq => ?_⟩
    subst heq
    -- the wire would stem from an earlier edge at the same output gate
    obtain ⟨e', he', hgate', m', hm', hid', hsource'⟩ := h.origins w hold
    obtain ⟨hgate, m, hm, hid, hsource⟩ := hgate w hw'
    have hsame : m' = m := List.inj_on_of_nodup_map h.ids hm' hm (hid'.trans hid.symm)
    have hgroups : e'.link.source = e.link.source := by rw [← hsource', hsame, hsource]
    exact hfree e' he' hgroups (hgate'.trans hgate.symm)
  · rw [hwires] at hw
    rw [hedges, hmembers]
    rcases List.mem_append.mp hw with hold | hw
    · obtain ⟨e', he', hgate', hsource'⟩ := h.origins w hold
      exact ⟨e', List.mem_append_left _ he', hgate', exists_foldl_openGates ws hsource'⟩
    · obtain ⟨hgate, hsource⟩ := hgate w hw
      exact ⟨e, List.mem_append_right _ (List.mem_singleton_self e), hgate,
        exists_foldl_openGates ws hsource⟩

theorem IsSound.addConstraint (h : t.IsSound) {c : Constraint}
    (hadd : t.addConstraint c = .ok t') : t'.IsSound := by
  obtain ⟨-, -, rfl⟩ := addConstraint_eq_ok hadd
  refine ⟨h.ids, h.wires, h.origins, fun id c' hc' => ?_⟩
  by_cases hid : c.id = id
  · subst hid
    rw [Table.find?_insert_self] at hc'
    rw [Option.some.inj hc']
  · rw [Table.find?_insert_of_ne _ hid] at hc'
    exact h.constraints id c' hc'

end Topology

/-- The topology of a job has what every declaration preserves. -/
theorem Job.topology_induction {P : Topology → Prop} (hempty : P {})
    (hgroup : ∀ {t t' : Topology} {id : GroupId} {name : String}, P t →
      t.addGroup id name = .ok t' → P t')
    (hmember : ∀ {t t' : Topology} {g : GroupId} {id : MemberId} {host : HostId}, P t →
      t.addMember g id host = .ok t' → P t')
    (hedge : ∀ {t t' : Topology} {e : GroupEdge}, P t → t.connect e = .ok t' → P t')
    (hconstraint : ∀ {t t' : Topology} {c : Constraint}, P t → t.addConstraint c = .ok t' → P t')
    {job : Job} {t : Topology} (h : job.topology = .ok t) : P t := by
  obtain ⟨t₁, hgroups, h⟩ := bind_eq_ok.mp h
  obtain ⟨t₂, hedges, hconstraints⟩ := bind_eq_ok.mp h
  have h₁ : P t₁ := foldlM_preserves P (fun t t' g _ ht hdeclare => by
    obtain ⟨t'', hadd, hmembers⟩ := bind_eq_ok.mp hdeclare
    exact foldlM_preserves P (fun _ _ _ _ ht hadd => hmember ht hadd) (hgroup ht hadd) hmembers)
    hempty hgroups
  have h₂ : P t₂ := foldlM_preserves P (fun _ _ _ _ ht hconnect => hedge ht hconnect) h₁ hedges
  exact foldlM_preserves P (fun _ _ _ _ ht hadd => hconstraint ht hadd) h₂ hconstraints

/-- The topology of a job is sound. -/
theorem Job.topology_isSound {job : Job} {t : Topology} (h : job.topology = .ok t) : t.IsSound :=
  Job.topology_induction Topology.IsSound.empty (fun ht hadd => ht.addGroup hadd)
    (fun ht hadd => ht.addMember hadd) (fun ht hconnect => ht.connect hconnect)
    (fun ht hadd => ht.addConstraint hadd) h

end LatencyControl
