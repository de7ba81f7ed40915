import LatencyControl.Proofs.Topology.Declared

/-!
# Positions and names

What else holds of a topology that was declared part by part (`Topology.IsNumbered`): the members of
a group are listed in the order of their positions, which are counted from zero without a gap, and
no host of a member and no constraint is without a name.
-/

namespace LatencyControl

namespace Topology

/-- What holds of the positions and names in a topology that was declared part by part. -/
structure IsNumbered (t : Topology) : Prop where
  positions : ∀ g, (t.membersOf g).map Member.index = List.range (t.membersOf g).length
  hosts : ∀ m ∈ t.members, m.host.isEmpty = false
  constraints : ∀ id c, t.constraints.find? id = some c → id.isEmpty = false

variable {t t' : Topology}

/-- The members of a group on a host, in the order of their positions. -/
def membersOn (t : Topology) (g : GroupId) (host : HostId) : List Member :=
  (t.membersOf g).filter fun m => m.host = host

theorem mem_membersOn {g : GroupId} {host : HostId} {m : Member} :
    m ∈ t.membersOn g host ↔ m ∈ t.members ∧ m.group = g ∧ m.host = host := by
  simp only [membersOn, membersOf, List.mem_filter, decide_eq_true_eq, and_assoc]

/-- The members of a group on a host have ascending positions. -/
theorem IsNumbered.ascending (h : t.IsNumbered) (g : GroupId) (host : HostId) :
    ((t.membersOn g host).map Member.index).Pairwise (· < ·) := by
  have hall : ((t.membersOf g).map Member.index).Pairwise (· < ·) := by
    rw [h.positions g]
    exact List.pairwise_lt_range
  exact hall.sublist (List.filter_sublist.map Member.index)

/-- A member knows the position at which it is listed in its group. -/
theorem IsNumbered.index_eq (h : t.IsNumbered) {g : GroupId} {i : ℕ} {m : Member}
    (hi : (t.membersOf g)[i]? = some m) : m.index = i := by
  have hlt : i < (t.membersOf g).length := (List.getElem?_eq_some_iff.mp hi).1
  have hindex := congrArg (fun is => is[i]?) (h.positions g)
  simpa only [List.getElem?_map, hi, List.getElem?_range hlt, Option.map_some,
    Option.some.injEq] using hindex

theorem IsNumbered.getElem?_membersOf (h : t.IsNumbered) {m : Member} (hm : m ∈ t.members) :
    (t.membersOf m.group)[m.index]? = some m := by
  have hlisted : m ∈ t.membersOf m.group := List.mem_filter.mpr ⟨hm, decide_eq_true rfl⟩
  obtain ⟨i, hi⟩ := List.getElem?_of_mem hlisted
  rw [h.index_eq hi]
  exact hi

/-! ### Declarations -/

theorem IsNumbered.empty : IsNumbered {} where
  positions _ := rfl
  hosts _ hm := (List.not_mem_nil hm).elim
  constraints _ _ hc := by cases hc

theorem IsNumbered.addGroup (h : t.IsNumbered) {id : GroupId} {name : String}
    (hadd : t.addGroup id name = .ok t') : t'.IsNumbered := by
  obtain ⟨-, -, rfl⟩ := addGroup_eq_ok hadd
  exact ⟨h.positions, h.hosts, h.constraints⟩

/-- A new member takes the position behind the last member of its group. -/
theorem IsNumbered.addMember (h : t.IsNumbered) {g : GroupId} {id : MemberId} {host : HostId}
    (hadd : t.addMember g id host = .ok t') : t'.IsNumbered := by
  obtain ⟨-, hhost, -, -, name, rfl⟩ := addMember_eq_ok hadd
  constructor
  · intro g'
    have hold := h.positions g'
    simp only [membersOf, List.filter_append] at hold ⊢
    by_cases hg : g = g'
    · subst hg
      simp [hold, List.range_succ]
    · simp [hg, hold]
  · intro m hm
    rcases List.mem_append.mp hm with hm | hm
    · exact h.hosts m hm
    · rw [List.mem_singleton.mp hm]
      exact hhost
  · exact h.constraints

/-- Opening gates leaves a member in its place. -/
theorem place_foldl_openGates (ws : List Wire) (m : Member) :
    (ws.foldl Member.openGates m).index = m.index ∧
      (ws.foldl Member.openGates m).host = m.host := by
  induction ws generalizing m with
  | nil => exact ⟨rfl, rfl⟩
  | cons w rest ih => exact ih (m.openGates w)

theorem IsNumbered.connect (h : t.IsNumbered) {e : GroupEdge} (hconnect : t.connect e = .ok t') :
    t'.IsNumbered := by
  obtain ⟨-, -, -, hmembers, hconstraints⟩ := connect_eq_ok hconnect
  generalize wiring e (t.membersOf e.link.source) (t.membersOf e.link.target) = ws at hmembers
  have hof : ∀ g, t'.membersOf g = (t.membersOf g).map fun m => ws.foldl Member.openGates m := by
    intro g
    have hgroup : (fun m : Member => decide (m.group = g)) ∘ (fun m => ws.foldl Member.openGates m)
        = fun m => decide (m.group = g) := by
      funext m
      simp [(foldl_openGates ws m).2]
    rw [membersOf, membersOf, hmembers, List.filter_map, hgroup]
  have hindex : Member.index ∘ (fun m => ws.foldl Member.openGates m) = Member.index :=
    funext fun m => (place_foldl_openGates ws m).1
  constructor
  · intro g
    rw [hof, List.map_map, List.length_map, hindex]
    exact h.positions g
  · intro m hm
    rw [hmembers] at hm
    obtain ⟨m', hm', rfl⟩ := List.mem_map.mp hm
    rw [(place_foldl_openGates ws m').2]
    exact h.hosts m' hm'
  · rw [hconstraints]
    exact h.constraints

theorem IsNumbered.addConstraint (h : t.IsNumbered) {c : Constraint}
    (hadd : t.addConstraint c = .ok t') : t'.IsNumbered := by
  obtain ⟨hname, -, rfl⟩ := addConstraint_eq_ok hadd
  refine ⟨h.positions, h.hosts, fun id c' hc' => ?_⟩
  by_cases hid : c.id = id
  · exact hid ▸ hname
  · rw [Table.find?_insert_of_ne _ hid] at hc'
    exact h.constraints id c' hc'

end Topology

/-- The topology of a job is numbered. -/
theorem Job.topology_isNumbered {job : Job} {t : Topology} (h : job.topology = .ok t) :
    t.IsNumbered :=
  Job.topology_induction Topology.IsNumbered.empty (fun ht hadd => ht.addGroup hadd)
    (fun ht hadd => ht.addMember hadd) (fun ht hconnect => ht.connect hconnect)
    (fun ht hadd => ht.addConstraint hadd) h

end LatencyControl
