import LatencyControl.Proofs.Monitor.Coverage
import LatencyControl.Proofs.Role.Rearranged

/-!
# Sharing one walk among the anchors

The walk of a manager role starts at each of its members in turn, and does not go again where it was
on the way from an earlier one.  `ManagerRole.assignments_shared` says that nothing is lost by this:
the role assigns what it would assign for each of its members alone (`ManagerRole.only`), all taken
together, and its walk visits what their walks visit.
-/

namespace LatencyControl

namespace ManagerRole

variable {r : ManagerRole} {s : Sequence}

/-- The same role by way of a single member. -/
def only (r : ManagerRole) (anchor : MemberId) : ManagerRole := { r with members := [anchor] }

/-- A role that was created can be created by way of each of its members alone. -/
theorem create_only {host : HostId} {id : ConstraintId} {t : Topology} {g : GroupId}
    {ms : List MemberId} (h : create host id t g ms = .ok r) {anchor : MemberId}
    (hanchor : anchor ∈ r.members) : create host id t g [anchor] = .ok (r.only anchor) := by
  obtain rfl := create_eq_ok h
  unfold create at h ⊢
  simp only [step_eq_ok, check_eq_ok, forM_eq_ok, List.mem_singleton, forall_eq] at h ⊢
  obtain ⟨hhost, hid, -, hheld, hall, -⟩ := h
  exact ⟨hhost, hid, by simp, hheld, hall anchor hanchor, rfl⟩

/-! ### Visits -/

/-- A walk gets through exactly if all its anchors are there. -/
theorem exists_walk_iff :
    (∃ w, r.walk s = .ok w) ↔ ∀ anchor ∈ r.members, ∃ m, r.topology.member? anchor = some m :=
  ⟨fun ⟨_, hw⟩ _ hanchor => (met_of_walk hw hanchor).imp fun _ hm => hm.1, exists_walk s⟩

/-- The walk from a single member visits what can be met from it. -/
theorem mem_visits_walk_only_iff {anchor : MemberId} {v : Visit} :
    (∃ w, (r.only anchor).walk s = .ok w ∧ v ∈ w.visits) ↔
      ∃ m, r.topology.member? anchor = some m ∧ v ∈ r.topology.met s m := by
  constructor
  · rintro ⟨w, hw, hv⟩
    obtain ⟨anchor', hanchor, m, hm⟩ := (mem_visits_walk_iff hw).mp hv
    obtain rfl : anchor' = anchor := List.mem_singleton.mp hanchor
    exact ⟨m, hm⟩
  · rintro ⟨m, hm, hmet⟩
    obtain ⟨w, hw⟩ : ∃ w, (r.only anchor).walk s = .ok w := by
      refine exists_walk_iff.mpr fun anchor' hanchor => ?_
      rw [List.mem_singleton.mp hanchor]
      exact ⟨m, hm⟩
    exact ⟨w, hw, (mem_visits_walk_iff hw).mpr ⟨anchor, List.mem_singleton_self _, m, hm, hmet⟩⟩

/-! ### Reporters -/

/-- What a single member needs can be told if this is so of everything that can be met from it. -/
theorem exists_assignments_only_iff {anchor : MemberId} :
    (∃ as, (r.only anchor).assignments = .ok as) ↔
      ∃ c, r.topology.constraint r.constraint = .ok c ∧
        ∃ m, r.topology.member? anchor = some m ∧ ∀ v ∈ r.topology.met c.sequence m, ∃ l,
          assignVisit r.topology c.sequence r.ref v = .ok l := by
  rw [exists_assignments_iff]
  simp only [only, List.mem_singleton, forall_eq]
  rfl

theorem mem_assignments_only_iff {anchor : MemberId} {as : List Assignment}
    (h : (r.only anchor).assignments = .ok as) {c : Constraint}
    (hc : r.topology.constraint r.constraint = .ok c) {a : Assignment} :
    a ∈ as ↔ ∃ m, r.topology.member? anchor = some m ∧ ∃ v ∈ r.topology.met c.sequence m, ∃ l,
      assignVisit r.topology c.sequence r.ref v = .ok l ∧ a ∈ l := by
  rw [mem_assignments_iff h hc]
  simp only [only, List.mem_singleton, exists_eq_left]
  rfl

/-- **One walk for all anchors.**  The reporters of a role can be told exactly if they can be told
for each of its members alone, and then they are those of the members taken together.  Along any
sequence, the walk from all members visits what the walks from the single ones visit. -/
theorem assignments_shared (h : r.members ≠ []) :
    ((∃ as, r.assignments = .ok as) ↔
      ∀ anchor ∈ r.members, ∃ as, (r.only anchor).assignments = .ok as) ∧
    (∀ as, r.assignments = .ok as → ∀ a, a ∈ as ↔
      ∃ anchor ∈ r.members, ∃ own, (r.only anchor).assignments = .ok own ∧ a ∈ own) ∧
    ∀ s, ((∃ w, r.walk s = .ok w) ↔
        ∀ anchor ∈ r.members, ∃ w, (r.only anchor).walk s = .ok w) ∧
      ∀ w, r.walk s = .ok w → ∀ v, v ∈ w.visits ↔
        ∃ anchor ∈ r.members, ∃ own, (r.only anchor).walk s = .ok own ∧ v ∈ own.visits := by
  refine ⟨⟨fun has => ?_, fun hall => ?_⟩, fun as has a => ?_, fun s => ⟨?_, fun w hw v => ?_⟩⟩
  · obtain ⟨c, hc, hmet⟩ := exists_assignments_iff.mp has
    exact fun anchor hanchor => exists_assignments_only_iff.mpr ⟨c, hc, hmet anchor hanchor⟩
  · -- the constraint is there, since it is there for some member
    obtain ⟨first, hfirst⟩ := List.exists_mem_of_ne_nil _ h
    obtain ⟨c, hc, -⟩ := exists_assignments_only_iff.mp (hall first hfirst)
    refine exists_assignments_iff.mpr ⟨c, hc, fun anchor hanchor => ?_⟩
    obtain ⟨c', hc', hmet⟩ := exists_assignments_only_iff.mp (hall anchor hanchor)
    obtain rfl : c = c' := Except.ok.inj (hc.symm.trans hc')
    exact hmet
  · obtain ⟨c, hc, hmet⟩ := exists_assignments_iff.mp ⟨as, has⟩
    rw [mem_assignments_iff has hc]
    refine exists_congr fun anchor => and_congr_right fun hanchor => ?_
    obtain ⟨own, hown⟩ := exists_assignments_only_iff.mpr ⟨c, hc, hmet anchor hanchor⟩
    rw [← mem_assignments_only_iff hown hc]
    simp only [hown, Except.ok.injEq, exists_eq_left']
  · simp only [exists_walk_iff, only, List.mem_singleton, forall_eq]
  · rw [mem_visits_walk_iff hw]
    simp only [mem_visits_walk_only_iff]

/-- Both members of the role lead to the same third one, which is measured for either. -/
theorem assignments_shared_funnelRole :
    Model.funnelRole.members ≠ [] ∧ ∃ as, Model.funnelRole.assignments = .ok as ∧
      ∀ a, a ∈ as ↔ ∃ anchor ∈ Model.funnelRole.members, ∃ own,
        (Model.funnelRole.only anchor).assignments = .ok own ∧ a ∈ own := by
  have hmembers : Model.funnelRole.members ≠ [] := by decide
  obtain ⟨as, has⟩ : ∃ as, Model.funnelRole.assignments = .ok as := exists_eq_ok (by decide +kernel)
  exact ⟨hmembers, as, has, (assignments_shared hmembers).2.1 as has⟩

end ManagerRole

end LatencyControl
