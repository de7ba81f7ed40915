import LatencyControl.Proofs.Path.Reach
import LatencyControl.Proofs.Result
import LatencyControl.Role.Collection

/-!
# Walks from all anchors

The walk of a manager role starts at each of its anchor members in turn, forward and then backward,
and remembers what it has visited.  `ManagerRole.met_of_walk` says that in the end it has visited
everything that can be met from any of the anchors (`Topology.met`), and so everything on the way
from the place that the sequence has for its group (`ManagerRole.walk_covers`).
-/

namespace LatencyControl

variable {t : Topology} {s : Sequence}

/-! ### Positions -/

theorem nodup_positions (s : Sequence) : (s.zipIdx.map Prod.snd).Nodup := by
  rw [List.zipIdx_map_snd]
  exact List.nodup_range'

theorem nodup_positions_reverse (s : Sequence) : (s.zipIdx.reverse.map Prod.snd).Nodup := by
  rw [List.map_reverse, List.nodup_reverse]
  exact nodup_positions s

theorem getElem?_of_vertexIndex? {g : GroupId} {i : ℕ} (h : s.vertexIndex? g = some i) :
    ∃ inp out sampling, s[i]? = some (.vertex g inp out sampling) := by
  obtain ⟨hi, hvertex, -⟩ := List.findIdx?_eq_some_iff_getElem.mp h
  rw [List.getElem?_eq_getElem hi]
  generalize (s : List Element)[i] = e at hvertex
  cases e with
  | vertex g' inp out sampling =>
    obtain rfl : g' = g := of_decide_eq_true hvertex
    exact ⟨inp, out, sampling, rfl⟩
  | edge l sampling => cases hvertex

theorem getElem?_zipIdx_of_getElem? {e : Element} {i : ℕ} (h : s[i]? = some e) :
    s.zipIdx[i]? = some (e, i) := by
  rw [List.getElem?_zipIdx, h, Option.map_some, Nat.zero_add]

theorem head?_of_startsLeaving {g : GroupId} (h : s.startsLeaving g = true) :
    ∃ l sampling, s.head? = some (.edge l sampling) ∧ l.source = g := by
  unfold Sequence.startsLeaving at h
  split at h
  · next l sampling hhead => exact ⟨l, sampling, hhead, of_decide_eq_true h⟩
  · cases h

theorem getLast?_of_endsEntering {g : GroupId} (h : s.endsEntering g = true) :
    ∃ l sampling, s.getLast? = some (.edge l sampling) ∧ l.target = g := by
  unfold Sequence.endsEntering at h
  split at h
  · next l sampling hlast => exact ⟨l, sampling, hlast, of_decide_eq_true h⟩
  · cases h

/-- A group has its place in a sequence at a vertex element of its own, in front of all elements if
the first one leaves it, or behind them if the last one enters it. -/
def Sequence.HasPlace (s : Sequence) (g : GroupId) (i : ℕ) : Prop :=
  (∃ inp out sampling, s[i]? = some (.vertex g inp out sampling)) ∨
    (i = 0 ∧ ∃ l sampling, s.head? = some (.edge l sampling) ∧ l.source = g) ∨
      i = s.length ∧ ∃ l sampling, s.getLast? = some (.edge l sampling) ∧ l.target = g

/-- A sequence is split for a group where the group has its place. -/
theorem Topology.splitAt?_eq_some {g : GroupId} {i : ℕ} (h : splitAt? s g = some i) :
    s.HasPlace g i := by
  unfold splitAt? at h
  cases hindex : s.vertexIndex? g with
  | some j =>
    obtain rfl : j = i := by simpa [hindex] using h
    exact .inl (getElem?_of_vertexIndex? hindex)
  | none =>
    simp only [hindex] at h
    split_ifs at h with hstarts hends
    · exact .inr (.inl ⟨(Option.some.inj h).symm, head?_of_startsLeaving hstarts⟩)
    · exact .inr (.inr ⟨(Option.some.inj h).symm, getLast?_of_endsEntering hends⟩)

/-! ### Marks -/

namespace Walk

@[simp] theorem cover_visits (w : Walk) (m : MemberId) (i : ℕ) :
    (w.cover m i).visits = w.visits := by
  unfold cover
  split_ifs <;> rfl

@[simp] theorem cover_expanded (w : Walk) (m : MemberId) (i : ℕ) :
    (w.cover m i).expanded = w.expanded := by
  unfold cover
  split_ifs <;> rfl

theorem mem_covered_cover {w : Walk} {m : MemberId} {i : ℕ} {k : MemberId × ℕ} :
    k ∈ (w.cover m i).covered ↔ k = (m, i) ∨ k ∈ w.covered := by
  unfold cover
  split_ifs with hmem
  · exact ⟨.inr, fun h => h.elim (fun heq => heq ▸ hmem) id⟩
  · exact List.mem_cons

end Walk

namespace Topology

theorem member?_of_mem_ahead {l : Link} {m : Member} {w : Wire} {x : Member}
    (h : (w, x) ∈ t.ahead l m) : t.member? x.id = some x := by
  obtain ⟨-, -, -, htarget, -⟩ := mem_ahead.mp h
  rw [member?_id htarget, htarget]

theorem member?_of_mem_behind {l : Link} {m : Member} {w : Wire} {x : Member}
    (h : (w, x) ∈ t.behind l m) : t.member? x.id = some x := by
  obtain ⟨-, -, -, hsource, -⟩ := mem_behind.mp h
  rw [member?_id hsource, hsource]

end Topology

open LatencyControl.Topology

/-! ### One anchor -/

/-- A walk has left nothing out so far, in either direction. -/
structure Walk.Complete (t : Topology) (s : Sequence) (w : Walk) : Prop where
  forward : Trail.Complete t t.ahead s.zipIdx ⟨w.expanded, w.visits⟩
  backward : Trail.Complete t t.behind s.zipIdx.reverse ⟨w.covered, w.visits⟩

/-- Everything that can be met from a member: in both directions from the vertex element of its
group, or else inward from each border of the sequence that is an edge at the group. -/
def Topology.met (t : Topology) (s : Sequence) (m : Member) : List Visit :=
  match s.vertexIndex? m.group with
  | some i => reach t.ahead (s.zipIdx.drop i) m ++ reach t.behind (s.zipIdx.take i).reverse m
  | none =>
    (if s.startsLeaving m.group then reach t.ahead s.zipIdx m else []) ++
      if s.endsEntering m.group then reach t.behind s.zipIdx.reverse m else []

/-- A walk has visited everything that can be met from a member. -/
def Walk.Covers (t : Topology) (s : Sequence) (w : Walk) (m : Member) : Prop :=
  ∀ i, splitAt? s m.group = some i →
    (∀ v ∈ reach t.ahead (s.zipIdx.drop i) m, v ∈ w.visits) ∧
      ∀ v ∈ reach t.behind (s.zipIdx.take i).reverse m, v ∈ w.visits

/-- What can be met from the place of a member's group is among what can be met from the member. -/
theorem Walk.covers_of_met {w : Walk} {m : Member} (h : ∀ v ∈ t.met s m, v ∈ w.visits) :
    w.Covers t s m := by
  intro i hi
  unfold Topology.met at h
  cases hindex : s.vertexIndex? m.group with
  | some j =>
    obtain rfl : j = i := by simpa [splitAt?, hindex] using hi
    simp only [hindex, List.forall_mem_append] at h
    exact h
  | none =>
    simp only [hindex, List.forall_mem_append] at h
    simp only [splitAt?, hindex] at hi
    -- at either border nothing is left to be met in the other direction
    split_ifs at hi with hstarts hends
    · obtain rfl := Option.some.inj hi
      rw [if_pos hstarts] at h
      exact ⟨h.1, fun v hv => (List.not_mem_nil hv).elim⟩
    · obtain rfl := Option.some.inj hi
      rw [if_pos hends] at h
      rw [List.take_of_length_le (by simp), List.drop_of_length_le (by simp)]
      exact ⟨fun v hv => (List.not_mem_nil hv).elim, h.2⟩

/-- A walk forward from some position on. -/
theorem Walk.Complete.followForward {w : Walk} (h : w.Complete t s) {m : Member}
    (hm : t.member? m.id = some m) (i : ℕ) :
    (Walk.followForward t (s.zipIdx.drop i) m w).Complete t s ∧
      (∀ v ∈ w.visits, v ∈ (Walk.followForward t (s.zipIdx.drop i) m w).visits) ∧
      ∀ v ∈ reach t.ahead (s.zipIdx.drop i) m,
        v ∈ (Walk.followForward t (s.zipIdx.drop i) m w).visits := by
  have hsuffix : s.zipIdx.drop i <:+ s.zipIdx := List.drop_suffix i _
  have hnodup := (nodup_positions s).sublist (hsuffix.sublist.map Prod.snd)
  have hcont := explore_continues t.ahead (s.zipIdx.drop i) m ⟨w.expanded, w.visits⟩
  obtain ⟨hcomplete, hreach⟩ := explore_complete (fun _ _ _ _ => member?_of_mem_ahead)
    (s.zipIdx.drop i) hnodup hm (h.forward.restrict hsuffix)
  rw [followForward_eq]
  refine ⟨⟨h.forward.of_suffix (nodup_positions s) hsuffix hcont hcomplete, ?_⟩, hcont.visits,
    hreach⟩
  exact h.backward.of_visits hcont.visits fun k hk => hk

/-- A walk backward from the end of the sequence. -/
theorem Walk.Complete.followBackward {w : Walk} (h : w.Complete t s) {m : Member}
    (hm : t.member? m.id = some m) :
    (Walk.followBackward t true s.zipIdx.reverse m w).Complete t s ∧
      (∀ v ∈ w.visits, v ∈ (Walk.followBackward t true s.zipIdx.reverse m w).visits) ∧
      ∀ v ∈ reach t.behind s.zipIdx.reverse m,
        v ∈ (Walk.followBackward t true s.zipIdx.reverse m w).visits := by
  have hcont := explore_continues t.behind s.zipIdx.reverse m ⟨w.covered, w.visits⟩
  obtain ⟨hcomplete, hreach⟩ := explore_complete (fun _ _ _ _ => member?_of_mem_behind)
    s.zipIdx.reverse (nodup_positions_reverse s) hm h.backward
  rw [followBackward_eq]
  refine ⟨⟨?_, hcomplete⟩, hcont.visits, hreach⟩
  exact h.forward.of_visits hcont.visits fun k hk => hk

/-- A walk backward from a vertex element that was visited on the way forward; the member is marked
there without another visit. -/
theorem Walk.Complete.followBackward_cover {w : Walk} (h : w.Complete t s) {m : Member}
    (hm : t.member? m.id = some m) {i : ℕ} {inp out : Option ℕ} {sampling : Sampling}
    (he : s.zipIdx[i]? = some (.vertex m.group inp out sampling, i))
    (hvisited : ⟨.member m, i, .vertex m.group inp out sampling⟩ ∈ w.visits) :
    let w' := Walk.followBackward t true (s.zipIdx.take i).reverse m (w.cover m.id i)
    w'.Complete t s ∧ (∀ v ∈ w.visits, v ∈ w'.visits) ∧
      ∀ v ∈ reach t.behind (s.zipIdx.take i).reverse m, v ∈ w'.visits := by
  set e : Element := .vertex m.group inp out sampling
  set ps := (s.zipIdx.take i).reverse
  have hsuffix : (e, i) :: ps <:+ s.zipIdx.reverse := by
    have htake : (e, i) :: ps = (s.zipIdx.take (i + 1)).reverse := by
      rw [List.take_add_one, he, List.reverse_append]
      rfl
    rw [htake, List.reverse_suffix]
    exact List.take_prefix (i + 1) _
  have hnodup := (nodup_positions_reverse s).sublist (hsuffix.sublist.map Prod.snd)
  obtain ⟨hi, hnodup⟩ := List.nodup_cons.mp hnodup
  have hvisits : (w.cover m.id i).visits = w.visits := Walk.cover_visits w m.id i
  have hmark : Trail.Continues ⟨w.covered, w.visits⟩
      ⟨(w.cover m.id i).covered, (w.cover m.id i).visits⟩ ((e, i) :: ps) := by
    refine ⟨fun v hv => hvisits ▸ hv, fun k hk => ?_⟩
    rcases Walk.mem_covered_cover.mp hk with rfl | hk
    · exact .inr List.mem_cons_self
    · exact .inl hk
  have hcont := explore_continues t.behind ps m ⟨(w.cover m.id i).covered, (w.cover m.id i).visits⟩
  have hall := hmark.trans (hcont.cons (e, i))
  -- the member was met here on the way forward, so that it may be marked
  obtain ⟨hcomplete, hreach⟩ := (h.backward.restrict hsuffix).marked hm hi hmark.visits
    (fun _ => Walk.mem_covered_cover.mp) (hvisits ▸ hvisited) hcont
    (explore_complete (fun _ _ _ _ => member?_of_mem_behind) ps hnodup hm)
  rw [followBackward_eq]
  refine ⟨⟨?_, ?_⟩, hall.visits, fun v hv => hreach v ?_⟩
  · refine h.forward.of_visits hall.visits fun k hk => ?_
    rwa [Walk.cover_expanded] at hk
  · exact h.backward.of_suffix (nodup_positions_reverse s) hsuffix hall hcomplete
  · rw [reach, if_pos rfl]
    exact List.mem_cons_of_mem _ hv

/-! ### All anchors -/

theorem Topology.member_eq_ok {id : MemberId} {m : Member} :
    t.member id = .ok m ↔ t.member? id = some m := by
  unfold Topology.member
  cases t.member? id <;> simp

/-- The walk in both directions from the vertex element of a group. -/
theorem Walk.Complete.fromVertex {w : Walk} (h : w.Complete t s) {m : Member}
    (hm : t.member? m.id = some m) {i : ℕ} (hindex : s.vertexIndex? m.group = some i) :
    let w₁ := Walk.followForward t (s.zipIdx.drop i) m w
    let w' := Walk.followBackward t true (s.zipIdx.take i).reverse m (w₁.cover m.id i)
    w'.Complete t s ∧ (∀ v ∈ w.visits, v ∈ w'.visits) ∧ ∀ v ∈ t.met s m, v ∈ w'.visits := by
  intro w₁ w'
  obtain ⟨inp, out, sampling, he⟩ := getElem?_of_vertexIndex? hindex
  replace he := getElem?_zipIdx_of_getElem? he
  obtain ⟨hcomplete, hvisits, hahead⟩ := h.followForward hm i
  have hstart : ⟨.member m, i, .vertex m.group inp out sampling⟩ ∈
      reach t.ahead (s.zipIdx.drop i) m := by
    obtain ⟨hi, heq⟩ := List.getElem?_eq_some_iff.mp he
    rw [List.drop_eq_getElem_cons hi, heq, reach, if_pos rfl]
    exact List.mem_cons_self
  obtain ⟨hcomplete', hvisits', hbehind⟩ :=
    hcomplete.followBackward_cover hm he (hahead _ hstart)
  refine ⟨hcomplete', fun v hv => hvisits' v (hvisits v hv), ?_⟩
  simp only [met, hindex, List.forall_mem_append]
  exact ⟨fun v hv => hvisits' v (hahead v hv), hbehind⟩

/-- The walk inward from the borders of a sequence, for a group without a vertex element. -/
theorem Walk.Complete.fromBorder {w : Walk} (h : w.Complete t s) {m : Member}
    (hm : t.member? m.id = some m) (hindex : s.vertexIndex? m.group = none) :
    let w₁ := if s.startsLeaving m.group then Walk.followForward t s.zipIdx m w else w
    let w' :=
      if s.endsEntering m.group then Walk.followBackward t true s.zipIdx.reverse m w₁ else w₁
    w'.Complete t s ∧ (∀ v ∈ w.visits, v ∈ w'.visits) ∧ ∀ v ∈ t.met s m, v ∈ w'.visits := by
  intro w₁ w'
  obtain ⟨hcomplete, hvisits, hahead⟩ : w₁.Complete t s ∧ (∀ v ∈ w.visits, v ∈ w₁.visits) ∧
      (s.startsLeaving m.group = true → ∀ v ∈ reach t.ahead s.zipIdx m, v ∈ w₁.visits) := by
    by_cases hstarts : s.startsLeaving m.group = true
    · obtain ⟨hcomplete, hvisits, hreach⟩ := h.followForward hm 0
      rw [show w₁ = _ from if_pos hstarts]
      exact ⟨hcomplete, hvisits, fun _ => hreach⟩
    · rw [show w₁ = w from if_neg hstarts]
      exact ⟨h, fun v hv => hv, fun hs => absurd hs hstarts⟩
  obtain ⟨hcomplete', hvisits', hbehind⟩ : w'.Complete t s ∧ (∀ v ∈ w₁.visits, v ∈ w'.visits) ∧
      (s.endsEntering m.group = true →
        ∀ v ∈ reach t.behind s.zipIdx.reverse m, v ∈ w'.visits) := by
    by_cases hends : s.endsEntering m.group = true
    · obtain ⟨hcomplete', hvisits', hreach⟩ := hcomplete.followBackward hm
      rw [show w' = _ from if_pos hends]
      exact ⟨hcomplete', hvisits', fun _ => hreach⟩
    · rw [show w' = w₁ from if_neg hends]
      exact ⟨hcomplete, fun v hv => hv, fun he => absurd he hends⟩
  refine ⟨hcomplete', fun v hv => hvisits' v (hvisits v hv), ?_⟩
  simp only [met, hindex, List.forall_mem_append]
  constructor
  · intro v hv
    split_ifs at hv with hstarts
    · exact hvisits' v (hahead hstarts v hv)
    · exact (List.not_mem_nil hv).elim
  · intro v hv
    split_ifs at hv with hends
    · exact hbehind hends v hv
    · exact (List.not_mem_nil hv).elim

namespace ManagerRole

/-- The walk forward and backward from one anchor. -/
theorem met_of_walkFrom {w w' : Walk} {anchor : MemberId} (h : w.Complete t s)
    (hwalk : walkFrom t s w anchor = .ok w') :
    ∃ m, t.member? anchor = some m ∧ w'.Complete t s ∧ (∀ v ∈ w.visits, v ∈ w'.visits) ∧
      ∀ v ∈ t.met s m, v ∈ w'.visits := by
  obtain ⟨w₁, hforward, hbackward⟩ := bind_eq_ok.mp hwalk
  obtain ⟨m, hm, hforward⟩ := bind_eq_ok.mp hforward
  obtain ⟨m', hm', hbackward⟩ := bind_eq_ok.mp hbackward
  obtain rfl : m = m' := Except.ok.inj (hm.symm.trans hm')
  rw [member_eq_ok] at hm
  have hself : t.member? m.id = some m := by rw [member?_id hm, hm]
  cases hindex : s.vertexIndex? m.group with
  | some i =>
    simp only [hindex] at hforward hbackward
    obtain rfl := Except.ok.inj hforward
    obtain rfl := Except.ok.inj hbackward
    exact ⟨m, hm, h.fromVertex hself hindex⟩
  | none =>
    simp only [hindex] at hforward hbackward
    obtain rfl := Except.ok.inj hforward
    obtain rfl := Except.ok.inj hbackward
    exact ⟨m, hm, h.fromBorder hself hindex⟩

/-- The walk from several anchors, one after the other. -/
theorem met_of_foldlM_walkFrom (anchors : List MemberId) {w w' : Walk} (h : w.Complete t s)
    (hwalk : anchors.foldlM (walkFrom t s) w = .ok w') :
    w'.Complete t s ∧ (∀ v ∈ w.visits, v ∈ w'.visits) ∧
      ∀ anchor ∈ anchors, ∃ m, t.member? anchor = some m ∧ ∀ v ∈ t.met s m, v ∈ w'.visits := by
  induction anchors generalizing w with
  | nil =>
    obtain rfl := Except.ok.inj hwalk
    exact ⟨h, fun v hv => hv, fun anchor hanchor => (List.not_mem_nil hanchor).elim⟩
  | cons first rest ih =>
    rw [List.foldlM_cons] at hwalk
    obtain ⟨w₁, hfirst, hrest⟩ := bind_eq_ok.mp hwalk
    obtain ⟨m, hm, hcomplete, hvisits, hmet⟩ := met_of_walkFrom h hfirst
    obtain ⟨hcomplete', hvisits', hlater⟩ := ih hcomplete hrest
    refine ⟨hcomplete', fun v hv => hvisits' v (hvisits v hv), fun anchor hanchor => ?_⟩
    rcases List.mem_cons.mp hanchor with rfl | hanchor
    · exact ⟨m, hm, fun v hv => hvisits' v (hmet v hv)⟩
    · exact hlater anchor hanchor

/-- The walk of a manager role meets everything that can be met from one of its members. -/
theorem met_of_walk {r : ManagerRole} {w : Walk} (h : r.walk s = .ok w) {anchor : MemberId}
    (hanchor : anchor ∈ r.members) :
    ∃ m, r.topology.member? anchor = some m ∧ ∀ v ∈ r.topology.met s m, v ∈ w.visits := by
  have hempty : Walk.Complete r.topology s {} :=
    ⟨fun _ _ _ _ _ _ hmark => (List.not_mem_nil hmark).elim,
      fun _ _ _ _ _ _ hmark => (List.not_mem_nil hmark).elim⟩
  exact (met_of_foldlM_walkFrom r.members hempty h).2.2 anchor hanchor

theorem walk_covers {r : ManagerRole} {w : Walk} (h : r.walk s = .ok w) {anchor : MemberId}
    (hanchor : anchor ∈ r.members) :
    ∃ m, r.topology.member? anchor = some m ∧ w.Covers r.topology s m := by
  obtain ⟨m, hm, hmet⟩ := met_of_walk h hanchor
  exact ⟨m, hm, Walk.covers_of_met hmet⟩

end ManagerRole

end LatencyControl
