import LatencyControl.Proofs.Path.Exact

/-!
# Where a walk gets

`Proofs.Path.Anchors` says that a walk leaves nothing out.  Here is the other half: a walk visits
nothing but what can be met from one of its anchors, so that `ManagerRole.mem_visits_walk_iff` tells
exactly what it visits.  Along a connected sequence that is nothing but members and wires on it
(`ManagerRole.walk_meets`), each of them at an element of the sequence and by a step from a member
of the group on the near side of that element.  What a step in either direction guarantees is all
that is known of a wire that was met (`Topology.IsMet`).

If moreover every member has a wire for each edge element that leads away from it, then a walk gets
to every element of the sequence (`Topology.exists_mem_reach`).
-/

namespace LatencyControl

/-- What was met, as a step of a path. -/
def Visit.step (v : Visit) : PathStep :=
  match v.place with
  | .member m => .member m.id
  | .wire w => .wire w

namespace Topology

/-! ### Elements in one direction -/

/-- Whether an element may follow another one in a direction, given the near and the far group of a
link: an edge leaves the group of the vertex before it, and leads to that of the vertex after it. -/
def Runs (near far : Link → GroupId) : Element → Element → Prop
  | .vertex g .., .edge l _ => g = near l
  | .edge l _, .vertex g .. => far l = g
  | _, _ => False

/-- The elements ahead are a way on from the member's group. -/
def Departs (near : Link → GroupId) (m : Member) : Sequence → Prop
  | [] => True
  | .vertex g .. :: _ => g = m.group
  | .edge l _ :: _ => near l = m.group

section

variable {near far : Link → GroupId} {sampling : Sampling} {es : Sequence} {m : Member}

theorem departs_of_isChain_vertex {g : GroupId} {inp out : Option ℕ}
    (h : List.IsChain (Runs near far) (.vertex g inp out sampling :: es)) (hm : g = m.group) :
    Departs near m es := by
  rcases es with _ | ⟨_ | _, later⟩
  · trivial
  · exact (List.isChain_cons_cons.mp h).1.elim
  · exact (List.isChain_cons_cons.mp h).1.symm.trans hm

theorem departs_of_isChain_edge {l : Link}
    (h : List.IsChain (Runs near far) (.edge l sampling :: es)) (hm : m.group = far l) :
    Departs near m es := by
  rcases es with _ | ⟨_ | _, later⟩
  · trivial
  · exact (hm.trans (List.isChain_cons_cons.mp h).1).symm
  · exact (List.isChain_cons_cons.mp h).1.elim

end

variable {s : Sequence} {m : Member} {i : ℕ}

theorem runs_drop (hs : s.IsConnected) (i : ℕ) :
    List.IsChain (Runs Link.source Link.target) (s.drop i) :=
  (List.IsChain.drop hs i).imp fun e e' hjoins => by
    cases e <;> cases e' <;> exact hjoins

theorem runs_take_reverse (hs : s.IsConnected) (i : ℕ) :
    List.IsChain (Runs Link.target Link.source) (s.take i).reverse :=
  List.isChain_reverse.mpr ((List.IsChain.take hs i).imp fun e e' hjoins => by
    cases e <;> cases e'
    · exact hjoins
    · exact hjoins.symm
    · exact hjoins.symm
    · exact hjoins)

/-- At a vertex element one can go on from the members of its group. -/
theorem departs_drop_of_vertex {inp out : Option ℕ} {sampling : Sampling}
    (he : s[i]? = some (.vertex m.group inp out sampling)) :
    Departs Link.source m (s.drop i) := by
  obtain ⟨hi, he⟩ := List.getElem?_eq_some_iff.mp he
  rw [List.drop_eq_getElem_cons hi, he]
  rfl

/-- From a vertex element one can go back from the members of its group. -/
theorem departs_take_of_vertex (hs : s.IsConnected) {inp out : Option ℕ} {sampling : Sampling}
    (he : s[i]? = some (.vertex m.group inp out sampling)) :
    Departs Link.target m (s.take i).reverse := by
  cases i with
  | zero => trivial
  | succ j =>
    obtain ⟨hi, he⟩ := List.getElem?_eq_some_iff.mp he
    have hjoins := List.isChain_iff_getElem.mp hs j hi
    rw [he] at hjoins
    rw [List.take_add_one, List.getElem?_eq_getElem (Nat.lt_of_succ_lt hi), List.reverse_append]
    generalize (s : List Element)[j] = e at hjoins
    cases e with
    | vertex => exact hjoins.elim
    | edge => exact hjoins

/-- From the place of its group on the sequence, a member can go on and back. -/
theorem departs_of_hasPlace (hs : s.IsConnected) (hi : s.HasPlace m.group i) :
    Departs Link.source m (s.drop i) ∧ Departs Link.target m (s.take i).reverse := by
  rcases hi with ⟨inp, out, sampling, he⟩ | ⟨rfl, l, sampling, hhead, hsource⟩ |
    ⟨rfl, l, sampling, hlast, htarget⟩
  · exact ⟨departs_drop_of_vertex he, departs_take_of_vertex hs he⟩
  · obtain ⟨rest, rfl⟩ := List.head?_eq_some_iff.mp hhead
    exact ⟨hsource, trivial⟩
  · obtain ⟨before, rfl⟩ := List.getLast?_eq_some_iff.mp hlast
    rw [List.drop_length, List.take_length, List.reverse_append]
    exact ⟨trivial, htarget⟩

/-! ### What a step tells -/

variable {t : Topology} {next : Step} {near far : Link → GroupId}

/-- The step was met at the element: a member of its group, or a wire that goes on along its link
from a member on the near side. -/
def IsMet (t : Topology) (next : Step) (near : Link → GroupId) : Element → PathStep → Prop
  | .vertex g .., .member id => t.IsMemberOf id g
  | .edge l _, .wire w =>
    ∃ m x, t.member? m.id = some m ∧ m.group = near l ∧ (w, x) ∈ next l m
  | _, _ => False

/-- Every step leads to a member on the far side. -/
def Arrives (t : Topology) (next : Step) (far : Link → GroupId) : Prop :=
  ∀ l m w x, (w, x) ∈ next l m → t.member? x.id = some x ∧ x.group = far l

theorem arrives_ahead (t : Topology) : t.Arrives t.ahead Link.target := fun _ _ _ _ hx =>
  ⟨member?_of_mem_ahead hx, (mem_ahead.mp hx).2.2.2.2⟩

theorem arrives_behind (t : Topology) : t.Arrives t.behind Link.source := fun _ _ _ _ hx =>
  ⟨member?_of_mem_behind hx, (mem_behind.mp hx).2.2.2.2⟩

/-- On the ways from a member every step is met. -/
theorem forall₂_isMet_of_mem_ways (hnext : t.Arrives next far)
    (hchain : List.IsChain (Runs near far) s) (hm : t.member? m.id = some m)
    (hdeparts : Departs near m s) {p : Path} (h : p ∈ ways next s m) :
    List.Forall₂ (t.IsMet next near) s p := by
  induction s generalizing m p with
  | nil =>
    rw [List.mem_singleton.mp h]
    exact .nil
  | cons e rest ih =>
    have htail := hchain.tail
    cases e with
    | vertex g inp out sampling =>
      obtain ⟨q, hq, rfl⟩ := mem_ways_vertex.mp h
      have hrest := departs_of_isChain_vertex hchain hdeparts
      exact .cons ⟨m, hm, Eq.symm hdeparts⟩ (ih htail hm hrest hq)
    | edge l sampling =>
      obtain ⟨w, x, hx, q, hq, rfl⟩ := mem_ways_edge.mp h
      obtain ⟨hx', hgroup⟩ := hnext l m w x hx
      have hrest := departs_of_isChain_edge hchain hgroup
      exact .cons ⟨m, x, hm, Eq.symm hdeparts, hx⟩ (ih htail hx' hrest hq)

/-- Whatever is met from a member is met at one of the elements ahead. -/
theorem isMet_of_mem_reach (hnext : t.Arrives next far) {ps : Positions}
    (hchain : List.IsChain (Runs near far) (ps.map Prod.fst)) (hm : t.member? m.id = some m)
    (hdeparts : Departs near m (ps.map Prod.fst)) {v : Visit} (hv : v ∈ reach next ps m) :
    (v.element, v.position) ∈ ps ∧ t.IsMet next near v.element v.step := by
  induction ps generalizing m with
  | nil => exact (List.not_mem_nil hv).elim
  | cons first rest ih =>
    obtain ⟨e, i⟩ := first
    have htail := hchain.tail
    cases e with
    | vertex g inp out sampling =>
      obtain rfl : g = m.group := hdeparts
      rw [reach, if_pos rfl] at hv
      rcases List.mem_cons.mp hv with rfl | hv
      · exact ⟨List.mem_cons_self, m, hm, rfl⟩
      · have hrest := departs_of_isChain_vertex hchain rfl
        obtain ⟨hmem, hmet⟩ := ih htail hm hrest hv
        exact ⟨List.mem_cons_of_mem _ hmem, hmet⟩
    | edge l sampling =>
      rw [reach] at hv
      obtain ⟨⟨w, x⟩, hx, hv⟩ := List.mem_flatMap.mp hv
      rcases List.mem_cons.mp hv with rfl | hv
      · exact ⟨List.mem_cons_self, m, x, hm, Eq.symm hdeparts, hx⟩
      · obtain ⟨hx', hgroup⟩ := hnext l m w x hx
        have hrest := departs_of_isChain_edge hchain hgroup
        obtain ⟨hmem, hmet⟩ := ih htail hx' hrest hv
        exact ⟨List.mem_cons_of_mem _ hmem, hmet⟩

/-- If the members on the near side of every edge have a wire that agrees with the edge in all, then
every element ahead is met with such a step. -/
theorem exists_mem_reach (hnext : t.Arrives next far) {ps : Positions}
    (hserves : ∀ l sampling, .edge l sampling ∈ ps.map Prod.fst → ∀ m, t.member? m.id = some m →
      m.group = near l → ∃ w x, (w, x) ∈ next l m ∧ t.Fits (.edge l sampling) (.wire w))
    (hchain : List.IsChain (Runs near far) (ps.map Prod.fst)) (hm : t.member? m.id = some m)
    (hdeparts : Departs near m (ps.map Prod.fst)) :
    ∀ p ∈ ps, ∃ v ∈ reach next ps m, v.element = p.1 ∧ t.Fits p.1 v.step := by
  induction ps generalizing m with
  | nil => exact fun p hp => (List.not_mem_nil hp).elim
  | cons first rest ih =>
    intro p hp
    obtain ⟨e, i⟩ := first
    have htail := hchain.tail
    have hlater := fun l sampling hl => hserves l sampling (List.mem_cons_of_mem _ hl)
    cases e with
    | vertex g inp out sampling =>
      obtain rfl : g = m.group := hdeparts
      rw [reach, if_pos rfl]
      rcases List.mem_cons.mp hp with rfl | hp
      · exact ⟨_, List.mem_cons_self, rfl, m, hm, rfl⟩
      · have hrest := departs_of_isChain_vertex hchain rfl
        obtain ⟨v, hv, hvisit⟩ := ih hlater htail hm hrest p hp
        exact ⟨v, List.mem_cons_of_mem _ hv, hvisit⟩
    | edge l sampling =>
      obtain ⟨w, x, hx, hfits⟩ :=
        hserves l sampling List.mem_cons_self m hm (Eq.symm hdeparts)
      rw [reach]
      rcases List.mem_cons.mp hp with rfl | hp
      · exact ⟨_, List.mem_flatMap.mpr ⟨(w, x), hx, List.mem_cons_self⟩, rfl, hfits⟩
      · -- further on, it is enough to follow this one wire
        obtain ⟨hx', hgroup⟩ := hnext l m w x hx
        have hrest := departs_of_isChain_edge hchain hgroup
        obtain ⟨v, hv, hvisit⟩ := ih hlater htail hx' hrest p hp
        exact ⟨v, List.mem_flatMap.mpr ⟨(w, x), hx, List.mem_cons_of_mem _ hv⟩, hvisit⟩

/-! ### What a walk meets -/

/-- Exploring visits nothing but what can be met. -/
theorem mem_visits_explore (next : Step) (ps : Positions) {m : Member} {trail : Trail} {v : Visit}
    (h : v ∈ (explore next ps m trail).visits) : v ∈ trail.visits ∨ v ∈ reach next ps m := by
  induction ps generalizing m trail with
  | nil => exact .inl h
  | cons first rest ih =>
    obtain ⟨e, i⟩ := first
    cases e with
    | vertex g inp out sampling =>
      simp only [explore] at h
      split_ifs at h with hstop
      · exact .inl h
      · rw [not_or, not_not] at hstop
        rw [reach, if_pos hstop.1]
        rcases ih h with hbefore | hahead
        · rcases List.mem_append.mp hbefore with hbefore | hhere
          · exact .inl hbefore
          · exact .inr (List.mem_singleton.mp hhere ▸ List.mem_cons_self)
        · exact .inr (List.mem_cons_of_mem _ hahead)
    | edge l sampling =>
      have hfold : ∀ (found : List (Wire × Member)) (trail : Trail),
          v ∈ (found.foldl (fun s p =>
            explore next rest p.2 ⟨s.marks, s.visits ++ [⟨.wire p.1, i, .edge l sampling⟩]⟩)
            trail).visits →
          v ∈ trail.visits ∨ v ∈ found.flatMap fun p =>
            ⟨.wire p.1, i, .edge l sampling⟩ :: reach next rest p.2 := by
        intro found
        induction found with
        | nil => exact fun trail h => .inl h
        | cons here later ihf =>
          intro trail h
          rw [List.foldl_cons] at h
          rw [List.flatMap_cons, List.mem_append, List.mem_cons]
          rcases ihf _ h with h | hlater
          · rcases ih h with h | hahead
            · rcases List.mem_append.mp h with hbefore | hhere
              · exact .inl hbefore
              · exact .inr (.inl (.inl (List.mem_singleton.mp hhere)))
            · exact .inr (.inl (.inr hahead))
          · exact .inr (.inr hlater)
      exact hfold _ trail h

/-- A visit is one of those that can be made from a member, forward or backward from the place of
its group. -/
def IsReached (t : Topology) (s : Sequence) (m : Member) (v : Visit) : Prop :=
  ∃ i, s.HasPlace m.group i ∧
    (v ∈ reach t.ahead (s.zipIdx.drop i) m ∨ v ∈ reach t.behind (s.zipIdx.take i).reverse m)

/-- Everything that can be met from a member is reached from it. -/
theorem isReached_of_mem_met {v : Visit} (hv : v ∈ t.met s m) : t.IsReached s m v := by
  unfold met at hv
  split at hv
  · next i hindex =>
    exact ⟨i, .inl (getElem?_of_vertexIndex? hindex), List.mem_append.mp hv⟩
  · rcases List.mem_append.mp hv with hv | hv
    · split_ifs at hv with hstarts
      · exact ⟨0, .inr (.inl ⟨rfl, head?_of_startsLeaving hstarts⟩), .inl hv⟩
      · exact (List.not_mem_nil hv).elim
    · split_ifs at hv with hends
      · refine ⟨s.length, .inr (.inr ⟨rfl, getLast?_of_endsEntering hends⟩), .inr ?_⟩
        rwa [List.take_of_length_le (by simp)]
      · exact (List.not_mem_nil hv).elim

theorem mem_visits_followForward {ps : Positions} {w : Walk} {v : Visit}
    (hv : v ∈ (Walk.followForward t ps m w).visits) : v ∈ w.visits ∨ v ∈ reach t.ahead ps m := by
  rw [followForward_eq] at hv
  exact mem_visits_explore _ _ hv

theorem mem_visits_followBackward {ps : Positions} {w : Walk} {v : Visit}
    (hv : v ∈ (Walk.followBackward t true ps m w).visits) :
    v ∈ w.visits ∨ v ∈ reach t.behind ps m := by
  rw [followBackward_eq] at hv
  exact mem_visits_explore _ _ hv

/-- A visit is made at an element of the sequence, by a step from one side or the other. -/
def IsMetOn (t : Topology) (s : Sequence) (v : Visit) : Prop :=
  s[v.position]? = some v.element ∧
    (t.IsMet t.ahead Link.source v.element v.step ∨
      t.IsMet t.behind Link.target v.element v.step)

theorem getElem?_of_mem_zipIdx {e : Element} (h : (e, i) ∈ s.zipIdx) : s[i]? = some e :=
  List.mem_zipIdx_iff_getElem?.mp h

theorem map_fst_drop_zipIdx (s : Sequence) (i : ℕ) :
    (s.zipIdx.drop i).map Prod.fst = s.drop i := by
  rw [List.map_drop, List.zipIdx_map_fst]

theorem map_fst_take_zipIdx (s : Sequence) (i : ℕ) :
    (s.zipIdx.take i).reverse.map Prod.fst = (s.take i).reverse := by
  rw [List.map_reverse, List.map_take, List.zipIdx_map_fst]

/-- What is reached along a connected sequence is met on it. -/
theorem IsReached.isMetOn {v : Visit} (h : t.IsReached s m v) (hs : s.IsConnected)
    (hm : t.member? m.id = some m) : t.IsMetOn s v := by
  obtain ⟨i, hi, hv⟩ := h
  obtain ⟨hahead, hbehind⟩ := departs_of_hasPlace hs hi
  rcases hv with hv | hv
  · rw [← map_fst_drop_zipIdx] at hahead
    have hchain := map_fst_drop_zipIdx s i ▸ runs_drop hs i
    obtain ⟨hmem, hmet⟩ := isMet_of_mem_reach t.arrives_ahead hchain hm hahead hv
    exact ⟨getElem?_of_mem_zipIdx (List.mem_of_mem_drop hmem), .inl hmet⟩
  · rw [← map_fst_take_zipIdx] at hbehind
    have hchain := map_fst_take_zipIdx s i ▸ runs_take_reverse hs i
    obtain ⟨hmem, hmet⟩ := isMet_of_mem_reach t.arrives_behind hchain hm hbehind hv
    have hmem := List.mem_of_mem_take (List.mem_reverse.mp hmem)
    exact ⟨getElem?_of_mem_zipIdx hmem, .inr hmet⟩

end Topology

namespace ManagerRole

open LatencyControl.Topology

variable {t : Topology} {s : Sequence}

/-- The walk from one anchor visits nothing but what can be met from it. -/
theorem walkFrom_visits {w w' : Walk} {anchor : MemberId}
    (hwalk : walkFrom t s w anchor = .ok w') :
    ∃ m, t.member? anchor = some m ∧ ∀ v ∈ w'.visits, v ∈ w.visits ∨ v ∈ t.met s m := by
  obtain ⟨w₁, hforward, hbackward⟩ := bind_eq_ok.mp hwalk
  obtain ⟨m, hm, hforward⟩ := bind_eq_ok.mp hforward
  obtain ⟨m', hm', hbackward⟩ := bind_eq_ok.mp hbackward
  obtain rfl : m = m' := Except.ok.inj (hm.symm.trans hm')
  refine ⟨m, member_eq_ok.mp hm, fun v hv => ?_⟩
  rw [met]
  cases hindex : s.vertexIndex? m.group with
  | some i =>
    simp only [hindex] at hforward hbackward
    obtain rfl := Except.ok.inj hforward
    obtain rfl := Except.ok.inj hbackward
    rcases mem_visits_followBackward hv with hv | hbehind
    · rw [Walk.cover_visits] at hv
      exact (mem_visits_followForward hv).imp_right (List.mem_append_left _)
    · exact .inr (List.mem_append_right _ hbehind)
  | none =>
    simp only [hindex] at hforward hbackward
    have hw₁ : v ∈ w₁.visits → v ∈ w.visits ∨
        v ∈ if s.startsLeaving m.group then reach t.ahead s.zipIdx m else [] := by
      obtain rfl := Except.ok.inj hforward
      intro hv
      split_ifs at hv ⊢ with hstarts
      · exact mem_visits_followForward hv
      · exact .inl hv
    obtain rfl := Except.ok.inj hbackward
    split_ifs at hv with hends
    · rcases mem_visits_followBackward hv with hv | hbehind
      · exact (hw₁ hv).imp_right (List.mem_append_left _)
      · exact .inr (List.mem_append_right _ (by rwa [if_pos hends]))
    · exact (hw₁ hv).imp_right (List.mem_append_left _)

/-- **What a manager's walk visits.**  The walk of a manager role visits exactly what can be met
from its members. -/
theorem mem_visits_walk_iff {r : ManagerRole} {w : Walk} (h : r.walk s = .ok w) {v : Visit} :
    v ∈ w.visits ↔
      ∃ anchor ∈ r.members, ∃ m, r.topology.member? anchor = some m ∧ v ∈ r.topology.met s m := by
  constructor
  · refine foldlM_preserves (fun w => v ∈ w.visits → ∃ anchor ∈ r.members, ∃ m,
      r.topology.member? anchor = some m ∧ v ∈ r.topology.met s m) ?_
      (fun hv => (List.not_mem_nil hv).elim) h
    intro w w' anchor hanchor hw hwalk hv
    obtain ⟨m, hm, hvisits⟩ := walkFrom_visits hwalk
    rcases hvisits v hv with hbefore | hmet
    · exact hw hbefore
    · exact ⟨anchor, hanchor, m, hm, hmet⟩
  · rintro ⟨anchor, hanchor, m, hm, hmet⟩
    obtain ⟨m', hm', hall⟩ := met_of_walk h hanchor
    obtain rfl : m = m' := Option.some.inj (hm.symm.trans hm')
    exact hall v hmet

/-- The walk of a manager role visits nothing but what can be reached from its members. -/
theorem walk_visits {r : ManagerRole} {w : Walk} (h : r.walk s = .ok w) : ∀ v ∈ w.visits,
    ∃ m, r.topology.member? m.id = some m ∧ r.topology.IsReached s m v := by
  intro v hv
  obtain ⟨anchor, -, m, hm, hmet⟩ := (mem_visits_walk_iff h).mp hv
  exact ⟨m, by rw [member?_id hm, hm], isReached_of_mem_met hmet⟩

/-- **A walk stays on the sequence.**  Whatever a manager role's walk along a connected sequence
visits, it met at the element that the visit names. -/
theorem walk_meets {r : ManagerRole} (hs : s.IsConnected) {w : Walk} (h : r.walk s = .ok w) :
    ∀ v ∈ w.visits, r.topology.IsMetOn s v := by
  intro v hv
  obtain ⟨m, hm, hreached⟩ := walk_visits h v hv
  exact hreached.isMetOn hs hm

end ManagerRole

end LatencyControl
