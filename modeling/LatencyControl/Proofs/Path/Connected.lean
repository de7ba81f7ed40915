import LatencyControl.Proofs.Path.Anchors
import Mathlib.Data.List.Chain

/-!
# Connected sequences

In a connected sequence vertex and edge elements alternate, and every edge leads from the group in
front of it to the group behind it.  Along such a sequence a walk meets every step of every path, at
the position of the step (`Walk.Covers.visited`).
-/

namespace LatencyControl

/-- Whether an element may be followed by another one: a vertex by an edge that leaves its group, an
edge by the vertex of the group that it enters. -/
def Element.Joins : Element → Element → Prop
  | .vertex g .., .edge l _ => g = l.source
  | .edge l _, .vertex g .. => l.target = g
  | _, _ => False

instance : (e e' : Element) → Decidable (e.Joins e')
  | .vertex g .., .edge l _ => inferInstanceAs (Decidable (g = l.source))
  | .edge l _, .vertex g .. => inferInstanceAs (Decidable (l.target = g))
  | .vertex .., .vertex .. => .isFalse id
  | .edge .., .edge .. => .isFalse id

/-- Every element may be followed by the next one. -/
def Sequence.IsConnected (s : Sequence) : Prop := List.IsChain Element.Joins s

instance (s : Sequence) : Decidable s.IsConnected :=
  inferInstanceAs (Decidable (List.IsChain Element.Joins s))

namespace Topology

variable {s : Sequence} {g : GroupId}

theorem exists_splitAt?_of_vertex {e : Element} (he : e ∈ s) (hvertex : e.isVertexOf g = true) :
    ∃ i, splitAt? s g = some i := by
  have hindex : (s.vertexIndex? g).isSome := by
    rw [Sequence.vertexIndex?, List.findIdx?_isSome, List.any_eq_true]
    exact ⟨e, he, hvertex⟩
  obtain ⟨i, hi⟩ := Option.isSome_iff_exists.mp hindex
  exact ⟨i, by rw [splitAt?, hi]⟩

theorem exists_splitAt?_of_border (h : s.startsLeaving g = true ∨ s.endsEntering g = true) :
    ∃ i, splitAt? s g = some i := by
  unfold splitAt?
  cases s.vertexIndex? g with
  | some i => exact ⟨i, rfl⟩
  | none =>
    by_cases hstarts : s.startsLeaving g = true
    · exact ⟨0, if_pos hstarts⟩
    · exact ⟨s.length, (if_neg hstarts).trans (if_pos (h.resolve_left hstarts))⟩

/-- In front of an edge there is the vertex of its source group, or the border of the sequence. -/
theorem exists_splitAt?_of_source (hs : s.IsConnected) {j : ℕ} {l : Link} {sampling : Sampling}
    (hedge : s[j]? = some (.edge l sampling)) : ∃ i, splitAt? s l.source = some i := by
  obtain ⟨hj, helement⟩ := List.getElem?_eq_some_iff.mp hedge
  cases j with
  | zero =>
    have hhead : s.head? = some (.edge l sampling) := by rw [List.head?_eq_getElem?, hedge]
    refine exists_splitAt?_of_border (.inl ?_)
    simp [Sequence.startsLeaving, hhead]
  | succ k =>
    have hbefore := List.isChain_iff_getElem.mp hs k hj
    rw [helement] at hbefore
    refine exists_splitAt?_of_vertex (List.getElem_mem (Nat.lt_of_succ_lt hj)) ?_
    generalize (s : List Element)[k] = e at hbefore
    cases e with
    | vertex => exact decide_eq_true hbefore
    | edge => exact hbefore.elim

/-- Behind an edge there is the vertex of its target group, or the border of the sequence. -/
theorem exists_splitAt?_of_target (hs : s.IsConnected) {j : ℕ} {l : Link} {sampling : Sampling}
    (hedge : s[j]? = some (.edge l sampling)) : ∃ i, splitAt? s l.target = some i := by
  obtain ⟨hj, helement⟩ := List.getElem?_eq_some_iff.mp hedge
  by_cases hlast : j + 1 < s.length
  · have hafter := List.isChain_iff_getElem.mp hs j hlast
    rw [helement] at hafter
    refine exists_splitAt?_of_vertex (List.getElem_mem hlast) ?_
    generalize (s : List Element)[j + 1] = e at hafter
    cases e with
    | vertex => exact decide_eq_true hafter.symm
    | edge => exact hafter.elim
  · have hlast : s.getLast? = some (.edge l sampling) := by
      rw [List.getLast?_eq_getElem?, show s.length - 1 = j by omega, hedge]
    refine exists_splitAt?_of_border (.inr ?_)
    simp [Sequence.endsEntering, hlast]

/-- A connected sequence has a place for every group that it touches. -/
theorem exists_splitAt?_of_touched (hs : s.IsConnected) (hg : g ∈ s.flatMap Element.touched) :
    ∃ i, splitAt? s g = some i := by
  obtain ⟨e, he, hg⟩ := List.mem_flatMap.mp hg
  cases e with
  | vertex g' inp out sampling =>
    obtain rfl := List.mem_singleton.mp hg
    exact exists_splitAt?_of_vertex he (decide_eq_true rfl)
  | edge l sampling =>
    obtain ⟨j, hedge⟩ := List.getElem?_of_mem he
    rcases List.mem_cons.mp hg with rfl | hg
    · exact exists_splitAt?_of_source hs hedge
    · obtain rfl := List.mem_singleton.mp hg
      exact exists_splitAt?_of_target hs hedge

end Topology

/-- The visits show a member at a vertex element, or a wire at an edge element. -/
def Visited (visits : List Visit) (p : Element × ℕ) : PathStep → Prop
  | .member id => p.1.isVertex = true ∧ ∃ m : Member, m.id = id ∧ ⟨.member m, p.2, p.1⟩ ∈ visits
  | .wire w => p.1.isVertex = false ∧ ⟨.wire w, p.2, p.1⟩ ∈ visits

theorem Visited.mono {visits visits' : List Visit} (h : ∀ v ∈ visits, v ∈ visits')
    {p : Element × ℕ} {step : PathStep} (hstep : Visited visits p step) :
    Visited visits' p step := by
  cases step with
  | member id =>
    obtain ⟨hvertex, m, hm, hmem⟩ := hstep
    exact ⟨hvertex, m, hm, h _ hmem⟩
  | wire w => exact ⟨hstep.1, h _ hstep.2⟩

namespace Topology

/-! ### One direction -/

/-- What comes next in one direction: after a vertex an edge, after an edge the vertex of the group
at its far end. -/
def Follows (far : Link → GroupId) : Element → Element → Prop
  | .vertex .., .edge .. => True
  | .edge l _, .vertex g .. => far l = g
  | _, _ => False

/-- A vertex that comes first is that of the member's group. -/
def Enters (m : Member) : Sequence → Prop
  | .vertex g .. :: _ => g = m.group
  | _ => True

/-- After a vertex there is an edge, or nothing. -/
theorem enters_of_isChain_vertex {far : Link → GroupId} {g : GroupId} {inp out : Option ℕ}
    {sampling : Sampling} {es : Sequence}
    (h : List.IsChain (Follows far) (.vertex g inp out sampling :: es)) (m : Member) :
    Enters m es := by
  rcases es with _ | ⟨_ | _, later⟩
  · trivial
  · exact (List.isChain_cons_cons.mp h).1.elim
  · trivial

/-- After an edge there is the vertex of the group at its far end, or an edge, or nothing. -/
theorem enters_of_isChain_edge {far : Link → GroupId} {l : Link} {sampling : Sampling}
    {es : Sequence} (h : List.IsChain (Follows far) (.edge l sampling :: es)) {m : Member}
    (hm : m.group = far l) : Enters m es := by
  rcases es with _ | ⟨_ | _, later⟩
  · trivial
  · exact (hm.trans (List.isChain_cons_cons.mp h).1).symm
  · trivial

/-- On the ways from a member every step is met. -/
theorem forall₂_visited_of_mem_ways {next : Step} (far : Link → GroupId)
    (hnext : ∀ l m w x, (w, x) ∈ next l m → x.group = far l) {ps : Positions} {m : Member}
    {p : Path}
    (hchain : (ps.map Prod.fst).IsChain (Follows far)) (henters : Enters m (ps.map Prod.fst))
    (h : p ∈ ways next (ps.map Prod.fst) m) :
    List.Forall₂ (Visited (reach next ps m)) ps p := by
  -- a step is met because the vertices ahead are those of the groups that one comes to
  induction ps generalizing m p with
  | nil =>
    rw [List.mem_singleton.mp h]
    exact .nil
  | cons first rest ih =>
    obtain ⟨e, i⟩ := first
    have htail := hchain.tail
    cases e with
    | vertex g inp out sampling =>
      obtain ⟨q, hq, rfl⟩ := mem_ways_vertex.mp h
      obtain rfl : g = m.group := henters
      have hrest := enters_of_isChain_vertex hchain m
      have hall : ∀ v ∈ reach next rest m,
          v ∈ reach next ((.vertex m.group inp out sampling, i) :: rest) m := fun v hv => by
        rw [reach, if_pos rfl]
        exact List.mem_cons_of_mem _ hv
      refine .cons ⟨rfl, m, rfl, ?_⟩ ((ih htail hrest hq).imp fun _ _ => Visited.mono hall)
      rw [reach, if_pos rfl]
      exact List.mem_cons_self
    | edge l sampling =>
      obtain ⟨w, x, hx, q, hq, rfl⟩ := mem_ways_edge.mp h
      have hrest := enters_of_isChain_edge hchain (hnext l m w x hx)
      have hall : ∀ v ∈ (⟨.wire w, i, .edge l sampling⟩ : Visit) :: reach next rest x,
          v ∈ reach next ((.edge l sampling, i) :: rest) m := fun v hv => by
        rw [reach]
        exact List.mem_flatMap.mpr ⟨(w, x), hx, hv⟩
      exact .cons ⟨rfl, hall _ List.mem_cons_self⟩
        ((ih htail hrest hq).imp fun _ _ => Visited.mono fun v hv =>
          hall v (List.mem_cons_of_mem _ hv))

/-! ### Both directions -/

variable {t : Topology} {s : Sequence} {m : Member} {i : ℕ}

theorem isChain_drop (hs : s.IsConnected) (i : ℕ) : List.IsChain (Follows Link.target) (s.drop i) :=
  (List.IsChain.drop hs i).imp fun e e' hjoins => by
    cases e <;> cases e'
    · exact hjoins
    · trivial
    · exact hjoins
    · exact hjoins

theorem isChain_take_reverse (hs : s.IsConnected) (i : ℕ) :
    List.IsChain (Follows Link.source) (s.take i).reverse :=
  List.isChain_reverse.mpr ((List.IsChain.take hs i).imp fun e e' hjoins => by
    cases e <;> cases e'
    · exact hjoins
    · exact hjoins.symm
    · trivial
    · exact hjoins)

/-- Ahead of a member comes the vertex of its group, or an edge, or nothing. -/
theorem enters_drop (hi : splitAt? s m.group = some i) : Enters m (s.drop i) := by
  rcases splitAt?_eq_some hi with ⟨inp, out, sampling, he⟩ | ⟨rfl, l, sampling, hhead, -⟩ | ⟨rfl, -⟩
  · obtain ⟨hlt, he⟩ := List.getElem?_eq_some_iff.mp he
    rw [List.drop_eq_getElem_cons hlt, he]
    rfl
  · obtain ⟨rest, rfl⟩ := List.head?_eq_some_iff.mp hhead
    trivial
  · rw [List.drop_length]
    trivial

/-- Behind a member comes an edge, or nothing. -/
theorem enters_take_reverse (hs : s.IsConnected) (hi : splitAt? s m.group = some i) :
    Enters m (s.take i).reverse := by
  rcases splitAt?_eq_some hi with ⟨inp, out, sampling, he⟩ | ⟨rfl, -⟩ | ⟨rfl, l, sampling, hlast, -⟩
  · cases i with
    | zero => trivial
    | succ j =>
      obtain ⟨hlt, he⟩ := List.getElem?_eq_some_iff.mp he
      have hjoins := List.isChain_iff_getElem.mp hs j hlt
      rw [he] at hjoins
      rw [List.take_add_one, List.getElem?_eq_getElem (Nat.lt_of_succ_lt hlt), List.reverse_append]
      generalize (s : List Element)[j] = e at hjoins
      cases e with
      | vertex => exact hjoins.elim
      | edge => trivial
  · trivial
  · obtain ⟨before, rfl⟩ := List.getLast?_eq_some_iff.mp hlast
    rw [List.take_length, List.reverse_append]
    trivial

end Topology

/-- A walk meets every step of the paths through an anchor. -/
theorem Walk.Covers.visited {t : Topology} {s : Sequence} {w : Walk} {m : Member}
    (h : w.Covers t s m) (hs : s.IsConnected) {anchor : MemberId} {paths : List Path}
    (hm : t.member? anchor = some m) (hpaths : t.pathsThrough s anchor = .ok paths) :
    ∀ p ∈ paths, List.Forall₂ (Visited w.visits) s.zipIdx p := by
  intro p hp
  rw [Topology.pathsThrough_eq_ok hm] at hpaths
  obtain rfl := Except.ok.inj hpaths
  cases hi : Topology.splitAt? s m.group with
  | none =>
    rw [Topology.pathsFrom, hi] at hp
    exact (List.not_mem_nil hp).elim
  | some i =>
    obtain ⟨back, hback, on, hon, rfl⟩ := (Topology.mem_pathsFrom hi).mp hp
    obtain ⟨hahead, hbehind⟩ := h i hi
    have htake : (s.zipIdx.take i).reverse.map Prod.fst = (s.take i).reverse := by
      rw [List.map_reverse, List.map_take, List.zipIdx_map_fst]
    have hdrop : (s.zipIdx.drop i).map Prod.fst = s.drop i := by
      rw [List.map_drop, List.zipIdx_map_fst]
    rw [← htake] at hback
    rw [← hdrop] at hon
    have hfirst := Topology.forall₂_visited_of_mem_ways Link.source
      (fun l m w x hx => (Topology.mem_behind.mp hx).2.2.2.2)
      (htake ▸ Topology.isChain_take_reverse hs i) (htake ▸ Topology.enters_take_reverse hs hi)
      hback
    have hlast := Topology.forall₂_visited_of_mem_ways Link.target
      (fun l m w x hx => (Topology.mem_ahead.mp hx).2.2.2.2)
      (hdrop ▸ Topology.isChain_drop hs i) (hdrop ▸ Topology.enters_drop hi) hon
    -- the way back was walked in reverse, as the way on is put behind it
    have hboth : List.Forall₂ (Visited w.visits) (s.zipIdx.take i ++ s.zipIdx.drop i)
        (back.reverse ++ on) := List.rel_append
      (List.reverse_reverse (s.zipIdx.take i) ▸
        List.rel_reverse (hfirst.imp fun _ _ => Visited.mono hbehind))
      (hlast.imp fun _ _ => Visited.mono hahead)
    rwa [List.take_append_drop] at hboth

end LatencyControl
