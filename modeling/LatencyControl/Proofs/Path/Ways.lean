import LatencyControl.Path.Enumeration
import Mathlib.Data.List.Forall2
import Mathlib.Data.List.Nodup

/-!
# Ways through a topology

The ways on and the ways back from a member are the same but for the direction.  Both are
`Topology.ways` for a step function that says which wires go on from a member along a link, and to
which members: `Topology.ahead` or `Topology.behind`.  What holds of both directions is proved once,
for any step function.
-/

namespace LatencyControl

/-- Where one gets from a member along a link: the wires, each with the member at its other end. -/
abbrev Step := Link → Member → List (Wire × Member)

namespace Topology

/-- The wires that leave a member along a link, with the members that they lead to. -/
def ahead (t : Topology) : Step := fun l m =>
  (t.outgoing m.id l.outputGate).filterMap fun w =>
    match t.member? w.target with
    | some target => if target.group = l.target then some (w, target) else none
    | none => none

/-- The wires that enter a member along a link, with the members that they come from. -/
def behind (t : Topology) : Step := fun l m =>
  (t.incoming m.id l.inputGate).filterMap fun w =>
    match t.member? w.source with
    | some source => if source.group = l.source then some (w, source) else none
    | none => none

/-- The ways from a member along some elements. -/
def ways (next : Step) : Sequence → Member → List Path
  | [], _ => [[]]
  | .vertex .. :: rest, m => (ways next rest m).map (.member m.id :: ·)
  | .edge l _ :: rest, m =>
    (next l m).flatMap fun (w, other) => (ways next rest other).map (.wire w :: ·)

/-! ### Both directions -/

theorem waysOn_eq_ways (t : Topology) (s : Sequence) (m : Member) :
    t.waysOn s m = ways t.ahead s m := by
  induction s generalizing m with
  | nil => rfl
  | cons e rest ih =>
    cases e with
    | vertex g i o sampling => rw [waysOn, ways, ih]
    | edge l sampling =>
      rw [waysOn, ways, ahead]
      -- on the wires: those that lead to another group, or nowhere, do not count on either side
      induction t.outgoing m.id l.outputGate with
      | nil => rfl
      | cons w later ihw =>
        rw [List.flatMap_cons, ihw, List.filterMap_cons]
        cases t.member? w.target with
        | none => rfl
        | some target =>
          dsimp only
          split_ifs
          · rw [List.flatMap_cons, ih]
          · rfl

theorem waysBack_eq_ways (t : Topology) (s : Sequence) (m : Member) :
    t.waysBack s m = ways t.behind s m := by
  induction s generalizing m with
  | nil => rfl
  | cons e rest ih =>
    cases e with
    | vertex g i o sampling => rw [waysBack, ways, ih]
    | edge l sampling =>
      rw [waysBack, ways, behind]
      induction t.incoming m.id l.inputGate with
      | nil => rfl
      | cons w later ihw =>
        rw [List.flatMap_cons, ihw, List.filterMap_cons]
        cases t.member? w.source with
        | none => rfl
        | some source =>
          dsimp only
          split_ifs
          · rw [List.flatMap_cons, ih]
          · rfl

/-! ### Steps -/

theorem member?_id {t : Topology} {id : MemberId} {m : Member} (h : t.member? id = some m) :
    m.id = id := by simpa using List.find?_some h

theorem mem_ahead {t : Topology} {l : Link} {m : Member} {w : Wire} {x : Member} :
    (w, x) ∈ t.ahead l m ↔ w ∈ t.wires ∧ w.source = m.id ∧ w.outputGate = l.outputGate ∧
      t.member? w.target = some x ∧ x.group = l.target := by
  simp only [ahead, outgoing, List.mem_filterMap, List.mem_filter, decide_eq_true_eq]
  constructor
  · rintro ⟨w', ⟨hw', hsource, hgate⟩, h⟩
    cases htarget : t.member? w'.target with
    | none => simp [htarget] at h
    | some target =>
      rw [htarget] at h
      dsimp only at h
      split_ifs at h with hgroup
      obtain ⟨rfl, rfl⟩ := Prod.mk.inj (Option.some.inj h)
      exact ⟨hw', hsource, hgate, htarget, hgroup⟩
  · rintro ⟨hw, hsource, hgate, htarget, hgroup⟩
    exact ⟨w, ⟨hw, hsource, hgate⟩, by simp [htarget, hgroup]⟩

theorem mem_behind {t : Topology} {l : Link} {m : Member} {w : Wire} {x : Member} :
    (w, x) ∈ t.behind l m ↔ w ∈ t.wires ∧ w.target = m.id ∧ w.inputGate = l.inputGate ∧
      t.member? w.source = some x ∧ x.group = l.source := by
  simp only [behind, incoming, List.mem_filterMap, List.mem_filter, decide_eq_true_eq]
  constructor
  · rintro ⟨w', ⟨hw', htarget, hgate⟩, h⟩
    cases hsource : t.member? w'.source with
    | none => simp [hsource] at h
    | some source =>
      rw [hsource] at h
      dsimp only at h
      split_ifs at h with hgroup
      obtain ⟨rfl, rfl⟩ := Prod.mk.inj (Option.some.inj h)
      exact ⟨hw', htarget, hgate, hsource, hgroup⟩
  · rintro ⟨hw, htarget, hgate, hsource, hgroup⟩
    exact ⟨w, ⟨hw, htarget, hgate⟩, by simp [hsource, hgroup]⟩

/-! ### Ways -/

theorem mem_ways_vertex {next : Step} {g : GroupId} {i o : Option ℕ} {sampling : Sampling}
    {s : Sequence} {m : Member} {p : Path} :
    p ∈ ways next (.vertex g i o sampling :: s) m ↔
      ∃ q ∈ ways next s m, p = .member m.id :: q := by
  simp only [ways, List.mem_map, eq_comm]

theorem mem_ways_edge {next : Step} {l : Link} {sampling : Sampling} {s : Sequence} {m : Member}
    {p : Path} :
    p ∈ ways next (.edge l sampling :: s) m ↔
      ∃ w x, (w, x) ∈ next l m ∧ ∃ q ∈ ways next s x, p = .wire w :: q := by
  simp only [ways, List.mem_flatMap, List.mem_map, Prod.exists, eq_comm]

/-- A step is of the kind of an element. -/
def IsOfKind : Element → PathStep → Prop
  | .vertex .., .member _ => True
  | .edge .., .wire _ => True
  | _, _ => False

/-- On a way every step is of the kind of its element. -/
theorem forall₂_isOfKind_of_mem_ways {next : Step} {s : Sequence} {m : Member} {p : Path}
    (h : p ∈ ways next s m) : List.Forall₂ IsOfKind s p := by
  induction s generalizing m p with
  | nil =>
    rw [List.mem_singleton.mp h]
    exact .nil
  | cons e rest ih =>
    cases e with
    | vertex g i o sampling =>
      obtain ⟨q, hq, rfl⟩ := mem_ways_vertex.mp h
      exact .cons trivial (ih hq)
    | edge l sampling =>
      obtain ⟨w, x, -, q, hq, rfl⟩ := mem_ways_edge.mp h
      exact .cons trivial (ih hq)

/-- A way has one step for each element. -/
theorem length_of_mem_ways {next : Step} {s : Sequence} {m : Member} {p : Path}
    (h : p ∈ ways next s m) : p.length = s.length := (forall₂_isOfKind_of_mem_ways h).length_eq.symm

/-! ### Paths -/

/-- The paths through a member: any way back with any way on. -/
def pathsFrom (t : Topology) (s : Sequence) (m : Member) : List Path :=
  match splitAt? s m.group with
  | none => []
  | some i => (ways t.behind (s.take i).reverse m).flatMap fun back =>
      (ways t.ahead (s.drop i) m).map (fun on => back.reverse ++ on)

theorem pathsThrough_eq_ok {t : Topology} {s : Sequence} {anchor : MemberId} {m : Member}
    (hm : t.member? anchor = some m) : t.pathsThrough s anchor = .ok (t.pathsFrom s m) := by
  rw [pathsThrough, member, hm]
  simp only [pathsFrom, bind, Except.bind, pure, Except.pure, waysOn_eq_ways, waysBack_eq_ways]
  cases splitAt? s m.group <;> rfl

theorem mem_pathsFrom {t : Topology} {s : Sequence} {m : Member} {i : ℕ} {p : Path}
    (hi : splitAt? s m.group = some i) :
    p ∈ t.pathsFrom s m ↔ ∃ back ∈ ways t.behind (s.take i).reverse m,
      ∃ on ∈ ways t.ahead (s.drop i) m, back.reverse ++ on = p := by
  simp only [pathsFrom, hi, List.mem_flatMap, List.mem_map]

/-- On a path every step is of the kind of its element. -/
theorem forall₂_isOfKind_of_mem_pathsFrom {t : Topology} {s : Sequence} {m : Member} {p : Path}
    (h : p ∈ t.pathsFrom s m) : List.Forall₂ IsOfKind s p := by
  cases hi : splitAt? s m.group with
  | none =>
    rw [pathsFrom, hi] at h
    exact (List.not_mem_nil h).elim
  | some i =>
    obtain ⟨back, hback, on, hon, rfl⟩ := (mem_pathsFrom hi).mp h
    have hfirst : List.Forall₂ IsOfKind (s.take i) back.reverse := by
      have hreverse := List.rel_reverse (forall₂_isOfKind_of_mem_ways hback)
      rwa [List.reverse_reverse] at hreverse
    have hlast := forall₂_isOfKind_of_mem_ways hon
    rw [← List.take_append_drop i s]
    exact List.rel_append hfirst hlast

end Topology

end LatencyControl
