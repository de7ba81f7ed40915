import LatencyControl.Proofs.Path.Connected

/-!
# Exact paths

An exact path has a step for each element of a sequence that agrees with the element in everything:
a member of the group, or a wire between the gates and the groups of the link.  Neighbouring steps
meet.  The paths through the members of a group that the sequence touches are enumerated member by
member; every exact path is enumerated once for exactly one of them
(`Topology.IsExactPath.existsUnique_anchor`).
-/

namespace LatencyControl

/-! ### Exactness -/

/-- Whether a member and a wire that follow each other on a path belong together. -/
def PathStep.Meets : PathStep → PathStep → Prop
  | .member id, .wire w => w.source = id
  | .wire w, .member id => w.target = id
  | _, _ => False

instance : (step step' : PathStep) → Decidable (step.Meets step')
  | .member id, .wire w => inferInstanceAs (Decidable (w.source = id))
  | .wire w, .member id => inferInstanceAs (Decidable (w.target = id))
  | .member _, .member _ => .isFalse id
  | .wire _, .wire _ => .isFalse id

namespace Topology

/-- A member with the given identifier is there, and is of the given group. -/
def IsMemberOf (t : Topology) (id : MemberId) (g : GroupId) : Prop :=
  ∃ m, t.member? id = some m ∧ m.group = g

instance (t : Topology) (id : MemberId) (g : GroupId) : Decidable (t.IsMemberOf id g) :=
  decidable_of_iff ((t.member? id).map Member.group = some g) Option.map_eq_some_iff

/-- Whether a step agrees with an element. -/
def Fits (t : Topology) : Element → PathStep → Prop
  | .vertex g .., .member id => t.IsMemberOf id g
  | .edge l _, .wire w =>
    w ∈ t.wires ∧ t.IsMemberOf w.source l.source ∧ w.outputGate = l.outputGate ∧
      t.IsMemberOf w.target l.target ∧ w.inputGate = l.inputGate
  | _, _ => False

instance (t : Topology) : (e : Element) → (step : PathStep) → Decidable (t.Fits e step)
  | .vertex g .., .member id => inferInstanceAs (Decidable (t.IsMemberOf id g))
  | .edge l _, .wire w => inferInstanceAs (Decidable (w ∈ t.wires ∧ t.IsMemberOf w.source l.source ∧
      w.outputGate = l.outputGate ∧ t.IsMemberOf w.target l.target ∧ w.inputGate = l.inputGate))
  | .vertex .., .wire _ => .isFalse id
  | .edge .., .member _ => .isFalse id

/-- A path along a sequence on which every step agrees with its element and meets the next one. -/
structure IsExactPath (t : Topology) (s : Sequence) (p : Path) : Prop where
  fits : List.Forall₂ t.Fits s p
  meets : List.IsChain PathStep.Meets p

instance (t : Topology) (s : Sequence) (p : Path) : Decidable (t.IsExactPath s p) :=
  decidable_of_iff (List.Forall₂ t.Fits s p ∧ List.IsChain PathStep.Meets p)
    ⟨fun h => ⟨h.1, h.2⟩, fun h => ⟨h.fits, h.meets⟩⟩

variable {t : Topology} {s : Sequence} {m : Member} {p : Path}

theorem IsMemberOf.group_eq {id : MemberId} {g g' : GroupId} (h : t.IsMemberOf id g)
    (h' : t.IsMemberOf id g') : g = g' := by
  obtain ⟨m, hm, rfl⟩ := h
  obtain ⟨m', hm', rfl⟩ := h'
  rw [Option.some.inj (hm.symm.trans hm')]

/-- Elements whose steps meet belong together as well. -/
theorem Fits.joins {e e' : Element} {step step' : PathStep} (h : t.Fits e step)
    (h' : t.Fits e' step') (hmeets : step.Meets step') : e.Joins e' := by
  rcases step with id | w <;> rcases step' with id' | w'
  · exact hmeets.elim
  · obtain rfl : w'.source = id := hmeets
    cases e with
    | edge => exact h.elim
    | vertex =>
      cases e' with
      | vertex => exact h'.elim
      | edge => exact IsMemberOf.group_eq h h'.2.1
  · obtain rfl : w.target = id' := hmeets
    cases e with
    | vertex => exact h.elim
    | edge =>
      cases e' with
      | edge => exact h'.elim
      | vertex => exact IsMemberOf.group_eq h.2.2.2.1 h'
  · exact hmeets.elim

/-! ### One direction -/

/-- What comes next on a path in one direction, given the near and the far end of a wire. -/
def Leads (near far : Wire → MemberId) : PathStep → PathStep → Prop
  | .member id, .wire w => near w = id
  | .wire w, .member id => far w = id
  | _, _ => False

/-- Whether a path goes on from a member. -/
def StartsAt (near : Wire → MemberId) (m : Member) : Path → Prop
  | [] => True
  | .member id :: _ => id = m.id
  | .wire w :: _ => near w = m.id

/-- A path that agrees with the elements is one of the ways from the member that it starts at. -/
theorem mem_ways_of_fits {next : Step} {near far : Wire → MemberId}
    (hnext : ∀ l sampling w m, t.Fits (.edge l sampling) (.wire w) → near w = m.id →
      ∃ x, (w, x) ∈ next l m ∧ far w = x.id)
    (hfits : List.Forall₂ t.Fits s p) (hchain : p.IsChain (Leads near far))
    (hstart : StartsAt near m p) : p ∈ ways next s m := by
  induction hfits generalizing m with
  | nil => exact List.mem_singleton_self []
  | @cons e step rest q hfirst hrest ih =>
    have hq : ∀ {x : Member}, StartsAt near x q → q ∈ ways next rest x := ih hchain.tail
    cases e with
    | vertex g inp out sampling =>
      cases step with
      | wire w => exact hfirst.elim
      | member id =>
        obtain rfl : id = m.id := hstart
        refine mem_ways_vertex.mpr ⟨q, hq ?_, rfl⟩
        rcases q with _ | ⟨_ | w, later⟩
        · trivial
        · exact (List.isChain_cons_cons.mp hchain).1.elim
        · exact (List.isChain_cons_cons.mp hchain).1
    | edge l sampling =>
      cases step with
      | member id => exact hfirst.elim
      | wire w =>
        obtain ⟨x, hx, hfar⟩ := hnext l sampling w m hfirst hstart
        refine mem_ways_edge.mpr ⟨w, x, hx, q, hq ?_, rfl⟩
        rcases q with _ | ⟨id | _, later⟩
        · trivial
        · exact ((List.isChain_cons_cons.mp hchain).1.symm.trans hfar)
        · exact (List.isChain_cons_cons.mp hchain).1.elim

/-- A way from a member starts at this member. -/
theorem startsAt_of_mem_ways {next : Step} {near : Wire → MemberId}
    (hnext : ∀ l m w x, (w, x) ∈ next l m → near w = m.id) (h : p ∈ ways next s m) :
    StartsAt near m p := by
  rcases s with _ | ⟨e, rest⟩
  · rw [List.mem_singleton.mp h]
    trivial
  · cases e with
    | vertex =>
      obtain ⟨q, -, rfl⟩ := mem_ways_vertex.mp h
      rfl
    | edge l sampling =>
      obtain ⟨w, x, hx, q, -, rfl⟩ := mem_ways_edge.mp h
      exact hnext l m w x hx

theorem StartsAt.id_eq {near : Wire → MemberId} {m' : Member} (h : StartsAt near m p)
    (h' : StartsAt near m' p) (hp : p ≠ []) : m.id = m'.id := by
  rcases p with _ | ⟨id | w, rest⟩
  · exact absurd rfl hp
  · exact h.symm.trans h'
  · exact h.symm.trans h'

/-- No way is listed twice if no wire is. -/
theorem nodup_ways {next : Step} (hnext : ∀ l m, ((next l m).map Prod.fst).Nodup) (s : Sequence)
    (m : Member) : (ways next s m).Nodup := by
  induction s generalizing m with
  | nil => exact List.nodup_singleton []
  | cons e rest ih =>
    cases e with
    | vertex => exact (ih m).map (List.cons_injective)
    | edge l sampling =>
      refine List.nodup_flatMap.mpr ⟨fun x _ => (ih x.2).map List.cons_injective, ?_⟩
      refine (List.pairwise_map.mp (hnext l m)).imp fun hne q hq hq' => ?_
      obtain ⟨r, -, rfl⟩ := List.mem_map.mp hq
      obtain ⟨r', -, heq⟩ := List.mem_map.mp hq'
      exact hne (PathStep.wire.inj (List.cons.inj heq).1).symm

/-! ### Both directions -/

/-- The wires that are kept of some wires, with the members at their other ends. -/
theorem nodup_map_fst_filterMap {ws : List Wire} (h : ws.Nodup) {f : Wire → Option (Wire × Member)}
    (hf : ∀ w x, f w = some x → x.1 = w) : ((ws.filterMap f).map Prod.fst).Nodup := by
  rw [List.map_filterMap]
  refine h.filterMap fun w w' v hv hv' => ?_
  obtain ⟨x, hx, rfl⟩ := Option.map_eq_some_iff.mp hv
  obtain ⟨x', hx', heq⟩ := Option.map_eq_some_iff.mp hv'
  rw [← hf w x hx, ← hf w' x' hx', heq]

theorem nodup_ahead (h : t.wires.Nodup) (l : Link) (m : Member) :
    ((t.ahead l m).map Prod.fst).Nodup := by
  refine nodup_map_fst_filterMap (h.filter _) fun w x hx => ?_
  split at hx
  · split_ifs at hx
    rw [← Option.some.inj hx]
  · cases hx

theorem nodup_behind (h : t.wires.Nodup) (l : Link) (m : Member) :
    ((t.behind l m).map Prod.fst).Nodup := by
  refine nodup_map_fst_filterMap (h.filter _) fun w x hx => ?_
  split at hx
  · split_ifs at hx
    rw [← Option.some.inj hx]
  · cases hx

/-- No path through a member is listed twice. -/
theorem nodup_pathsFrom (h : t.wires.Nodup) (s : Sequence) (m : Member) :
    (t.pathsFrom s m).Nodup := by
  unfold pathsFrom
  split
  · exact List.nodup_nil
  · next i hi =>
    refine List.nodup_flatMap.mpr ⟨fun back _ => ?_, ?_⟩
    · exact (nodup_ways (nodup_ahead h) _ m).map (List.append_right_injective back.reverse)
    · -- different ways back differ as parts of a path, since they are of one length
      refine (nodup_ways (nodup_behind h) _ m).pairwise_of_forall_ne
        fun back hback back' hback' hne q hq hq' => hne ?_
      obtain ⟨on, -, rfl⟩ := List.mem_map.mp hq
      obtain ⟨on', -, heq⟩ := List.mem_map.mp hq'
      have hlength : back'.reverse.length = back.reverse.length := by
        rw [List.length_reverse, List.length_reverse, length_of_mem_ways hback,
          length_of_mem_ways hback']
      exact (List.reverse_injective (List.append_inj_left heq hlength)).symm

/-- The part of a path behind a member comes back to it, and the part ahead goes on from it. -/
theorem mem_pathsFrom_iff {i : ℕ} (hi : splitAt? s m.group = some i) :
    p ∈ t.pathsFrom s m ↔ (p.take i).reverse ∈ ways t.behind (s.take i).reverse m ∧
      p.drop i ∈ ways t.ahead (s.drop i) m := by
  rw [mem_pathsFrom hi]
  constructor
  · rintro ⟨back, hback, on, hon, rfl⟩
    -- the way back has a step for each element before the member's place
    have hlength : back.reverse.length = i := by
      have hle : i ≤ s.length := by
        rcases splitAt?_eq_some hi with ⟨inp, out, sampling, he⟩ | ⟨rfl, -⟩ | ⟨rfl, -⟩
        · exact (List.getElem?_eq_some_iff.mp he).1.le
        · exact Nat.zero_le _
        · exact le_rfl
      rw [List.length_reverse, length_of_mem_ways hback, List.length_reverse,
        List.length_take_of_le hle]
    rw [List.take_left' hlength, List.drop_left' hlength, List.reverse_reverse]
    exact ⟨hback, hon⟩
  · rintro ⟨hback, hon⟩
    exact ⟨_, hback, _, hon, by rw [List.reverse_reverse, List.take_append_drop]⟩

theorem exists_mem_ahead_of_fits (l : Link) (sampling : Sampling) (w : Wire) (m : Member)
    (h : t.Fits (.edge l sampling) (.wire w)) (hsource : w.source = m.id) :
    ∃ x, (w, x) ∈ t.ahead l m ∧ w.target = x.id := by
  obtain ⟨hw, -, houtput, ⟨x, hx, hgroup⟩, -⟩ := h
  exact ⟨x, mem_ahead.mpr ⟨hw, hsource, houtput, hx, hgroup⟩, (member?_id hx).symm⟩

theorem exists_mem_behind_of_fits (l : Link) (sampling : Sampling) (w : Wire) (m : Member)
    (h : t.Fits (.edge l sampling) (.wire w)) (htarget : w.target = m.id) :
    ∃ x, (w, x) ∈ t.behind l m ∧ w.source = x.id := by
  obtain ⟨hw, ⟨x, hx, hgroup⟩, -, -, hinput⟩ := h
  exact ⟨x, mem_behind.mpr ⟨hw, htarget, hinput, hx, hgroup⟩, (member?_id hx).symm⟩

namespace IsExactPath

/-- A path through a member, at the place of the member's group on the sequence. -/
def PassesAt (m : Member) (i : ℕ) (p : Path) : Prop :=
  StartsAt Wire.target m (p.take i).reverse ∧ StartsAt Wire.source m (p.drop i)

/-- An exact path is enumerated for a member if it passes there. -/
theorem mem_pathsFrom_iff_passesAt (h : t.IsExactPath s p) {i : ℕ}
    (hi : splitAt? s m.group = some i) : p ∈ t.pathsFrom s m ↔ PassesAt m i p := by
  rw [mem_pathsFrom_iff hi]
  constructor
  · rintro ⟨hback, hon⟩
    exact ⟨startsAt_of_mem_ways (fun l m w x hx => (mem_behind.mp hx).2.1) hback,
      startsAt_of_mem_ways (fun l m w x hx => (mem_ahead.mp hx).2.1) hon⟩
  · rintro ⟨hback, hon⟩
    have hreverse : (p.take i).reverse.IsChain (Leads Wire.target Wire.source) :=
      List.isChain_reverse.mpr ((List.IsChain.take h.meets i).imp fun a b hmeets => by
        cases a <;> cases b <;> exact hmeets)
    have hforward : (p.drop i).IsChain (Leads Wire.source Wire.target) :=
      (List.IsChain.drop h.meets i).imp fun a b hmeets => by
        cases a <;> cases b <;> exact hmeets
    exact ⟨mem_ways_of_fits exists_mem_behind_of_fits
        (List.rel_reverse (List.forall₂_take i h.fits)) hreverse hback,
      mem_ways_of_fits exists_mem_ahead_of_fits (List.forall₂_drop i h.fits) hforward hon⟩

/-- The step at the position of an element. -/
theorem exists_step (h : t.IsExactPath s p) {i : ℕ} {e : Element} (he : s[i]? = some e) :
    ∃ step, p[i]? = some step ∧ t.Fits e step := by
  obtain ⟨hi, rfl⟩ := List.getElem?_eq_some_iff.mp he
  have hp : i < p.length := h.fits.length_eq ▸ hi
  exact ⟨p[i], List.getElem?_eq_getElem hp, List.Forall₂.get h.fits hi hp⟩

/-- A sequence with an exact path is connected. -/
theorem isConnected (h : t.IsExactPath s p) : s.IsConnected := by
  refine List.isChain_iff_getElem.mpr fun i hi => ?_
  obtain ⟨step, hstep, hfits⟩ := h.exists_step (List.getElem?_eq_getElem (Nat.lt_of_succ_lt hi))
  obtain ⟨step', hstep', hfits'⟩ := h.exists_step (List.getElem?_eq_getElem hi)
  obtain ⟨hlt, rfl⟩ := List.getElem?_eq_some_iff.mp hstep
  obtain ⟨hlt', rfl⟩ := List.getElem?_eq_some_iff.mp hstep'
  have hmeets := List.isChain_iff_getElem.mp h.meets i hlt'
  exact hfits.joins hfits' hmeets

/-- At a vertex element an exact path passes the member that it has there. -/
theorem exists_passesAt_vertex (h : t.IsExactPath s p) {g : GroupId} {i : ℕ} {inp out : Option ℕ}
    {sampling : Sampling} (he : s[i]? = some (.vertex g inp out sampling)) :
    ∃ m, t.member? m.id = some m ∧ m.group = g ∧ PassesAt m i p := by
  obtain ⟨step, hstep, hfits⟩ := h.exists_step he
  cases step with
  | wire w => exact hfits.elim
  | member id =>
    obtain ⟨m, hm, hgroup⟩ := hfits
    obtain rfl : m.id = id := member?_id hm
    obtain ⟨hlt, hstep⟩ := List.getElem?_eq_some_iff.mp hstep
    refine ⟨m, hm, hgroup, ?_, ?_⟩
    · cases i with
      | zero => trivial
      | succ k =>
        have hmeets := List.isChain_iff_getElem.mp h.meets k hlt
        rw [hstep] at hmeets
        rw [List.take_add_one, List.getElem?_eq_getElem (Nat.lt_of_succ_lt hlt),
          List.reverse_append]
        generalize (p : List PathStep)[k] = before at hmeets
        cases before with
        | member => exact hmeets.elim
        | wire w => exact hmeets
    · rw [List.drop_eq_getElem_cons hlt, hstep]
      rfl

/-- In front of a sequence it passes the member that the first wire leaves. -/
theorem exists_passesAt_head (h : t.IsExactPath s p) {l : Link} {sampling : Sampling}
    (hhead : s.head? = some (.edge l sampling)) :
    ∃ m, t.member? m.id = some m ∧ m.group = l.source ∧ PassesAt m 0 p := by
  rw [List.head?_eq_getElem?] at hhead
  obtain ⟨step, hstep, hfits⟩ := h.exists_step hhead
  cases step with
  | member => exact hfits.elim
  | wire w =>
    obtain ⟨-, ⟨m, hm, hgroup⟩, -⟩ := hfits
    rw [← List.head?_eq_getElem?] at hstep
    obtain ⟨rest, rfl⟩ := List.head?_eq_some_iff.mp hstep
    have hid := member?_id hm
    exact ⟨m, by rw [hid, hm], hgroup, trivial, hid.symm⟩

/-- Behind a sequence it passes the member that the last wire enters. -/
theorem exists_passesAt_last (h : t.IsExactPath s p) {l : Link} {sampling : Sampling}
    (hlast : s.getLast? = some (.edge l sampling)) :
    ∃ m, t.member? m.id = some m ∧ m.group = l.target ∧ PassesAt m s.length p := by
  rw [List.getLast?_eq_getElem?] at hlast
  obtain ⟨step, hstep, hfits⟩ := h.exists_step hlast
  cases step with
  | member => exact hfits.elim
  | wire w =>
    obtain ⟨-, -, -, ⟨m, hm, hgroup⟩, -⟩ := hfits
    have hlength := h.fits.length_eq
    rw [hlength, ← List.getLast?_eq_getElem?] at hstep
    obtain ⟨before, rfl⟩ := List.getLast?_eq_some_iff.mp hstep
    have hid := member?_id hm
    refine ⟨m, by rw [hid, hm], hgroup, ?_, ?_⟩
    · rw [hlength, List.take_length, List.reverse_append]
      exact hid.symm
    · rw [hlength, List.drop_length]
      trivial

/-- An exact path passes a member of every group that the sequence touches. -/
theorem exists_passesAt (h : t.IsExactPath s p) {g : GroupId} {i : ℕ} (hi : splitAt? s g = some i) :
    ∃ m, t.member? m.id = some m ∧ m.group = g ∧ PassesAt m i p := by
  rcases splitAt?_eq_some hi with ⟨inp, out, sampling, he⟩ | ⟨rfl, l, sampling, hhead, rfl⟩ |
    ⟨rfl, l, sampling, hlast, rfl⟩
  · exact h.exists_passesAt_vertex he
  · exact h.exists_passesAt_head hhead
  · exact h.exists_passesAt_last hlast

/-- Of the members of a group that the sequence touches, an exact path is enumerated for exactly
one. -/
theorem existsUnique_anchor (h : t.IsExactPath s p) {g : GroupId}
    (hg : g ∈ s.flatMap Element.touched) :
    ∃ m, t.member? m.id = some m ∧ m.group = g ∧ p ∈ t.pathsFrom s m ∧
      ∀ m', m'.group = g → p ∈ t.pathsFrom s m' → m'.id = m.id := by
  obtain ⟨i, hi⟩ := exists_splitAt?_of_touched h.isConnected hg
  obtain ⟨m, hm, rfl, hpasses⟩ := h.exists_passesAt hi
  refine ⟨m, hm, rfl, (h.mem_pathsFrom_iff_passesAt hi).mpr hpasses, fun m' hgroup hp' => ?_⟩
  obtain ⟨hback, hon⟩ := (h.mem_pathsFrom_iff_passesAt (by rw [hgroup, hi])).mp hp'
  -- the path passes at both members, on the side where it is not empty
  by_cases hempty : p.drop i = []
  · refine hback.id_eq hpasses.1 fun hnil => ?_
    have hp : p = [] := by
      rw [← List.take_append_drop i p, hempty, List.reverse_eq_nil_iff.mp hnil]
      rfl
    have hs : s = [] := by
      rw [← List.length_eq_zero_iff, h.fits.length_eq, hp]
      rfl
    rw [hs] at hg
    exact List.not_mem_nil hg
  · exact hon.id_eq hpasses.2 hempty

end IsExactPath

end Topology

end LatencyControl
