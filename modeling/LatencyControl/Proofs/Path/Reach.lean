import LatencyControl.Path.Walk
import LatencyControl.Proofs.Path.Ways

/-!
# What a walk meets

`Topology.reach` lists everything that a walk in one direction meets when it remembers nothing.  A
`Walk` remembers the members that it has visited at each position and does not visit them again.
That leaves nothing out, because what is met from a member at a position does not depend on how the
walk got there: `Trail.Complete` says that of every marked member everything that can be met has
been visited, and exploring from a further member preserves it (`explore_complete`).
-/

namespace LatencyControl

namespace Topology

/-! ### Reach and exploration -/

/-- Everything that is met from a member along the elements ahead; a member of another group ends
the way. -/
def reach (next : Step) : Positions → Member → List Visit
  | [], _ => []
  | (e, i) :: rest, m =>
    match e with
    | .vertex g .. => if g = m.group then ⟨.member m, i, e⟩ :: reach next rest m else []
    | .edge l _ => (next l m).flatMap fun (w, x) => ⟨.wire w, i, e⟩ :: reach next rest x

/-- One direction of a walk: the members that were visited, with their positions, and all visits. -/
structure Trail where
  marks : List (MemberId × ℕ)
  visits : List Visit

/-- Explores what can be met from a member, except from members that are marked. -/
def explore (next : Step) : Positions → Member → Trail → Trail
  | [], _, s => s
  | (e, i) :: rest, m, s =>
    match e with
    | .vertex g .. =>
      if g ≠ m.group ∨ (m.id, i) ∈ s.marks then s
      else explore next rest m ⟨(m.id, i) :: s.marks, s.visits ++ [⟨.member m, i, e⟩]⟩
    | .edge l _ =>
      (next l m).foldl (fun s (w, x) =>
        explore next rest x ⟨s.marks, s.visits ++ [⟨.wire w, i, e⟩]⟩) s

/-! ### Walks explore -/

theorem followForward_eq (t : Topology) (ps : Positions) (m : Member) (w : Walk) :
    Walk.followForward t ps m w =
      { w with
        expanded := (explore t.ahead ps m ⟨w.expanded, w.visits⟩).marks
        visits := (explore t.ahead ps m ⟨w.expanded, w.visits⟩).visits } := by
  induction ps generalizing m w with
  | nil => rfl
  | cons p rest ih =>
    obtain ⟨e, i⟩ := p
    cases e with
    | vertex g inp out sampling =>
      simp only [Walk.followForward, explore]
      split_ifs
      · rfl
      · rw [ih]
        rfl
    | edge l sampling =>
      simp only [Walk.followForward, explore, ahead]
      induction t.outgoing m.id l.outputGate generalizing w with
      | nil => rfl
      | cons wire later ihw =>
        rw [List.foldl_cons, ihw, List.filterMap_cons]
        cases t.member? wire.target with
        | none => rfl
        | some target =>
          dsimp only
          split_ifs
          · rw [ih]
            rfl
          · rfl

theorem followBackward_eq (t : Topology) (ps : Positions) (m : Member) (w : Walk) :
    Walk.followBackward t true ps m w =
      { w with
        covered := (explore t.behind ps m ⟨w.covered, w.visits⟩).marks
        visits := (explore t.behind ps m ⟨w.covered, w.visits⟩).visits } := by
  induction ps generalizing m w with
  | nil => rfl
  | cons p rest ih =>
    obtain ⟨e, i⟩ := p
    cases e with
    | vertex g inp out sampling =>
      simp only [Walk.followBackward, explore, and_true]
      split_ifs with hstop
      · rfl
      · have hcover : w.cover m.id i = { w with covered := (m.id, i) :: w.covered } := by
          rw [Walk.cover, if_neg fun hmem => hstop (.inr hmem)]
        rw [ih, hcover]
        rfl
    | edge l sampling =>
      simp only [Walk.followBackward, explore, behind]
      induction t.incoming m.id l.inputGate generalizing w with
      | nil => rfl
      | cons wire later ihw =>
        rw [List.foldl_cons, ihw, List.filterMap_cons]
        cases t.member? wire.source with
        | none => rfl
        | some source =>
          dsimp only
          split_ifs
          · rw [ih]
            rfl
          · rfl

/-! ### Trails that go on -/

/-- Nothing that was visited is forgotten, and members are only marked at the given positions. -/
structure Trail.Continues (s s' : Trail) (ps : Positions) : Prop where
  visits : ∀ v ∈ s.visits, v ∈ s'.visits
  marks : ∀ k ∈ s'.marks, k ∈ s.marks ∨ k.2 ∈ ps.map Prod.snd

theorem Trail.Continues.refl (s : Trail) (ps : Positions) : s.Continues s ps :=
  ⟨fun _ hv => hv, fun _ hk => .inl hk⟩

theorem Trail.Continues.trans {s s' s'' : Trail} {ps : Positions} (h : s.Continues s' ps)
    (h' : s'.Continues s'' ps) : s.Continues s'' ps where
  visits v hv := h'.visits v (h.visits v hv)
  marks k hk := (h'.marks k hk).elim (h.marks k) .inr

theorem Trail.Continues.cons {s s' : Trail} {ps : Positions} (h : s.Continues s' ps)
    (p : Element × ℕ) : s.Continues s' (p :: ps) :=
  ⟨h.visits, fun k hk => (h.marks k hk).imp_right (List.mem_cons_of_mem p.2)⟩

theorem foldl_continues {α : Type} {f : Trail → α → Trail} {ps : Positions}
    (hf : ∀ (s : Trail) x, s.Continues (f s x) ps) (xs : List α) (s : Trail) :
    s.Continues (xs.foldl f s) ps := by
  induction xs generalizing s with
  | nil => exact .refl s ps
  | cons x rest ih => exact (hf s x).trans (ih (f s x))

theorem explore_continues (next : Step) (ps : Positions) (m : Member) (s : Trail) :
    s.Continues (explore next ps m s) ps := by
  induction ps generalizing m s with
  | nil => exact .refl s []
  | cons p rest ih =>
    obtain ⟨e, i⟩ := p
    cases e with
    | vertex g inp out sampling =>
      simp only [explore]
      split_ifs
      · exact .refl s _
      · refine Trail.Continues.trans ⟨fun v hv => List.mem_append_left _ hv, fun k hk => ?_⟩
          ((ih m _).cons _)
        rcases List.mem_cons.mp hk with rfl | hk
        · exact .inr List.mem_cons_self
        · exact .inl hk
    | edge l sampling =>
      refine (foldl_continues (fun s x => ?_) (next l m) s).cons _
      have hvisit : s.Continues ⟨s.marks, s.visits ++ [⟨.wire x.1, i, .edge l sampling⟩]⟩ rest :=
        ⟨fun v hv => List.mem_append_left _ hv, fun k hk => .inl hk⟩
      exact hvisit.trans (ih x.2 _)

/-! ### Nothing is left out -/

variable {t : Topology} {next : Step}

/-- Whatever can be met from a marked member has been visited. -/
def Trail.Complete (t : Topology) (next : Step) (ps : Positions) (s : Trail) : Prop :=
  ∀ e j rest, (e, j) :: rest <:+ ps → ∀ m, t.member? m.id = some m → (m.id, j) ∈ s.marks →
    ∀ v ∈ reach next ((e, j) :: rest) m, v ∈ s.visits

/-- What is complete for some elements is complete for the last ones of them. -/
theorem Trail.Complete.restrict {all ps : Positions} {s : Trail} (h : s.Complete t next all)
    (hsuffix : ps <:+ all) : s.Complete t next ps :=
  fun e j rest hrest => h e j rest (hrest.trans hsuffix)

/-- One more element, if what can be met from the members that are marked there was visited. -/
theorem Trail.Complete.cons {e : Element} {i : ℕ} {ps : Positions} {s : Trail}
    (h : s.Complete t next ps)
    (hhere : ∀ m, t.member? m.id = some m → (m.id, i) ∈ s.marks →
      ∀ v ∈ reach next ((e, i) :: ps) m, v ∈ s.visits) : s.Complete t next ((e, i) :: ps) := by
  intro e' j rest hsuffix m hm hmark v hv
  rcases List.suffix_cons_iff.mp hsuffix with heq | hsuffix
  · obtain ⟨⟨rfl, rfl⟩, rfl⟩ : (e' = e ∧ j = i) ∧ rest = ps := by simpa using heq
    exact hhere m hm hmark v hv
  · exact h e' j rest hsuffix m hm hmark v hv

/-- Marks at other positions do no harm. -/
theorem Trail.Complete.continues {ps qs : Positions} {s s' : Trail} (h : s.Complete t next ps)
    (hcont : s.Continues s' qs) (hdisj : ∀ j ∈ ps.map Prod.snd, j ∉ qs.map Prod.snd) :
    s'.Complete t next ps := by
  intro e j rest hsuffix m hm hmark v hv
  have hj : j ∈ ps.map Prod.snd := List.mem_map.mpr ⟨(e, j), hsuffix.subset List.mem_cons_self, rfl⟩
  have hold : (m.id, j) ∈ s.marks := (hcont.marks _ hmark).resolve_right (hdisj j hj)
  exact hcont.visits v (h e j rest hsuffix m hm hold v hv)

/-- Further visits do no harm if no mark is new. -/
theorem Trail.Complete.of_visits {ps : Positions} {s s' : Trail} (h : s.Complete t next ps)
    (hvisits : ∀ v ∈ s.visits, v ∈ s'.visits) (hmarks : ∀ k ∈ s'.marks, k ∈ s.marks) :
    s'.Complete t next ps := fun e j rest hsuffix m hm hmark v hv =>
  hvisits v (h e j rest hsuffix m hm (hmarks _ hmark) v hv)

/-- A member that was met at a position is marked there, and what is ahead of it is explored. -/
theorem Trail.Complete.marked {m : Member} {i : ℕ} {inp out : Option ℕ} {sampling : Sampling}
    {ps : Positions} {s s₁ s' : Trail}
    (h : s.Complete t next ((.vertex m.group inp out sampling, i) :: ps))
    (hm : t.member? m.id = some m) (hi : i ∉ ps.map Prod.snd)
    (hvisits : ∀ v ∈ s.visits, v ∈ s₁.visits)
    (hmarks : ∀ k ∈ s₁.marks, k = (m.id, i) ∨ k ∈ s.marks)
    (hmet : ⟨.member m, i, .vertex m.group inp out sampling⟩ ∈ s₁.visits)
    (hcont : s₁.Continues s' ps)
    (hexplore : s₁.Complete t next ps →
      s'.Complete t next ps ∧ ∀ v ∈ reach next ps m, v ∈ s'.visits) :
    s'.Complete t next ((.vertex m.group inp out sampling, i) :: ps) ∧
      ∀ v ∈ reach next ((.vertex m.group inp out sampling, i) :: ps) m, v ∈ s'.visits := by
  -- the new mark does not matter further ahead
  have hahead : s₁.Complete t next ps := by
    have hmark : s.Continues s₁ [(.vertex m.group inp out sampling, i)] :=
      ⟨hvisits, fun k hk => (hmarks k hk).symm.imp_right fun hnew => by simp [hnew]⟩
    refine (h.restrict (List.suffix_cons _ _)).continues hmark fun j hj hji => ?_
    rw [List.mem_singleton.mp hji] at hj
    exact hi hj
  obtain ⟨hcomplete, hreach⟩ := hexplore hahead
  have hall : ∀ v ∈ reach next ((.vertex m.group inp out sampling, i) :: ps) m,
      v ∈ s'.visits := by
    intro v hv
    rw [reach, if_pos rfl] at hv
    rcases List.mem_cons.mp hv with rfl | hv
    · exact hcont.visits _ hmet
    · exact hreach v hv
  refine ⟨hcomplete.cons fun m' hm' hmark' v hv => ?_, hall⟩
  -- a member that is marked here is this one, or was marked before
  rcases hmarks _ ((hcont.marks _ hmark').resolve_right hi) with hsame | hold
  · rw [(Prod.mk.inj hsame).1, hm, Option.some.injEq] at hm'
    exact hall v (hm' ▸ hv)
  · exact hcont.visits v (hvisits v (h _ i ps (List.suffix_refl _) m' hm' hold v hv))

/-- Explorations one after the other, if each of them finds what it has to find. -/
theorem foldl_complete {α : Type} {ps : Positions} {f : Trail → α → Trail} (found : α → List Visit)
    (hcont : ∀ (s : Trail) x, s.Continues (f s x) ps) (xs : List α)
    (hf : ∀ x ∈ xs, ∀ s : Trail, s.Complete t next ps →
      (f s x).Complete t next ps ∧ ∀ v ∈ found x, v ∈ (f s x).visits) {s : Trail}
    (h : s.Complete t next ps) :
    (xs.foldl f s).Complete t next ps ∧ ∀ x ∈ xs, ∀ v ∈ found x, v ∈ (xs.foldl f s).visits := by
  induction xs generalizing s with
  | nil => exact ⟨h, fun x hx => (List.not_mem_nil hx).elim⟩
  | cons x rest ih =>
    obtain ⟨hfirst, hfound⟩ := hf x List.mem_cons_self s h
    obtain ⟨hrest, hlater⟩ := ih (fun y hy => hf y (List.mem_cons_of_mem x hy)) hfirst
    refine ⟨hrest, fun y hy v hv => ?_⟩
    rcases List.mem_cons.mp hy with rfl | hy
    · exact (foldl_continues hcont rest (f s y)).visits v (hfound v hv)
    · exact hlater y hy v hv

/-- Exploring from a member visits all that can be met from there, and leaves nothing else out. -/
theorem explore_complete (hnext : ∀ l m w x, (w, x) ∈ next l m → t.member? x.id = some x)
    (ps : Positions) : ∀ {m : Member} {s : Trail}, (ps.map Prod.snd).Nodup →
    t.member? m.id = some m → s.Complete t next ps →
    (explore next ps m s).Complete t next ps ∧
      ∀ v ∈ reach next ps m, v ∈ (explore next ps m s).visits := by
  induction ps with
  | nil => exact fun _ _ h => ⟨h, fun v hv => (List.not_mem_nil hv).elim⟩
  | cons p rest ih =>
    intro m s hnodup hm h
    obtain ⟨e, i⟩ := p
    obtain ⟨hi, hrest⟩ := List.nodup_cons.mp hnodup
    cases e with
    | vertex g inp out sampling =>
      simp only [explore]
      split_ifs with hstop
      · -- the member is of another group, or was marked before and is complete already
        refine ⟨h, fun v hv => ?_⟩
        rcases hstop with hgroup | hmark
        · rw [reach, if_neg hgroup] at hv
          exact (List.not_mem_nil hv).elim
        · exact h _ i rest (List.suffix_refl _) m hm hmark v hv
      · rw [not_or, not_not] at hstop
        obtain ⟨rfl, -⟩ := hstop
        exact h.marked hm hi (fun v hv => List.mem_append_left _ hv)
          (fun k hk => List.mem_cons.mp hk) (List.mem_append_right _ (List.mem_singleton_self _))
          (explore_continues next rest m _) (ih hrest hm)
    | edge l sampling =>
      have hvisit : ∀ (s : Trail) (x : Wire × Member),
          s.Continues ⟨s.marks, s.visits ++ [⟨.wire x.1, i, .edge l sampling⟩]⟩ rest := fun s x =>
        ⟨fun v hv => List.mem_append_left _ hv, fun k hk => .inl hk⟩
      have hcont : ∀ (s : Trail) (x : Wire × Member), s.Continues (explore next rest x.2
          ⟨s.marks, s.visits ++ [⟨.wire x.1, i, .edge l sampling⟩]⟩) rest := fun s x =>
        (hvisit s x).trans (explore_continues next rest x.2 _)
      -- no member is marked at the position of an edge: only the elements ahead of it matter
      have hfold := foldl_complete
        (fun x => ⟨.wire x.1, i, .edge l sampling⟩ :: reach next rest x.2) hcont (next l m)
        (fun x hx s hs => ?_) (h.restrict (List.suffix_cons _ _))
      · obtain ⟨hcomplete, hfound⟩ := hfold
        have hall := foldl_continues hcont (next l m) s
        refine ⟨hcomplete.cons fun m' hm' hmark' v hv => ?_, fun v hv => ?_⟩
        · have hold := (hall.marks _ hmark').resolve_right hi
          exact hall.visits v (h _ i rest (List.suffix_refl _) m' hm' hold v hv)
        · obtain ⟨x, hx, hv⟩ := List.mem_flatMap.mp hv
          exact hfound x hx v hv
      · obtain ⟨hcomplete, hreach⟩ := ih hrest (hnext l m x.1 x.2 hx)
          (hs.of_visits (hvisit s x).visits fun k hk => hk)
        refine ⟨hcomplete, fun v hv => ?_⟩
        rcases List.mem_cons.mp hv with rfl | hv
        · exact (explore_continues next rest x.2 _).visits _
            (List.mem_append_right _ (List.mem_singleton_self _))
        · exact hreach v hv

/-- What is complete for the elements that were explored is complete for all elements, if it was so
before. -/
theorem Trail.Complete.of_suffix {all ps : Positions} {s s' : Trail}
    (hnodup : (all.map Prod.snd).Nodup) (hsuffix : ps <:+ all) (h : s.Complete t next all)
    (hcont : s.Continues s' ps) (hps : s'.Complete t next ps) : s'.Complete t next all := by
  intro e j rest hrest m hm hmark v hv
  rcases List.suffix_or_suffix_of_suffix hrest hsuffix with hinside | houtside
  · exact hps e j rest hinside m hm hmark v hv
  · rcases List.suffix_cons_iff.mp houtside with rfl | hbehind
    · exact hps e j rest (List.suffix_refl _) m hm hmark v hv
    · -- a position that was not explored has no new marks
      have hnodup' := hnodup.sublist (hrest.sublist.map Prod.snd)
      have hj : j ∉ ps.map Prod.snd := fun hj =>
        (List.nodup_cons.mp hnodup').1 ((hbehind.sublist.map Prod.snd).subset hj)
      have hold := (hcont.marks _ hmark).resolve_right hj
      exact hcont.visits v (h e j rest hrest m hm hold v hv)

end Topology

end LatencyControl
