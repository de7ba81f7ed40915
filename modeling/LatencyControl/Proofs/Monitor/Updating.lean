import LatencyControl.Proofs.Monitor.Violations

/-!
# Updates of summaries

A summary is computed anew from a path, which needs a step of the right kind for each element of the
sequence.  From such a path comes the summary of the path, whatever the summary said before.  A path
of another length is refused, and changes nothing.

A step of the wrong kind is refused too, but only when it is met.  By then the summary is that of
the steps before it, and it counts as fresh if these do, with the latency of a part of the path
(`Summary.update_outcomes`, `Summary.not_keepsOnFailure`).
-/

namespace LatencyControl

/-- Two lists of the same length that do not correspond item by item do so up to a first pair of
items. -/
theorem exists_first_mismatch {α β : Type} {R : α → β → Prop} {xs : List α} {ys : List β}
    (hlength : xs.length = ys.length) (h : ¬ List.Forall₂ R xs ys) :
    ∃ xs₁ x xs₂ ys₁ y ys₂, xs = xs₁ ++ x :: xs₂ ∧ ys = ys₁ ++ y :: ys₂ ∧
      List.Forall₂ R xs₁ ys₁ ∧ ¬ R x y := by
  induction xs generalizing ys with
  | nil =>
    obtain rfl := List.length_eq_zero_iff.mp hlength.symm
    exact absurd .nil h
  | cons x xs ih =>
    obtain ⟨y, ys, rfl⟩ := List.exists_cons_of_length_eq_add_one hlength.symm
    by_cases hR : R x y
    · obtain ⟨xs₁, x', xs₂, ys₁, y', ys₂, rfl, rfl, hbefore, hnot⟩ :=
        ih (Nat.succ.inj hlength) fun hrest => h (.cons hR hrest)
      exact ⟨x :: xs₁, x', xs₂, y :: ys₁, y', ys₂, rfl, rfl, .cons hR hbefore, hnot⟩
    · exact ⟨[], x, xs, [], y, ys, rfl, rfl, .nil, hR⟩

/-- A path goes along a sequence on a first part of both, and the next step is not of the kind of
its element. -/
def BreaksOff {α : Type} (s : Sequence) (path : List (StepData α)) (s₁ : Sequence)
    (path₁ : List (StepData α)) : Prop :=
  ∃ e s₂ data path₂, s = s₁ ++ e :: s₂ ∧ path = path₁ ++ data :: path₂ ∧
    List.Forall₂ StepData.IsOfKind s₁ path₁ ∧ ¬ data.IsOfKind e

namespace Summary

variable {α : Type} [Latency α] {s s₁ : Sequence} {path path₁ : List (StepData α)}

/-! ### Adding steps -/

theorem addVertex_withGates (summary : Summary α) (data : Option (VertexData α)) (gates : GatePair)
    (others : List (Option GatePair)) : { summary with gates := others }.addVertex data gates =
      { summary.addVertex data gates with gates := others } := by
  unfold addVertex
  split
  · rfl
  · rfl

theorem addEdge_withGates (summary : Summary α) (data : Option (EdgeData α))
    (others : List (Option GatePair)) : { summary with gates := others }.addEdge data =
      { summary.addEdge data with gates := others } := by
  cases data <;> rfl

/-- Which gates a summary is for makes no difference to the steps that are added. -/
theorem addSteps_withGates (summary : Summary α) (steps : List (Option GatePair × StepData α))
    (others : List (Option GatePair)) : { summary with gates := others }.addSteps steps =
      ((summary.addSteps steps).1, { (summary.addSteps steps).2 with gates := others }) := by
  fun_induction addSteps summary steps with
  | case1 => rfl
  | case2 summary gates data rest ih => rw [addSteps, addVertex_withGates, ih]
  | case3 summary data rest ih => rw [addSteps, addEdge_withGates, ih]
  | case4 summary first rest hvertex hedge =>
    obtain ⟨_ | gates, data | data⟩ := first
    · rfl
    · exact (hedge data rfl).elim
    · exact (hvertex gates data rfl).elim
    · rfl

theorem addSteps_gates (summary : Summary α) (steps : List (Option GatePair × StepData α)) :
    (summary.addSteps steps).2.gates = summary.gates :=
  congrArg (fun answer => answer.2.gates) (summary.addSteps_withGates steps summary.gates)

theorem length_steps_addVertex (summary : Summary α) (data : Option (VertexData α))
    (gates : GatePair) :
    (summary.addVertex data gates).steps.length = summary.steps.length + 1 := by
  unfold addVertex
  split
  · exact List.length_append
  · exact List.length_append

theorem length_steps_addEdge (summary : Summary α) (data : Option (EdgeData α)) :
    (summary.addEdge data).steps.length = summary.steps.length + 1 := by
  cases data <;> exact List.length_append

/-- Steps that were added are all there. -/
theorem length_steps_addSteps {summary result : Summary α}
    {steps : List (Option GatePair × StepData α)} (h : summary.addSteps steps = (.ok (), result)) :
    result.steps.length = summary.steps.length + steps.length := by
  fun_induction addSteps summary steps with
  | case1 summary =>
    obtain ⟨-, rfl⟩ := Prod.mk.inj h
    rfl
  | case2 summary gates data rest ih =>
    rw [ih h, length_steps_addVertex, List.length_cons]
    omega
  | case3 summary data rest ih =>
    rw [ih h, length_steps_addEdge, List.length_cons]
    omega
  | case4 => cases h

/-- If the first steps are all added, the rest is added to what comes of them. -/
theorem addSteps_append {summary result : Summary α}
    {steps : List (Option GatePair × StepData α)} (h : summary.addSteps steps = (.ok (), result))
    (rest : List (Option GatePair × StepData α)) :
    summary.addSteps (steps ++ rest) = result.addSteps rest := by
  fun_induction addSteps summary steps with
  | case1 summary =>
    obtain ⟨-, rfl⟩ := Prod.mk.inj h
    rfl
  | case2 summary gates data steps ih => exact ih h
  | case3 summary data steps ih => exact ih h
  | case4 => cases h

theorem addSteps_of_not_isOfKind {e : Element} {data : StepData α} (h : ¬ data.IsOfKind e)
    (summary : Summary α) (rest : List (Option GatePair × StepData α)) :
    summary.addSteps ((gatesOf e, data) :: rest) = (.error .pathKindMismatch, summary) := by
  cases e <;> cases data
  · exact absurd trivial h
  · rfl
  · rfl
  · exact absurd trivial h

/-- Of a path that breaks off, the steps are added up to there. -/
theorem addSteps_of_breaksOff (h : BreaksOff s path s₁ path₁) (summary : Summary α) :
    ∃ result, summary.addSteps ((s₁.map gatesOf).zip path₁) = (.ok (), result) ∧
      summary.addSteps ((s.map gatesOf).zip path) = (.error .pathKindMismatch, result) ∧
      (result.isFresh = true ↔
        summary.isFresh = true ∧ List.Forall₂ StepData.IsFresh s₁ path₁) := by
  obtain ⟨e, s₂, data, path₂, rfl, rfl, hkinds, hnot⟩ := h
  obtain ⟨result, hresult, hfresh, -⟩ := addSteps_of_isOfKind hkinds summary
  have hlength : (s₁.map gatesOf).length = path₁.length := by rw [List.length_map, hkinds.length_eq]
  refine ⟨result, hresult, ?_, hfresh⟩
  rw [List.map_append, List.zip_append hlength, addSteps_append hresult, List.map_cons,
    List.zip_cons_cons, addSteps_of_not_isOfKind hnot]

/-! ### Updates -/

/-- The summary for a sequence that the steps of a path are added to. -/
def cleared (s : Sequence) : Summary α :=
  { gates := s.map gatesOf
    latency := Latency.zero
    bufferLatency := Latency.zero
    isFresh := true }

/-- Nothing of what a summary said before has a part in an update that is not refused. -/
theorem update_eq {before : Summary α} (h : before.gates = s.map gatesOf)
    (path : List (StepData α)) : before.update path =
      if path.length = s.length then (cleared s).addSteps ((s.map gatesOf).zip path)
      else (.error (.pathLengthMismatch path.length s.length), before) := by
  rw [update, h, List.length_map]
  rfl

theorem update_gates (before : Summary α) (path : List (StepData α)) :
    (before.update path).2.gates = before.gates := by
  unfold update
  split_ifs
  · exact addSteps_gates _ _
  · rfl

/-- The summary of a path has a step for each element. -/
theorem ofPath_eq_ok {summary : Summary α} (hlength : path.length = s.length)
    (h : (cleared s).addSteps ((s.map gatesOf).zip path) = (.ok (), summary)) :
    ofPath s path = .ok summary ∧ summary.steps.length = s.length := by
  constructor
  · rw [ofPath, update_eq rfl, if_pos hlength, h]
  · rw [length_steps_addSteps h, List.length_zip, List.length_map, hlength, Nat.min_self]
    exact Nat.zero_add _

/-- A path with a step of the right kind for each element makes a summary that of the path. -/
theorem update_of_isOfKind (h : List.Forall₂ StepData.IsOfKind s path) :
    ∃ summary, ofPath s path = .ok summary ∧ summary.steps.length = s.length ∧
      ∀ before : Summary α, before.gates = s.map gatesOf →
        before.update path = (.ok (), summary) := by
  obtain ⟨summary, hsummary, -, -⟩ := addSteps_of_isOfKind h (cleared s)
  have hlength : path.length = s.length := h.length_eq.symm
  obtain ⟨hpath, hsteps⟩ := ofPath_eq_ok hlength hsummary
  refine ⟨summary, hpath, hsteps, fun before hbefore => ?_⟩
  rw [update_eq hbefore, if_pos hlength, hsummary]

/-- A path that breaks off makes a summary that of the part up to there. -/
theorem update_of_breaksOff (hlength : path.length = s.length) (h : BreaksOff s path s₁ path₁) :
    ∃ part, ofPath s₁ path₁ = .ok part ∧ part.steps.length = s₁.length ∧
      (part.isFresh = true ↔ List.Forall₂ StepData.IsFresh s₁ path₁) ∧
      ∀ before : Summary α, before.gates = s.map gatesOf →
        before.update path = (.error .pathKindMismatch, { part with gates := before.gates }) := by
  obtain ⟨part, hadded, hrefused, hfresh⟩ := addSteps_of_breaksOff h (cleared s₁)
  obtain ⟨e, s₂, data, path₂, -, -, hkinds, -⟩ := h
  obtain ⟨hpart, hsteps⟩ := ofPath_eq_ok hkinds.length_eq.symm hadded
  refine ⟨part, hpart, hsteps, by simpa [cleared] using hfresh, fun before hbefore => ?_⟩
  have hcleared : (cleared s : Summary α) = { cleared s₁ with gates := s.map gatesOf } := rfl
  rw [update_eq hbefore, if_pos hlength, hcleared, addSteps_withGates, hrefused, hbefore]

/-- The summary for a sequence after some updates. -/
def updated (s : Sequence) (earlier : List (List (StepData α))) : Summary α :=
  earlier.foldl (fun summary path => (summary.update path).2) (ofSequence s)

theorem updated_gates (s : Sequence) (earlier : List (List (StepData α))) :
    (updated s earlier : Summary α).gates = s.map gatesOf :=
  List.foldlRecOn (motive := fun summary : Summary α => summary.gates = s.map gatesOf) _ _ rfl
    fun summary hsummary path _ => (summary.update_gates path).trans hsummary

/-- As long as no path breaks off, a summary is new, or it has a step for each element. -/
theorem updated_eq_or_length {earlier : List (List (StepData α))}
    (h : ∀ path ∈ earlier, path.length = s.length → List.Forall₂ StepData.IsOfKind s path) :
    (updated s earlier : Summary α) = ofSequence s ∨
      (updated s earlier : Summary α).steps.length = s.length := by
  induction earlier using List.reverseRecOn with
  | nil => exact .inl rfl
  | append_singleton earlier path ih =>
    have hlast : (updated s (earlier ++ [path]) : Summary α) =
        ((updated s earlier).update path).2 := List.foldl_concat ..
    rw [hlast]
    by_cases hlength : path.length = s.length
    · obtain ⟨summary, -, hsteps, hupdate⟩ :=
        update_of_isOfKind (h path (List.mem_append_right _ (List.mem_singleton_self _)) hlength)
      rw [hupdate _ (updated_gates s earlier)]
      exact .inr hsteps
    · rw [update_eq (updated_gates s earlier), if_neg hlength]
      exact ih fun path hpath => h path (List.mem_append_left _ hpath)

/-- **What an update leaves.**  Whatever a summary was updated with before,
- a path with a step of the right kind for each element makes it the summary of the path;
- a path of another length is refused, and the summary is left as it was;
- a path of the right length that breaks off is refused, and the summary is left as that of the part
  up to there: it has the steps of the part only, and it is fresh if they are.  So it is not what it
  was before, unless an earlier path broke off too.

There is nothing else that can happen. -/
theorem update_outcomes (s : Sequence) (earlier : List (List (StepData α)))
    (path : List (StepData α)) :
    (List.Forall₂ StepData.IsOfKind s path ∧ ∃ summary, ofPath s path = .ok summary ∧
        (updated s earlier).update path = (.ok (), summary)) ∨
      (path.length ≠ s.length ∧ (updated s earlier).update path =
        (.error (.pathLengthMismatch path.length s.length), updated s earlier)) ∨
      (path.length = s.length ∧ ∃ s₁ path₁ part after, BreaksOff s path s₁ path₁ ∧
        ofPath s₁ path₁ = .ok part ∧ after = { part with gates := (updated s earlier).gates } ∧
        (updated s earlier).update path = (.error .pathKindMismatch, after) ∧
        after.steps.length = s₁.length ∧ s₁.length < s.length ∧
        (after.isFresh = true ↔ List.Forall₂ StepData.IsFresh s₁ path₁) ∧
        ((∀ path' ∈ earlier, path'.length = s.length →
          List.Forall₂ StepData.IsOfKind s path') → after ≠ updated s earlier)) := by
  have hgates := updated_gates s earlier
  by_cases hlength : path.length = s.length
  · by_cases hkinds : List.Forall₂ StepData.IsOfKind s path
    · obtain ⟨summary, hsummary, -, hupdate⟩ := update_of_isOfKind hkinds
      exact .inl ⟨hkinds, summary, hsummary, hupdate _ hgates⟩
    · obtain ⟨s₁, e, s₂, path₁, data, path₂, hs, hpath, hkinds₁, hnot⟩ :=
        exists_first_mismatch hlength.symm hkinds
      have hbreaks : BreaksOff s path s₁ path₁ := ⟨e, s₂, data, path₂, hs, hpath, hkinds₁, hnot⟩
      obtain ⟨part, hpart, hsteps, hfresh, hupdate⟩ := update_of_breaksOff hlength hbreaks
      have hless : s₁.length < s.length := by
        rw [hs, List.length_append, List.length_cons]
        omega
      refine .inr (.inr ⟨hlength, s₁, path₁, part, _, hbreaks, hpart, rfl, hupdate _ hgates, hsteps,
        hless, hfresh, fun hearlier hsame => ?_⟩)
      rcases updated_eq_or_length hearlier with hnew | hwhole
      · -- a new summary is not fresh, and one without any step is after a path that breaks off
        rw [hnew] at hsame
        have hnone : part.steps = [] := congrArg Summary.steps hsame
        have hstale : part.isFresh = false := congrArg Summary.isFresh hsame
        obtain rfl : s₁ = [] := List.length_eq_zero_iff.mp (hsteps.symm.trans (by rw [hnone]; rfl))
        obtain rfl := List.forall₂_nil_left_iff.mp hkinds₁
        exact Bool.false_ne_true (hstale.symm.trans (hfresh.mpr .nil))
      · rw [← hsame] at hwhole
        exact (hsteps.symm.trans hwhole).not_lt hless
  · exact .inr (.inl ⟨hlength, by rw [update_eq hgates, if_neg hlength]⟩)

/-- An update that fails leaves the summary as it was. -/
def KeepsOnFailure (s : Sequence) : Prop :=
  ∀ earlier path e after, (updated s earlier : Summary Float).update path = (.error e, after) →
    after = updated s earlier

/-- A member and a channel that it writes to. -/
def leavingSequence : Sequence :=
  [.vertex ⟨"A"⟩ none (some 0) .readWrite,
    .edge { source := ⟨"A"⟩, outputGate := 0, target := ⟨"B"⟩, inputGate := 0 } .readWrite]

/-- The member, after one measurement. -/
def leavingMember : VertexData Float :=
  VertexData.add { member := ⟨"a"⟩, capacity := 1 } { input := none, output := some 0 }
    { latency := some 2, consumed := none, emitted := none } 10

/-- A failed update makes a new summary fresh, with the latency of the member alone. -/
theorem not_keepsOnFailure :
    (∃ after, (updated leavingSequence [] : Summary Float).update
          [.vertex (some leavingMember), .vertex none] = (.error .pathKindMismatch, after) ∧
        after.isFresh = true ∧ after.steps.length = 1 ∧ after.latency = Latency.add 0 2) ∧
      ¬ KeepsOnFailure leavingSequence := by
  refine ⟨⟨_, rfl, rfl, rfl, rfl⟩, fun hkeeps => ?_⟩
  have hsame := hkeeps [] [.vertex (some leavingMember), .vertex none] _ _ rfl
  cases congrArg Summary.isFresh hsame

end Summary

end LatencyControl
