import LatencyControl.Proofs.Monitor.Updating
import Mathlib.Algebra.Order.BigOperators.Group.List
import Mathlib.Algebra.Order.Field.Rat

/-!
# What latencies are made of

Over the rational numbers, where sums are exact, the latency of a path is the sum of the latencies
of its steps, and that of its output buffers the sum of what buffers have a part in
(`Summary.update_isBreakdown`).  What buffers have a part in is never more than the latency of the
channel, so the rest is never negative, unless the latency of a member is.

A member or a channel of which nothing was measured adds nothing, and makes the summary stale.  It
is another matter if a member was measured by a reporter that cannot tell its latency, because it
watches one side of the member only: then the member counts as measured, with latency zero.
-/

namespace LatencyControl

instance : Latency ℚ where
  zero := 0
  add := (· + ·)
  sub := (· - ·)
  half x := x / 2
  lesser := min

/-! ### Missing measurements -/

/-- A metric that is newer than a buffer size was measured. -/
theorem EdgeData.isSome_last?_of_isNewer {α : Type} {d : EdgeData α} {metric : History α}
    (h : d.isNewer metric = true) : metric.last?.isSome = true := by
  unfold isNewer History.lastTimestamp? at h
  cases hlast : metric.last? with
  | some entry => rfl
  | none =>
    rw [hlast] at h
    cases hsize : d.bufferSizes.last? with
    | none => rw [hsize] at h; cases h
    | some change => rw [hsize] at h; cases h

namespace StepData

variable {α : Type}

/-- Nothing was measured of a step that its latency could be told from. -/
def IsMissing : Element → StepData α → Prop
  | .vertex _ input output _, .vertex data => data.bind (·.latest? { input, output }) = none
  | .edge .., .edge data =>
    data.bind (·.latency.last?) = none ∨ data.bind (·.bufferLifetime.last?) = none
  | _, _ => False

theorem IsFresh.not_isMissing {e : Element} {data : StepData α} (h : data.IsFresh e) :
    ¬ data.IsMissing e := by
  cases e <;> cases data
  · exact fun hmissing => Option.isSome_iff_ne_none.mp h hmissing
  · exact h.elim
  · exact h.elim
  · obtain ⟨d, rfl, hfresh⟩ := h
    obtain ⟨hlatency, hlifetime⟩ := Bool.and_eq_true_iff.mp hfresh
    rintro (hnone | hnone)
    · exact Option.isSome_iff_ne_none.mp (EdgeData.isSome_last?_of_isNewer hlatency) hnone
    · exact Option.isSome_iff_ne_none.mp (EdgeData.isSome_last?_of_isNewer hlifetime) hnone

end StepData

/-! ### Figures of steps -/

namespace StepSummary

/-- The latency of a step. -/
def latency : StepSummary ℚ → ℚ
  | .vertex latency _ _ => latency
  | .edge bufferLatency otherLatency _ _ => bufferLatency + otherLatency

/-- The latency of a step that output buffers have a part in. -/
def bufferLatency : StepSummary ℚ → ℚ
  | .vertex .. => 0
  | .edge bufferLatency _ _ _ => bufferLatency

/-- The latency of a channel is split up between its output buffers and the rest: the buffers take
half of their lifetime, but no more than there is. -/
structure SplitsUp (latency lifetime bufferLatency otherLatency : ℚ) : Prop where
  total : bufferLatency + otherLatency = latency
  le_latency : bufferLatency ≤ latency
  le_half : bufferLatency ≤ lifetime / 2
  greatest : bufferLatency = latency ∨ bufferLatency = lifetime / 2
  other_nonneg : 0 ≤ otherLatency

theorem splitsUp_min (latency lifetime : ℚ) :
    SplitsUp latency lifetime (min latency (lifetime / 2))
      (latency - min latency (lifetime / 2)) := by
  have hle : min latency (lifetime / 2) ≤ latency := min_le_left _ _
  exact ⟨add_sub_cancel _ _, hle, min_le_right _ _, min_choice _ _, sub_nonneg.mpr hle⟩

/-- The figures of a step are those that were measured last; what was not measured counts as
zero. -/
def Describes (step : StepSummary ℚ) : Element → StepData ℚ → Prop
  | .vertex _ input output _, .vertex data =>
    match data.bind (·.latest? { input, output }) with
    | none => step = .vertex 0 0 0
    | some entry => step = .vertex (entry.value.latency.getD 0) (entry.value.consumed.getD 0)
        (entry.value.emitted.getD 0)
  | .edge .., .edge none => step = .edge 0 0 0 0
  | .edge .., .edge (some d) => ∃ bufferLatency otherLatency,
      step = .edge bufferLatency otherLatency (d.perBuffer.lastValue?.getD 0)
        (d.perSecond.lastValue?.getD 0) ∧
      SplitsUp (d.latency.lastValue?.getD 0) (d.bufferLifetime.lastValue?.getD 0) bufferLatency
        otherLatency
  | _, _ => False

/-- What buffers have no part in is not negative. -/
theorem Describes.other_nonneg {bufferLatency otherLatency perBuffer perSecond : ℚ} {e : Element}
    {data : StepData ℚ}
    (h : (edge bufferLatency otherLatency perBuffer perSecond).Describes e data) :
    0 ≤ otherLatency := by
  cases e <;> cases data
  · next g input output sampling data =>
    simp only [Describes] at h
    split at h
    · cases h
    · cases h
  · exact h.elim
  · exact h.elim
  · next l sampling data =>
    cases data with
    | none =>
      cases h
      exact le_rfl
    | some d =>
      obtain ⟨_, _, hstep, hsplits⟩ := h
      cases hstep
      exact hsplits.other_nonneg

/-- Buffers have a part in no more than the latency of a step, unless that of a member is
negative. -/
theorem Describes.bufferLatency_le {step : StepSummary ℚ} {e : Element} {data : StepData ℚ}
    (h : step.Describes e data)
    (hvertex : ∀ latency consumed emitted, step = .vertex latency consumed emitted → 0 ≤ latency) :
    step.bufferLatency ≤ step.latency := by
  cases step with
  | vertex latency consumed emitted => exact hvertex _ _ _ rfl
  | edge bufferLatency otherLatency perBuffer perSecond =>
    exact le_add_of_nonneg_right h.other_nonneg

end StepSummary

namespace Summary

variable {s : Sequence} {path : List (StepData ℚ)}

/-- A summary with some more steps, whose latencies were added up. -/
structure Gains (summary summary' : Summary ℚ) (more : List (StepSummary ℚ)) : Prop where
  steps : summary'.steps = summary.steps ++ more
  latency : summary'.latency = summary.latency + (more.map StepSummary.latency).sum
  bufferLatency :
    summary'.bufferLatency = summary.bufferLatency + (more.map StepSummary.bufferLatency).sum

theorem Gains.refl (summary : Summary ℚ) : Gains summary summary [] :=
  ⟨(List.append_nil _).symm, (add_zero _).symm, (add_zero _).symm⟩

theorem Gains.single {summary summary' : Summary ℚ} {step : StepSummary ℚ}
    (hsteps : summary'.steps = summary.steps ++ [step])
    (hlatency : summary'.latency = summary.latency + step.latency)
    (hbuffer : summary'.bufferLatency = summary.bufferLatency + step.bufferLatency) :
    Gains summary summary' [step] := by
  refine ⟨hsteps, ?_, ?_⟩
  · rw [hlatency, List.map_singleton, List.sum_singleton]
  · rw [hbuffer, List.map_singleton, List.sum_singleton]

theorem Gains.trans {a b c : Summary ℚ} {more later : List (StepSummary ℚ)}
    (h : Gains a b more) (h' : Gains b c later) : Gains a c (more ++ later) := by
  constructor
  · rw [h'.steps, h.steps, List.append_assoc]
  · rw [h'.latency, h.latency, List.map_append, List.sum_append, add_assoc]
  · rw [h'.bufferLatency, h.bufferLatency, List.map_append, List.sum_append, add_assoc]

/-- A step adds its figures, and what is not known of it counts as zero. -/
theorem addStep_describes {e : Element} {data : StepData ℚ} (h : data.IsOfKind e)
    (summary : Summary ℚ) :
    ∃ step : StepSummary ℚ,
      step.Describes e data ∧ Gains summary (summary.addStep e data) [step] := by
  have hnone : summary.latency = summary.latency + 0 := (add_zero _).symm
  have hnoBuffer : summary.bufferLatency = summary.bufferLatency + 0 := (add_zero _).symm
  cases e <;> cases data
  · next g input output sampling data =>
    simp only [StepSummary.Describes, addStep, addVertex]
    cases data.bind (·.latest? { input, output }) with
    | none => exact ⟨_, rfl, .single rfl hnone hnoBuffer⟩
    | some entry => exact ⟨_, rfl, .single rfl rfl hnoBuffer⟩
  · exact h.elim
  · exact h.elim
  · next l sampling data =>
    cases data with
    | none =>
      refine ⟨_, rfl, .single rfl ?_ hnoBuffer⟩
      rw [StepSummary.latency, add_zero]
      exact hnone
    | some d =>
      have hsplits := StepSummary.splitsUp_min (d.latency.lastValue?.getD 0)
        (d.bufferLifetime.lastValue?.getD 0)
      refine ⟨_, ⟨_, _, rfl, hsplits⟩, .single rfl ?_ rfl⟩
      rw [StepSummary.latency, hsplits.total]
      rfl

/-- The steps of a path add their figures, one after the other. -/
theorem addSteps_describes (h : List.Forall₂ StepData.IsOfKind s path) (summary : Summary ℚ) :
    ∃ steps result, summary.addSteps ((s.map gatesOf).zip path) = (.ok (), result) ∧
      List.Forall₂ (fun step p => StepSummary.Describes step p.1 p.2) steps (s.zip path) ∧
      Gains summary result steps := by
  induction h generalizing summary with
  | nil => exact ⟨[], summary, rfl, .nil, .refl summary⟩
  | @cons e data s path hkind _ ih =>
    obtain ⟨step, hstep, hgains⟩ := addStep_describes hkind summary
    obtain ⟨steps, result, hresult, hsteps, hrest⟩ := ih (summary.addStep e data)
    exact ⟨step :: steps, result, (addSteps_cons hkind summary s path).trans hresult,
      .cons hstep hsteps, hgains.trans hrest⟩

/-! ### Breakdowns -/

/-- A summary breaks the latency of a path down. -/
structure IsBreakdown (summary : Summary ℚ) (s : Sequence) (path : List (StepData ℚ)) : Prop where
  steps : List.Forall₂ (fun step p => StepSummary.Describes step p.1 p.2) summary.steps (s.zip path)
  latency : summary.latency = (summary.steps.map StepSummary.latency).sum
  bufferLatency : summary.bufferLatency = (summary.steps.map StepSummary.bufferLatency).sum
  total : summary.latency = summary.bufferLatency + summary.otherLatency
  other_nonneg : (∀ latency consumed emitted, .vertex latency consumed emitted ∈ summary.steps →
    0 ≤ latency) → 0 ≤ summary.otherLatency
  isFresh : summary.isFresh = true ↔ List.Forall₂ StepData.IsFresh s path
  stale : (∃ p ∈ s.zip path, p.2.IsMissing p.1) → summary.isFresh = false

/-- **What latencies are made of.**  Whatever a summary said before, an update with a step of the
right kind for each element makes it one that breaks the latency of the path down, and always the
same one. -/
theorem update_isBreakdown (h : List.Forall₂ StepData.IsOfKind s path) :
    ∃ summary : Summary ℚ, summary.IsBreakdown s path ∧
      ∀ before : Summary ℚ, before.gates = s.map gatesOf →
        before.update path = (.ok (), summary) := by
  obtain ⟨steps, summary, hsummary, hsteps, hgains⟩ := addSteps_describes h (cleared s)
  obtain ⟨summary', hsummary', hfresh, -⟩ := addSteps_of_isOfKind h (cleared s)
  obtain rfl : summary = summary' := (Prod.mk.inj (hsummary.symm.trans hsummary')).2
  obtain rfl : summary.steps = steps := hgains.steps
  have hlatency : summary.latency = (summary.steps.map StepSummary.latency).sum :=
    hgains.latency.trans (zero_add _)
  have hbuffer : summary.bufferLatency = (summary.steps.map StepSummary.bufferLatency).sum :=
    hgains.bufferLatency.trans (zero_add _)
  have hfresh : summary.isFresh = true ↔ List.Forall₂ StepData.IsFresh s path := by
    simpa [cleared] using hfresh
  refine ⟨summary, ⟨hsteps, hlatency, hbuffer, (add_sub_cancel _ _).symm, fun hvertices => ?_,
    hfresh, ?_⟩, fun before hbefore => ?_⟩
  · -- buffers have a part in no more than the latency of each step, so in no more than the total
    have hle : summary.bufferLatency ≤ summary.latency := by
      rw [hlatency, hbuffer]
      refine List.sum_le_sum fun step hstep => ?_
      obtain ⟨p, -, hdescribes⟩ := exists_result hsteps hstep
      exact hdescribes.bufferLatency_le fun latency consumed emitted hvertex =>
        hvertices latency consumed emitted (hvertex ▸ hstep)
    exact sub_nonneg.mpr hle
  · rintro ⟨p, hp, hmissing⟩
    refine Bool.eq_false_iff.mpr fun hall => ?_
    exact ((List.forall₂_iff_zip.mp (hfresh.mp hall)).2 hp).not_isMissing hmissing
  · rw [update_eq hbefore, if_pos h.length_eq.symm, hsummary]

/-- What is known of a funnel before its sink was measured. -/
def funnelSteps : List (StepData ℚ) :=
  [.vertex (some (VertexData.add { member := ⟨"a0"⟩, capacity := 4 }
      { input := none, output := some 0 } { latency := some 2, consumed := none, emitted := some 7 }
      10)),
    .edge (some ((EdgeData.deployed ⟨"a0[0]->b[0]"⟩ 4 4096 0).add
      { latency := some 20, bufferLifetime := some 10, perBuffer := some 3, perSecond := none }
      10)),
    .vertex none]

theorem update_isBreakdown_funnelSteps :
    List.Forall₂ StepData.IsOfKind Model.funnelConstraint.sequence funnelSteps ∧
      ∃ summary : Summary ℚ, summary.IsBreakdown Model.funnelConstraint.sequence funnelSteps ∧
        (updated Model.funnelConstraint.sequence [List.replicate 3 (.vertex none)]).update
          funnelSteps = (.ok (), summary) := by
  have hkinds : List.Forall₂ StepData.IsOfKind Model.funnelConstraint.sequence funnelSteps :=
    .cons trivial (.cons trivial (.cons trivial .nil))
  obtain ⟨summary, hbreakdown, hupdate⟩ := update_isBreakdown hkinds
  exact ⟨hkinds, summary, hbreakdown, hupdate _ (updated_gates _ _)⟩

example : (ofPath Model.funnelConstraint.sequence funnelSteps).toOption.map
    (fun summary =>
      (summary.latency, summary.bufferLatency, summary.otherLatency, summary.isFresh)) =
    some (22, 5, 17, false) := by decide +kernel

end Summary

end LatencyControl
