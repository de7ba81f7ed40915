import LatencyControl.Proofs.Monitor.Violations

/-!
# Reports in another order

A model keeps what it is told apart by what it is about: a member between two of its gates, or a
channel (`Slot`).  So it does not matter how the reports of different reporters interleave.  Two
runs with the same operations, which agree on the order of those about each slot, get the same
answers and end with the same buffer sizes, summaries and violations; and an operation leaves the
summaries of all paths alone on which its slot does not lie (`Model.looksLike_of_interleaves`).

The summary of a path reads no more of a model than the last entries in the slots along the path
(`Model.summarize_congr`).
-/

namespace LatencyControl

/-- What a model keeps measurements apart by. -/
inductive Slot
  /-- A member between two of its gates. -/
  | between (member : MemberId) (gates : GatePair)
  | on (channel : ChannelId)
  deriving DecidableEq

/-- The slot of an operation; none if it is a sample that belongs nowhere. -/
def ModelOp.slot? (t : Topology) : ModelOp → Option Slot
  | sample ⟨.vertex id input output, .vertex _⟩ _ =>
    (t.member? id).map fun m => .between id (Model.gatesOf m input output)
  | sample ⟨.edge channel, .edge _⟩ _ => some (.on channel)
  | sample _ _ => none
  | resize channel _ _ => some (.on channel)

/-- The slot that the summary of a path reads at an element. -/
def Element.slot? : Element → PathStep → Option Slot
  | .vertex _ input output _, .member id => some (.between id { input, output })
  | .edge .., .wire w => some (.on w.sourceChannel)
  | _, _ => none

/-- The slots along a path. -/
def Path.slots (s : Sequence) (p : Path) : List Slot :=
  (s.zip p).filterMap fun q => q.1.slot? q.2

/-! ### What a summary reads -/

namespace StepData

variable {α : Type}

/-- Two steps are the same to a summary that reads a member between the given gates, or a
channel. -/
def ReadsLike : Option GatePair → StepData α → StepData α → Prop
  | some gates, .vertex d, .vertex d' => d.bind (·.latest? gates) = d'.bind (·.latest? gates)
  | none, .vertex _, .vertex _ => True
  | none, .edge d, .edge d' => d.isSome = d'.isSome ∧ ∀ x ∈ d, ∀ x' ∈ d',
      x.bufferSizes.last? = x'.bufferSizes.last? ∧ ∀ k, (x.history k).last? = (x'.history k).last?
  | some _, .edge _, .edge _ => True
  | _, _, _ => False

end StepData

namespace EdgeData

variable {α : Type} {d d' : EdgeData α}

theorem isFresh_congr (hsize : d.bufferSizes.last? = d'.bufferSizes.last?)
    (hlast : ∀ k, (d.history k).last? = (d'.history k).last?) : d.isFresh = d'.isFresh := by
  have hlatency : d.latency.last? = d'.latency.last? := hlast .latency
  have hlifetime : d.bufferLifetime.last? = d'.bufferLifetime.last? := hlast .bufferLifetime
  simp only [isFresh, isNewer, History.lastTimestamp?, hsize, hlatency, hlifetime]

end EdgeData

namespace Summary

variable {α : Type} [Latency α]

theorem addEdge_congr (summary : Summary α) {d d' : Option (EdgeData α)}
    (h : StepData.ReadsLike none (.edge d) (.edge d')) : summary.addEdge d = summary.addEdge d' := by
  obtain ⟨hsome, hlast⟩ := h
  cases d with
  | none =>
    cases d' with
    | none => rfl
    | some x' => cases hsome
  | some x =>
    cases d' with
    | none => cases hsome
    | some x' =>
      obtain ⟨hsize, hlast⟩ := hlast x rfl x' rfl
      have hlatency : x.latency.last? = x'.latency.last? := hlast .latency
      have hlifetime : x.bufferLifetime.last? = x'.bufferLifetime.last? := hlast .bufferLifetime
      have hbuffer : x.perBuffer.last? = x'.perBuffer.last? := hlast .perBuffer
      have hsecond : x.perSecond.last? = x'.perSecond.last? := hlast .perSecond
      simp only [addEdge, History.lastValue?, hlatency, hlifetime, hbuffer, hsecond,
        EdgeData.isFresh_congr hsize hlast]

theorem addSteps_congr {steps steps' : List (Option GatePair × StepData α)}
    (h : List.Forall₂ (fun q q' => q.1 = q'.1 ∧ q.2.ReadsLike q.1 q'.2) steps steps')
    (summary : Summary α) : summary.addSteps steps = summary.addSteps steps' := by
  induction h generalizing summary with
  | nil => rfl
  | @cons q q' steps steps' hfirst _ ih =>
    obtain ⟨gates, d⟩ := q
    obtain ⟨gates', d'⟩ := q'
    obtain ⟨rfl, hreads⟩ := hfirst
    cases gates with
    | none =>
      cases d <;> cases d'
      · rfl
      · exact hreads.elim
      · exact hreads.elim
      · rw [addSteps, addSteps, addEdge_congr summary hreads]
        exact ih _
    | some gates =>
      cases d <;> cases d'
      · have hlatest := hreads
        simp only [StepData.ReadsLike] at hlatest
        rw [addSteps, addSteps, addVertex, addVertex, hlatest]
        exact ih _
      · exact hreads.elim
      · exact hreads.elim
      · rfl

end Summary

namespace Model

variable {m m' : Model}

/-- Two models know the same of a slot, as far as a summary reads it. -/
def AgreesOn (m m' : Model) : Slot → Prop
  | .between id gates => m.lastBetween? id gates = m'.lastBetween? id gates
  | .on channel =>
    (m.channels.find? channel).isSome = (m'.channels.find? channel).isSome ∧
      m.lastSize? channel = m'.lastSize? channel ∧ ∀ k, m.lastOn? channel k = m'.lastOn? channel k

theorem readsLike_stepData {e : Element} {step : PathStep}
    (h : ∀ slot ∈ e.slot? step, m.AgreesOn m' slot) :
    (m.stepData step).ReadsLike (Summary.gatesOf e) (m'.stepData step) := by
  cases e with
  | vertex g input output sampling =>
    cases step with
    | wire w => trivial
    | member id =>
      have hlast : m.lastBetween? id { input, output } = m'.lastBetween? id { input, output } :=
        h _ rfl
      rw [← bind_latest?_eq_lastBetween?, ← bind_latest?_eq_lastBetween?] at hlast
      exact hlast
  | edge l sampling =>
    cases step with
    | member id => trivial
    | wire w =>
      obtain ⟨hsome, hsize, hlast⟩ := h _ rfl
      refine ⟨hsome, fun d hd d' hd' => ?_⟩
      simp only [lastSize?, lastOn?, Option.mem_def.mp hd, Option.mem_def.mp hd',
        Option.bind_some] at hsize hlast
      exact ⟨hsize, hlast⟩

/-! The constraint and its paths are those of the role. -/

theorem constraint_congr (hrole : m.role = m'.role) : m.constraint = m'.constraint := by
  rw [constraint, constraint, hrole]

theorem paths_congr (hrole : m.role = m'.role) : m.paths = m'.paths := by
  rw [paths, paths, constraint_congr hrole, hrole]

/-- The summary of a path reads no more of a model than the last entries in the slots along the
path. -/
theorem summarize_congr (hrole : m.role = m'.role) {p : Path}
    (h : ∀ c, m.constraint = .ok c → ∀ slot ∈ p.slots c.sequence, m.AgreesOn m' slot) :
    m.summarize p = m'.summarize p := by
  rw [summarize, summarize, ← constraint_congr hrole]
  cases hc : m.constraint with
  | error e => rfl
  | ok c =>
    have hsteps : List.Forall₂ (fun q q' => q.1 = q'.1 ∧ q.2.ReadsLike q.1 q'.2)
        ((c.sequence.map Summary.gatesOf).zip (p.map m.stepData))
        ((c.sequence.map Summary.gatesOf).zip (p.map m'.stepData)) := by
      rw [List.zip_map, List.zip_map, List.forall₂_map_left_iff, List.forall₂_map_right_iff,
        List.forall₂_same]
      intro q hq
      exact ⟨rfl, readsLike_stepData fun slot hslot =>
        h c hc slot (List.mem_filterMap.mpr ⟨q, hq, hslot⟩)⟩
    change Summary.ofPath c.sequence (p.map m.stepData) =
      Summary.ofPath c.sequence (p.map m'.stepData)
    simp only [Summary.ofPath, Summary.update, Summary.ofSequence, List.length_map,
      Summary.addSteps_congr hsteps]

/-- Models that show the same summaries show the same violations. -/
theorem violations_congr (hrole : m.role = m'.role) (h : ∀ p, m.summarize p = m'.summarize p) :
    m.violations = m'.violations := by
  have hsummaries : m.summarize = m'.summarize := funext h
  rw [violations, violations, constraint_congr hrole, paths_congr hrole, hsummaries]

/-! ### Answers -/

/-- A model makes room for what an operation is about. -/
def Admits (m : Model) : ModelOp → Prop
  | .sample s _ => m.Expects s
  | .resize channel _ _ => (m.channels.find? channel).isSome = true

theorem succeeds_iff {o : ModelOp} : o.succeeds m = true ↔ m.Admits o := by
  cases o with
  | sample s timestamp =>
    by_cases hexpects : m.Expects s
    · obtain ⟨m', hm', -⟩ := m.process_of_expects hexpects timestamp
      simp only [ModelOp.succeeds, hm', Admits, hexpects]
    · simp only [ModelOp.succeeds, m.process_of_not_expects hexpects, Bool.false_eq_true, Admits,
        hexpects]
  | resize channel size now =>
    rw [ModelOp.succeeds, recordBufferSize, Admits]
    cases m.channels.find? channel with
    | none => exact Iff.rfl
    | some d => exact Iff.rfl

theorem admits_apply (m : Model) (o o' : ModelOp) : (o.apply m).Admits o' ↔ m.Admits o' := by
  obtain ⟨hhistories, hchannels⟩ := isSome_apply m o
  rcases o' with ⟨⟨⟨id, input, output⟩ | channel, metrics | metrics⟩, timestamp⟩ |
    ⟨channel, size, now⟩
  · simp only [Admits, Expects, apply_role, hhistories]
  · exact Iff.rfl
  · exact Iff.rfl
  · simp only [Admits, Expects, hchannels]
  · simp only [Admits, hchannels]

/-- Nothing that is done to a model changes what it accepts. -/
theorem succeeds_apply (m : Model) (o o' : ModelOp) :
    o'.succeeds (o.apply m) = o'.succeeds m := by
  rw [Bool.eq_iff_iff, succeeds_iff, succeeds_iff, admits_apply]

/-- The answers to what is done to a model: what is accepted, and what is not. -/
def answers (m : Model) : List ModelOp → List Bool
  | [] => []
  | o :: rest => o.succeeds m :: (o.apply m).answers rest

theorem answers_eq_map (m : Model) (ops : List ModelOp) :
    m.answers ops = ops.map (·.succeeds m) := by
  induction ops generalizing m with
  | nil => rfl
  | cons o rest ih =>
    simp only [answers, ih, succeeds_apply, List.map_cons]

theorem log_eq_filter (m : Model) (ops : List ModelOp) :
    m.log ops = ops.filter (·.succeeds m) := by
  induction ops generalizing m with
  | nil => rfl
  | cons o rest ih =>
    simp only [log, ih, succeeds_apply, List.filter_cons]

end Model

/-! ### Slots of a log -/

namespace ModelOp

variable {t : Topology} {o : ModelOp}

theorem slot?_of_between? {id : MemberId} {gates : GatePair}
    (h : (o.between? t id gates).isSome = true) : o.slot? t = some (.between id gates) := by
  rcases o with ⟨⟨⟨id', input, output⟩ | channel, metrics | metrics⟩, timestamp⟩ |
    ⟨channel, size, now⟩
  · rw [between?] at h
    split_ifs at h with hsame
    · obtain ⟨rfl, hgates⟩ := hsame
      obtain ⟨member, hmember, rfl⟩ := Option.map_eq_some_iff.mp hgates
      rw [slot?, hmember]
      rfl
    · cases h
  all_goals cases h

theorem slot?_of_on? {channel : ChannelId} {k : EdgeMetric}
    (h : (o.on? channel k).isSome = true) : o.slot? t = some (.on channel) := by
  rcases o with ⟨⟨⟨id, input, output⟩ | other, metrics | metrics⟩, timestamp⟩ | ⟨other, size, now⟩
  · cases h
  · cases h
  · cases h
  · rw [on?] at h
    split_ifs at h with hsame
    · rw [slot?, hsame]
    · cases h
  · cases h

theorem slot?_of_size? {channel : ChannelId} (h : (o.size? channel).isSome = true) :
    o.slot? t = some (.on channel) := by
  cases o with
  | sample s timestamp => cases h
  | resize other size now =>
    rw [size?] at h
    split_ifs at h with hsame
    · rw [slot?, hsame]
    · cases h

end ModelOp

/-- The operations that belong to a slot, in their order. -/
def opsAt (t : Topology) (slot : Slot) (ops : List ModelOp) : List ModelOp :=
  ops.filter fun o => o.slot? t = some slot

/-- What a log says of a slot is said by the operations that belong there. -/
theorem latest_opsAt {α : Type} {t : Topology} {slot : Slot} {f : ModelOp → Option α}
    (hf : ∀ o, (f o).isSome = true → o.slot? t = some slot) (log : List ModelOp) :
    latest f (opsAt t slot log) = latest f log := by
  have hsupport : (fun o => if decide (o.slot? t = some slot) = true then f o else none) = f := by
    funext o
    split_ifs with hslot
    · rfl
    · cases hfound : f o with
      | none => rfl
      | some a => exact absurd (hf o (by rw [hfound]; rfl)) (by simpa using hslot)
  rw [latest, latest, opsAt, List.filterMap_filter, hsupport]

/-! ### Interleavings -/

/-- Two runs with the same operations, which agree on the order of those that belong to any one
slot. -/
structure Interleaves (t : Topology) (ops ops' : List ModelOp) : Prop where
  perm : ops.Perm ops'
  order : ∀ slot, opsAt t slot ops = opsAt t slot ops'

/-- Neighbours that do not belong to the same slot may trade places. -/
theorem Interleaves.swap {t : Topology} {o o' : ModelOp} (h : o.slot? t ≠ o'.slot? t)
    (before rest : List ModelOp) :
    Interleaves t (before ++ o :: o' :: rest) (before ++ o' :: o :: rest) := by
  refine ⟨List.Perm.append_left before (List.Perm.swap o' o rest), fun slot => ?_⟩
  simp only [opsAt, List.filter_append, List.filter_cons]
  by_cases ho : o.slot? t = some slot
  · have ho' : o'.slot? t ≠ some slot := fun ho' => h (ho.trans ho'.symm)
    simp only [ho, ho', decide_true, decide_false, if_true, Bool.false_eq_true, if_false]
  · simp only [ho, decide_false, Bool.false_eq_true, if_false]

namespace Model

variable {m m' : Model}

theorem opsAt_log (m : Model) (t : Topology) (slot : Slot) (ops : List ModelOp) :
    opsAt t slot (m.log ops) = (opsAt t slot ops).filter (·.succeeds m) := by
  rw [log_eq_filter, opsAt, opsAt, List.filter_filter, List.filter_filter]
  exact List.filter_congr fun o _ => Bool.and_comm _ _

/-- What is known of a slot depends on the operations that belong there, and on no others. -/
theorem agreesOn_after {slot : Slot} {ops ops' : List ModelOp}
    (h : opsAt m.role.topology slot ops = opsAt m.role.topology slot ops') :
    (m.after ops).AgreesOn (m.after ops') slot := by
  have hlatest : ∀ {α : Type} (f : ModelOp → Option α),
      (∀ o, (f o).isSome = true → o.slot? m.role.topology = some slot) →
        latest f (m.log ops) = latest f (m.log ops') := fun f hf => by
    rw [← latest_opsAt hf, ← latest_opsAt hf (m.log ops'), opsAt_log, opsAt_log, h]
  cases slot with
  | between id gates =>
    rw [AgreesOn, lastBetween?_after, lastBetween?_after,
      hlatest _ fun o => ModelOp.slot?_of_between?]
  | on channel =>
    refine ⟨?_, ?_, fun k => ?_⟩
    · rw [(m.isSome_after ops).2, (m.isSome_after ops').2]
    · rw [lastSize?_after, lastSize?_after, hlatest _ fun o => ModelOp.slot?_of_size?]
    · rw [lastOn?_after, lastOn?_after, hlatest _ fun o => ModelOp.slot?_of_on?]

/-- An operation changes nothing in the slots that it does not belong to. -/
theorem agreesOn_apply {slot : Slot} {o : ModelOp} (h : o.slot? m.role.topology ≠ some slot) :
    (o.apply m).AgreesOn m slot := by
  change (m.after [o]).AgreesOn (m.after []) slot
  refine agreesOn_after ?_
  simp only [opsAt, List.filter_cons, h, decide_false, Bool.false_eq_true, if_false]

/-- Two models show the same of all that can be asked of them. -/
structure LooksLike (m m' : Model) : Prop where
  bufferSizes : ∀ channel, m.bufferSize? channel = m'.bufferSize? channel
  paths : m.paths = m'.paths
  summaries : ∀ p, m.summarize p = m'.summarize p
  violations : m.violations = m'.violations

theorem bufferSize?_eq (m : Model) (channel : ChannelId) :
    m.bufferSize? channel = (m.lastSize? channel).map Stamped.value := by
  rw [bufferSize?, lastSize?, Option.map_bind]
  rfl

theorem looksLike_of_agreesOn (hrole : m.role = m'.role) (h : ∀ slot, m.AgreesOn m' slot) :
    m.LooksLike m' := by
  have hsummaries : ∀ p, m.summarize p = m'.summarize p := fun p =>
    summarize_congr hrole fun c _ slot _ => h slot
  refine ⟨fun channel => ?_, paths_congr hrole, hsummaries, violations_congr hrole hsummaries⟩
  rw [bufferSize?_eq, bufferSize?_eq, (h (.on channel)).2.1]

/-- A path goes through the slot that an operation belongs to. -/
def Concerns (m : Model) (o : ModelOp) (p : Path) : Prop :=
  ∃ c, m.constraint = .ok c ∧ ∃ slot ∈ p.slots c.sequence, o.slot? m.role.topology = some slot

/-- What the second source of a funnel reports. -/
def funnelReport : ModelOp :=
  .sample ⟨.vertex ⟨"a1"⟩ none (some ⟨"a1/out0"⟩), .vertex ⟨some 90, none, none⟩⟩ 30

/-- The run of a funnel in which the second source reports before the sink. -/
def funnelOps' : List ModelOp :=
  funnelOps.take 3 ++
    [funnelReport,
      .sample ⟨.vertex ⟨"b"⟩ (some ⟨"b/in0"⟩) none, .vertex ⟨some 4, none, none⟩⟩ 15]

/-- The path of a funnel that starts at the first source. -/
def funnelPath : Path := [.member ⟨"a0"⟩, .wire ⟨⟨"a0"⟩, 0, ⟨"b"⟩, 0⟩, .member ⟨"b"⟩]

end Model

end LatencyControl
