import LatencyControl.Proofs.Monitor.Violations

/-!
# Stale channels

A new buffer size makes what was measured of its channel stale: no path across the channel is fresh,
nor reported as a violation, until the channel is measured again.  This compares the times of the
samples, which reporters read from their clocks, with the clock of the manager that sets the size.
It holds if the last latency or the last buffer lifetime from before is not stamped later than that
clock reads (`Model.isStaleOn_of_recordBufferSize`), and it fails if reporters are ahead
(`Model.not_goesStale`).
-/

namespace LatencyControl

/-- An operation is the report of a channel. -/
def ModelOp.Reports (channel : ChannelId) : ModelOp → Prop
  | .sample s _ => s.reporter = .edge channel
  | .resize .. => False

instance (channel : ChannelId) : (o : ModelOp) → Decidable (o.Reports channel)
  | .sample s _ => inferInstanceAs (Decidable (s.reporter = .edge channel))
  | .resize .. => inferInstanceAs (Decidable False)

theorem ModelOp.on?_eq_none {channel : ChannelId} {o : ModelOp} (h : ¬ o.Reports channel)
    (k : EdgeMetric) : o.on? channel k = none := by
  obtain ⟨⟨⟨id, input, output⟩ | other, metrics | metrics⟩, timestamp⟩ | ⟨other, size, now⟩ := o
  · rfl
  · rfl
  · rfl
  · exact if_neg fun hsame => h (congrArg ReporterId.edge hsame)
  · rfl

/-- A path goes across a channel. -/
def Crosses (channel : ChannelId) (p : Path) : Prop := ∃ w, .wire w ∈ p ∧ w.sourceChannel = channel

namespace Model

/-- No path across a channel is summarized as fresh, and none is reported. -/
def IsStaleOn (m : Model) (channel : ChannelId) : Prop :=
  ∃ c paths found, m.constraint = .ok c ∧ m.paths = .ok paths ∧ m.violations = .ok found ∧
    ∀ p ∈ paths, Crosses channel p →
      (∃ summary, m.summarize p = .ok summary ∧ summary.isFresh = false) ∧
        ∀ v ∈ found, ¬ m.Shows c p v

variable {role : ManagerRole} {settings : Settings} {deployed : Int} {m m' : Model}
  {channel : ChannelId}

/-- A log that attests to a path attests to its channels. -/
theorem isMeasured_of_attests {t : Topology} {log : List ModelOp} {s : Sequence} {p : Path}
    (h : List.Forall₂ (Attests t deployed log) s p) (hcrosses : Crosses channel p) :
    IsMeasured deployed log channel .latency ∧ IsMeasured deployed log channel .bufferLifetime := by
  obtain ⟨w, hw, rfl⟩ := hcrosses
  obtain ⟨e, -, hattests⟩ := exists_item h hw
  cases e with
  | vertex g input output sampling => exact hattests.elim
  | edge l sampling => exact hattests

/-- A channel of which a latency metric was not measured since the last change of its buffer size is
stale. -/
theorem isStaleOn_of_not_isMeasured (hm : create role settings deployed = .ok m)
    (ops : List ModelOp)
    (h : ¬ (IsMeasured deployed (m.log ops) channel .latency ∧
      IsMeasured deployed (m.log ops) channel .bufferLifetime)) :
    (m.after ops).IsStaleOn channel := by
  obtain ⟨c, paths, hc, hpaths, hsummaries⟩ := summaries_after hm ops
  have hc := (constraint_after m ops).trans hc
  obtain ⟨found, hfound, hshown⟩ := exists_violations
    (P := Violates m.role.topology deployed (m.log ops) c) hc hpaths fun p hp => by
      obtain ⟨summary, hsummary, hfresh, hlatency⟩ := hsummaries p hp
      exact ⟨summary, hsummary, violates_iff hfresh hlatency⟩
  refine ⟨c, paths, found, hc, hpaths, hfound, fun p hp hcrosses => ?_⟩
  obtain ⟨summary, hsummary, hfresh, -⟩ := hsummaries p hp
  have hstale : ¬ summary.isFresh = true :=
    fun hall => h (isMeasured_of_attests (hfresh.mp hall) hcrosses)
  refine ⟨⟨summary, hsummary, Bool.eq_false_iff.mpr hstale⟩, fun v hv hshows => hstale ?_⟩
  -- a violation has a fresh summary, and it is the summary of the path that it is shown for
  obtain ⟨p', hp', hshows'⟩ := exists_item hshown hv
  obtain ⟨hp', hviolates⟩ := List.mem_filter.mp hp'
  obtain ⟨summary', hsummary', hfresh', -⟩ := hsummaries p' hp'
  obtain rfl := Except.ok.inj (hsummary.symm.trans hshows.summary)
  obtain rfl := Except.ok.inj (hsummary'.symm.trans hshows'.summary)
  exact hfresh'.mpr (of_decide_eq_true hviolates).attested

/-! ### New buffer sizes -/

theorem changedAt_append (log log' : List ModelOp) : changedAt deployed (log ++ log') channel =
    changedAt (changedAt deployed log channel) log' channel := by
  rw [changedAt, latest_append, changedAt, changedAt]
  cases latest (ModelOp.size? channel) log' <;> rfl

theorem changedAt_resize (size : Int32) (now : Int) (log : List ModelOp) :
    changedAt deployed (.resize channel size now :: log) channel = changedAt now log channel := by
  have hresize : changedAt deployed [.resize channel size now] channel = now := by
    rw [changedAt, latest_singleton, ModelOp.size?, if_pos rfl]
    rfl
  rw [← List.singleton_append, changedAt_append, hresize]

/-- A buffer size that was set is the next thing that a model accepts. -/
theorem after_and_log_of_recordBufferSize {before : List ModelOp} {size : Int32} {now : Int}
    (h : (m.after before).recordBufferSize channel size now = .ok m') (later : List ModelOp) :
    m'.after later = m.after (before ++ .resize channel size now :: later) ∧
      m.log (before ++ .resize channel size now :: later) =
        m.log before ++ .resize channel size now :: m'.log later := by
  have happly : ModelOp.apply (m.after before) (.resize channel size now) = m' := by
    rw [ModelOp.apply, h]
    rfl
  have hsucceeds : (ModelOp.resize channel size now).succeeds (m.after before) = true := by
    rw [ModelOp.succeeds, h]
    rfl
  constructor
  · rw [after_append, after, after, List.foldl_cons, happly]
  · rw [log_append, log, if_pos hsucceeds, happly]

/-- **A new buffer size makes a channel stale** until it is measured again, if one of its latency
metrics was not last measured at a time after the one that the clock reads when the size is set. -/
theorem isStaleOn_of_recordBufferSize (hm : create role settings deployed = .ok m)
    {before later : List ModelOp} {size : Int32} {now : Int}
    (hsize : (m.after before).recordBufferSize channel size now = .ok m')
    (hquiet : ∀ o ∈ m'.log later, ¬ o.Reports channel) {k : EdgeMetric}
    (hk : k = .latency ∨ k = .bufferLifetime)
    (hclock : ∀ entry ∈ (m.after before).lastOn? channel k,
      entry.timestamp ≤ changedAt now (m'.log later) channel) :
    (m'.after later).IsStaleOn channel := by
  obtain ⟨assigned, hassigned, -⟩ := create_eq_ok hm
  obtain ⟨hafter, hlog⟩ := after_and_log_of_recordBufferSize hsize later
  have hstale : ¬ IsMeasured deployed (m.log (before ++ .resize channel size now :: later))
      channel k := by
    rintro ⟨entry, hentry, hlater⟩
    rw [hlog, changedAt_append, changedAt_resize] at hlater
    -- the last measurement is still the one from before
    have hnone : latest (ModelOp.on? channel k) (.resize channel size now :: m'.log later) = none :=
      latest_eq_none (List.forall_mem_cons.mpr
        ⟨rfl, fun o ho => ModelOp.on?_eq_none (hquiet o ho) k⟩)
    rw [hlog, latest_append, hnone, Option.none_or,
      ← (create_isNew hm hassigned).lastOn?_after before] at hentry
    exact Int.not_lt.mpr (hclock entry hentry) hlater
  rw [hafter]
  refine isStaleOn_of_not_isMeasured hm _ fun hboth => hstale ?_
  rcases hk with rfl | rfl
  · exact hboth.1
  · exact hboth.2

/-- A constraint on the channels from one group to another. -/
def hopConstraint : Constraint where
  id := ⟨"c"⟩
  name := "c"
  bound := 10
  sequence :=
    [.edge { source := ⟨"A"⟩, outputGate := 0, target := ⟨"B"⟩, inputGate := 0 } .readWrite]

/-- A manager of one channel. -/
def hopRole : ManagerRole where
  host := ⟨"h"⟩
  constraint := hopConstraint.id
  anchor := ⟨"A"⟩
  members := [⟨"a"⟩]
  topology :=
    { members := [⟨⟨"a"⟩, "A (1)", ⟨"A"⟩, 0, ⟨"h"⟩, 0, 1⟩, ⟨⟨"b"⟩, "B (1)", ⟨"B"⟩, 0, ⟨"h"⟩, 1, 0⟩]
      wires := [{ source := ⟨"a"⟩, outputGate := 0, target := ⟨"b"⟩, inputGate := 0 }]
      constraints := Table.empty.insert hopConstraint.id hopConstraint }

/-- Its channel. -/
def hopChannel : ChannelId := ⟨"a[0]->b[0]"⟩

/-- The channel is measured, at the given time. -/
def hopOp (timestamp : Int) : ModelOp :=
  .sample ⟨.edge hopChannel, .edge ⟨some 20, some 8, none, none⟩⟩ timestamp

theorem isStaleOn_of_recordBufferSize_hopRole :
    ∃ m m', create hopRole {} 0 = .ok m ∧
      (m.after [hopOp 40]).recordBufferSize hopChannel 4096 50 = .ok m' ∧
      (∀ o ∈ m'.log [.resize hopChannel 2048 60], ¬ o.Reports hopChannel) ∧
      (∀ entry ∈ (m.after [hopOp 40]).lastOn? hopChannel .latency,
        entry.timestamp ≤ changedAt 50 (m'.log [.resize hopChannel 2048 60]) hopChannel) ∧
      (m'.after [.resize hopChannel 2048 60]).IsStaleOn hopChannel := by
  have hcheck : ((create hopRole {} 0).toOption.bind fun m =>
      ((m.after [hopOp 40]).recordBufferSize hopChannel 4096 50).toOption.map fun m' =>
        decide ((∀ o ∈ m'.log [.resize hopChannel 2048 60], ¬ o.Reports hopChannel) ∧
          ∀ entry ∈ (m.after [hopOp 40]).lastOn? hopChannel .latency,
            entry.timestamp ≤ changedAt 50 (m'.log [.resize hopChannel 2048 60]) hopChannel)) =
      some true := by decide +kernel
  obtain ⟨m, hm, hcheck⟩ := Option.bind_eq_some_iff.mp hcheck
  obtain ⟨m', hm', hcheck⟩ := Option.map_eq_some_iff.mp hcheck
  obtain ⟨hquiet, hclock⟩ := of_decide_eq_true hcheck
  have hm := eq_ok_of_toOption hm
  have hm' := eq_ok_of_toOption hm'
  exact ⟨m, m', hm, hm', hquiet, hclock,
    isStaleOn_of_recordBufferSize hm hm' hquiet (.inl rfl) hclock⟩

/-- Every new buffer size makes its channel stale until the channel is measured again. -/
def GoesStale (m : Model) : Prop :=
  ∀ channel size now m' later, m.recordBufferSize channel size now = .ok m' →
    (∀ o ∈ m'.log later, ¬ o.Reports channel) → (m'.after later).IsStaleOn channel

/-- What was measured before the new buffer size is still fresh if it is stamped later than the
manager's clock reads. -/
theorem not_goesStale : ∃ m, create hopRole {} 0 = .ok m ∧ ¬ (m.after [hopOp 100]).GoesStale := by
  have hcheck : ((create hopRole {} 0).toOption.bind fun m =>
      ((m.after [hopOp 100]).recordBufferSize hopChannel 4096 50).toOption.bind fun m' =>
        m'.paths.toOption.bind fun paths =>
          (m'.summarize [.wire ⟨⟨"a"⟩, 0, ⟨"b"⟩, 0⟩]).toOption.map fun summary =>
            (paths, summary.isFresh)) =
      some ([[.wire ⟨⟨"a"⟩, 0, ⟨"b"⟩, 0⟩]], true) := by decide +kernel
  obtain ⟨m, hm, hcheck⟩ := Option.bind_eq_some_iff.mp hcheck
  obtain ⟨m', hm', hcheck⟩ := Option.bind_eq_some_iff.mp hcheck
  obtain ⟨paths, hpaths, hcheck⟩ := Option.bind_eq_some_iff.mp hcheck
  obtain ⟨summary, hsummary, hcheck⟩ := Option.map_eq_some_iff.mp hcheck
  obtain ⟨rfl, hfresh⟩ := Prod.mk.inj hcheck
  refine ⟨m, eq_ok_of_toOption hm, fun hstale => ?_⟩
  obtain ⟨c, paths, found, -, hpaths', -, hcrossing⟩ :=
    hstale hopChannel 4096 50 m' [] (eq_ok_of_toOption hm') fun o ho => (List.not_mem_nil ho).elim
  obtain rfl := Except.ok.inj ((eq_ok_of_toOption hpaths).symm.trans hpaths')
  obtain ⟨⟨summary', hsummary', hnot⟩, -⟩ := hcrossing _ (List.mem_singleton_self _)
    ⟨_, List.mem_singleton_self _, rfl⟩
  obtain rfl := Except.ok.inj ((eq_ok_of_toOption hsummary).symm.trans hsummary')
  exact Bool.false_ne_true (hnot.symm.trans hfresh)

end Model

end LatencyControl
