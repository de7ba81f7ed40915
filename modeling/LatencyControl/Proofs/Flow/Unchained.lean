import LatencyControl.Proofs.Flow.LineRun
import LatencyControl.Proofs.Flow.Outcome
import LatencyControl.Proofs.Flow.Telling

/-!
# A task on its own

The thread of a task that is not chained reads one record after the other and hands over what the
user code makes of it before it reads the next one.  `Flow.run_handleRecords_letOut` says what that
comes to if the gate of the task accepts everything: the records that leave, what the task remembers
in the end, and what those who observe it are told of (`threadEvents`).
-/

namespace LatencyControl

variable {σ ρ : Type}

namespace Flow

/-- An output gate that accepts everything: those who observe the task are told of a record, and the
record leaves by a sink. -/
def letOut (sink : ℕ) (g : GateRef) (record : ρ) : Flow σ ρ Unit := do
  modify (·.report g.task (.emitted g.gate))
  modify (·.arrive (.sink sink, [record]))

end Flow

/-- What is told of the records that the thread of a task reads, and of those that it makes of
them. -/
def threadEvents (code : σ → ρ → List ρ × σ) : σ → List ρ → List GateEvent
  | _, [] => []
  | memory, record :: rest =>
    .received 0 :: List.replicate (code memory record).1.length (.emitted 0) ++
      threadEvents code (code memory record).2 rest

/-- The same, sorted by the gates. -/
theorem threadEvents_perm (code : σ → ρ → List ρ × σ) (memory : σ) (records : List ρ) :
    (threadEvents code memory records).Perm (List.replicate records.length (.received 0) ++
      List.replicate (transduce code memory records).1.length (.emitted 0)) := by
  induction records generalizing memory with
  | nil => exact .nil
  | cons record rest ih =>
    simp only [threadEvents, transduce, List.length_cons, List.length_append, List.replicate_succ,
      List.replicate_add, List.cons_append]
    refine List.Perm.cons _ (((ih _).append_left _).trans ?_)
    rw [← List.append_assoc, ← List.append_assoc]
    exact List.perm_append_comm.append_right _

theorem Task.exists_of_isLive {t : Task σ ρ} (h : t.isLive = true) :
    ∃ busy n, t.thread = some (.live busy n) := by
  unfold isLive at h
  split at h
  · next thread hthread =>
    cases thread with
    | live busy n => exact ⟨busy, n, hthread⟩
    | ended _ => cases h
  · cases h

/-- The thread of a task runs, nobody has asked it to halt, and some records wait for it. -/
structure Task.Awaits (t : Task σ ρ) (records : List ρ) : Prop where
  live : t.isLive = true
  queue : ∃ gate, t.inputs[0]? = some gate ∧ gate.halt.requested = false ∧ gate.queue = records

/-- The sinks when some records have left by one of them. -/
def left (sinks : List (Sink ρ)) (sink : ℕ) (records : List ρ) : List (Sink ρ) :=
  sinks.modify sink fun s => { s with arrived := s.arrived ++ records }

theorem left_nil (sinks : List (Sink ρ)) (sink : ℕ) : left sinks sink [] = sinks := by
  have hsame : (fun s : Sink ρ => { s with arrived := s.arrived ++ [] }) = id :=
    funext fun s => by simp
  rw [left, hsame, List.modify_id]

theorem left_append (sinks : List (Sink ρ)) (sink : ℕ) (records later : List ρ) :
    left (left sinks sink records) sink later = left sinks sink (records ++ later) := by
  unfold left
  rw [List.modify_modify_eq]
  refine congrArg (sinks.modify sink) (funext fun s => ?_)
  simp [List.append_assoc]

namespace Flow

open World

variable {u : World σ ρ} {k : ℕ} {t : Task σ ρ}

theorem run_forM_letOut (sink : ℕ) (records : List ρ) (ht : u.task? k = some t) :
    ∃ u', (records.forM (letOut sink { task := k, gate := 0 })).run.run u = (.ok (), u') ∧
      u'.clock = u.clock ∧ u'.sinks = left u.sinks sink records ∧
      u'.task? k = some (t.observeAll u.clock (List.replicate records.length (.emitted 0))) := by
  induction records generalizing u t with
  | nil => exact ⟨u, rfl, rfl, (left_nil u.sinks sink).symm, ht⟩
  | cons record rest ih =>
    have htask : ((u.report k (.emitted 0)).arrive (.sink sink, [record])).task? k
        = some (t.observe u.clock (.emitted 0)) := by
      change (u.report k (.emitted 0)).task? k = _
      rw [report, task?_modifyTask_self, ht, Option.map_some]
    obtain ⟨u', hrun, hclock, hsinks, ht'⟩ := ih htask
    exact ⟨u', hrun, hclock, hsinks.trans (left_append u.sinks sink [record] rest), ht'⟩

/-- The thread of a task that is not chained handles one record. -/
theorem run_handleRecord_letOut (sink : ℕ) (ht : u.task? k = some t) {gate : InputGate ρ}
    (hgate : t.inputs[0]? = some gate) {record : ρ} {later : List ρ}
    (hqueue : gate.queue = record :: later) (hlive : t.isLive = true) :
    ∃ u' thread, (handleRecord (letOut sink) k).run.run u = (.ok (), u') ∧ u'.clock = u.clock ∧
      u'.sinks = left u.sinks sink (t.code t.memory record).1 ∧
      u'.task? k = some ((t.observeAll u.clock (.received 0 ::
        List.replicate (t.code t.memory record).1.length (.emitted 0))).turned
          (t.inputs.modify 0 fun gate => { gate with queue := later })
          (t.code t.memory record).2 (some thread)) ∧ thread.isLive = true := by
  have hinput : u.input? { task := k, gate := 0 } = some gate := by
    rw [input?, ht, Option.bind_some, hgate]
  have hread : u.read { task := k, gate := 0 } = (some record,
      (u.modifyInput { task := k, gate := 0 } fun gate => { gate with queue := later }).report k
        (.received 0)) := by
    rw [World.read, hinput, Option.map_some, hqueue]
  obtain ⟨busy, n, hthread⟩ := Task.exists_of_isLive hlive
  generalize hu₁ : (u.modifyInput { task := k, gate := 0 }
    fun gate => { gate with queue := later }).report k (.received 0) = u₁ at hread
  have ht₁ : u₁.task? k = some ((t.observe u.clock (.received 0)).turned
      (t.inputs.modify 0 fun gate => { gate with queue := later }) t.memory t.thread) := by
    rw [← hu₁, report, task?_modifyTask_self, modifyInput, task?_modifyTask_self, ht,
      Option.map_some, Option.map_some]
    exact congrArg some (t.observe_turned _ t.memory t.thread u.clock _)
  have ht₂ : (u₁.countRead k).task? k = some ((t.observe u.clock (.received 0)).turned
      (t.inputs.modify 0 fun gate => { gate with queue := later }) t.memory
        (some (.live busy (n + 1)))) := by
    rw [countRead, task?_modifyTask_self, ht₁, Option.map_some]
    simp only [Task.turned, hthread]
  have hcode : (u₁.countRead k).runCode k record = ((t.code t.memory record).1,
      (u₁.countRead k).remember k (t.code t.memory record).2) := by
    rw [runCode_eq_remember ht₂]
    simp only [Task.turned, Task.observe_code]
  have ht₃ : ((u₁.countRead k).remember k (t.code t.memory record).2).task? k
      = some ((t.observe u.clock (.received 0)).turned
        (t.inputs.modify 0 fun gate => { gate with queue := later })
          (t.code t.memory record).2 (some (.live busy (n + 1)))) := by
    rw [remember, task?_modifyTask_self, ht₂]
    rfl
  obtain ⟨u', hrun, hclock, hsinks, ht'⟩ :=
    run_forM_letOut sink (t.code t.memory record).1 ht₃
  have hclock₁ : u₁.clock = u.clock := by rw [← hu₁]; rfl
  have hsinks₁ : u₁.sinks = u.sinks := by rw [← hu₁]; rfl
  refine ⟨u', .live busy (n + 1), ?_, hclock.trans hclock₁, ?_, ?_, rfl⟩
  · rw [handleRecord, run_modifyGet_bind, hread]
    dsimp only
    rw [run_modify_bind, run_modifyGet_bind, hcode]
    exact hrun
  · rw [hsinks]
    exact congrArg (left · sink _) hsinks₁
  · rw [ht']
    refine congrArg some ((Task.observeAll_turned ..).trans ?_)
    rw [show ((u₁.countRead k).remember k (t.code t.memory record).2).clock = u.clock from hclock₁]
    rfl

/-- **A task that is not chained.**  Its thread lets out what the task makes of the records that
wait for it, and tells of the records that it reads and of those that it lets out. -/
theorem run_handleRecords_letOut (sink : ℕ) {records later : List ρ} (ht : u.task? k = some t)
    (hawaits : t.Awaits (records ++ later)) :
    ∃ u' t', (handleRecords (letOut sink) k records.length).run.run u = (.ok (), u') ∧
      u'.sinks = left u.sinks sink (transduce t.code t.memory records).1 ∧
      u'.task? k = some t' ∧ t'.memory = (transduce t.code t.memory records).2 ∧
      t'.seen = (t.observeAll u.clock (threadEvents t.code t.memory records)).seen := by
  induction records generalizing u t with
  | nil => exact ⟨u, t, rfl, (left_nil u.sinks sink).symm, ht, rfl, rfl⟩
  | cons record rest ih =>
    obtain ⟨gate, hgate, hhalt, hqueue⟩ := hawaits.queue
    obtain ⟨u₁, thread, hrun, hclock, hsinks, ht₁, hthread⟩ :=
      run_handleRecord_letOut sink ht hgate hqueue hawaits.live
    generalize hevents : (GateEvent.received 0 ::
      List.replicate (t.code t.memory record).1.length (.emitted 0)) = events at ht₁
    generalize ht' : (t.observeAll u.clock events).turned
      (t.inputs.modify 0 fun gate => { gate with queue := rest ++ later })
        (t.code t.memory record).2 (some thread) = t₁ at ht₁
    have hcode : t₁.code = t.code := by
      rw [← ht']
      exact t.observeAll_code u.clock events
    have hmemory : t₁.memory = (t.code t.memory record).2 := by rw [← ht']; rfl
    have hseen : t₁.seen = (t.observeAll u.clock events).seen := by rw [← ht']; rfl
    have hobserved : t₁.isObserved = (t.observeAll u.clock events).isObserved := by
      rw [← ht']
      rfl
    have hawaits₁ : t₁.Awaits (rest ++ later) := by
      refine ⟨by rw [← ht']; exact hthread, { gate with queue := rest ++ later }, ?_, hhalt, rfl⟩
      rw [← ht']
      simp [Task.turned, hgate]
    obtain ⟨u₂, t₂, hrest, hsinks₂, ht₂, hmemory₂, hseen₂⟩ := ih ht₁ hawaits₁
    rw [hcode, hmemory] at hsinks₂ hmemory₂ hseen₂
    refine ⟨u₂, t₂, ?_, ?_, ht₂, ?_, ?_⟩
    · have hwork : (t.isLive && t.hasWork) = true := by
        have hhead : t.inputs.head? = some gate := by rw [List.head?_eq_getElem?, hgate]
        simp [hawaits.live, Task.hasWork, hhead, hqueue, hhalt]
      rw [List.length_cons, handleRecords, run_get_bind, ht]
      dsimp only
      rw [if_pos hwork, run_attempt_bind hrun]
      exact hrest
    · rw [hsinks₂, hsinks, left_append]
      rfl
    · simpa only [transduce] using hmemory₂
    · rw [hseen₂, threadEvents, hevents, Task.observeAll_append, hclock]
      exact Task.seen_observeAll_congr hseen hobserved _ _

end Flow

end LatencyControl
