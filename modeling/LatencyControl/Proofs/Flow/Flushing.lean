import LatencyControl.Proofs.Flow.Buffering
import LatencyControl.Proofs.Flow.Outcome
import LatencyControl.Proofs.Flow.States

/-!
# What a flush leaves behind

A gate sends the buffers of its channels one after the other, and stops at the first one that fails.
That is the first channel with records for a receiver that is gone, so the channels behind it keep
their records, whether their receivers are there or not (`Bank.flush_eq`).

A gate is flushed when it is suspended or closed, and when the thread that writes to it comes to its
end.  `waiting_after_sending` says which records stay in the gate then, though their receivers are
there, and `strands_tornWorld` that there may be such records.  A closed gate is not flushed again
when it is closed once more, and takes no record that could drive them out (`World.run_of_closed`).

* `Lane.isStuck` and `Lane.isWaiting` tell the channels with records apart by their receivers.
* `World.SameRoutes` is what the sending of records leaves as it is.
* `World.Sends` names the activities that flush a gate, and `run_flush`, `run_leaveRunning` and
  `run_finish` are their runs, as long as threads wait for their turns.
-/

namespace LatencyControl

variable {τ ρ κ σ : Type}

/-! ### Channels of a gate -/

namespace Lane

variable (connected : κ → Bool) (l : Lane τ ρ κ)

/-- Whether there are records for a receiver that is gone. -/
def isStuck : Bool := !l.channel.buffer.isEmpty && !connected l.receiver

/-- Whether there are records for a receiver that is there. -/
def isWaiting : Bool := !l.channel.buffer.isEmpty && connected l.receiver

/-- The channel after it was flushed. -/
def flushed : Lane τ ρ κ := { l with channel := (l.channel.flush (connected l.receiver)).2 }

/-- The records in the buffer, on their way. -/
def shipment : Shipment ρ κ := (l.receiver, l.channel.buffer)

/-- A channel that is not stuck sends its buffer. -/
theorem flush_of_not_isStuck (h : l.isStuck connected = false) :
    l.channel.flush (connected l.receiver)
      = (.ok l.channel.buffer, (l.flushed connected).channel) := by
  rw [flushed, Channel.flush]
  split_ifs with hempty hconnected
  · rw [List.isEmpty_iff.mp hempty]
  · rfl
  · simp [isStuck, hempty, hconnected] at h

/-- A channel that is stuck loses its records. -/
theorem flush_of_isStuck (h : l.isStuck connected = true) : l.channel.flush (connected l.receiver)
    = (.error (.receiverGone l.channel.id), (l.flushed connected).channel) := by
  rw [isStuck, Bool.and_eq_true_iff, Bool.not_eq_true', Bool.not_eq_true'] at h
  rw [flushed, Channel.flush, h.1, h.2]
  rfl

theorem isWaiting_flushed : (l.flushed connected).isWaiting connected = false := by
  rw [isWaiting, flushed, Channel.buffer_flush]
  rfl

end Lane

namespace Bank

variable (connected : κ → Bool) (b : Bank τ ρ κ)

/-- The channels that a flush comes to before the first one that is stuck. -/
def reached : List (Lane τ ρ κ) := b.lanes.takeWhile fun l => !l.isStuck connected

/-- The first channel that is stuck. -/
def stuck? : Option (Lane τ ρ κ) := b.lanes.find? (·.isStuck connected)

/-- The channels behind the first one that is stuck. -/
def unreached : List (Lane τ ρ κ) := (b.lanes.dropWhile fun l => !l.isStuck connected).tail

/-- The channels with records for receivers that are there. -/
def waiting : List (Lane τ ρ κ) := b.lanes.filter (·.isWaiting connected)

/-- The records that a flush sends to a receiver. -/
def sentTo [DecidableEq κ] (r : κ) : List ρ :=
  (b.reached connected).flatMap fun l => if l.receiver = r then l.channel.buffer else []

theorem flushLanes_eq (lanes : List (Lane τ ρ κ)) : flushLanes connected lanes =
    (match lanes.find? (·.isStuck connected) with
      | none => .ok ()
      | some l => .error (.receiverGone l.channel.id),
      (lanes.takeWhile fun l => !l.isStuck connected).map Lane.shipment,
      (lanes.takeWhile fun l => !l.isStuck connected).map (Lane.flushed connected)
        ++ (lanes.find? (·.isStuck connected)).toList.map (Lane.flushed connected)
        ++ (lanes.dropWhile fun l => !l.isStuck connected).tail) := by
  induction lanes with
  | nil => rfl
  | cons l rest ih =>
    rw [flushLanes, List.takeWhile_cons, List.find?_cons, List.dropWhile_cons]
    cases hstuck : l.isStuck connected with
    | true =>
      rw [l.flush_of_isStuck connected hstuck]
      rfl
    | false =>
      rw [l.flush_of_not_isStuck connected hstuck, ih]
      rfl

/-- **What a flush does.**  Up to the first channel that is stuck everything is sent.  That one
loses its records, and the flush fails; the channels behind it stay as they are. -/
theorem flush_eq : b.flush connected =
    (match b.stuck? connected with
      | none => .ok ()
      | some l => .error (.receiverGone l.channel.id),
      (b.reached connected).map Lane.shipment,
      { b with lanes := (b.reached connected).map (Lane.flushed connected)
        ++ (b.stuck? connected).toList.map (Lane.flushed connected) ++ b.unreached connected }) := by
  rw [flush, flushLanes_eq]
  rfl

/-- After a flush there are records for receivers that are there just behind the first channel
that is stuck. -/
theorem waiting_flush : (b.flush connected).2.2.waiting connected
    = (b.unreached connected).filter (·.isWaiting connected) := by
  have hnone : ∀ lanes : List (Lane τ ρ κ),
      (lanes.map (Lane.flushed connected)).filter (·.isWaiting connected) = [] := by
    intro lanes
    refine List.filter_eq_nil_iff.mpr fun l hl => ?_
    obtain ⟨l', -, rfl⟩ := List.mem_map.mp hl
    rw [l'.isWaiting_flushed connected]
    exact Bool.false_ne_true
  rw [flush_eq]
  simp only [waiting, List.filter_append, hnone, List.nil_append]

/-- What comes after a channel that is stuck comes after the first one. -/
theorem mem_tail_dropWhile {p : Lane τ ρ κ → Bool} (before : List (Lane τ ρ κ)) {l l' : Lane τ ρ κ}
    {behind : List (Lane τ ρ κ)} (hl : p l = false) (hl' : l' ∈ behind) :
    l' ∈ ((before ++ l :: behind).dropWhile p).tail := by
  induction before with
  | nil =>
    rw [List.nil_append, List.dropWhile_cons_of_neg (by rw [hl]; exact Bool.false_ne_true)]
    exact hl'
  | cons first rest ih =>
    rw [List.cons_append, List.dropWhile_cons]
    split_ifs
    · exact ih
    · exact List.mem_append_right rest (List.mem_cons_of_mem l hl')

/-- No channel with records for a receiver that is there is left behind exactly if none of them
comes after a channel that is stuck. -/
theorem filter_unreached_eq_nil_iff : (b.unreached connected).filter (·.isWaiting connected) = [] ↔
    ∀ before l behind, b.lanes = before ++ l :: behind → l.isStuck connected = true →
      ∀ l' ∈ behind, l'.isWaiting connected = false := by
  rw [List.filter_eq_nil_iff]
  constructor
  · intro hnone before l behind hlanes hstuck l' hl'
    have hmem : l' ∈ b.unreached connected := by
      rw [unreached, hlanes]
      exact mem_tail_dropWhile before (by rw [hstuck]; rfl) hl'
    exact Bool.eq_false_iff.mpr (hnone l' hmem)
  · intro hall l' hl'
    have hsplit := List.takeWhile_append_dropWhile (p := fun l => !l.isStuck connected)
      (l := b.lanes)
    have hhead := List.head?_dropWhile_not (fun l => !l.isStuck connected) b.lanes
    rw [unreached] at hl'
    cases hdrop : b.lanes.dropWhile fun l => !l.isStuck connected with
    | nil =>
      rw [hdrop] at hl'
      exact absurd hl' List.not_mem_nil
    | cons l behind =>
      rw [hdrop] at hsplit hhead hl'
      have hstuck : l.isStuck connected = true := by simpa using hhead
      exact Bool.eq_false_iff.mp (hall _ l behind hsplit.symm hstuck l' hl')

end Bank

/-! ### What sending leaves as it is -/

namespace World

variable {w w' w'' : World σ ρ} {g : GateRef}

/-- What a change of a task leaves as it is. -/
theorem bind_task?_modifyTask {β : Type} {k : ℕ} {f : Task σ ρ → Task σ ρ}
    (view : Task σ ρ → Option β) (hview : ∀ t, w.task? k = some t → view (f t) = view t) (j : ℕ) :
    ((w.modifyTask k f).task? j).bind view = (w.task? j).bind view := by
  rw [task?, modifyTask, List.getElem?_modify, task?]
  split_ifs with hk
  · subst hk
    cases ht : w.tasks[k]? with
    | none => rfl
    | some t => exact hview t ht
  · rw [id_map']

/-- The way to a task stays as it is if the task keeps its thread. -/
theorem isOpen_modifyTask {k : ℕ} {f : Task σ ρ → Task σ ρ}
    (hthread : ∀ t, w.task? k = some t → (f t).thread.isSome = t.thread.isSome) :
    (w.modifyTask k f).isOpen = w.isOpen := by
  funext r
  cases r with
  | sink j => rfl
  | task j =>
    show (((w.modifyTask k f).task? j).map fun t => !w.isEnding || t.thread.isSome).getD false = _
    rw [Option.map_eq_bind, bind_task?_modifyTask, ← Option.map_eq_bind, isOpen]
    intro t ht
    simp only [Function.comp_apply, hthread t ht]

/-- Two instances have the same output gates, threads and ways for records. -/
structure SameRoutes (w w' : World σ ρ) : Prop where
  isEager : w'.isEager = w.isEager
  isOpen : w'.isOpen = w.isOpen
  output? : ∀ g, w'.output? g = w.output? g
  thread : ∀ k, (w'.task? k).bind Task.thread = (w.task? k).bind Task.thread

theorem SameRoutes.refl (w : World σ ρ) : SameRoutes w w := ⟨rfl, rfl, fun _ => rfl, fun _ => rfl⟩

theorem SameRoutes.trans (h : SameRoutes w w') (h' : SameRoutes w' w'') : SameRoutes w w'' where
  isEager := h'.isEager.trans h.isEager
  isOpen := h'.isOpen.trans h.isOpen
  output? g := (h'.output? g).trans (h.output? g)
  thread k := (h'.thread k).trans (h.thread k)

theorem sameRoutes_modifyInput (i : GateRef) (f : InputGate ρ → InputGate ρ) :
    SameRoutes w (w.modifyInput i f) where
  isEager := rfl
  isOpen := isOpen_modifyTask fun _ _ => rfl
  output? _ := output?_modifyInput f
  thread := bind_task?_modifyTask Task.thread fun _ _ => rfl

theorem sameRoutes_wake (w : World σ ρ) (i : GateRef) : SameRoutes w (w.wake i).2 := by
  unfold wake
  split
  · exact sameRoutes_modifyInput i _
  · exact SameRoutes.refl w

theorem sameRoutes_wakeLinks (links : List ChainLink) (w : World σ ρ) :
    SameRoutes w (w.wakeLinks links) := by
  induction links generalizing w with
  | nil => exact SameRoutes.refl w
  | cons l rest ih => exact (sameRoutes_wake w l.inputRef).trans (ih _)

theorem sameRoutes_arrive (w : World σ ρ) (s : Shipment ρ Receiver) :
    SameRoutes w (w.arrive s) := by
  obtain ⟨receiver, records⟩ := s
  cases receiver with
  | task k => exact sameRoutes_modifyInput _ _
  | sink k =>
    refine ⟨rfl, ?_, fun _ => rfl, fun _ => rfl⟩
    funext r
    cases r with
    | task _ => rfl
    | sink j =>
      simp only [isOpen, arrive, List.getElem?_modify]
      by_cases hj : k = j
      · cases w.sinks[j]? <;> simp [hj]
      · cases w.sinks[j]? <;> simp [hj]

/-! ### Arrivals -/

/-- What has arrived at a receiver: what is in the queue of a task, or has left by a sink. -/
def received (w : World σ ρ) : Receiver → Option (List ρ)
  | .task task => (w.input? { task, gate := 0 }).map InputGate.queue
  | .sink sink => (w.sinks[sink]?).map Sink.arrived

theorem received_arrive (w : World σ ρ) (s : Shipment ρ Receiver) (r : Receiver) :
    (w.arrive s).received r
      = (w.received r).map (· ++ if s.1 = r then s.2 else []) := by
  obtain ⟨receiver, records⟩ := s
  have hnone : ∀ found : Option (List ρ), found = found.map (· ++ []) := by
    intro found
    cases found with
    | none => rfl
    | some xs => rw [Option.map_some, List.append_nil]
  cases receiver with
  | task k =>
    cases r with
    | sink j => exact hnone _
    | task j =>
      simp only [received, arrive, feed, input?_modifyInput]
      by_cases hj : k = j
      · subst hj
        cases w.input? { task := k, gate := 0 } <;> simp
      · simp [hj, Function.comp_def]
  | sink k =>
    cases r with
    | task j => exact hnone _
    | sink j =>
      simp only [received, arrive, List.getElem?_modify]
      by_cases hj : k = j
      · cases w.sinks[j]? <;> simp [hj]
      · cases w.sinks[j]? <;> simp [hj]

/-- Shipments arrive one after the other. -/
theorem received_foldl_arrive (shipments : List (Shipment ρ Receiver)) (w : World σ ρ)
    (r : Receiver) : (shipments.foldl arrive w).received r
      = (w.received r).map (· ++ shipments.flatMap fun s => if s.1 = r then s.2 else []) := by
  induction shipments generalizing w with
  | nil =>
    cases h : w.received r <;> simp [h]
  | cons s rest ih =>
    rw [List.foldl_cons, ih, received_arrive, Option.map_map, List.flatMap_cons]
    cases w.received r <;> simp

theorem sameRoutes_foldl_arrive (shipments : List (Shipment ρ Receiver)) (w : World σ ρ) :
    SameRoutes w (shipments.foldl arrive w) := by
  induction shipments generalizing w with
  | nil => exact SameRoutes.refl w
  | cons s rest ih => exact (sameRoutes_arrive w s).trans (ih _)

/-- Waking a thread moves no records. -/
theorem received_wake (w : World σ ρ) (i : GateRef) (r : Receiver) :
    (w.wake i).2.received r = w.received r := by
  unfold wake
  split
  · cases r with
    | sink k => rfl
    | task k =>
      simp only [received, input?_modifyInput]
      split_ifs with hk
      · rw [Option.map_map]
        rfl
      · rfl
  · rfl

theorem received_wakeLinks (links : List ChainLink) (w : World σ ρ) (r : Receiver) :
    (w.wakeLinks links).received r = w.received r := by
  induction links generalizing w with
  | nil => rfl
  | cons l rest ih => exact (ih _).trans (received_wake w l.inputRef r)

theorem received_modifyOutput (f : OutputGate ρ → OutputGate ρ) (r : Receiver) :
    (w.modifyOutput g f).received r = w.received r := by
  cases r with
  | sink k => rfl
  | task k => simp only [received, input?_modifyOutput]

end World

/-! ### Activities that flush a gate -/

namespace Flow

variable {w : World σ ρ} {g : GateRef} {gate : OutputGate ρ} {bank : Bank Int64 ρ Receiver}

section

variable (write : GateRef → ρ → Flow σ ρ Unit)

/-- Threads that wait for their turns do nothing about what arrives. -/
theorem run_deliver (hlazy : w.isEager = false) (s : Shipment ρ Receiver) :
    (deliver write s).run.run w = (.ok (), w.arrive s) := by
  have hlazy' : (w.arrive s).isEager = false := (World.sameRoutes_arrive w s).isEager.trans hlazy
  obtain ⟨receiver, records⟩ := s
  cases receiver with
  | sink k => rfl
  | task k =>
    show (settle write k).run.run (w.arrive _) = _
    rw [settle, run_get_bind, hlazy']
    rfl

theorem run_forM_deliver (hlazy : w.isEager = false) (shipments : List (Shipment ρ Receiver)) :
    (shipments.forM (deliver write)).run.run w = (.ok (), shipments.foldl World.arrive w) := by
  induction shipments generalizing w with
  | nil => rfl
  | cons s rest ih =>
    show (deliver write s >>= fun _ => rest.forM (deliver write)).run.run w = _
    rw [run_bind_of_ok (run_deliver write hlazy s)]
    exact ih ((World.sameRoutes_arrive w s).isEager.trans hlazy)

end

/-- A gate that leaves the running state gives up its chain and is flushed. -/
theorem run_leaveRunning (hgate : w.output? g = some gate) (hopen : gate.state ≠ .closed)
    (state : GateState) : (leaveRunning g state).run.run w
      = (flush g).run.run ((w.modifyOutput g fun gate => { gate with state }).dropChain g) := by
  rw [leaveRunning, run_outputGate_bind hgate, if_pos hopen, run_modify_bind, run_modify_bind]

/-! In what follows, threads wait for their turns. -/

section

variable (hlazy : w.isEager = false)

include hlazy

/-- The buffers of a gate are sent, and the shipments arrive. -/
theorem run_flush (hgate : w.output? g = some gate) (hbank : gate.outlet = .channels bank) :
    (flush g).run.run w =
      ((bank.flush w.isOpen).1, (bank.flush w.isOpen).2.1.foldl World.arrive
        (w.modifyOutput g fun gate =>
          { gate with outlet := .channels (bank.flush w.isOpen).2.2 })) := by
  have hdeliver := run_forM_deliver (writeWithin w.depth)
    (w := w.modifyOutput g fun gate => { gate with outlet := .channels (bank.flush w.isOpen).2.2 })
    hlazy (bank.flush w.isOpen).2.1
  rw [flush, run_withWriter, flushGate, run_outputGate_bind hgate, hbank]
  dsimp only
  rw [run_get_bind, setOutlet, run_modify_bind, run_bind_of_ok hdeliver]
  rfl

/-- A thread that comes to its end has its gate flushed. -/
theorem run_finish {task : ℕ} {busy : Bool} {read : ℕ} {result : Except Error Unit}
    {w' : World σ ρ} (hthread : (w.task? task).bind Task.thread = some (.live busy read))
    (hflush : (flush { task, gate := 0 }).run.run (w.wake { task, gate := 0 }).2 = (result, w')) :
    (finish task).run.run w = (.ok (), w'.endThread task (result.map fun _ => read)) := by
  have hroutes := World.sameRoutes_wake w { task, gate := 0 }
  -- The thread has no further turn before the flush.
  have hsettle : (withWriter fun write => settle write task : Flow σ ρ Unit).run.run
      (w.wake { task, gate := 0 }).2 = (.ok (), (w.wake { task, gate := 0 }).2) := by
    rw [run_withWriter, settle, run_get_bind, hroutes.isEager, hlazy]
    rfl
  rw [finish, run_modify_bind, run_bind_of_ok hsettle, run_get_bind, hroutes.thread, hthread]
  dsimp only
  rw [run_attempt_bind hflush]
  cases result with
  | ok _ => rfl
  | error e => rfl

end

end Flow

namespace World

variable {w w' w'' : World σ ρ} {g : GateRef} {bank : Bank Int64 ρ Receiver}

/-! ### What is held back and what has arrived -/

/-- The channels of an output gate, unless it hands its records over at once. -/
def bankAt (w : World σ ρ) (g : GateRef) : Option (Bank Int64 ρ Receiver) :=
  (w.output? g).bind fun gate =>
    match gate.outlet with
    | .channels bank => some bank
    | .direct .. => none

theorem bankAt_eq_some : w.bankAt g = some bank ↔
    ∃ gate, w.output? g = some gate ∧ gate.outlet = .channels bank := by
  rw [bankAt, Option.bind_eq_some_iff]
  refine exists_congr fun gate => and_congr_right fun _ => ?_
  cases gate.outlet with
  | channels bank' => simp
  | direct id receiver => simp

/-- Two instances hold back the same records, and the same ones have arrived. -/
structure SameRecords (w w' : World σ ρ) : Prop where
  isEager : w'.isEager = w.isEager
  isOpen : w'.isOpen = w.isOpen
  bankAt : ∀ g, w'.bankAt g = w.bankAt g
  received : ∀ r, w'.received r = w.received r

theorem SameRecords.trans (h : SameRecords w w') (h' : SameRecords w' w'') : SameRecords w w'' where
  isEager := h'.isEager.trans h.isEager
  isOpen := h'.isOpen.trans h.isOpen
  bankAt g := (h'.bankAt g).trans (h.bankAt g)
  received r := (h'.received r).trans (h.received r)

theorem SameRecords.of_sameRoutes (h : SameRoutes w w')
    (hreceived : ∀ r, w'.received r = w.received r) : SameRecords w w' where
  isEager := h.isEager
  isOpen := h.isOpen
  bankAt g := by rw [World.bankAt, World.bankAt, h.output? g]
  received := hreceived

theorem sameRecords_wake (w : World σ ρ) (i : GateRef) : SameRecords w (w.wake i).2 :=
  .of_sameRoutes (sameRoutes_wake w i) (received_wake w i)

/-- A change of an output gate that leaves its channels alone. -/
theorem sameRecords_modifyOutput {f : OutputGate ρ → OutputGate ρ}
    (hf : ∀ gate, (f gate).outlet = gate.outlet) : SameRecords w (w.modifyOutput g f) where
  isEager := rfl
  isOpen := isOpen_modifyTask fun _ _ => rfl
  bankAt h := by
    rw [World.bankAt, World.bankAt, output?_modifyOutput]
    split_ifs
    · cases w.output? h with
      | none => rfl
      | some gate => simp [hf]
    · rfl
  received := received_modifyOutput f

theorem sameRecords_dropChain (w : World σ ρ) (g : GateRef) : SameRecords w (w.dropChain g) := by
  have htake : SameRecords w (w.takeChain g).2 := sameRecords_modifyOutput fun _ => rfl
  exact htake.trans (.of_sameRoutes (sameRoutes_wakeLinks _ _) (received_wakeLinks _ _))

/-- The end of a thread. -/
theorem sameRecords_endThread {task : ℕ} (hthread : ((w.task? task).bind Task.thread).isSome = true)
    (result : Except Error ℕ) : SameRecords w (w.endThread task result) where
  isEager := rfl
  isOpen := by
    refine isOpen_modifyTask fun t ht => ?_
    rw [ht] at hthread
    exact hthread.symm
  bankAt g := by
    have hgate : (w.endThread task result).output? g = w.output? g := by
      refine bind_task?_modifyTask (fun t => t.outputs[g.gate]?) (fun _ _ => ?_) g.task
      rfl
    rw [World.bankAt, World.bankAt, hgate]
  received r := by
    cases r with
    | sink k => rfl
    | task k =>
      have hgate : (w.endThread task result).input? { task := k, gate := 0 }
          = w.input? { task := k, gate := 0 } := by
        refine bind_task?_modifyTask (fun t => t.inputs[0]?) (fun _ _ => ?_) k
        rfl
      rw [World.received, World.received, hgate]

/-! ### Whatever flushes a gate -/

/-- An instance is as another one was, but for a gate that was flushed. -/
structure Flushed (w : World σ ρ) (g : GateRef) (bank : Bank Int64 ρ Receiver) (w' : World σ ρ) :
    Prop where
  isOpen : w'.isOpen = w.isOpen
  bankAt : w'.bankAt g = some (bank.flush w.isOpen).2.2
  received : ∀ r, w'.received r = (w.received r).map (· ++ bank.sentTo w.isOpen r)

theorem Flushed.congr_left (h : Flushed w' g bank w'') (hw : SameRecords w w') :
    Flushed w g bank w'' where
  isOpen := h.isOpen.trans hw.isOpen
  bankAt := hw.isOpen ▸ h.bankAt
  received r := by
    rw [h.received, hw.received, hw.isOpen]

theorem Flushed.congr_right (h : Flushed w g bank w') (hw : SameRecords w' w'') :
    Flushed w g bank w'' where
  isOpen := hw.isOpen.trans h.isOpen
  bankAt := (hw.bankAt g).trans h.bankAt
  received r := (hw.received r).trans (h.received r)

/-- What flushes an output gate: a gate is flushed when it leaves the running state, and the first
gate of a task when the thread of the task comes to its end. -/
inductive Sends (w : World σ ρ) (g : GateRef) : Flow σ ρ Unit → Prop
  | flush : Sends w g (Flow.flush g)
  | suspend : w.stateAt g ≠ some .closed → Sends w g (Flow.suspend g)
  | close : w.stateAt g ≠ some .closed → Sends w g (Flow.close g)
  | finish {busy : Bool} {read : ℕ} : g.gate = 0 →
    (w.task? g.task).bind Task.thread = some (.live busy read) → Sends w g (Flow.finish g.task)

section

variable (hlazy : w.isEager = false) (hbank : w.bankAt g = some bank)

include hlazy hbank

/-- **A flush sends the buffers of the gate and does nothing else.** -/
theorem flushed_flush : Flushed w g bank ((Flow.flush g).run.run w).2 := by
  obtain ⟨gate, hgate, houtlet⟩ := bankAt_eq_some.mp hbank
  rw [Flow.run_flush hlazy hgate houtlet]
  have hroutes := sameRoutes_foldl_arrive (bank.flush w.isOpen).2.1
    (w.modifyOutput g fun gate => { gate with outlet := .channels (bank.flush w.isOpen).2.2 })
  constructor
  · exact hroutes.isOpen.trans (isOpen_modifyTask fun _ _ => rfl)
  · refine bankAt_eq_some.mpr ⟨{ gate with outlet := .channels (bank.flush w.isOpen).2.2 },
      (hroutes.output? g).trans ?_, rfl⟩
    rw [output?_modifyOutput, if_pos rfl, hgate]
    rfl
  · intro r
    rw [received_foldl_arrive, received_modifyOutput, Bank.flush_eq, List.flatMap_map]
    rfl

theorem flushed_leaveRunning (hopen : w.stateAt g ≠ some .closed) (state : GateState) :
    Flushed w g bank ((Flow.leaveRunning g state).run.run w).2 := by
  obtain ⟨gate, hgate, -⟩ := bankAt_eq_some.mp hbank
  have hstate : gate.state ≠ .closed := by
    rw [stateAt, hgate] at hopen
    exact fun h => hopen (congrArg some h)
  have hchanged : SameRecords w (w.modifyOutput g fun gate => { gate with state }) :=
    sameRecords_modifyOutput fun _ => rfl
  have hleft := hchanged.trans (sameRecords_dropChain _ g)
  rw [Flow.run_leaveRunning hgate hstate]
  exact (flushed_flush (hleft.isEager.trans hlazy) ((hleft.bankAt g).trans hbank)).congr_left hleft

theorem thread_run_flush (k : ℕ) :
    ((((Flow.flush g).run.run w).2.task? k).bind Task.thread) = (w.task? k).bind Task.thread := by
  obtain ⟨gate, hgate, houtlet⟩ := bankAt_eq_some.mp hbank
  rw [Flow.run_flush hlazy hgate houtlet]
  refine ((sameRoutes_foldl_arrive _ _).thread k).trans ?_
  refine bind_task?_modifyTask Task.thread (fun _ _ => ?_) k
  rfl

theorem flushed_finish {busy : Bool} {read : ℕ} (hgate : g.gate = 0)
    (hthread : (w.task? g.task).bind Task.thread = some (.live busy read)) :
    Flushed w g bank ((Flow.finish g.task).run.run w).2 := by
  obtain ⟨task, gate⟩ := g
  obtain rfl : gate = 0 := hgate
  -- The thread wakes up before the flush, and is noted as ended after it; neither moves records.
  have hwake := sameRecords_wake w { task, gate := 0 }
  have hlazy' := hwake.isEager.trans hlazy
  have hbank' := (hwake.bankAt { task, gate := 0 }).trans hbank
  have hflushed := (flushed_flush hlazy' hbank').congr_left hwake
  rw [Flow.run_finish hlazy hthread rfl]
  refine hflushed.congr_right (sameRecords_endThread ?_ _)
  rw [thread_run_flush hlazy' hbank', (sameRoutes_wake w { task, gate := 0 }).thread, hthread]
  rfl

/-- **Whatever flushes a gate sends the same records.** -/
theorem Sends.flushed {activity : Flow σ ρ Unit} (h : w.Sends g activity) :
    Flushed w g bank (activity.run.run w).2 := by
  cases h with
  | flush => exact flushed_flush hlazy hbank
  | suspend hopen => exact flushed_leaveRunning hlazy hbank hopen .suspended
  | close hopen => exact flushed_leaveRunning hlazy hbank hopen .closed
  | finish hgate hthread => exact flushed_finish hlazy hbank hgate hthread

end

/-- **What stays in a gate that was flushed.**  Whether it is flushed as such, suspended, closed, or
flushed at the end of a thread: the records for receivers that are there have been sent from all
channels before the first one that is stuck, and they stay in all channels behind it.  So nothing
stays behind exactly if no channel with records for a receiver that is there comes after one with
records for a receiver that is gone. -/
theorem waiting_after_sending {activity : Flow σ ρ Unit} (hlazy : w.isEager = false)
    (hbank : w.bankAt g = some bank) (hsends : w.Sends g activity) :
    ∃ bank', (activity.run.run w).2.isOpen = w.isOpen ∧
      (activity.run.run w).2.bankAt g = some bank' ∧
      bank'.waiting w.isOpen = (bank.unreached w.isOpen).filter (·.isWaiting w.isOpen) ∧
      (∀ r, (activity.run.run w).2.received r
        = (w.received r).map (· ++ bank.sentTo w.isOpen r)) ∧
      (bank'.waiting w.isOpen = [] ↔ ∀ before l behind, bank.lanes = before ++ l :: behind →
        l.isStuck w.isOpen = true → ∀ l' ∈ behind, l'.isWaiting w.isOpen = false) := by
  have hflushed := hsends.flushed hlazy hbank
  refine ⟨_, hflushed.isOpen, hflushed.bankAt, bank.waiting_flush w.isOpen, hflushed.received, ?_⟩
  rw [Bank.waiting_flush]
  exact bank.filter_unreached_eq_nil_iff w.isOpen

/-- **A closed gate is left alone**: neither suspending nor closing nor resuming it does anything,
and it takes no records. -/
theorem run_of_closed {gate : OutputGate ρ} (hgate : w.output? g = some gate)
    (hclosed : gate.state = .closed) :
    (∀ state, (Flow.leaveRunning g state).run.run w = (.ok (), w)) ∧ w.resume g = (false, w) ∧
      ∀ record,
        (Flow.write g record).run.run w = (.error (.gateNotRunning gate.id .closed), w) := by
  refine ⟨fun state => ?_, ?_, fun record => ?_⟩
  · rw [Flow.leaveRunning, Flow.run_outputGate_bind hgate, if_neg (not_not.mpr hclosed)]
    rfl
  · rw [resume, hgate]
    exact if_neg (by rw [hclosed]; decide)
  · have hrunning : gate.state ≠ .running := by
      rw [hclosed]
      decide
    rw [write_of_not_running hgate hrunning record, hclosed]

end World

/-! ### Records that stay -/

/-- The gate of a task that has written a record to each of its two channels. -/
def tornBank : Bank Int64 ℕ Receiver where
  id := ⟨"t/out0"⟩
  lanes :=
    [{ channel := (Channel.ofLimit ⟨"c0"⟩ 10).push 0 1, receiver := .sink 0 },
      { channel := (Channel.ofLimit ⟨"c1"⟩ 10).push 0 2, receiver := .sink 1 }]

/-- The instance of the task, after the receiver of the first channel has gone. -/
def tornWorld : World Unit ℕ where
  job := ⟨"job"⟩
  clock := 0
  tasks :=
    [{ id := ⟨"t"⟩
       inputs := [{ id := ⟨"t/in0"⟩ }]
       outputs := [{ outlet := .channels tornBank, selector := .roundRobin 0, timeout := 5000 }]
       code := fun _ x => ([x], ())
       memory := ()
       thread := some (.live false 0) }]
  sinks := [{ name := "gone", isOpen := false }, { name := "there" }]
  isEager := false

theorem waiting_after_sending_tornWorld :
    tornWorld.isEager = false ∧ tornWorld.bankAt ⟨0, 0⟩ = some tornBank ∧
      tornWorld.Sends ⟨0, 0⟩ (Flow.close ⟨0, 0⟩) ∧
        ∃ bank', ((Flow.close ⟨0, 0⟩).run.run tornWorld).2.bankAt ⟨0, 0⟩ = some bank' ∧
          bank'.waiting tornWorld.isOpen
            = (tornBank.unreached tornWorld.isOpen).filter (·.isWaiting tornWorld.isOpen) := by
  have hbank : tornWorld.bankAt ⟨0, 0⟩ = some tornBank := rfl
  have hsends : tornWorld.Sends ⟨0, 0⟩ (Flow.close ⟨0, 0⟩) := .close (by decide)
  obtain ⟨bank', -, hbank', hwaiting, -⟩ := World.waiting_after_sending rfl hbank hsends
  exact ⟨rfl, hbank, hsends, bank', hbank', hwaiting⟩

/-- After an activity there are records in a gate for receivers that are there. -/
def World.Strands (w : World σ ρ) (g : GateRef) (activity : Flow σ ρ Unit) : Prop :=
  ∃ bank', (activity.run.run w).2.bankAt g = some bank' ∧ bank'.waiting w.isOpen ≠ []

/-- A flush may leave records behind for a receiver that is there, and so may the suspension and the
end of a gate and the end of a thread: the second record stays, as the first one cannot be sent. -/
theorem strands_tornWorld :
    tornWorld.Strands ⟨0, 0⟩ (Flow.flush ⟨0, 0⟩) ∧ tornWorld.Strands ⟨0, 0⟩ (Flow.suspend ⟨0, 0⟩) ∧
      tornWorld.Strands ⟨0, 0⟩ (Flow.close ⟨0, 0⟩) ∧ tornWorld.Strands ⟨0, 0⟩ (Flow.finish 0) := by
  have hbank : tornWorld.bankAt ⟨0, 0⟩ = some tornBank := rfl
  have hstays : ∀ activity, tornWorld.Sends ⟨0, 0⟩ activity →
      tornWorld.Strands ⟨0, 0⟩ activity := by
    intro activity hsends
    have hflushed := hsends.flushed rfl hbank
    refine ⟨_, hflushed.bankAt, ?_⟩
    rw [Bank.waiting_flush]
    exact List.ne_nil_of_length_pos (by decide)
  have hopen : tornWorld.stateAt ⟨0, 0⟩ ≠ some .closed := by decide
  exact ⟨hstays _ .flush, hstays _ (.suspend hopen), hstays _ (.close hopen),
    hstays _ (.finish rfl rfl)⟩

end LatencyControl
