import LatencyControl.Flow.Write

/-!
# Operating gates and threads

What can be done from outside to the gates and threads of an instance.  An output gate runs at
first.  It may be suspended and resumed, and it may be closed for good; in either case it gives up
its chain and sends its buffers.
-/

namespace LatencyControl

variable {σ ρ : Type}

namespace Flow

/-- Writes a record to an output gate. -/
def write (g : GateRef) (record : ρ) : Flow σ ρ Unit := withWriter fun write => write g record

/-- Sends the buffers of an output gate. -/
def flush (g : GateRef) : Flow σ ρ Unit := withWriter fun write => flushGate write g

/-- Carries out the actions that are queued at an output gate. -/
def performAll (g : GateRef) : Flow σ ρ Unit := withWriter fun write => performPending write g

/-- Passes a record through a chain, starting at the link with the given index. -/
def writeThrough (c : Chain) (start : Nat) (record : ρ) : Flow σ ρ Unit :=
  withWriter fun write => writeFrom write c start record

/-- Brings an output gate to another state than running, unless it is closed already. -/
def leaveRunning (g : GateRef) (state : GateState) : Flow σ ρ Unit := do
  if (← outputGate g).state ≠ .closed then
    modify (·.modifyOutput g (fun gate => { gate with state }))
    modify (·.dropChain g)
    flush g

/-- Suspends an output gate. -/
def suspend (g : GateRef) : Flow σ ρ Unit := leaveRunning g .suspended

/-- Closes an output gate. -/
def close (g : GateRef) : Flow σ ρ Unit := leaveRunning g .closed

/-- Lets the thread of a task handle one record, if there is one and it is free to. -/
def step (task : Nat) : Flow σ ρ Unit := withWriter fun write => giveTurn write task 1

/-- Lets all threads work off what is queued, if they are eager to do so. -/
def settleAll : Flow σ ρ Unit := do
  (List.range (← get).tasks.length).forM (fun task => withWriter fun write => settle write task)

end Flow

namespace World

/-- Resumes an output gate; the answer says whether it was suspended. -/
def resume (w : World σ ρ) (g : GateRef) : Bool × World σ ρ :=
  match w.output? g with
  | some gate =>
    if gate.state = .suspended then
      (true, w.modifyOutput g (fun gate => { gate with state := .running }))
    else (false, w)
  | none => (false, w)

/-! ### Ending -/

/-- Wakes the threads behind all input gates; the answer holds, task by task and gate by gate,
whether they had been asked to halt. -/
def wakeAll (w : World σ ρ) : List (List Bool) × World σ ρ :=
  (w.tasks.map (fun t => t.inputs.map (fun g => g.halt.requested)),
    { w with tasks := w.tasks.map (fun t =>
        { t with inputs := t.inputs.map (fun g => { g with halt := g.halt.wake.2.leave }) }) })

end World

namespace Flow

/-- Brings the thread of a task to its end: it works off what is queued, and sends the buffers of
the output gate that it writes to. -/
def finish (task : Nat) : Flow σ ρ Unit := do
  modify (fun w => (w.wake { task, gate := 0 }).2)
  withWriter fun write => settle write task
  match ((← get).task? task).bind Task.thread with
  | some (.live _ read) =>
    match ← attempt (flush { task, gate := 0 }) with
    | .ok _ => modify (·.endThread task (.ok read))
    | .error e => modify (·.endThread task (.error e))
  | _ => return

/-- Lets go of all tasks, and brings their threads to their ends in the order of the tasks. -/
def finishAll : Flow σ ρ Unit := do
  modify (fun w => { w with isEnding := true })
  (List.range (← get).tasks.length).forM finish

end Flow

end LatencyControl
