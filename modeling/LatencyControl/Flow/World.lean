import LatencyControl.Flow.Gate
import LatencyControl.Report.Scheduler

/-!
# Tasks of an instance

A `World` holds the tasks of one instance with everything that they share: the clock, the sinks that
lead out of the instance, the chains, and the register by which control messages find tasks.

Tasks run user code, which turns a record of type `ρ` into records, and may remember something in a
memory of type `σ`.  A task may have a thread of its own, which reads from the task's first input
gate and writes to its first output gate.

This module has the small steps.  Each of them changes one thing and cannot fail.  What reporters
and channels calculate with the clock of an instance is taken to fit into 64 bits
(`Reporter.overflows` and `Channel.overflows` say when it does not).
-/

namespace LatencyControl

/-- The thread of a task. -/
inductive Thread
  /-- It runs, and has read a number of records.  It is busy while it works on a record. -/
  | live (busy : Bool) (read : Nat)
  /-- It ended after a number of records, or by an error. -/
  | ended (result : Except Error Nat)

/-- Whether the thread runs. -/
def Thread.isLive : Thread → Bool
  | .live .. => true
  | .ended _ => false

/-- A task with its gates and its user code. -/
structure Task (σ ρ : Type) where
  id : MemberId
  inputs : List (InputGate ρ)
  outputs : List (OutputGate ρ)
  code : σ → ρ → List ρ × σ
  memory : σ
  thread : Option Thread := none
  /-- Whether anybody is told of the records at the gates. -/
  isObserved : Bool := true
  /-- How many records were seen at input gates and at output gates. -/
  received : Nat := 0
  emitted : Nat := 0
  scheduler : Option (Scheduler Int64) := none
  /-- All reports made so far. -/
  reports : List (Report Int64) := []

/-- A way out of the instance, with everything that has left by it. -/
structure Sink (ρ : Type) where
  name : String
  isOpen : Bool := true
  arrived : List ρ := []

/-- The tasks of an instance and what they share. -/
structure World (σ ρ : Type) where
  job : JobId
  clock : Int64
  tasks : List (Task σ ρ)
  sinks : List (Sink ρ)
  /-- The registered tasks, by the members that they are. -/
  register : Table MemberId Nat := Table.empty
  /-- All chains, by their numbers. -/
  chains : List Chain := []
  /-- The chains that their heads have dealt with. -/
  signalled : KeySet Nat := Table.empty
  /-- Whether threads work off what arrives at once.  If not, they wait to be given turns. -/
  isEager : Bool := true
  /-- Whether the instance is about to end, so that only threads still hold on to their tasks. -/
  isEnding : Bool := false

variable {σ ρ : Type}

namespace Task

/-- Tells those who observe the task of a record at one of its gates. -/
def observe (t : Task σ ρ) (now : Int64) (e : GateEvent) : Task σ ρ :=
  if t.isObserved then
    let t := match e with
      | .received _ => { t with received := t.received + 1 }
      | .emitted _ => { t with emitted := t.emitted + 1 }
    match t.scheduler with
    | some s =>
      let (s, reports) := s.observe now e
      { t with scheduler := some s, reports := t.reports ++ reports }
    | none => t
  else t

/-- Whether the task has a thread that could read a record now. -/
def isIdle (t : Task σ ρ) : Bool :=
  match t.thread with
  | some (.live busy _) => !busy
  | _ => false

/-- Whether the task has a thread that has not ended. -/
def isLive (t : Task σ ρ) : Bool :=
  match t.thread with
  | some thread => thread.isLive
  | none => false

/-- Whether there is something to read, and the thread has not been asked to halt. -/
def hasWork (t : Task σ ρ) : Bool :=
  match t.inputs.head? with
  | some gate => !gate.queue.isEmpty && !gate.halt.requested
  | none => false

end Task

namespace World

/-! ### Access -/

/-- The task at an index. -/
def task? (w : World σ ρ) (task : Nat) : Option (Task σ ρ) := w.tasks[task]?

/-- The input gate at a place. -/
def input? (w : World σ ρ) (g : GateRef) : Option (InputGate ρ) :=
  (w.task? g.task).bind (fun t => t.inputs[g.gate]?)

/-- The output gate at a place. -/
def output? (w : World σ ρ) (g : GateRef) : Option (OutputGate ρ) :=
  (w.task? g.task).bind (fun t => t.outputs[g.gate]?)

/-- Changes the task at an index. -/
def modifyTask (w : World σ ρ) (task : Nat) (f : Task σ ρ → Task σ ρ) : World σ ρ :=
  { w with tasks := w.tasks.modify task f }

/-- Changes the input gate at a place. -/
def modifyInput (w : World σ ρ) (g : GateRef) (f : InputGate ρ → InputGate ρ) : World σ ρ :=
  w.modifyTask g.task (fun t => { t with inputs := t.inputs.modify g.gate f })

/-- Changes the output gate at a place. -/
def modifyOutput (w : World σ ρ) (g : GateRef) (f : OutputGate ρ → OutputGate ρ) : World σ ρ :=
  w.modifyTask g.task (fun t => { t with outputs := t.outputs.modify g.gate f })

/-- Tells those who observe a task of a record at one of its gates. -/
def report (w : World σ ρ) (task : Nat) (e : GateEvent) : World σ ρ :=
  w.modifyTask task (fun t => t.observe w.clock e)

/-! ### Records -/

/-- Whether a receiver is there.  When the instance is about to end, tasks without threads are
gone. -/
def isOpen (w : World σ ρ) : Receiver → Bool
  | .task task => ((w.task? task).map fun t => !w.isEnding || t.thread.isSome).getD false
  | .sink sink => ((w.sinks[sink]?).map Sink.isOpen).getD false

/-- Puts records into the queue of an input gate. -/
def feed (w : World σ ρ) (g : GateRef) (records : List ρ) : World σ ρ :=
  w.modifyInput g (fun gate => { gate with queue := gate.queue ++ records })

/-- Records arrive at their receiver. -/
def arrive (w : World σ ρ) : Shipment ρ Receiver → World σ ρ
  | (.task task, records) => w.feed { task, gate := 0 } records
  | (.sink sink, records) =>
    { w with sinks := w.sinks.modify sink (fun s => { s with arrived := s.arrived ++ records }) }

/-- Closes the sinks with a name; what leads there has no receiver any more. -/
def closeSink (w : World σ ρ) (name : String) : World σ ρ :=
  { w with sinks := w.sinks.map (fun s => if s.name = name then { s with isOpen := false } else s) }

/-- Takes the first record off the queue of an input gate; those who observe the task are told. -/
def read (w : World σ ρ) (g : GateRef) : Option ρ × World σ ρ :=
  match (w.input? g).map InputGate.queue with
  | some (record :: rest) =>
    (some record,
      (w.modifyInput g (fun gate => { gate with queue := rest })).report g.task (.received g.gate))
  | _ => (none, w)

/-- Takes all records off the queue of an input gate; nobody is told. -/
def takeQueue (w : World σ ρ) (g : GateRef) : List ρ × World σ ρ :=
  (((w.input? g).map InputGate.queue).getD [],
    w.modifyInput g (fun gate => { gate with queue := [] }))

/-- Runs the user code of a task on a record. -/
def runCode (w : World σ ρ) (task : Nat) (record : ρ) : List ρ × World σ ρ :=
  match w.task? task with
  | some t =>
    let (made, memory) := t.code t.memory record
    (made, w.modifyTask task (fun t => { t with memory }))
  | none => ([], w)

/-- The channels of an output gate that a record goes to. -/
def select (w : World σ ρ) (g : GateRef) (record : ρ) : List Nat × World σ ρ :=
  match w.output? g with
  | some gate =>
    let (channels, selector) := gate.selector.select record gate.outlet.size
    (channels, w.modifyOutput g (fun gate => { gate with selector }))
  | none => ([], w)

/-! ### Threads -/

/-- Whether the thread of a task is where it parks, should it be asked to halt at this gate. -/
def mayPark (w : World σ ρ) (g : GateRef) : Bool :=
  g.gate = 0 && ((w.task? g.task).map Task.isIdle).getD false

/-- Asks the thread behind an input gate to halt, upon which it parks if it can; the answer says
whether that is new. -/
def halt (w : World σ ρ) (g : GateRef) : Bool × World σ ρ :=
  match w.input? g with
  | some gate =>
    let (isNew, h) := gate.halt.request
    (isNew, w.modifyInput g (fun gate => { gate with halt := if w.mayPark g then h.enter else h }))
  | none => (false, w)

/-- Wakes the thread behind an input gate; the answer says whether it had been asked to halt. -/
def wake (w : World σ ρ) (g : GateRef) : Bool × World σ ρ :=
  match w.input? g with
  | some gate =>
    let (wasHalted, h) := gate.halt.wake
    (wasHalted, w.modifyInput g (fun gate => { gate with halt := h.leave }))
  | none => (false, w)

/-- Wakes the threads behind the input gates of some links. -/
def wakeLinks (w : World σ ρ) (links : List ChainLink) : World σ ρ :=
  links.foldl (fun w l => (w.wake l.inputRef).2) w

/-- What waiting for the thread behind an input gate to park comes to, within a number of
milliseconds. -/
def awaitParked (w : World σ ρ) (g : GateRef) (millis : Nat) : Except Error Unit :=
  match w.input? g with
  | some gate =>
    match gate.halt.awaitParked (millis * 1000000) with
    | .ok _ => .ok ()
    | .error _ => .error (.inputGateNotParked gate.id (millis * 1000000))
  | none => .error (.noInputGate g.gate)

/-- The thread of a task starts to work. -/
def startWork (w : World σ ρ) (task : Nat) : World σ ρ :=
  w.modifyTask task (fun t =>
    match t.thread with
    | some (.live _ read) => { t with thread := some (.live true read) }
    | _ => t)

/-- The thread of a task has read another record. -/
def countRead (w : World σ ρ) (task : Nat) : World σ ρ :=
  w.modifyTask task (fun t =>
    match t.thread with
    | some (.live busy read) => { t with thread := some (.live busy (read + 1)) }
    | _ => t)

/-- The thread of a task, unless it has ended meanwhile, comes to the place where it may park. -/
def stopWork (w : World σ ρ) (task : Nat) : World σ ρ :=
  w.modifyTask task (fun t =>
    match t.thread with
    | some (.live _ read) =>
      { t with
        thread := some (.live false read)
        inputs := t.inputs.modify 0 (fun g => { g with halt := g.halt.enter }) }
    | _ => t)

/-- The thread of a task ends. -/
def endThread (w : World σ ρ) (task : Nat) (result : Except Error Nat) : World σ ρ :=
  w.modifyTask task (fun t => { t with thread := some (.ended result) })

/-! ### Chains -/

/-- Takes the chain away from an output gate. -/
def takeChain (w : World σ ρ) (g : GateRef) : Option Chain × World σ ρ :=
  ((w.output? g).bind OutputGate.chain, w.modifyOutput g (fun gate => { gate with chain := none }))

/-- Drops the chain of an output gate and wakes its links. -/
def dropChain (w : World σ ρ) (g : GateRef) : World σ ρ :=
  let (previous, w) := w.takeChain g
  w.wakeLinks ((previous.map Chain.links).getD [])

/-- Wakes the links of a chain that another one does not take over. -/
def release (w : World σ ρ) (previous : Option Chain) (successor : Chain) : World σ ρ :=
  w.wakeLinks ((previous.map (·.linksNotIn successor)).getD [])

/-- Takes away the chains that the links of a chain are heads of. -/
def dissolve (w : World σ ρ) (c : Chain) : World σ ρ :=
  c.links.foldl (fun w l => let (previous, w) := w.takeChain l.outputRef; w.release previous c) w

/-- Makes an output gate the head of a chain, in place of the one that it had. -/
def replaceChain (w : World σ ρ) (g : GateRef) (c : Chain) : World σ ρ :=
  let (previous, w) := w.takeChain g
  (w.modifyOutput g (fun gate => { gate with chain := some c })).release previous c

/-- Notes that the head of a chain has dealt with it. -/
def signal (w : World σ ρ) (c : Chain) : World σ ρ :=
  { w with signalled := w.signalled.add c.number }

/-- Whether the head of the chain with a number has dealt with it. -/
def isSignalled (w : World σ ρ) (number : Nat) : Bool := w.signalled.contains number

/-- Adds a chain, which gets the next number. -/
def addChain (w : World σ ρ) (id : ChainId) (head : MemberId) (links : List ChainLink) :
    Except Error (Chain × World σ ρ) := do
  let c ← Chain.create w.chains.length id head links
  return (c, { w with chains := w.chains ++ [c] })

/-! ### Queued actions -/

/-- Queues an action at an output gate. -/
def enqueue (w : World σ ρ) (g : GateRef) (a : GateAction) : World σ ρ :=
  w.modifyOutput g (fun gate => { gate with pending := gate.pending ++ [a] })

/-- Takes the first action off the queue of an output gate. -/
def popAction (w : World σ ρ) (g : GateRef) : Option GateAction × World σ ρ :=
  match (w.output? g).map OutputGate.pending with
  | some (a :: rest) => (some a, w.modifyOutput g (fun gate => { gate with pending := rest }))
  | _ => (none, w)

/-- How many actions are queued at all output gates. -/
def pendingActions (w : World σ ρ) : Nat :=
  w.tasks.foldr (fun t n => t.outputs.foldr (fun g k => g.pending.length + k) n) 0

/-- How many output gates there are. -/
def outputGates (w : World σ ρ) : Nat := w.tasks.foldr (fun t n => t.outputs.length + n) 0

end World

end LatencyControl
