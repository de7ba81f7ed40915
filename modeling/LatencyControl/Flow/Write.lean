import LatencyControl.Flow.World

/-!
# Writing records

What is written to an output gate goes to its channels, or through its chain; then the gate carries
out the actions that are queued at it.  Either may make further tasks write: a chain hands what its
last link makes to another gate, and a task whose thread works off what arrives at once writes to
its own gate.  Carrying out an action may do so as well, as establishing a chain moves records on.

So everything here is defined for a given way `write` of writing to another gate, and
`Flow.writeWithin` closes the circle: it writes within a given depth of writes that are made inside
each other.  No output gate is the head of a chain that leads back to it unless a chain was queued
at a gate that is not its head's, so `World.depth` is enough for everything else.

A failure leaves the changes made before it in place.
-/

namespace LatencyControl

variable {σ ρ α : Type}

/-- An activity among the tasks of an instance, which may fail.  What it changed before it failed
stays changed. -/
abbrev Flow (σ ρ : Type) := ExceptT Error (StateM (World σ ρ))

namespace Flow

/-- Carries out an activity and holds on to its failure. -/
def attempt (x : Flow σ ρ α) : Flow σ ρ (Except Error α) := ExceptT.lift x.run

/-- Fails as a result says. -/
def ofExcept (result : Except Error α) : Flow σ ρ α := ExceptT.mk (pure result)

/-- The output gate at a place, which has to be there. -/
def outputGate (g : GateRef) : Flow σ ρ (OutputGate ρ) := do
  match (← get).output? g with
  | some gate => return gate
  | none => throw (.noOutputGate g.gate)

/-- Replaces the outlet of an output gate. -/
def setOutlet (g : GateRef) (outlet : Outlet ρ) : Flow σ ρ Unit :=
  modify (·.modifyOutput g (fun gate => { gate with outlet }))

section

variable (write : GateRef → ρ → Flow σ ρ Unit)

/-! ### Threads -/

/-- The thread of a task reads a record and writes what the user code makes of it. -/
def handleRecord (task : Nat) : Flow σ ρ Unit := do
  match ← modifyGet (·.read { task, gate := 0 }) with
  | none => return
  | some record =>
    modify (·.countRead task)
    let made ← modifyGet (·.runCode task record)
    made.forM (write { task, gate := 0 })

/-- The thread of a task handles records, at most the given number of them.  An error ends the
thread. -/
def handleRecords (task : Nat) : Nat → Flow σ ρ Unit
  | 0 => return
  | n + 1 => do
    match (← get).task? task with
    | some t =>
      if t.isLive && t.hasWork then
        match ← attempt (handleRecord write task) with
        | .ok _ => handleRecords task n
        | .error e => modify (·.endThread task (.error e))
    | none => return

/-- Gives the thread of a task a turn, unless it is busy: it handles at most the given number of
records. -/
def giveTurn (task : Nat) (records : Nat) : Flow σ ρ Unit := do
  match (← get).task? task with
  | some t =>
    if t.isIdle then
      modify (·.startWork task)
      handleRecords write task records
      modify (·.stopWork task)
  | none => return

/-- Lets the thread of a task work off what is queued, if threads are eager to do so. -/
def settle (task : Nat) : Flow σ ρ Unit := do
  let w ← get
  if w.isEager then
    giveTurn write task (((w.input? { task, gate := 0 }).map (·.queue.length)).getD 0)

/-- Records arrive at their receiver. -/
def deliver (s : Shipment ρ Receiver) : Flow σ ρ Unit := do
  modify (·.arrive s)
  match s.1 with
  | .task task => settle write task
  | .sink _ => return

/-! ### Channels -/

/-- Sends the buffers of an output gate. -/
def flushGate (g : GateRef) : Flow σ ρ Unit := do
  match (← outputGate g).outlet with
  | .direct .. => throw .flushFailed
  | .channels bank =>
    let (result, shipments, bank) := bank.flush (← get).isOpen
    setOutlet g (.channels bank)
    shipments.forM (deliver write)
    ofExcept result

/-- Writes a record to one channel of an output gate. -/
def writeChannel (g : GateRef) (record : ρ) (index : Nat) : Flow σ ρ Unit := do
  let w ← get
  match (← outputGate g).outlet with
  | .direct _ receiver =>
    if w.isOpen receiver then deliver write (receiver, [record]) else throw .sendFailed
  | .channels bank =>
    let (result, bank) := bank.write index w.clock w.isOpen record
    setOutlet g (.channels bank)
    deliver write (← ofExcept result)

/-! ### Chains -/

/-- Runs the task of a link on some records, one after the other. -/
def runLink (l : ChainLink) : List ρ → Flow σ ρ (List ρ)
  | [] => return []
  | record :: rest => do
    modify (·.report l.task (.received l.input))
    let made ← modifyGet (·.runCode l.task record)
    return made ++ (← runLink l rest)

/-- Passes records through some links, and what the last one makes of them to its output gate. -/
def passAlong : List ChainLink → List ρ → Flow σ ρ Unit
  | [], _ => return
  | [last], records => do
    let made ← runLink last records
    made.forM (write last.outputRef)
  | l :: next :: rest, records => do
    let made ← runLink l records
    made.forM (fun _ => modify (·.report l.task (.emitted l.output)))
    passAlong (next :: rest) made

/-- Passes a record through the links of a chain, starting at the one with the given index. -/
def writeFrom (c : Chain) (start : Nat) (record : ρ) : Flow σ ρ Unit :=
  if start < c.links.length then passAlong write (c.links.drop start) [record]
  else throw (.noLink c.id start)

/-- Makes sure that a link whose thread was asked to halt has come to rest: its thread is parked,
and its output gate has sent its buffers. -/
def secureLink (millis : Nat) (l : ChainLink) : Flow σ ρ Unit := do
  ofExcept ((← get).awaitParked l.inputRef millis)
  flushGate write l.outputRef

/-- Halts links one after the other, up to the first failure; the answer holds those that were not
halted before. -/
def haltLinks (millis : Nat) : List ChainLink → Flow σ ρ (Except Error Unit × List ChainLink)
  | [] => return (.ok (), [])
  | l :: rest => do
    let isNew ← modifyGet (·.halt l.inputRef)
    let halted := if isNew then [l] else []
    match ← attempt (secureLink write millis l) with
    | .error e => return (.error e, halted)
    | .ok _ =>
      let (result, later) ← haltLinks millis rest
      return (result, halted ++ later)

/-- Passes on what is queued at links of a chain; each comes with its index. -/
def drainLinks (c : Chain) : List (ChainLink × Nat) → Flow σ ρ Unit
  | [] => return
  | (l, index) :: rest => do
    let records ← modifyGet (·.takeQueue l.inputRef)
    records.forM (writeFrom write c index)
    drainLinks c rest

/-- Makes a running output gate the head of a chain.  The gate sends its buffers and brings all
links to rest; then the chains that are in the way make room, and what is queued at the links passes
through the chain, from its end to its start.  If a link does not come to rest, everything stays as
it was; if the queued records do not get through, the gate is left without a chain. -/
def install (g : GateRef) (c : Chain) : Flow σ ρ Unit := do
  flushGate write g
  let (result, halted) ← haltLinks write (← outputGate g).timeout c.links
  if let .error e := result then
    modify (·.wakeLinks halted)
    throw e
  modify (·.dissolve c)
  modify (·.replaceChain g c)
  if let .error e ← attempt (drainLinks write c c.links.zipIdx.reverse) then
    modify (·.dropChain g)
    throw e

/-- Deals with a chain that was queued at an output gate: a gate that does not run ignores it.
Whatever happens, the chain has been dealt with. -/
def establish (g : GateRef) (c : Chain) : Flow σ ρ Unit := do
  let gate ← outputGate g
  let result ← attempt (if gate.state = .running then install write g c else return)
  modify (·.signal c)
  ofExcept result

/-! ### Actions -/

/-- Carries out an action at an output gate.  Buffers are limited by records, not by size, so there
is nothing to do for their size. -/
def perform (g : GateRef) : GateAction → Flow σ ρ Unit
  | .limitBufferSize .. => return
  | .setLifetimeTarget channel target => do
    setOutlet g (← ofExcept ((← outputGate g).outlet.setTarget channel target))
  | .establishChain c => establish write g c
  | .dropChain => modify (·.dropChain g)

/-- Carries out the actions queued at an output gate, oldest first and at most the given number of
them.  One that fails is used up and keeps the later ones waiting. -/
def performQueued (g : GateRef) : Nat → Flow σ ρ Unit
  | 0 => return
  | n + 1 => do
    match ← modifyGet (·.popAction g) with
    | none => return
    | some a =>
      perform write g a
      performQueued g n

/-- Carries out all actions queued at an output gate. -/
def performPending (g : GateRef) : Flow σ ρ Unit := do
  performQueued write g (← outputGate g).pending.length

/-! ### Records -/

/-- Writes a record to an output gate, which has to run.  The selector is asked even if the record
goes through a chain. -/
def writeOnce (g : GateRef) (record : ρ) : Flow σ ρ Unit := do
  let gate ← outputGate g
  if gate.state ≠ .running then throw (.gateNotRunning gate.id gate.state)
  modify (·.report g.task (.emitted g.gate))
  let channels ← modifyGet (·.select g record)
  match gate.chain with
  | some c => writeFrom write c 0 record
  | none => channels.forM (writeChannel write g record)
  performPending write g

end

/-- Writes a record to an output gate, with at most the given number of writes inside each other. -/
def writeWithin : Nat → GateRef → ρ → Flow σ ρ Unit
  | 0, _, _ => throw .nestingTooDeep
  | depth + 1, g, record => writeOnce (writeWithin depth) g record

end Flow

/-- A depth of writes inside each other that goes round no circle: every thread may be busy, and
between two of them every gate may be the head of a chain, anew after each queued action. -/
def World.depth (w : World σ ρ) : Nat :=
  (w.tasks.length + 1) * (w.outputGates + 1) * (w.pendingActions + 1)

/-- Carries out an activity with all the depth that it may need. -/
def Flow.withWriter (x : (GateRef → ρ → Flow σ ρ Unit) → Flow σ ρ α) : Flow σ ρ α := do
  x (Flow.writeWithin (← get).depth)

end LatencyControl
