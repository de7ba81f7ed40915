import LatencyControl.Flow.World

/-!
# Dispatching control messages

The messages for a job reach the tasks of an instance through a register.  A message that makes no
sense here, because it is for another job, names an unknown task or gate or asks for a chain that
cannot be, is skipped without leaving a trace.
-/

namespace LatencyControl

/-- What became of a message. -/
inductive Dispatched
  | enqueued
  | chainEnqueued (chain : Chain)
  | skipped
  deriving DecidableEq, Repr

variable {σ ρ : Type}

namespace World

/-- Registers the task at an index as the member that it is. -/
def registerTask (w : World σ ρ) (task : Nat) : Except Error (World σ ρ) := do
  match w.task? task with
  | none => return w
  | some t =>
    if w.register.contains t.id then throw (.taskRegistered t.id)
    return { w with register := w.register.insert t.id task }

/-- Takes a member out of the register; the answer says whether it was there. -/
def unregister (w : World σ ρ) (member : MemberId) : Bool × World σ ρ :=
  (w.register.contains member, { w with register := w.register.erase member })

/-- The task that is registered as a member, with its index. -/
def registered? (w : World σ ρ) (member : MemberId) : Option (Nat × Task σ ρ) := do
  let index ← w.register.find? member
  return (index, ← w.task? index)

/-- The place of the first of a member's output gates with the given identifier. -/
def findOutput? (w : World σ ρ) (member : MemberId) (gate : GateId) : Option GateRef := do
  let (task, t) ← w.registered? member
  return { task, gate := ← t.outputs.findIdx? (fun g => g.id = gate) }

/-- The link that a member makes in a chain: it takes part by its first gates. -/
def link? (w : World σ ρ) (member : MemberId) : Option ChainLink := do
  let (task, t) ← w.registered? member
  if t.inputs.isEmpty || t.outputs.isEmpty then none
  else return { member, task, input := 0, output := 0 }

/-- Queues an action at an output gate of a member. -/
def enqueueAt (w : World σ ρ) (member : MemberId) (gate : GateId) (a : GateAction) :
    Dispatched × World σ ρ :=
  match w.findOutput? member gate with
  | some g => (.enqueued, w.enqueue g a)
  | none => (.skipped, w)

/-- Builds the chain of some members, the first of which is its head, and names the place where it
has to be queued. -/
def buildChain? (w : World σ ρ) (id : ChainId) (members : List MemberId) :
    Option (GateRef × Chain × World σ ρ) := do
  let head ← members.head?
  let (task, t) ← w.registered? head
  if t.outputs.isEmpty then none
  let links ← members.tail.mapM w.link?
  let (c, w) ← (w.addChain id head links).toOption
  return ({ task, gate := 0 }, c, w)

/-- Queues the chain of some members at the first of them. -/
def enqueueChain (w : World σ ρ) (id : ChainId) (members : List MemberId) :
    Dispatched × World σ ρ :=
  match w.buildChain? id members with
  | some (g, c, w) => (.chainEnqueued c, w.enqueue g (.establishChain c))
  | none => (.skipped, w)

/-- Queues what a message asks for at the gate that it is for.  If that is a chain, it gets the
given identifier. -/
def dispatch (w : World σ ρ) (id : ChainId) (m : Message) : Dispatched × World σ ρ :=
  if m.job ≠ w.job then (.skipped, w)
  else
    match m.action with
    | .limitBufferSize member gate channel size =>
      w.enqueueAt member gate (.limitBufferSize channel size)
    | .setLifetimeTarget member gate channel target =>
      w.enqueueAt member gate (.setLifetimeTarget channel target)
    | .establishChain members => w.enqueueChain id members
    | .dropChain member gate => w.enqueueAt member gate .dropChain

end World

end LatencyControl
