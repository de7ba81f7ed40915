import LatencyControl.Control.Action
import LatencyControl.Flow.Bank
import LatencyControl.Flow.Chain
import LatencyControl.Flow.Halt
import LatencyControl.Flow.Selector

/-!
# Gates

A task reads from input gates and writes to output gates.  An input gate queues what arrives, and is
the place where the task's thread parks.  An output gate hands records over to its outlet, unless it
is the head of a chain, and carries out the control actions that are queued at it.
-/

namespace LatencyControl

/-- Where records go: to the first input gate of a task, or out of the instance through a sink. -/
inductive Receiver
  | task (index : Nat)
  | sink (index : Nat)
  deriving DecidableEq, Repr

/-! ### Input gates -/

/-- An input gate. -/
structure InputGate (ρ : Type) where
  id : GateId
  queue : List ρ := []
  halt : Halt := {}

/-! ### Output gates -/

/-- What is queued at an output gate. -/
inductive GateAction
  | limitBufferSize (channel : ChannelId) (size : Int32)
  | setLifetimeTarget (channel : ChannelId) (target : Int32)
  | establishChain (chain : Chain)
  | dropChain
  deriving DecidableEq, Repr

namespace GateAction

/-- What an action means to the gate that it names.  Establishing a chain takes more than that. -/
def ofAction? : Action → Option GateAction
  | .limitBufferSize _ _ channel size => some (.limitBufferSize channel size)
  | .setLifetimeTarget _ _ channel target => some (.setLifetimeTarget channel target)
  | .establishChain _ => none
  | .dropChain .. => some .dropChain

/-- An action as people read it. -/
def describe : GateAction → String
  | .limitBufferSize channel size => s!"LimitBufferSize({channel}, {size.toInt})"
  | .setLifetimeTarget channel target =>
    s!"SetOutputBufferLifetimeTarget({channel}, {target.toInt}ms)"
  | .establishChain chain => s!"EstablishChain({chain.id})"
  | .dropChain => "DropChain"

end GateAction

/-- What takes the records of an output gate. -/
inductive Outlet (ρ : Type)
  /-- Buffered channels. -/
  | channels (bank : Bank Int64 ρ Receiver)
  /-- A single receiver that gets each record at once; there is nothing to flush. -/
  | direct (id : GateId) (receiver : Receiver)

namespace Outlet

variable {ρ : Type}

/-- The identifier of the gate. -/
def id : Outlet ρ → GateId
  | .channels bank => bank.id
  | .direct id _ => id

/-- How many channels there are to select from. -/
def size : Outlet ρ → Nat
  | .channels bank => bank.lanes.length
  | .direct .. => 1

/-- Sets the age at which the buffers of a channel are sent; a channel that is not there is no
error. -/
def setTarget (channel : ChannelId) (target : Int32) : Outlet ρ → Except Error (Outlet ρ)
  | .channels bank =>
    match bank.indexOf? channel with
    | some index => (bank.setTarget index target).map .channels
    | none => .ok (.channels bank)
  | outlet => .ok outlet

end Outlet

/-- An output gate. -/
structure OutputGate (ρ : Type) where
  outlet : Outlet ρ
  selector : Selector ρ
  /-- Actions that were queued and not yet carried out. -/
  pending : List GateAction := []
  state : GateState := .running
  /-- The chain that the gate is the head of. -/
  chain : Option Chain := none
  /-- How long the gate waits for the thread of a task to park, in milliseconds. -/
  timeout : Nat

/-- The identifier of an output gate. -/
def OutputGate.id {ρ : Type} (g : OutputGate ρ) : GateId := g.outlet.id

end LatencyControl
