import LatencyControl.Flow.World
import LatencyControl.Topology.Document

/-!
# Snapshots of an instance

The state of the gates and threads of an instance, written for people to look at.
-/

namespace LatencyControl

variable {σ ρ : Type}

/-- Writes how full a channel is, how many buffers it has sent and what age they may have. -/
def Channel.snapshot {τ : Type} (c : Channel τ ρ) : Json :=
  .array [.nat c.buffer.length, .nat c.buffersSent, Json.option (fun t => .int t.toInt) c.target]

/-- Writes the channels of an outlet. -/
def Outlet.snapshot : Outlet ρ → Json
  | .channels bank => Json.list (fun p => p.channel.snapshot) bank.lanes
  | .direct .. => .array []

/-- Writes the state of an output gate. -/
def OutputGate.snapshot (g : OutputGate ρ) : Json :=
  .record
    [("state", .text g.state.label), ("pending", .nat g.pending.length),
      ("chain", Json.option (fun c => Ident.listToJson c.members) g.chain),
      ("channels", g.outlet.snapshot)]

/-- Writes the state of a task. -/
def Task.snapshot (t : Task σ ρ) : Json :=
  .record
    [("halted", Json.list (fun g => .bool g.halt.requested) t.inputs),
      ("queued", Json.list (fun g => .nat g.queue.length) t.inputs),
      ("received", .nat t.received), ("emitted", .nat t.emitted),
      ("alive", Json.option (fun thread => .bool thread.isLive) t.thread),
      ("outputs", Json.list OutputGate.snapshot t.outputs)]

/-- Writes the state of all tasks. -/
def World.snapshot (w : World σ ρ) : Json :=
  .record (w.tasks.map fun t => (t.id.text, t.snapshot))

/-- Writes a chain as seen by its instance, and which of some members are links of it. -/
def World.chainSnapshot (w : World σ ρ) (c : Chain) (members : List MemberId) : Json :=
  .record
    [("chained", .bool (w.isSignalled c.number)), ("head", c.head.toJson),
      ("vertices", Ident.listToJson c.members), ("links", .nat c.links.length),
      ("contains", Json.list (fun m => .bool (c.hasLink m)) members), ("debug", .text c.describe)]

end LatencyControl
