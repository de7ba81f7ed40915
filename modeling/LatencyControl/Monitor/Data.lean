import LatencyControl.Monitor.History
import LatencyControl.Report.Sample

/-!
# What a manager knows of members and channels

A manager keeps histories of the measurements that it is sent.  Those of a member are kept apart by
gates.  Those of a channel are kept apart by metric, because a sample may have some metrics and not
others; with them goes a history of the buffer sizes that the manager has set.
-/

namespace LatencyControl

/-- An input gate and an output gate of a member; either may be missing. -/
structure GatePair where
  input : Option Nat
  output : Option Nat
  deriving DecidableEq, Repr

/-! ### Members -/

/-- The measurements of a member, gates by gates. -/
structure VertexData (α : Type) where
  member : MemberId
  capacity : Nat
  /-- A history for every pair of gates that reports are expected on. -/
  histories : List (GatePair × History (VertexMetrics α)) := []

namespace VertexData

variable {α : Type}

/-- The measurements between a pair of gates. -/
def history? (d : VertexData α) (gates : GatePair) : Option (History (VertexMetrics α)) :=
  d.histories.lookup gates

/-- Whether reports are expected on a pair of gates. -/
def expects (d : VertexData α) (gates : GatePair) : Bool := (d.history? gates).isSome

/-- Expects reports on a pair of gates from now on. -/
def expect (d : VertexData α) (gates : GatePair) : VertexData α :=
  if d.expects gates then d
  else { d with histories := d.histories ++ [(gates, History.ofCapacity d.capacity)] }

/-- Adds a measurement between a pair of gates, whose reports are expected from now on. -/
def add (d : VertexData α) (gates : GatePair) (metrics : VertexMetrics α) (timestamp : Int) :
    VertexData α :=
  let d := d.expect gates
  { d with histories := d.histories.map (fun (g, h) =>
      (g, if g = gates then h.add metrics timestamp else h)) }

/-- The most recently added measurement between a pair of gates. -/
def latest? (d : VertexData α) (gates : GatePair) : Option (Stamped (VertexMetrics α)) :=
  (d.history? gates).bind History.last?

end VertexData

/-! ### Channels -/

/-- The measurements of a channel, metric by metric, and its buffer sizes. -/
structure EdgeData (α : Type) where
  channel : ChannelId
  latency : History α
  bufferLifetime : History α
  perBuffer : History α
  perSecond : History α
  bufferSizes : History Int32

namespace EdgeData

variable {α : Type}

/-- What is known of a channel that was deployed at the given time, with the given buffer size. -/
def deployed (channel : ChannelId) (capacity : Nat) (bufferSize : Int32) (timestamp : Int) :
    EdgeData α :=
  { channel
    latency := History.ofCapacity capacity
    bufferLifetime := History.ofCapacity capacity
    perBuffer := History.ofCapacity capacity
    perSecond := History.ofCapacity capacity
    bufferSizes := (History.ofCapacity capacity).add bufferSize timestamp }

/-- Adds the metrics of a measurement, as far as it has them. -/
def add (d : EdgeData α) (metrics : EdgeMetrics α) (timestamp : Int) : EdgeData α :=
  { d with
    latency := d.latency.addIfAny metrics.latency timestamp
    bufferLifetime := d.bufferLifetime.addIfAny metrics.bufferLifetime timestamp
    perBuffer := d.perBuffer.addIfAny metrics.perBuffer timestamp
    perSecond := d.perSecond.addIfAny metrics.perSecond timestamp }

/-- Remembers a buffer size that was set at the given time. -/
def recordBufferSize (d : EdgeData α) (size : Int32) (timestamp : Int) : EdgeData α :=
  { d with bufferSizes := d.bufferSizes.add size timestamp }

/-- The buffer size that was set last. -/
def bufferSize? (d : EdgeData α) : Option Int32 := d.bufferSizes.lastValue?

/-- Whether the last measurement of a metric is later than the last change of the buffer size, if
there was one. -/
def isNewer (d : EdgeData α) (metric : History α) : Bool :=
  match metric.lastTimestamp?, d.bufferSizes.lastTimestamp? with
  | some measured, some changed => changed < measured
  | measured, none => measured.isSome
  | none, some _ => false

/-- Whether both latency metrics are later than the last change of the buffer size. -/
def isFresh (d : EdgeData α) : Bool := d.isNewer d.latency && d.isNewer d.bufferLifetime

end EdgeData

end LatencyControl
