import LatencyControl.Reporter

/-!
# Samples

A sample is one measurement by one reporter.  A metric that the reporter cannot measure, because it
watches only one side of a member, is absent.

Metrics are numbers of a type `α`: the program measures in floating point.
-/

namespace LatencyControl

/-- What is measured of a member between two of its gates: the latency in milliseconds, and the
records per second that it consumes and emits. -/
structure VertexMetrics (α : Type) where
  latency : Option α
  consumed : Option α
  emitted : Option α

/-- What is measured of a channel: its latency and the lifetime of its output buffers in
milliseconds, the records per buffer and the records per second. -/
structure EdgeMetrics (α : Type) where
  latency : Option α
  bufferLifetime : Option α
  perBuffer : Option α
  perSecond : Option α

/-- A measurement of a member or of a channel. -/
inductive Metrics (α : Type)
  | vertex (metrics : VertexMetrics α)
  | edge (metrics : EdgeMetrics α)

/-- A measurement and the reporter that made it. -/
structure Sample (α : Type) where
  reporter : ReporterId
  metrics : Metrics α

end LatencyControl
