import LatencyControl.Error
import LatencyControl.Json.Fields

/-!
# Settings

The settings with which the latency control of a job runs.  Every setting has a default, so the
empty document is a valid one.
-/

namespace LatencyControl

/-- Settings of one job.  Times are in milliseconds. -/
structure Settings where
  /-- The least time between two reports of one reporter. -/
  aggregationInterval : Int64 := 1000
  /-- How many measurements a manager keeps per metric. -/
  historyCapacity : Nat := 16
  /-- The size of the output buffers that channels start with. -/
  initialBufferSize : Int32 := 32768
  /-- How long a gate waits for the tasks that it is about to chain. -/
  chainTimeout : Nat := 5000
  /-- How long a waiting input gate sleeps before it looks again. -/
  pollInterval : Nat := 50
  deriving DecidableEq, Repr

namespace Settings

/-- Refuses settings under which nothing could work; the first fault found is the one reported. -/
def validate (s : Settings) : Except Error Unit := do
  if s.aggregationInterval ≤ 0 then throw (.intervalNotPositive s.aggregationInterval.toInt)
  if s.historyCapacity = 0 then throw .historyCapacityZero
  if s.initialBufferSize ≤ 0 then throw (.bufferSettingNotPositive s.initialBufferSize.toInt)
  if s.chainTimeout = 0 ∨ s.pollInterval = 0 then throw .timeoutSettingZero

/-- Reads settings; what a document leaves out has its default. -/
def ofJson? (document : Json) : Option Settings := do
  let fields ← document.fields?
    ["aggregationIntervalMs", "valueHistoryCapacity", "initialBufferSize",
      "chainEstablishTimeoutMs", "inputGatePollIntervalMs"]
  let absent : Settings := {}
  return {
    aggregationInterval :=
      ← fields.defaulted "aggregationIntervalMs" absent.aggregationInterval Json.asInt64?
    historyCapacity := ← fields.defaulted "valueHistoryCapacity" absent.historyCapacity Json.asNat?
    initialBufferSize :=
      ← fields.defaulted "initialBufferSize" absent.initialBufferSize Json.asInt32?
    chainTimeout := ← fields.defaulted "chainEstablishTimeoutMs" absent.chainTimeout Json.asNat?
    pollInterval := ← fields.defaulted "inputGatePollIntervalMs" absent.pollInterval Json.asNat? }

/-- Writes settings. -/
def toJson (s : Settings) : Json :=
  .record
    [("aggregationIntervalMs", .int s.aggregationInterval.toInt),
      ("valueHistoryCapacity", .nat s.historyCapacity),
      ("initialBufferSize", .int s.initialBufferSize.toInt),
      ("chainEstablishTimeoutMs", .nat s.chainTimeout),
      ("inputGatePollIntervalMs", .nat s.pollInterval)]

end Settings

end LatencyControl
