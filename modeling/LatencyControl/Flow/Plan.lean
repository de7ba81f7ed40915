import LatencyControl.Flow.Dispatch

/-!
# Plans of instances

A plan says which tasks an instance runs and what their output gates lead to.  Tasks come in the
order of the flow: a name that is meant to receive records is that of a later task, or else that of
a sink.  Gates are named after their tasks.
-/

namespace LatencyControl

/-- A channel in a plan: its name, what it leads to, and how many records fill its buffers. -/
structure ChannelPlan where
  id : ChannelId
  target : String
  limit : Nat

/-- An outlet in a plan. -/
inductive OutletPlan
  | channels (channels : List ChannelPlan)
  | direct (target : String)

namespace OutletPlan

/-- What an outlet leads to. -/
def targets : OutletPlan → List String
  | .channels cs => cs.map ChannelPlan.target
  | .direct target => [target]

/-- The outlet of a gate, given the receivers by their names. -/
def outlet {ρ : Type} (gate : GateId) (receiver : String → Receiver) : OutletPlan → Outlet ρ
  | .channels cs =>
    .channels
      { id := gate
        lanes := cs.map fun c =>
          { channel := .ofLimit c.id c.limit, receiver := receiver c.target } }
  | .direct target => .direct gate (receiver target)

end OutletPlan

/-- An output gate in a plan. -/
structure OutputPlan (ρ : Type) where
  outlet : OutletPlan
  selector : Selector ρ := .roundRobin 0
  /-- How long the gate waits for the thread of a task to park, in milliseconds. -/
  timeout : Nat := 5000

/-- The reporters in a plan: their interval, and the gates between which they measure. -/
structure ReportPlan where
  interval : Int64
  gates : List (Option Nat × Option Nat)

/-- A task in a plan. -/
structure TaskPlan (σ ρ : Type) where
  id : MemberId
  inputs : Nat := 1
  outputs : List (OutputPlan ρ)
  code : σ → ρ → List ρ × σ
  memory : σ
  hasThread : Bool := false
  isObserved : Bool := true
  isRegistered : Bool := true
  reports : Option ReportPlan := none

namespace TaskPlan

variable {σ ρ : Type}

/-- What a task leads to. -/
def targets (p : TaskPlan σ ρ) : List String := p.outputs.flatMap (fun o => o.outlet.targets)

/-- The scheduler for the reporters of a task. -/
def scheduler (p : TaskPlan σ ρ) (now : Int64) (r : ReportPlan) : Scheduler Int64 :=
  r.gates.foldl
    (fun s (input, output) =>
      let id := .vertex p.id (input.map p.id.inputGate) (output.map p.id.outputGate)
      match s.register now input output id with
      | .ok (_, s) => s
      | .error _ => s)
    { interval := r.interval, inputs := p.inputs, outputs := p.outputs.length }

/-- The task of a plan. -/
def task (p : TaskPlan σ ρ) (now : Int64) (receiver : String → Receiver) : Task σ ρ :=
  { id := p.id
    inputs := (List.range p.inputs).map fun i => { id := p.id.inputGate i }
    outputs := p.outputs.zipIdx.map fun (o, i) =>
      { outlet := o.outlet.outlet (p.id.outputGate i) receiver
        selector := o.selector
        timeout := o.timeout }
    code := p.code
    memory := p.memory
    thread := if p.hasThread then some (.live false 0) else none
    isObserved := p.isObserved
    scheduler := p.reports.map (p.scheduler now) }

end TaskPlan

/-- The plan of an instance. -/
structure Plan (σ ρ : Type) where
  job : JobId
  clock : Int64
  tasks : List (TaskPlan σ ρ)

namespace Plan

variable {σ ρ : Type}

/-- The index of the task with a name, behind the task with the given index. -/
def laterTask? (p : Plan σ ρ) (index : Nat) (name : String) : Option Nat :=
  ((p.tasks.drop (index + 1)).findIdx? (fun t => t.id.text = name)).map (index + 1 + ·)

/-- The names of all sinks. -/
def sinks (p : Plan σ ρ) : List String :=
  (p.tasks.zipIdx.flatMap fun (t, i) =>
    t.targets.filter (fun name => (p.laterTask? i name).isNone)).eraseDups

/-- What a name means to the task with the given index. -/
def receiver (p : Plan σ ρ) (index : Nat) (name : String) : Receiver :=
  match p.laterTask? index name with
  | some task => .task task
  | none => .sink (p.sinks.idxOf name)

/-- Registers the tasks that are to be registered; of tasks with the same name the first. -/
def registerAll (p : Plan σ ρ) (w : World σ ρ) : World σ ρ :=
  p.tasks.zipIdx.foldl (fun w (t, i) =>
    if t.isRegistered then (w.registerTask i).toOption.getD w else w) w

/-- The instance of a plan, before anything happens. -/
def world (p : Plan σ ρ) : World σ ρ :=
  p.registerAll
    { job := p.job
      clock := p.clock
      tasks := p.tasks.zipIdx.map fun (t, i) => t.task p.clock (p.receiver i)
      sinks := p.sinks.map fun name => { name } }

end Plan

end LatencyControl
