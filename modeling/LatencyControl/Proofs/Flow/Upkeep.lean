import LatencyControl.Flow.Operation
import LatencyControl.Flow.Plan
import LatencyControl.Proofs.Flow.Attending

/-!
# Operating an instance

An instance is operated from outside: actions are queued at its output gates, records are written
to them, gates are suspended, resumed and closed, threads get their turns.  In between, other things
happen to it that have no say in who runs a task: records arrive, receivers go away, time passes and
threads park (`Operated`).

What holds of an instance however it is operated follows from few facts.  An `Upkeep` says that a
condition is kept by each of the small steps that change `World.control`, and by the installation of
a chain.  Then it is kept by writes inside each other to any depth, and by every run.
-/

namespace LatencyControl

open World

variable {σ ρ : Type} {ι : Type}

/-! ### Conditions that are kept up -/

namespace Flow

/-- Conditions that are kept up, together with the chains that may be queued at a gate.  There may
be several of them, as an installation may rely on another one for a while. -/
structure Upkeep (P : ι → World σ ρ → Prop) (Admits : GateRef → Chain → Prop) : Prop where
  ofControl : ∀ i, IsOfControl (P i)
  enqueue : ∀ {i w g a}, P i w → (∀ c, a = .establishChain c → Admits g c) → P i (w.enqueue g a)
  popAction : ∀ {i w g}, P i w → P i (w.popAction g).2
  admits : ∀ {i w g c}, P i w → w.Awaits g c → Admits g c
  dropChain : ∀ {i w g}, P i w → P i (w.dropChain g)
  keeps_install : ∀ {write : GateRef → ρ → Flow σ ρ Unit} {g c},
    (∀ i g record, Keeps (P i) (write g record)) → Admits g c → ∀ i, Keeps (P i) (install write g c)

namespace Upkeep

variable {P : ι → World σ ρ → Prop} {Admits : GateRef → Chain → Prop} (hP : Upkeep P Admits)

include hP

section

variable {write : GateRef → ρ → Flow σ ρ Unit}
  (hwrite : ∀ i g record, Keeps (P i) (write g record))

include hwrite

theorem keeps_perform {g : GateRef} {a : GateAction}
    (ha : ∀ c, a = .establishChain c → Admits g c) (i : ι) :
    Keeps (P i) (perform write g a) := by
  intro w hw
  refine leads_perform_of hw (fun _ _ _ _ _ _ _ => ?_) (hP.dropChain hw) (fun c hc _ => ?_) ?_
  · exact hP.ofControl i (control_modifyOutput fun _ => ⟨rfl, rfl⟩) hw
  · exact hP.keeps_install hwrite (ha c hc) i w hw
  · exact fun w c hw => hP.ofControl i (control_signal w c) hw

end

/-- An action that is taken off the queue was queued, so it is one that may be. -/
theorem attends : Attends P where
  ofStanding i := (hP.ofControl i).ofStanding
  leads_perform hwrite hw ha := by
    refine hP.keeps_perform hwrite ?_ _ _ (hP.popAction hw)
    rintro c rfl
    exact hP.admits hw (mem_queuedAt_of_popAction ha)

theorem keeps_leaveRunning (g : GateRef) (state : GateState) (i : ι) :
    Keeps (P i) (leaveRunning g state : Flow σ ρ Unit) := by
  refine hP.attends.keeps_leaveRunning_of fun w _ hw _ _ => hP.dropChain ?_
  exact hP.ofControl i (control_modifyOutput fun _ => ⟨rfl, rfl⟩) hw

end Upkeep

end Flow

/-! ### New instances -/

namespace World

variable {w : World σ ρ}

/-- Nobody has been asked to halt, no gate holds a chain, and nothing is queued. -/
structure IsFresh (w : World σ ρ) : Prop where
  isHalted : ∀ i, w.isHalted i = false
  chainAt : ∀ g, w.chainAt g = none
  queuedAt : ∀ g, w.queuedAt g = []

theorem IsFresh.not_holds (hw : w.IsFresh) {g : GateRef} {c : Chain} : ¬ w.Holds g c := by
  rw [Holds, hw.chainAt]
  exact Option.some_ne_none c ∘ Eq.symm

theorem IsFresh.not_awaits (hw : w.IsFresh) {g : GateRef} {c : Chain} : ¬ w.Awaits g c := by
  rw [Awaits, hw.queuedAt]
  exact List.not_mem_nil

theorem isFresh_of_tasks
    (hinputs : ∀ t ∈ w.tasks, ∀ gate ∈ t.inputs, gate.halt.requested = false)
    (houtputs : ∀ t ∈ w.tasks, ∀ gate ∈ t.outputs, gate.chain = none ∧ gate.pending = []) :
    w.IsFresh := by
  have hgate : ∀ {g gate}, w.output? g = some gate → gate.chain = none ∧ gate.pending = [] := by
    intro g gate hgate
    obtain ⟨t, ht, hgate⟩ := Option.bind_eq_some_iff.mp hgate
    exact houtputs t (List.mem_of_getElem? ht) gate (List.mem_of_getElem? hgate)
  refine ⟨fun i => ?_, fun g => ?_, fun g => ?_⟩
  · unfold World.isHalted
    cases hi : w.input? i with
    | none => rfl
    | some gate =>
      obtain ⟨t, ht, hgate⟩ := Option.bind_eq_some_iff.mp hi
      exact hinputs t (List.mem_of_getElem? ht) gate (List.mem_of_getElem? hgate)
  · unfold World.chainAt
    cases hg : w.output? g with
    | none => rfl
    | some gate => exact (hgate hg).1
  · unfold World.queuedAt
    cases hg : w.output? g with
    | none => rfl
    | some gate => exact (hgate hg).2

end World

theorem tasks_registerTask {w w' : World σ ρ} {task : ℕ} (h : w.registerTask task = .ok w') :
    w'.tasks = w.tasks := by
  unfold registerTask at h
  cases hr : w.task? task with
  | none =>
    rw [hr] at h
    obtain rfl := Except.ok.inj h
    rfl
  | some t =>
    rw [hr] at h
    dsimp only at h
    split_ifs at h
    · cases h
    · obtain rfl := Except.ok.inj h
      rfl

theorem Plan.tasks_registerAll (p : Plan σ ρ) (w : World σ ρ) :
    (p.registerAll w).tasks = w.tasks := by
  refine List.foldlRecOn (motive := fun w' : World σ ρ => w'.tasks = w.tasks) _ _ rfl ?_
  intro w' hw' t _
  dsimp only
  split_ifs
  · cases hr : w'.registerTask t.2 with
    | error e => exact hw'
    | ok w'' => exact (tasks_registerTask hr).trans hw'
  · exact hw'

/-- The instance of a plan is fresh. -/
theorem Plan.isFresh_world (p : Plan σ ρ) : p.world.IsFresh := by
  have htasks : ∀ t ∈ p.world.tasks,
      ∃ (plan : TaskPlan σ ρ) (receiver : String → Receiver), t = plan.task p.clock receiver := by
    intro t ht
    rw [Plan.world, Plan.tasks_registerAll] at ht
    obtain ⟨⟨plan, i⟩, -, rfl⟩ := List.mem_map.mp ht
    exact ⟨plan, p.receiver i, rfl⟩
  apply isFresh_of_tasks
  · intro t ht gate hgate
    obtain ⟨plan, receiver, rfl⟩ := htasks t ht
    obtain ⟨i, -, rfl⟩ := List.mem_map.mp hgate
    rfl
  · intro t ht gate hgate
    obtain ⟨plan, receiver, rfl⟩ := htasks t ht
    obtain ⟨o, -, rfl⟩ := List.mem_map.mp hgate
    exact ⟨rfl, rfl⟩

/-! ### Runs -/

/-- What is done to an instance from outside. -/
inductive GateOp (ρ : Type)
  /-- An action is queued at an output gate. -/
  | enqueue (g : GateRef) (a : GateAction)
  /-- A record is written to an output gate. -/
  | write (g : GateRef) (record : ρ)
  /-- An output gate carries out what is queued. -/
  | perform (g : GateRef)
  /-- An output gate gives up its chain. -/
  | dropChain (g : GateRef)
  | suspend (g : GateRef)
  | close (g : GateRef)
  | resume (g : GateRef)
  /-- The thread of a task gets a turn. -/
  | step (task : ℕ)

namespace GateOp

/-- Does something to an instance.  It may fail. -/
def act : GateOp ρ → Flow σ ρ Unit
  | enqueue g a => modify (·.enqueue g a)
  | write g record => Flow.write g record
  | perform g => Flow.performAll g
  | dropChain g => modify (·.dropChain g)
  | suspend g => Flow.suspend g
  | close g => Flow.close g
  | resume g => modify fun w => (w.resume g).2
  | step task => Flow.step task

/-- What something that is done to an instance makes of it, whether it fails or not. -/
def apply (o : GateOp ρ) (w : World σ ρ) : World σ ρ := (o.act.run.run w).2

end GateOp

/-- The chain is queued at the output gate at some time. -/
def Queues (ops : List (GateOp ρ)) (g : GateRef) (c : Chain) : Prop :=
  GateOp.enqueue g (.establishChain c) ∈ ops

/-- An instance has been operated.  In between, anything else may have happened to it that does not
change who runs a task. -/
inductive Operated (w₀ : World σ ρ) : List (GateOp ρ) → World σ ρ → Prop
  | start : Operated w₀ [] w₀
  | operate {ops : List (GateOp ρ)} {w : World σ ρ} (h : Operated w₀ ops w) (o : GateOp ρ) :
      Operated w₀ (ops ++ [o]) (o.apply w)
  | elsewhere {ops : List (GateOp ρ)} {w w' : World σ ρ} (h : Operated w₀ ops w)
      (hw : w'.control = w.control) : Operated w₀ ops w'

/-- An instance after what is done to it, if nothing else happens. -/
def World.after (w : World σ ρ) (ops : List (GateOp ρ)) : World σ ρ :=
  ops.foldl (fun w o => o.apply w) w

theorem Operated.after {w₀ w : World σ ρ} {done : List (GateOp ρ)} (h : Operated w₀ done w)
    (ops : List (GateOp ρ)) : Operated w₀ (done ++ ops) (w.after ops) := by
  induction ops generalizing done w with
  | nil => rwa [List.append_nil]
  | cons o rest ih =>
    rw [List.append_cons]
    exact ih (h.operate o)

namespace Flow.Upkeep

variable {P : ι → World σ ρ → Prop} {Admits : GateRef → Chain → Prop} (hP : Upkeep P Admits)

include hP

theorem keeps_act {o : GateOp ρ} (ho : ∀ g c, o = .enqueue g (.establishChain c) → Admits g c)
    (i : ι) : Keeps (P i) (o.act : Flow σ ρ Unit) := by
  cases o with
  | enqueue g a =>
    refine keeps_modify fun w hw => hP.enqueue hw ?_
    rintro c rfl
    exact ho g c rfl
  | write g record => exact hP.attends.keeps_write g record i
  | perform g => exact hP.attends.keeps_performAll g i
  | dropChain g => exact keeps_modify fun _ => hP.dropChain
  | suspend g => exact hP.keeps_leaveRunning g _ i
  | close g => exact hP.keeps_leaveRunning g _ i
  | resume g => exact keeps_modify_of_control (hP.ofControl i) fun w => control_resume w g
  | step task => exact hP.attends.keeps_step task i

/-- A run keeps the conditions, if it queues only chains that may be queued. -/
theorem of_operated {w₀ w : World σ ρ} {ops : List (GateOp ρ)} {i : ι} (h₀ : P i w₀)
    (hrun : Operated w₀ ops w) (hops : ∀ g c, Queues ops g c → Admits g c) : P i w := by
  induction hrun with
  | start => exact h₀
  | @operate ops w hrun o ih =>
    have hw : P i w := ih fun g c hc => hops g c (List.mem_append_left [o] hc)
    have ho : ∀ g c, o = .enqueue g (.establishChain c) → Admits g c := by
      rintro g c rfl
      exact hops g c (List.mem_append_right ops List.mem_cons_self)
    exact (hP.keeps_act ho i w hw).final
  | elsewhere hrun hw ih => exact hP.ofControl i hw (ih hops)

end Flow.Upkeep

end LatencyControl
