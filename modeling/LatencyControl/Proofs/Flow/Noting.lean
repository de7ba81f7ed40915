import LatencyControl.Proofs.Flow.Turns

/-!
# Notes of what is selected

`World.annotated` puts notes of selections into the memories of all tasks of an instance, where
nothing in the instance looks at them: user code works on the rest of the memory, and everything
else leaves memories alone.  So each small step makes of an instance with notes what it makes of the
instance, with the notes still there, and whatever looks at the instance sees no difference.

`World.note` adds a note, and `World.notes` has them all.
-/

namespace LatencyControl

variable {σ ρ : Type}

/-- A memory with notes of selections. -/
abbrev Noted (σ ρ : Type) := σ × List (Pick ρ)

/-- The task with some notes, which its user code does not see. -/
def Task.annotated (notes : List (Pick ρ)) (t : Task σ ρ) : Task (Noted σ ρ) ρ where
  id := t.id
  inputs := t.inputs
  outputs := t.outputs
  code memory record := ((t.code memory.1 record).1, (t.code memory.1 record).2, memory.2)
  memory := (t.memory, notes)
  thread := t.thread
  isObserved := t.isObserved
  received := t.received
  emitted := t.emitted
  scheduler := t.scheduler
  reports := t.reports

namespace World

/-- The instance with some notes. -/
def annotated (notes : List (Pick ρ)) (w : World σ ρ) : World (Noted σ ρ) ρ where
  job := w.job
  clock := w.clock
  tasks := w.tasks.map (Task.annotated notes)
  sinks := w.sinks
  register := w.register
  chains := w.chains
  signalled := w.signalled
  isEager := w.isEager
  isEnding := w.isEnding

/-- Adds a note. -/
def note (w : World (Noted σ ρ) ρ) (p : Pick ρ) : World (Noted σ ρ) ρ :=
  { w with tasks := w.tasks.map fun t => { t with memory := (t.memory.1, t.memory.2 ++ [p]) } }

/-- All notes. -/
def notes (w : World (Noted σ ρ) ρ) : List (Pick ρ) :=
  (w.tasks.head?.map fun t => t.memory.2).getD []

/-- Notes which channels an output gate selects for a record, if the gate runs. -/
def noteSelection (w : World (Noted σ ρ) ρ) (g : GateRef) (record : ρ) : World (Noted σ ρ) ρ :=
  match w.output? g with
  | some gate => if gate.state = .running then w.note ⟨g, record, (w.select g record).1⟩ else w
  | none => w

variable {w : World σ ρ} {notes : List (Pick ρ)}

theorem note_annotated (w : World σ ρ) (notes : List (Pick ρ)) (p : Pick ρ) :
    (w.annotated notes).note p = w.annotated (notes ++ [p]) := by
  simp only [note, annotated, List.map_map]
  rfl

theorem notes_annotated (hw : w.tasks ≠ []) (notes : List (Pick ρ)) :
    (w.annotated notes).notes = notes := by
  obtain ⟨t, rest, htasks⟩ := List.exists_cons_of_ne_nil hw
  rw [World.notes, annotated, htasks]
  rfl

/-! ### What is seen of the instance -/

@[simp] theorem task?_annotated (w : World σ ρ) (k : ℕ) :
    (w.annotated notes).task? k = (w.task? k).map (Task.annotated notes) := List.getElem?_map

@[simp] theorem input?_annotated (w : World σ ρ) (i : GateRef) :
    (w.annotated notes).input? i = w.input? i := by
  rw [input?, task?_annotated, Option.bind_map]
  rfl

@[simp] theorem output?_annotated (w : World σ ρ) (g : GateRef) :
    (w.annotated notes).output? g = w.output? g := by
  rw [output?, task?_annotated, Option.bind_map]
  rfl

@[simp] theorem isOpen_annotated (w : World σ ρ) : (w.annotated notes).isOpen = w.isOpen := by
  funext receiver
  cases receiver with
  | task k =>
    simp only [isOpen, task?_annotated, Option.map_map]
    rfl
  | sink k => rfl

@[simp] theorem awaitParked_annotated (w : World σ ρ) (i : GateRef) (millis : ℕ) :
    (w.annotated notes).awaitParked i millis = w.awaitParked i millis := by
  rw [awaitParked, input?_annotated, awaitParked]

@[simp] theorem mayPark_annotated (w : World σ ρ) (i : GateRef) :
    (w.annotated notes).mayPark i = w.mayPark i := by
  simp only [mayPark, task?_annotated, Option.map_map]
  rfl

@[simp] theorem depth_annotated (w : World σ ρ) : (w.annotated notes).depth = w.depth := by
  simp only [depth, outputGates, pendingActions, annotated, List.foldr_map, List.length_map]
  rfl

/-! ### What is done to the instance -/

theorem modifyTask_annotated {k : ℕ} {f : Task σ ρ → Task σ ρ}
    {f' : Task (Noted σ ρ) ρ → Task (Noted σ ρ) ρ}
    (hf : ∀ t, f' (t.annotated notes) = (f t).annotated notes) :
    (w.annotated notes).modifyTask k f' = (w.modifyTask k f).annotated notes := by
  have htasks : (w.tasks.map (Task.annotated notes)).modify k f' =
      (w.tasks.modify k f).map (Task.annotated notes) := by
    refine List.ext_getElem? fun j => ?_
    simp only [List.getElem?_map, List.getElem?_modify]
    cases w.tasks[j]? with
    | none => rfl
    | some t => by_cases hk : k = j <;> simp [hk, hf]
  simp only [modifyTask, annotated, htasks]

@[simp] theorem modifyInput_annotated (w : World σ ρ) (i : GateRef)
    (f : InputGate ρ → InputGate ρ) :
    (w.annotated notes).modifyInput i f = (w.modifyInput i f).annotated notes :=
  modifyTask_annotated fun _ => rfl

@[simp] theorem modifyOutput_annotated (w : World σ ρ) (g : GateRef)
    (f : OutputGate ρ → OutputGate ρ) :
    (w.annotated notes).modifyOutput g f = (w.modifyOutput g f).annotated notes :=
  modifyTask_annotated fun _ => rfl

@[simp] theorem report_annotated (w : World σ ρ) (task : ℕ) (e : GateEvent) :
    (w.annotated notes).report task e = (w.report task e).annotated notes := by
  refine modifyTask_annotated fun t => ?_
  obtain ⟨id, inputs, outputs, code, memory, thread, isObserved, received, emitted, scheduler,
    reports⟩ := t
  cases isObserved <;> cases scheduler <;> cases e <;> rfl

@[simp] theorem arrive_annotated (w : World σ ρ) (s : Shipment ρ Receiver) :
    (w.annotated notes).arrive s = (w.arrive s).annotated notes := by
  obtain ⟨receiver, records⟩ := s
  cases receiver with
  | task k => exact modifyInput_annotated w _ _
  | sink k => rfl

@[simp] theorem read_annotated (w : World σ ρ) (i : GateRef) :
    (w.annotated notes).read i = ((w.read i).1, (w.read i).2.annotated notes) := by
  simp only [read, input?_annotated]
  rcases (w.input? i).map InputGate.queue with _ | _ | ⟨record, rest⟩
  · rfl
  · rfl
  · simp

@[simp] theorem takeQueue_annotated (w : World σ ρ) (i : GateRef) :
    (w.annotated notes).takeQueue i = ((w.takeQueue i).1, (w.takeQueue i).2.annotated notes) := by
  simp [takeQueue]

@[simp] theorem runCode_annotated (w : World σ ρ) (task : ℕ) (record : ρ) :
    (w.annotated notes).runCode task record =
      ((w.runCode task record).1, (w.runCode task record).2.annotated notes) := by
  simp only [runCode, task?_annotated]
  cases htask : w.task? task with
  | none => rfl
  | some t => exact congrArg (Prod.mk _) (modifyTask_annotated fun _ => rfl)

@[simp] theorem select_annotated (w : World σ ρ) (g : GateRef) (record : ρ) :
    (w.annotated notes).select g record =
      ((w.select g record).1, (w.select g record).2.annotated notes) := by
  simp only [select, output?_annotated]
  cases w.output? g with
  | none => rfl
  | some gate => simp

@[simp] theorem halt_annotated (w : World σ ρ) (i : GateRef) :
    (w.annotated notes).halt i = ((w.halt i).1, (w.halt i).2.annotated notes) := by
  simp only [halt, input?_annotated, mayPark_annotated]
  cases w.input? i with
  | none => rfl
  | some gate => simp

@[simp] theorem wake_annotated (w : World σ ρ) (i : GateRef) :
    (w.annotated notes).wake i = ((w.wake i).1, (w.wake i).2.annotated notes) := by
  simp only [wake, input?_annotated]
  cases w.input? i with
  | none => rfl
  | some gate => simp

@[simp] theorem wakeLinks_annotated (w : World σ ρ) (links : List ChainLink) :
    (w.annotated notes).wakeLinks links = (w.wakeLinks links).annotated notes := by
  induction links generalizing w with
  | nil => rfl
  | cons l rest ih =>
    show ((w.annotated notes).wake l.inputRef).2.wakeLinks rest = _
    rw [wake_annotated]
    exact ih _

@[simp] theorem startWork_annotated (w : World σ ρ) (task : ℕ) :
    (w.annotated notes).startWork task = (w.startWork task).annotated notes :=
  modifyTask_annotated fun t => by
    rcases t with ⟨_, _, _, _, _, _ | ⟨_, _⟩ | _, _, _, _, _, _⟩ <;> rfl

@[simp] theorem countRead_annotated (w : World σ ρ) (task : ℕ) :
    (w.annotated notes).countRead task = (w.countRead task).annotated notes :=
  modifyTask_annotated fun t => by
    rcases t with ⟨_, _, _, _, _, _ | ⟨_, _⟩ | _, _, _, _, _, _⟩ <;> rfl

@[simp] theorem stopWork_annotated (w : World σ ρ) (task : ℕ) :
    (w.annotated notes).stopWork task = (w.stopWork task).annotated notes :=
  modifyTask_annotated fun t => by
    rcases t with ⟨_, _, _, _, _, _ | ⟨_, _⟩ | _, _, _, _, _, _⟩ <;> rfl

@[simp] theorem endThread_annotated (w : World σ ρ) (task : ℕ) (result : Except Error ℕ) :
    (w.annotated notes).endThread task result = (w.endThread task result).annotated notes :=
  modifyTask_annotated fun _ => rfl

@[simp] theorem takeChain_annotated (w : World σ ρ) (g : GateRef) :
    (w.annotated notes).takeChain g = ((w.takeChain g).1, (w.takeChain g).2.annotated notes) := by
  simp [takeChain]

@[simp] theorem dropChain_annotated (w : World σ ρ) (g : GateRef) :
    (w.annotated notes).dropChain g = (w.dropChain g).annotated notes := by
  simp [dropChain]

@[simp] theorem release_annotated (w : World σ ρ) (previous : Option Chain) (c : Chain) :
    (w.annotated notes).release previous c = (w.release previous c).annotated notes :=
  wakeLinks_annotated w _

@[simp] theorem dissolve_annotated (w : World σ ρ) (c : Chain) :
    (w.annotated notes).dissolve c = (w.dissolve c).annotated notes := by
  unfold dissolve
  induction c.links generalizing w with
  | nil => rfl
  | cons l rest ih =>
    simp only [List.foldl_cons, takeChain_annotated, release_annotated]
    exact ih _

@[simp] theorem replaceChain_annotated (w : World σ ρ) (g : GateRef) (c : Chain) :
    (w.annotated notes).replaceChain g c = (w.replaceChain g c).annotated notes := by
  simp [replaceChain]

@[simp] theorem signal_annotated (w : World σ ρ) (c : Chain) :
    (w.annotated notes).signal c = (w.signal c).annotated notes := rfl

@[simp] theorem popAction_annotated (w : World σ ρ) (g : GateRef) :
    (w.annotated notes).popAction g = ((w.popAction g).1, (w.popAction g).2.annotated notes) := by
  simp only [popAction, output?_annotated]
  rcases (w.output? g).map OutputGate.pending with _ | _ | ⟨a, rest⟩
  · rfl
  · rfl
  · simp

/-! ### Notes of selections -/

section

variable {g : GateRef} {gate : OutputGate ρ}

theorem noteSelection_of_none (hgate : w.output? g = none) (record : ρ) :
    (w.annotated notes).noteSelection g record = w.annotated notes := by
  rw [noteSelection, output?_annotated, hgate]

theorem noteSelection_of_running (hgate : w.output? g = some gate)
    (hrunning : gate.state = .running) (record : ρ) : (w.annotated notes).noteSelection g record =
      w.annotated (notes ++ [⟨g, record, (w.select g record).1⟩]) := by
  simp only [noteSelection, output?_annotated, hgate, if_pos hrunning, select_annotated,
    note_annotated]

theorem noteSelection_of_not_running (hgate : w.output? g = some gate)
    (hstate : gate.state ≠ .running) (record : ρ) :
    (w.annotated notes).noteSelection g record = w.annotated notes := by
  simp only [noteSelection, output?_annotated, hgate, if_neg hstate]

end

end World

end LatencyControl
