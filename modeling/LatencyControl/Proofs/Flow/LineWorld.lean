import LatencyControl.Proofs.Flow.LineChain

/-!
# Instances that are lines

`World.Shows sink w L` ties an instance to a line: the tasks of `w` are wired one behind the other,
the last one leads out through a sink, and the stages of `L` are what counts of the tasks.  The
threads of such an instance wait to be given turns.

There is one lemma for each small step of an instance: what it does to the line, which is nothing
for most of them.
-/

namespace LatencyControl

variable {σ ρ : Type}

/-! ### Tasks as stages -/

/-- The records that wait in the channels of an outlet. -/
def Outlet.buffered : Outlet ρ → List ρ
  | .channels bank => bank.lanes.flatMap (fun l => l.channel.buffer)
  | .direct .. => []

/-- Whether the thread of a task works on a record, if there is one that runs. -/
def Task.working (t : Task σ ρ) : Option Bool :=
  match t.thread with
  | some (.live busy _) => some busy
  | _ => none

/-- What counts of a task in a line. -/
def Task.stage (t : Task σ ρ) : Stage σ ρ :=
  { code := t.code
    memory := t.memory
    queue := (t.inputs.head?.map InputGate.queue).getD []
    buffer := (t.outputs.head?.map (fun g => g.outlet.buffered)).getD []
    chain := t.outputs.head?.bind OutputGate.chain
    pending := (t.outputs.head?.map OutputGate.pending).getD []
    working := t.working }

/-- Where the gate of a task in a line leads. -/
def lineReceiver (k size sink : ℕ) : Receiver :=
  if k + 1 < size then .task (k + 1) else .sink sink

/-- The gate runs and has a single channel, to the given receiver. -/
def OutputGate.LeadsTo (g : OutputGate ρ) (receiver : Receiver) : Prop :=
  g.state = .running ∧ ∃ id channel, g.outlet = .channels { id, lanes := [{ channel, receiver }] }

/-- The task is the one at index `k` of a line: a single gate leads to the next task, and all tasks
but the first have a single gate to read from. -/
structure Task.Wired (t : Task σ ρ) (k size sink : ℕ) : Prop where
  output : ∃ gate, t.outputs = [gate] ∧ gate.LeadsTo (lineReceiver k size sink)
  input : 0 < k → ∃ gate, t.inputs = [gate]

/-- The instance is a line, whose state is the given one. -/
structure World.Shows (sink : ℕ) (w : World σ ρ) (L : Line σ ρ) : Prop where
  lazy : w.isEager = false
  lasting : w.isEnding = false
  tasks : w.tasks.map Task.stage = L.stages
  wired : ∀ k (t : Task σ ρ), w.tasks[k]? = some t → t.Wired k L.size sink
  leaves : ∃ s, w.sinks[sink]? = some s ∧ s.isOpen = true ∧ s.arrived = L.arrived

namespace World.Shows

variable {sink : ℕ} {w : World σ ρ} {L : Line σ ρ}

/-- The task of a stage. -/
theorem exists_task (h : w.Shows sink L) {k : ℕ} (hk : k < L.size) :
    ∃ t, w.tasks[k]? = some t ∧ L.stages[k]? = some t.stage ∧ t.Wired k L.size sink := by
  obtain ⟨s, hs⟩ := Line.exists_stage hk
  have hmap := hs
  rw [← h.tasks, List.getElem?_map, Option.map_eq_some_iff] at hmap
  obtain ⟨t, ht, rfl⟩ := hmap
  exact ⟨t, ht, hs, h.wired k t ht⟩

/-- The task of a stage behind the first one has an input gate. -/
theorem exists_input (h : w.Shows sink L) {k : ℕ} (hk : k + 1 < L.size) :
    ∃ t gate, w.tasks[k + 1]? = some t ∧ t.inputs = [gate] ∧ L.stages[k + 1]? = some t.stage := by
  obtain ⟨t, ht, hs, hwired⟩ := h.exists_task hk
  obtain ⟨gate, hgate⟩ := hwired.input (Nat.succ_pos k)
  exact ⟨t, gate, ht, hgate, hs⟩

theorem size_eq (h : w.Shows sink L) : L.size = w.tasks.length := by
  rw [Line.size, ← h.tasks, List.length_map]

/-! ### Changes of tasks -/

/-- A change of a task that does to its stage what `g` does, and leaves the wires. -/
theorem modifyTask (h : w.Shows sink L) {k : ℕ} {f : Task σ ρ → Task σ ρ}
    {g : Stage σ ρ → Stage σ ρ}
    (hstage : ∀ t, w.tasks[k]? = some t → t.Wired k L.size sink → (f t).stage = g t.stage)
    (hwired : ∀ t, t.Wired k L.size sink → (f t).Wired k L.size sink) :
    (w.modifyTask k f).Shows sink (L.modify k g) where
  lazy := h.lazy
  lasting := h.lasting
  tasks := by
    refine List.ext_getElem? fun m => ?_
    rw [World.modifyTask, Line.modify, ← h.tasks, List.getElem?_map, List.getElem?_modify,
      List.getElem?_modify, List.getElem?_map]
    cases ht : w.tasks[m]? with
    | none => rfl
    | some t =>
      by_cases hm : k = m
      · subst hm
        simp [hstage t ht (h.wired k t ht)]
      · simp [hm]
  wired m t ht := by
    rw [World.modifyTask, List.getElem?_modify, Option.map_eq_map, Option.map_eq_some_iff] at ht
    obtain ⟨t', ht', rfl⟩ := ht
    rw [Line.size_modify]
    by_cases hm : k = m
    · subst hm
      rw [if_pos rfl]
      exact hwired t' (h.wired k t' ht')
    · rw [if_neg hm]
      exact h.wired m t' ht'
  leaves := h.leaves

/-- A change of a task that does not count. -/
theorem modifyTask_same (h : w.Shows sink L) {k : ℕ} {f : Task σ ρ → Task σ ρ}
    (hstage : ∀ t, (f t).stage = t.stage)
    (hwired : ∀ t, t.Wired k L.size sink → (f t).Wired k L.size sink) :
    (w.modifyTask k f).Shows sink L := by
  have := h.modifyTask (g := id) (fun t _ _ => hstage t) hwired
  rwa [Line.modify_eq_self (f := id) fun _ _ => rfl] at this

end World.Shows

/-! ### Changes of gates -/

theorem Task.Wired.congr {t t' : Task σ ρ} {k size sink : ℕ} (h : t.Wired k size sink)
    (hin : t'.inputs = t.inputs) (hout : t'.outputs = t.outputs) : t'.Wired k size sink :=
  ⟨hout ▸ h.output, hin ▸ h.input⟩

theorem Task.Wired.modifyInput {t : Task σ ρ} {k size sink : ℕ} (h : t.Wired k size sink) (i : ℕ)
    (f : InputGate ρ → InputGate ρ) :
    Task.Wired { t with inputs := t.inputs.modify i f } k size sink where
  output := h.output
  input hk := by
    obtain ⟨gate, hgate⟩ := h.input hk
    cases i with
    | zero => exact ⟨f gate, by simp [hgate]⟩
    | succ i => exact ⟨gate, by simp [hgate]⟩

theorem Task.Wired.modifyOutput {t : Task σ ρ} {k size sink : ℕ} (h : t.Wired k size sink)
    {f : OutputGate ρ → OutputGate ρ}
    (hf : ∀ g receiver, g.LeadsTo receiver → (f g).LeadsTo receiver) :
    Task.Wired { t with outputs := t.outputs.modify 0 f } k size sink where
  output := by
    obtain ⟨gate, hgate, hleads⟩ := h.output
    exact ⟨f gate, by simp [hgate], hf gate _ hleads⟩
  input := h.input

theorem Task.stage_modifyInput (t : Task σ ρ) (i : ℕ) {f : InputGate ρ → InputGate ρ}
    (hf : ∀ g, (f g).queue = g.queue) :
    Task.stage { t with inputs := t.inputs.modify i f } = t.stage := by
  simp only [Task.stage, Task.working]
  congr 1
  cases t.inputs with
  | nil => simp
  | cons g rest => cases i <;> simp [hf]

namespace World.Shows

variable {sink : ℕ} {w : World σ ρ} {L : Line σ ρ}

/-- A change of an input gate that leaves its queue. -/
theorem modifyInput (h : w.Shows sink L) (g : GateRef) {f : InputGate ρ → InputGate ρ}
    (hf : ∀ gate, (f gate).queue = gate.queue) : (w.modifyInput g f).Shows sink L :=
  h.modifyTask_same (fun t => t.stage_modifyInput g.gate hf) fun _ ht => ht.modifyInput g.gate f

/-- A change of the queue in front of a task. -/
theorem modifyQueue (h : w.Shows sink L) {k : ℕ} (hk : 0 < k) (f : List ρ → List ρ) :
    (w.modifyInput { task := k, gate := 0 } (fun gate => { gate with queue := f gate.queue })).Shows
      sink (L.modify k (fun s => { s with queue := f s.queue })) := by
  refine h.modifyTask (fun t _ ht => ?_) fun t ht => ht.modifyInput 0 _
  obtain ⟨gate, hgate⟩ := ht.input hk
  simp [Task.stage, Task.working, hgate]

/-- A change of an output gate that does to its stage what `g` does. -/
theorem modifyOutput (h : w.Shows sink L) {k : ℕ} {f : OutputGate ρ → OutputGate ρ}
    {g : Stage σ ρ → Stage σ ρ}
    (hstage : ∀ (t : Task σ ρ) gate, t.outputs = [gate] →
      gate.LeadsTo (lineReceiver k L.size sink) →
      Task.stage { t with outputs := [f gate] } = g t.stage)
    (hf : ∀ gate receiver, OutputGate.LeadsTo gate receiver → (f gate).LeadsTo receiver) :
    (w.modifyOutput { task := k, gate := 0 } f).Shows sink (L.modify k g) := by
  refine h.modifyTask (fun t _ ht => ?_) fun t ht => ht.modifyOutput hf
  obtain ⟨gate, hgate, hleads⟩ := ht.output
  rw [← hstage t gate hgate hleads, hgate]
  rfl

/-- A change of an output gate that does not count. -/
theorem modifyOutput_same (h : w.Shows sink L) {k : ℕ} {f : OutputGate ρ → OutputGate ρ}
    (hstage : ∀ gate, OutputGate.LeadsTo gate (lineReceiver k L.size sink) →
      (f gate).outlet.buffered = gate.outlet.buffered ∧ (f gate).chain = gate.chain ∧
        (f gate).pending = gate.pending)
    (hf : ∀ gate receiver, OutputGate.LeadsTo gate receiver → (f gate).LeadsTo receiver) :
    (w.modifyOutput { task := k, gate := 0 } f).Shows sink L := by
  have := h.modifyOutput (k := k) (f := f) (g := id) (fun t gate hgate hleads => ?_) hf
  · rwa [Line.modify_eq_self (f := id) fun _ _ => rfl] at this
  · obtain ⟨hb, hc, hp⟩ := hstage gate hleads
    simp [Task.stage, Task.working, hgate, hb, hc, hp]

end World.Shows

/-! ### Observers and threads -/

theorem Task.observe_same (t : Task σ ρ) (now : Int64) (e : GateEvent) :
    (t.observe now e).stage = t.stage ∧ (t.observe now e).inputs = t.inputs ∧
      (t.observe now e).outputs = t.outputs := by
  unfold Task.observe
  split_ifs
  · cases e <;> dsimp only <;> cases t.scheduler <;> exact ⟨rfl, rfl, rfl⟩
  · exact ⟨rfl, rfl, rfl⟩

namespace World.Shows

variable {sink : ℕ} {w : World σ ρ} {L : Line σ ρ}

theorem report (h : w.Shows sink L) (k : ℕ) (e : GateEvent) : (w.report k e).Shows sink L :=
  h.modifyTask_same (fun t => (t.observe_same w.clock e).1) fun t ht =>
    ht.congr (t.observe_same w.clock e).2.1 (t.observe_same w.clock e).2.2

theorem countRead (h : w.Shows sink L) (k : ℕ) : (w.countRead k).Shows sink L := by
  refine h.modifyTask_same (fun t => ?_) fun t ht => ?_
  · rcases ht : t.thread with _ | _ | _ <;> simp [Task.stage, Task.working, ht]
  · split
    · exact ht.congr rfl rfl
    · exact ht

theorem startWork (h : w.Shows sink L) (k : ℕ) :
    (w.startWork k).Shows sink
      (L.modify k (fun s => { s with working := s.working.map fun _ => true })) := by
  refine h.modifyTask (fun t _ _ => ?_) fun t ht => ?_
  · rcases ht : t.thread with _ | _ | _ <;> simp [Task.stage, Task.working, ht]
  · split
    · exact ht.congr rfl rfl
    · exact ht

theorem stopWork (h : w.Shows sink L) (k : ℕ) :
    (w.stopWork k).Shows sink
      (L.modify k (fun s => { s with working := s.working.map fun _ => false })) := by
  refine h.modifyTask (fun t _ _ => ?_) fun t ht => ?_
  · rcases hthread : t.thread with _ | _ | _
    · simp [Task.stage, Task.working, hthread]
    · dsimp only
      have := t.stage_modifyInput 0 (f := fun g => { g with halt := g.halt.enter }) fun _ => rfl
      simp only [Task.stage, Stage.mk.injEq] at this
      simp [Task.stage, Task.working, hthread, this.2.2.1]
    · simp [Task.stage, Task.working, hthread]
  · split
    · exact (ht.modifyInput 0 fun g => { g with halt := g.halt.enter }).congr rfl rfl
    · exact ht

/-! ### Halting -/

/-- An idle thread that is asked to halt is parked. -/
theorem halt (h : w.Shows sink L) {k : ℕ} (hk : k + 1 < L.size)
    (hidle : ∀ s, L.stages[k + 1]? = some s → s.working = some false) (millis : ℕ) :
    (w.halt { task := k + 1, gate := 0 }).2.Shows sink L ∧
      (w.halt { task := k + 1, gate := 0 }).2.awaitParked { task := k + 1, gate := 0 } millis
        = .ok () := by
  obtain ⟨t, gate, ht, hgate, hs⟩ := h.exists_input hk
  -- an idle thread parks by itself, so that the request does not run out of time
  have hpark : w.mayPark { task := k + 1, gate := 0 } = true := by
    have hworking : t.working = some false := hidle t.stage hs
    rcases hthread : t.thread with _ | _ | _ <;>
      simp_all [World.mayPark, World.task?, Task.isIdle, Task.working]
  have hinput : w.input? { task := k + 1, gate := 0 } = some gate := by
    simp [World.input?, World.task?, ht, hgate]
  rw [World.halt, hinput]
  refine ⟨h.modifyInput _ fun _ => rfl, ?_⟩
  simp [World.awaitParked, World.input?, World.modifyInput, World.modifyTask, World.task?, ht,
    hgate, hpark, Halt.request, Halt.enter, Halt.awaitParked]

theorem wake (h : w.Shows sink L) (g : GateRef) : (w.wake g).2.Shows sink L := by
  unfold World.wake
  split
  · exact h.modifyInput g fun _ => rfl
  · exact h

theorem wakeLinks (h : w.Shows sink L) (links : List ChainLink) :
    (w.wakeLinks links).Shows sink L := by
  induction links generalizing w with
  | nil => exact h
  | cons l rest ih => exact ih (h.wake l.inputRef)

theorem release (h : w.Shows sink L) (previous : Option Chain) (c : Chain) :
    (w.release previous c).Shows sink L := h.wakeLinks _

theorem signal (h : w.Shows sink L) (c : Chain) : (w.signal c).Shows sink L :=
  ⟨h.lazy, h.lasting, h.tasks, h.wired, h.leaves⟩

theorem setClock (h : w.Shows sink L) (now : Int64) :
    World.Shows sink { w with clock := now } L :=
  ⟨h.lazy, h.lasting, h.tasks, h.wired, h.leaves⟩

/-! ### Records -/

/-- The user code of a task runs on a record. -/
theorem runCode (h : w.Shows sink L) {k : ℕ} {s : Stage σ ρ} (hs : L.stages[k]? = some s)
    (record : ρ) :
    (w.runCode k record).1 = s.makes [record] ∧
      (w.runCode k record).2.Shows sink (L.modify k (·.after [record])) := by
  obtain ⟨t, ht, hs', -⟩ := h.exists_task (Line.lt_size hs)
  obtain rfl : s = t.stage := Option.some.inj (hs.symm.trans hs')
  rw [World.runCode, World.task?, ht]
  refine ⟨by simp [Stage.makes, transduce, Task.stage], ?_⟩
  refine h.modifyTask (fun t' ht' _ => ?_) fun t ht => ht.congr rfl rfl
  obtain rfl : t = t' := Option.some.inj (ht.symm.trans ht')
  rfl

/-- The thread of a task reads the first record of its queue. -/
theorem read (h : w.Shows sink L) {k : ℕ} {s : Stage σ ρ} (hs : L.stages[k + 1]? = some s)
    {record : ρ} {rest : List ρ} (hqueue : s.queue = record :: rest) :
    (w.read { task := k + 1, gate := 0 }).1 = some record ∧
      (w.read { task := k + 1, gate := 0 }).2.Shows sink
        (L.modify (k + 1) (fun s => { s with queue := rest })) := by
  obtain ⟨t, gate, ht, hgate, hs'⟩ := h.exists_input (Line.lt_size hs)
  obtain rfl : s = t.stage := Option.some.inj (hs.symm.trans hs')
  have hgate' : gate.queue = record :: rest := by simpa [Task.stage, hgate] using hqueue
  have hinput : w.input? { task := k + 1, gate := 0 } = some gate := by
    simp [World.input?, World.task?, ht, hgate]
  rw [World.read, hinput, Option.map_some, hgate']
  exact ⟨rfl, (h.modifyQueue (Nat.succ_pos k) fun _ => rest).report (k + 1) _⟩

/-- All records are taken off the queue of a task. -/
theorem takeQueue (h : w.Shows sink L) {k : ℕ} {s : Stage σ ρ} (hs : L.stages[k + 1]? = some s) :
    (w.takeQueue { task := k + 1, gate := 0 }).1 = s.queue ∧
      (w.takeQueue { task := k + 1, gate := 0 }).2.Shows sink
        (L.modify (k + 1) (fun s => { s with queue := [] })) := by
  obtain ⟨t, gate, ht, hgate, hs'⟩ := h.exists_input (Line.lt_size hs)
  obtain rfl : s = t.stage := Option.some.inj (hs.symm.trans hs')
  refine ⟨?_, h.modifyQueue (Nat.succ_pos k) fun _ => []⟩
  simp [World.takeQueue, World.input?, World.task?, Task.stage, ht, hgate]

/-- The output gate of a task. -/
theorem exists_gate (h : w.Shows sink L) {k : ℕ} {s : Stage σ ρ} (hs : L.stages[k]? = some s) :
    ∃ gate, w.output? { task := k, gate := 0 } = some gate ∧
      gate.LeadsTo (lineReceiver k L.size sink) ∧ gate.outlet.buffered = s.buffer ∧
      gate.chain = s.chain ∧ gate.pending = s.pending := by
  obtain ⟨t, ht, hs', hwired⟩ := h.exists_task (Line.lt_size hs)
  obtain rfl : s = t.stage := Option.some.inj (hs.symm.trans hs')
  obtain ⟨gate, hgate, hleads⟩ := hwired.output
  exact ⟨gate, by simp [World.output?, World.task?, ht, hgate], hleads,
    by simp [Task.stage, hgate], by simp [Task.stage, hgate], by simp [Task.stage, hgate]⟩

/-- The selector of a gate with one channel selects that one. -/
theorem select (h : w.Shows sink L) {k : ℕ} (hk : k < L.size) (record : ρ) :
    (w.select { task := k, gate := 0 } record).1 = [0] ∧
      (w.select { task := k, gate := 0 } record).2.Shows sink L := by
  obtain ⟨s, hs⟩ := Line.exists_stage hk
  obtain ⟨gate, hgate, ⟨-, id, channel, houtlet⟩, -⟩ := h.exists_gate hs
  have hsize : gate.outlet.size = 1 := by rw [houtlet]; rfl
  rw [World.select, hgate]
  refine ⟨?_, h.modifyOutput_same (fun _ _ => ⟨rfl, rfl, rfl⟩) fun _ _ hleads => hleads⟩
  change (gate.selector.select record gate.outlet.size).1 = [0]
  rw [hsize]
  -- all three ways of selecting come to the only channel that there is
  cases gate.selector <;> simp [Selector.select, Nat.mod_one]

/-- Records arrive behind a gate. -/
theorem arrive (h : w.Shows sink L) (k : ℕ) (xs : List ρ) :
    (w.arrive (lineReceiver k L.size sink, xs)).Shows sink (L.leave k xs) := by
  unfold lineReceiver Line.leave
  split
  · exact h.modifyQueue (Nat.succ_pos k) (· ++ xs)
  · obtain ⟨s, hs, hopen, harrived⟩ := h.leaves
    refine ⟨h.lazy, h.lasting, h.tasks, h.wired, { s with arrived := s.arrived ++ xs }, ?_, hopen,
      ?_⟩
    · simp [World.arrive, hs]
    · rw [harrived]

/-- The receiver behind a gate is there. -/
theorem isOpen (h : w.Shows sink L) (k : ℕ) : w.isOpen (lineReceiver k L.size sink) = true := by
  unfold lineReceiver
  split
  · next hk =>
    obtain ⟨t, ht, -⟩ := h.exists_task hk
    simp [World.isOpen, World.task?, ht, h.lasting]
  · obtain ⟨s, hs, hopen, -⟩ := h.leaves
    simp [World.isOpen, hs, hopen]

/-- The channel of a gate is replaced. -/
theorem setChannel (h : w.Shows sink L) (k : ℕ) (id : GateId) (c : Channel Int64 ρ) :
    (w.modifyOutput { task := k, gate := 0 } (fun gate =>
        { gate with
          outlet := .channels { id, lanes := [⟨c, lineReceiver k L.size sink⟩] } })).Shows sink
      (L.modify k (fun s => { s with buffer := c.buffer })) := by
  refine h.modifyTask (fun t _ ht => ?_) fun t ht => ⟨?_, ht.input⟩
  · obtain ⟨gate, hgate, -⟩ := ht.output
    simp [Task.stage, Task.working, hgate, Outlet.buffered]
  · obtain ⟨gate, hgate, hrunning, -⟩ := ht.output
    refine ⟨{ gate with outlet := .channels { id, lanes := [⟨c, lineReceiver k L.size sink⟩] } },
      ?_, hrunning, id, c, rfl⟩
    simp [hgate]

/-! ### Chains -/

theorem takeChain (h : w.Shows sink L) (k : ℕ) :
    (w.takeChain { task := k, gate := 0 }).2.Shows sink
      (L.modify k (fun s => { s with chain := none })) :=
  h.modifyOutput (fun t gate hgate _ => by simp [Task.stage, Task.working, hgate])
    fun _ _ hleads => hleads

theorem dropChain (h : w.Shows sink L) (k : ℕ) :
    (w.dropChain { task := k, gate := 0 }).Shows sink
      (L.modify k (fun s => { s with chain := none })) := (h.takeChain k).wakeLinks _

theorem replaceChain (h : w.Shows sink L) (k : ℕ) (c : Chain) :
    (w.replaceChain { task := k, gate := 0 } c).Shows sink
      (L.modify k (fun s => { s with chain := some c })) := by
  -- the old chain is taken away before the new one is put there
  have hset := (h.takeChain k).modifyOutput (k := k)
    (f := fun gate => { gate with chain := some c })
    (g := fun s => { s with chain := some c })
    (fun t gate hgate _ => by simp [Task.stage, Task.working, hgate]) fun _ _ hleads => hleads
  rw [Line.modify_modify] at hset
  exact hset.release _ c

theorem dissolveLinks (links : List ChainLink) : ∀ {w : World σ ρ} {L : Line σ ρ} {k : ℕ}
    (c : Chain), w.Shows sink L → Follows k links →
    (links.foldl (fun w l => ((w.takeChain l.outputRef).2.release (w.takeChain l.outputRef).1 c)) w
      ).Shows sink (L.unchainAll k links.length) := by
  induction links with
  | nil => exact fun c h _ => h
  | cons l rest ih =>
    intro w L k c h hfollows
    obtain ⟨⟨htask, -, houtput⟩, hrest⟩ := hfollows
    have hhead : l.outputRef = { task := k, gate := 0 } := by
      rw [ChainLink.outputRef, htask, houtput]
    refine ih c ?_ hrest
    simp only [hhead]
    exact (h.takeChain k).release _ c

theorem dissolve (h : w.Shows sink L) {k : ℕ} {c : Chain} (hfollows : Follows k c.links) :
    (w.dissolve c).Shows sink (L.unchainAll k c.links.length) :=
  dissolveLinks c.links c h hfollows

/-! ### Queued actions -/

theorem enqueue (h : w.Shows sink L) (k : ℕ) (a : GateAction) :
    (w.enqueue { task := k, gate := 0 } a).Shows sink
      (L.modify k (fun s => { s with pending := s.pending ++ [a] })) :=
  h.modifyOutput (fun t gate hgate _ => by simp [Task.stage, Task.working, hgate])
    fun _ _ hleads => hleads

/-- The first queued action is taken. -/
theorem popAction (h : w.Shows sink L) {k : ℕ} {s : Stage σ ρ} (hs : L.stages[k]? = some s)
    {a : GateAction} {rest : List GateAction} (hpending : s.pending = a :: rest) :
    (w.popAction { task := k, gate := 0 }).1 = some a ∧
      (w.popAction { task := k, gate := 0 }).2.Shows sink
        (L.modify k (fun s => { s with pending := s.pending.tail })) := by
  obtain ⟨gate, hgate, -, -, -, hsame⟩ := h.exists_gate hs
  have hrest : L.modify k (fun s => { s with pending := s.pending.tail })
      = L.modify k (fun s => { s with pending := rest }) := Line.modify_congr fun s' hs' => by
    rw [← Option.some.inj (hs.symm.trans hs'), hpending, List.tail_cons]
  rw [World.popAction, hgate, Option.map_some, hsame, hpending, hrest]
  exact ⟨rfl, h.modifyOutput (fun t gate hgate _ => by simp [Task.stage, Task.working, hgate])
    fun _ _ hleads => hleads⟩

/-- No action is queued. -/
theorem popAction_nil (h : w.Shows sink L) {k : ℕ} {s : Stage σ ρ} (hs : L.stages[k]? = some s)
    (hpending : s.pending = []) : w.popAction { task := k, gate := 0 } = (none, w) := by
  obtain ⟨gate, hgate, -, -, -, hsame⟩ := h.exists_gate hs
  rw [World.popAction, hgate, Option.map_some, hsame, hpending]

end World.Shows

end LatencyControl
