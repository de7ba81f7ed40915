import LatencyControl.Proofs.Flow.Standing

/-!
# Who runs a task

Which tasks run on their own threads is decided by a small part of an instance: which input gates
are halted, which output gates hold a chain, and what is queued at output gates.  `World.control` is
this part.  Most small steps leave it as it is.  Those that change it are of three kinds: they halt
or wake (`SameGates`), change a queue (`SameThreads`), or exchange the chain of an output gate
(`Exchanges`); each kind is described by the views `isHalted`, `chainAt` and `queuedAt`.
-/

namespace LatencyControl

variable {σ ρ : Type}

/-! ### Views -/

/-- The input gates that a chain takes over. -/
def Chain.inputs (c : Chain) : List GateRef := c.links.map ChainLink.inputRef

/-- The output gates of the links of a chain. -/
def Chain.outputs (c : Chain) : List GateRef := c.links.map ChainLink.outputRef

/-- The input gates of a chain that a successor does not take over. -/
def Chain.released (p c : Chain) : List GateRef := (p.linksNotIn c).map ChainLink.inputRef

theorem Chain.mem_inputs_of_mem_released {p c : Chain} {i : GateRef} (hi : i ∈ p.released c) :
    i ∈ p.inputs := by
  obtain ⟨l, hl, rfl⟩ := List.mem_map.mp hi
  exact List.mem_map_of_mem (List.mem_of_mem_filter hl)

/-- What a chain does not release is taken over, by name. -/
theorem Chain.exists_link_of_not_mem_released {p c : Chain} {l : ChainLink} (hl : l ∈ p.links)
    (hkept : l.inputRef ∉ p.released c) : ∃ l' ∈ c.links, l'.member = l.member := by
  by_contra hnone
  refine hkept (List.mem_map_of_mem (List.mem_filter.mpr ⟨hl, ?_⟩))
  simpa [hasLink] using hnone

/-- What counts of a task: which of its input gates are halted, and which chains its output gates
hold and which actions are queued at them. -/
structure TaskControl where
  halted : List Bool
  gates : List (Option Chain × List GateAction)

/-- What counts of a task. -/
def Task.control (t : Task σ ρ) : TaskControl where
  halted := t.inputs.map fun gate => gate.halt.requested
  gates := t.outputs.map fun gate => (gate.chain, gate.pending)

namespace World

/-- What counts of an instance. -/
def control (w : World σ ρ) : Bool × List TaskControl := (w.isEager, w.tasks.map Task.control)

/-- Whether the thread behind an input gate has been asked to halt. -/
def isHalted (w : World σ ρ) (i : GateRef) : Bool :=
  ((w.input? i).map fun gate => gate.halt.requested).getD false

/-- The chain that an output gate holds. -/
def chainAt (w : World σ ρ) (g : GateRef) : Option Chain := (w.output? g).bind OutputGate.chain

/-- The actions that are queued at an output gate. -/
def queuedAt (w : World σ ρ) (g : GateRef) : List GateAction :=
  ((w.output? g).map OutputGate.pending).getD []

/-- Whether there is such an output gate. -/
def hasOutput (w : World σ ρ) (g : GateRef) : Bool := (w.output? g).isSome

/-- The chain of an output gate is held there. -/
def Holds (w : World σ ρ) (g : GateRef) (c : Chain) : Prop := w.chainAt g = some c

/-- A chain is queued at an output gate. -/
def Awaits (w : World σ ρ) (g : GateRef) (c : Chain) : Prop :=
  GateAction.establishChain c ∈ w.queuedAt g

/-! ### Views of the same control -/

variable {w w' : World σ ρ} {g h i j : GateRef}

theorem isHalted_eq (w : World σ ρ) (i : GateRef) : w.isHalted i =
    ((w.control.2[i.task]?.bind fun t => t.halted[i.gate]?).getD false) := by
  simp only [isHalted, input?, task?, control, List.getElem?_map]
  cases w.tasks[i.task]? with
  | none => rfl
  | some t => simp [Task.control]

theorem output?_control (w : World σ ρ) (g : GateRef) :
    (w.output? g).map (fun gate => (gate.chain, gate.pending)) =
      w.control.2[g.task]?.bind fun t => t.gates[g.gate]? := by
  simp only [output?, task?, control, List.getElem?_map]
  cases w.tasks[g.task]? with
  | none => rfl
  | some t => simp [Task.control]

theorem isHalted_congr (hw : w'.control = w.control) (i : GateRef) :
    w'.isHalted i = w.isHalted i := by
  rw [isHalted_eq, isHalted_eq, hw]

theorem output?_congr (hw : w'.control = w.control) (g : GateRef) :
    (w'.output? g).map (fun gate => (gate.chain, gate.pending)) =
      (w.output? g).map (fun gate => (gate.chain, gate.pending)) := by
  rw [output?_control, output?_control, hw]

theorem chainAt_congr (hw : w'.control = w.control) (g : GateRef) :
    w'.chainAt g = w.chainAt g := by
  have hgate := output?_congr hw g
  unfold chainAt
  cases h' : w'.output? g <;> cases h : w.output? g <;> simp_all

theorem queuedAt_congr (hw : w'.control = w.control) (g : GateRef) :
    w'.queuedAt g = w.queuedAt g := by
  have hgate := output?_congr hw g
  unfold queuedAt
  cases h' : w'.output? g <;> cases h : w.output? g <;> simp_all

theorem hasOutput_congr (hw : w'.control = w.control) (g : GateRef) :
    w'.hasOutput g = w.hasOutput g := by
  have hgate := congrArg Option.isSome (output?_congr hw g)
  rwa [Option.isSome_map, Option.isSome_map] at hgate

theorem isEager_congr (hw : w'.control = w.control) : w'.isEager = w.isEager :=
  congrArg Prod.fst hw

/-! ### Steps that leave the control as it is -/

/-- The control is a part of the standing. -/
theorem control_congr (hw : w'.standing = w.standing) : w'.control = w.control := by
  have htask : ∀ t : Task σ ρ, t.control =
      ⟨t.standing.halted, t.standing.gates.map fun s => (s.chain, s.pending)⟩ := by
    intro t
    simp [Task.control, Task.standing, OutputGate.standing]
  have hcontrol : ∀ w : World σ ρ, w.control = (w.standing.1, w.standing.2.2.map fun t =>
      ⟨t.halted, t.gates.map fun s => (s.chain, s.pending)⟩) := by
    intro w
    simp [control, standing, htask]
  rw [hcontrol, hcontrol, hw]

theorem control_modifyTask {k : ℕ} {f : Task σ ρ → Task σ ρ}
    (hf : ∀ t, (f t).control = t.control) : (w.modifyTask k f).control = w.control := by
  have htasks : (w.tasks.modify k f).map Task.control = w.tasks.map Task.control :=
    map_modify_of_eq Task.control fun t _ => hf t
  simp only [control, modifyTask, htasks]

theorem control_modifyOutput {f : OutputGate ρ → OutputGate ρ}
    (hf : ∀ gate, (f gate).chain = gate.chain ∧ (f gate).pending = gate.pending) :
    (w.modifyOutput g f).control = w.control := by
  refine control_modifyTask fun t => ?_
  have hgates : (t.outputs.modify g.gate f).map (fun gate => (gate.chain, gate.pending))
      = t.outputs.map fun gate => (gate.chain, gate.pending) := by
    apply map_modify_of_eq
    intro gate _
    rw [(hf gate).1, (hf gate).2]
  simp only [Task.control, hgates]

@[simp] theorem control_signal (w : World σ ρ) (c : Chain) :
    (w.signal c).control = w.control := rfl

@[simp] theorem control_resume (w : World σ ρ) (g : GateRef) :
    (w.resume g).2.control = w.control := by
  unfold resume
  split
  · split_ifs
    · exact control_modifyOutput fun _ => ⟨rfl, rfl⟩
    · rfl
  · rfl

/-! ### Gates that are changed -/

theorem input?_modifyInput (f : InputGate ρ → InputGate ρ) :
    (w.modifyInput i f).input? j = if i = j then (w.input? j).map f else w.input? j := by
  simp only [input?, modifyInput, modifyTask, task?, List.getElem?_modify]
  by_cases htask : i.task = j.task
  · by_cases hgate : i.gate = j.gate
    · have hsame : i = j := by cases i; cases j; simp_all
      subst hsame
      cases w.tasks[i.task]? <;> simp
    · have hne : i ≠ j := fun heq => hgate (congrArg GateRef.gate heq)
      cases w.tasks[j.task]? <;> simp [htask, hgate, hne]
  · have hne : i ≠ j := fun heq => htask (congrArg GateRef.task heq)
    cases w.tasks[j.task]? <;> simp [htask, hne]

theorem output?_modifyOutput (f : OutputGate ρ → OutputGate ρ) :
    (w.modifyOutput g f).output? h = if g = h then (w.output? h).map f else w.output? h := by
  simp only [output?, modifyOutput, modifyTask, task?, List.getElem?_modify]
  by_cases htask : g.task = h.task
  · by_cases hgate : g.gate = h.gate
    · have hsame : g = h := by cases g; cases h; simp_all
      subst hsame
      cases w.tasks[g.task]? <;> simp
    · have hne : g ≠ h := fun heq => hgate (congrArg GateRef.gate heq)
      cases w.tasks[h.task]? <;> simp [htask, hgate, hne]
  · have hne : g ≠ h := fun heq => htask (congrArg GateRef.task heq)
    cases w.tasks[h.task]? <;> simp [htask, hne]

@[simp] theorem output?_modifyInput (f : InputGate ρ → InputGate ρ) :
    (w.modifyInput i f).output? g = w.output? g := by
  simp only [output?, modifyInput, modifyTask, task?, List.getElem?_modify]
  by_cases htask : i.task = g.task
  · cases w.tasks[g.task]? <;> simp [htask]
  · cases w.tasks[g.task]? <;> simp [htask]

@[simp] theorem input?_modifyOutput (f : OutputGate ρ → OutputGate ρ) :
    (w.modifyOutput g f).input? i = w.input? i := by
  simp only [input?, modifyOutput, modifyTask, task?, List.getElem?_modify]
  by_cases htask : g.task = i.task
  · cases w.tasks[i.task]? <;> simp [htask]
  · cases w.tasks[i.task]? <;> simp [htask]

/-! ### Halting and waking -/

/-- Two instances differ in nothing that counts but which input gates are halted. -/
structure SameGates (w w' : World σ ρ) : Prop where
  isEager : w'.isEager = w.isEager
  chainAt : ∀ g, w'.chainAt g = w.chainAt g
  queuedAt : ∀ g, w'.queuedAt g = w.queuedAt g
  hasOutput : ∀ g, w'.hasOutput g = w.hasOutput g

theorem SameGates.refl (w : World σ ρ) : SameGates w w :=
  ⟨rfl, fun _ => rfl, fun _ => rfl, fun _ => rfl⟩

theorem SameGates.trans {w'' : World σ ρ} (h : SameGates w w') (h' : SameGates w' w'') :
    SameGates w w'' where
  isEager := h'.isEager.trans h.isEager
  chainAt g := (h'.chainAt g).trans (h.chainAt g)
  queuedAt g := (h'.queuedAt g).trans (h.queuedAt g)
  hasOutput g := (h'.hasOutput g).trans (h.hasOutput g)

theorem SameGates.of_control (hw : w'.control = w.control) : SameGates w w' :=
  ⟨isEager_congr hw, chainAt_congr hw, queuedAt_congr hw, hasOutput_congr hw⟩

theorem sameGates_modifyInput (i : GateRef) (f : InputGate ρ → InputGate ρ) :
    SameGates w (w.modifyInput i f) where
  isEager := rfl
  chainAt g := by simp [World.chainAt]
  queuedAt g := by simp [World.queuedAt]
  hasOutput g := by simp [World.hasOutput]

theorem sameGates_halt (w : World σ ρ) (i : GateRef) : SameGates w (w.halt i).2 := by
  unfold halt
  split
  · exact sameGates_modifyInput i _
  · exact SameGates.refl w

theorem sameGates_wake (w : World σ ρ) (i : GateRef) : SameGates w (w.wake i).2 := by
  unfold wake
  split
  · exact sameGates_modifyInput i _
  · exact SameGates.refl w

theorem sameGates_wakeLinks (links : List ChainLink) (w : World σ ρ) :
    SameGates w (w.wakeLinks links) := by
  induction links generalizing w with
  | nil => exact SameGates.refl w
  | cons l rest ih => exact (sameGates_wake w l.inputRef).trans (ih _)

/-- After the request, an input gate is halted if there is one. -/
theorem isHalted_halt (w : World σ ρ) (i j : GateRef) :
    (w.halt i).2.isHalted j = if i = j then (w.input? i).isSome else w.isHalted j := by
  unfold halt
  cases hi : w.input? i with
  | none =>
    by_cases hij : i = j
    · subst hij
      simp [isHalted, hi]
    · simp [hij]
  | some gate =>
    rw [isHalted, input?_modifyInput]
    by_cases hij : i = j
    · subst hij
      simp only [hi, Option.map_some, if_true, Option.getD_some, Option.isSome_some, Halt.request]
      split_ifs <;> rfl
    · simp [hij, isHalted]

/-- A request is new if the input gate was not halted before. -/
theorem halt_isNew (w : World σ ρ) (i : GateRef) :
    (w.halt i).1 = true ↔ (w.input? i).isSome = true ∧ w.isHalted i = false := by
  unfold halt isHalted
  cases w.input? i with
  | none => simp
  | some gate => simp [Halt.request]

theorem isHalted_halt_self (h : ((w.halt i).2.input? i).isSome = true) :
    (w.halt i).2.isHalted i = true := by
  rw [isHalted_halt, if_pos rfl]
  unfold halt at h
  cases hi : w.input? i with
  | none => simp [hi] at h
  | some gate => rfl

/-- What is halted stays so when something is halted. -/
theorem isHalted_halt_of_isHalted (i : GateRef) (h : w.isHalted j = true) :
    (w.halt i).2.isHalted j = true := by
  rw [isHalted_halt]
  split_ifs with hij
  · subst hij
    unfold isHalted at h
    cases hi : w.input? i with
    | none => simp [hi] at h
    | some gate => rfl
  · exact h

theorem isHalted_wake (w : World σ ρ) (i j : GateRef) :
    (w.wake i).2.isHalted j = if i = j then false else w.isHalted j := by
  unfold wake
  cases hi : w.input? i with
  | none =>
    by_cases hij : i = j
    · subst hij
      simp [isHalted, hi]
    · simp [hij]
  | some gate =>
    rw [isHalted, input?_modifyInput]
    by_cases hij : i = j
    · subst hij
      simp [hi, Halt.wake, Halt.leave]
    · simp [hij, isHalted]

/-- Of the input gates that were halted, those of the links are woken. -/
theorem isHalted_wakeLinks (links : List ChainLink) (w : World σ ρ) (j : GateRef) :
    (w.wakeLinks links).isHalted j = true ↔
      w.isHalted j = true ∧ j ∉ links.map ChainLink.inputRef := by
  induction links generalizing w with
  | nil => simp [wakeLinks]
  | cons l rest ih =>
    change ((w.wake l.inputRef).2.wakeLinks rest).isHalted j = true ↔ _
    rw [ih, isHalted_wake]
    by_cases hj : l.inputRef = j
    · simp [hj]
    · simp [hj, Ne.symm hj]

/-! ### Queued actions -/

/-- Two instances differ in nothing that counts but which actions are queued. -/
structure SameThreads (w w' : World σ ρ) : Prop where
  isEager : w'.isEager = w.isEager
  isHalted : ∀ i, w'.isHalted i = w.isHalted i
  chainAt : ∀ g, w'.chainAt g = w.chainAt g
  hasOutput : ∀ g, w'.hasOutput g = w.hasOutput g

theorem hasOutput_modifyOutput (f : OutputGate ρ → OutputGate ρ) :
    (w.modifyOutput g f).hasOutput h = w.hasOutput h := by
  rw [hasOutput, output?_modifyOutput, hasOutput]
  split_ifs <;> simp

theorem sameThreads_modifyOutput {f : OutputGate ρ → OutputGate ρ}
    (hf : ∀ gate, (f gate).chain = gate.chain) : SameThreads w (w.modifyOutput g f) where
  isEager := rfl
  isHalted i := by simp [World.isHalted]
  chainAt h := by
    rw [World.chainAt, output?_modifyOutput, World.chainAt]
    split_ifs
    · cases w.output? h <;> simp [hf]
    · rfl
  hasOutput h := hasOutput_modifyOutput f

theorem chainAt_modifyOutput {f : OutputGate ρ → OutputGate ρ}
    (hf : ∀ gate, (f gate).chain = gate.chain) : (w.modifyOutput g f).chainAt h = w.chainAt h :=
  (sameThreads_modifyOutput hf).chainAt h

theorem sameThreads_enqueue (w : World σ ρ) (g : GateRef) (a : GateAction) :
    SameThreads w (w.enqueue g a) := sameThreads_modifyOutput fun _ => rfl

theorem sameThreads_popAction (w : World σ ρ) (g : GateRef) :
    SameThreads w (w.popAction g).2 := by
  unfold popAction
  split
  · exact sameThreads_modifyOutput fun _ => rfl
  · exact ⟨rfl, fun _ => rfl, fun _ => rfl, fun _ => rfl⟩

/-- What is queued afterwards was queued before, or is the new action. -/
theorem mem_queuedAt_enqueue {a b : GateAction} (hb : b ∈ (w.enqueue g a).queuedAt h) :
    b ∈ w.queuedAt h ∨ g = h ∧ b = a := by
  rw [queuedAt, enqueue, output?_modifyOutput] at hb
  split_ifs at hb with hgh
  · unfold queuedAt
    cases hgate : w.output? h with
    | none => simp [hgate] at hb
    | some gate =>
      have hmem : b ∈ gate.pending ∨ b = a := by simpa [hgate] using hb
      exact hmem.imp_right fun hba => ⟨hgh, hba⟩
  · exact .inl hb

theorem mem_queuedAt_popAction {b : GateAction} (hb : b ∈ (w.popAction g).2.queuedAt h) :
    b ∈ w.queuedAt h := by
  unfold popAction at hb
  split at hb
  · next a rest hqueue =>
    rw [queuedAt, output?_modifyOutput] at hb
    split_ifs at hb with hgh
    · subst hgh
      unfold queuedAt
      cases hgate : w.output? g with
      | none => simp [hgate] at hb
      | some gate =>
        rw [hgate] at hqueue hb
        have hpending : gate.pending = a :: rest := Option.some.inj hqueue
        have hmem : b ∈ rest := hb
        show b ∈ gate.pending
        rw [hpending]
        exact List.mem_cons_of_mem a hmem
    · exact hb
  · exact hb

/-- The action that is taken off the queue was queued. -/
theorem mem_queuedAt_of_popAction {a : GateAction} (ha : (w.popAction g).1 = some a) :
    a ∈ w.queuedAt g := by
  unfold popAction at ha
  split at ha
  · next b rest hqueue =>
    obtain rfl : b = a := Option.some.inj ha
    rw [queuedAt, hqueue]
    exact List.mem_cons_self
  · cases ha

theorem popAction_of_pending {gate : OutputGate ρ} {a : GateAction} {rest : List GateAction}
    (hgate : w.output? g = some gate) (hqueue : gate.pending = a :: rest) :
    w.popAction g = (some a, w.modifyOutput g fun gate => { gate with pending := rest }) := by
  simp only [popAction, hgate, Option.map_some, hqueue]

/-- Only an empty queue has nothing to be taken off it. -/
theorem popAction_of_none (ha : (w.popAction g).1 = none) :
    w.queuedAt g = [] ∧ (w.popAction g).2 = w := by
  unfold queuedAt popAction at *
  cases hgate : w.output? g with
  | none => exact ⟨rfl, rfl⟩
  | some gate =>
    cases hqueue : gate.pending with
    | nil => simp [hqueue]
    | cons a rest => simp [hgate, hqueue] at ha

theorem queuedAt_modifyOutput_pending {gate : OutputGate ρ} {rest : List GateAction}
    (hgate : w.output? g = some gate) :
    (w.modifyOutput g fun gate => { gate with pending := rest }).queuedAt h =
      if g = h then rest else w.queuedAt h := by
  rw [queuedAt, output?_modifyOutput, queuedAt]
  split_ifs with hgh
  · subst hgh
    simp [hgate]
  · rfl

/-! ### Chains that come and go -/

/-- An output gate exchanges its chain for another one, or for none, and wakes some input gates of
the chain that it gives up. -/
structure Exchanges (w w' : World σ ρ) (g : GateRef) (new : Option Chain)
    (woken : Chain → List GateRef) : Prop where
  isEager : w'.isEager = w.isEager
  isHalted : ∀ i, w'.isHalted i = true ↔
    w.isHalted i = true ∧ ∀ p, w.Holds g p → i ∉ woken p
  chainAt : ∀ h, w'.chainAt h = if g = h then new else w.chainAt h
  queuedAt : ∀ h, w'.queuedAt h = w.queuedAt h
  hasOutput : ∀ h, w'.hasOutput h = w.hasOutput h

variable {w₁ : World σ ρ} {new : Option Chain} {woken : Chain → List GateRef}

theorem Exchanges.awaits (hx : Exchanges w w' g new woken) {c : Chain} (hc : w'.Awaits h c) :
    w.Awaits h c := by
  rwa [Awaits, hx.queuedAt] at hc

/-- What is held afterwards is the new chain, or was held before. -/
theorem Exchanges.holds (hx : Exchanges w w' g new woken) {c : Chain} (hc : w'.Holds h c) :
    g = h ∧ new = some c ∨ g ≠ h ∧ w.Holds h c := by
  rw [Holds, hx.chainAt] at hc
  split_ifs at hc with hgh
  · exact .inl ⟨hgh, hc⟩
  · exact .inr ⟨hgh, hc⟩

theorem chainAt_modifyOutput_chain (hg : w.hasOutput g = true ∨ new = none) :
    (w.modifyOutput g fun gate => { gate with chain := new }).chainAt h =
      if g = h then new else w.chainAt h := by
  rw [chainAt, output?_modifyOutput, chainAt]
  split_ifs with hgh
  · subst hgh
    unfold hasOutput at hg
    cases hgate : w.output? g <;> simp_all
  · rfl

theorem queuedAt_modifyOutput_chain :
    (w.modifyOutput g fun gate => { gate with chain := new }).queuedAt h = w.queuedAt h := by
  rw [queuedAt, output?_modifyOutput, queuedAt]
  split_ifs
  · cases w.output? h <;> rfl
  · rfl

/-- Before anything is woken, a gate that is there may be given any chain. -/
theorem exchanges_modifyOutput (hg : w.hasOutput g = true ∨ new = none) :
    Exchanges w (w.modifyOutput g fun gate => { gate with chain := new }) g new fun _ => [] where
  isEager := rfl
  isHalted i := by simp [World.isHalted]
  chainAt _ := chainAt_modifyOutput_chain hg
  queuedAt _ := queuedAt_modifyOutput_chain
  hasOutput _ := hasOutput_modifyOutput _

/-- Then links of the chain that was given up are woken. -/
theorem Exchanges.wakeLinks (hx : Exchanges w w₁ g new fun _ => [])
    (links : Chain → List ChainLink) :
    Exchanges w (w₁.wakeLinks (((w.chainAt g).map links).getD [])) g new
      fun p => (links p).map ChainLink.inputRef := by
  have hsame := sameGates_wakeLinks (((w.chainAt g).map links).getD []) w₁
  refine ⟨hsame.isEager.trans hx.isEager, fun i => ?_, fun h => (hsame.chainAt h).trans
    (hx.chainAt h), fun h => (hsame.queuedAt h).trans (hx.queuedAt h), fun h =>
    (hsame.hasOutput h).trans (hx.hasOutput h)⟩
  rw [isHalted_wakeLinks, hx.isHalted]
  unfold Holds
  cases w.chainAt g <;> simp

theorem exchanges_dropChain (w : World σ ρ) (g : GateRef) :
    Exchanges w (w.dropChain g) g none Chain.inputs :=
  (exchanges_modifyOutput (.inr rfl)).wakeLinks Chain.links

/-- One step of `dissolve`. -/
theorem exchanges_release (w : World σ ρ) (g : GateRef) (c : Chain) :
    Exchanges w ((w.takeChain g).2.release (w.takeChain g).1 c) g none fun p => p.released c :=
  (exchanges_modifyOutput (.inr rfl)).wakeLinks fun p => p.linksNotIn c

theorem hasOutput_dissolve (w : World σ ρ) (c : Chain) :
    (w.dissolve c).hasOutput g = w.hasOutput g := by
  refine List.foldlRecOn (motive := fun w' : World σ ρ => w'.hasOutput g = w.hasOutput g)
    c.links _ rfl ?_
  intro w' hw' l _
  exact ((exchanges_release w' l.outputRef c).hasOutput g).trans hw'

theorem exchanges_replaceChain (hg : w.hasOutput g = true) (c : Chain) :
    Exchanges w (w.replaceChain g c) g (some c) fun p => p.released c := by
  have htaken : Exchanges w (w.takeChain g).2 g none fun _ => [] :=
    exchanges_modifyOutput (.inr rfl)
  have hgate : (w.takeChain g).2.hasOutput g = true := (htaken.hasOutput g).trans hg
  have hgiven : Exchanges (w.takeChain g).2 _ g (some c) fun _ => [] :=
    exchanges_modifyOutput (.inl hgate)
  have hboth : Exchanges w ((w.takeChain g).2.modifyOutput g fun gate =>
      { gate with chain := some c }) g (some c) fun _ => [] := by
    refine ⟨rfl, fun i => ?_, fun h => ?_, fun h => ?_, fun h => ?_⟩
    · rw [hgiven.isHalted, htaken.isHalted]
      simp
    · rw [hgiven.chainAt, htaken.chainAt]
      split_ifs <;> rfl
    · rw [hgiven.queuedAt, htaken.queuedAt]
    · rw [hgiven.hasOutput, htaken.hasOutput]
  exact hboth.wakeLinks fun p => p.linksNotIn c

end World

end LatencyControl
