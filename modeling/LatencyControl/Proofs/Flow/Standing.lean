import LatencyControl.Flow.Operation
import Mathlib.Data.List.Basic

/-!
# How an instance stands

Records come and go, and with them buffers, selectors, memories and counts.  `World.standing` is
what is left of an instance without them: which input gates are halted, what each output gate holds,
and which chains have been dealt with.  Every small step that only moves records leaves it as it is,
and so do the sending of buffers and the writing of a record to a channel.
-/

namespace LatencyControl

variable {σ ρ α β : Type}

/-- A change of one item of a list is not seen through a view that does not see it there. -/
theorem map_modify_of_eq (view : α → β) {f : α → α} {items : List α} {n : ℕ}
    (hf : ∀ a, items[n]? = some a → view (f a) = view a) :
    (items.modify n f).map view = items.map view := by
  refine List.ext_getElem? fun k => ?_
  rw [List.getElem?_map, List.getElem?_map, List.getElem?_modify]
  by_cases hk : n = k
  · subst hk
    cases ha : items[n]? with
    | none => rfl
    | some a => simp [hf a ha]
  · simp [hk]

/-! ### What stands -/

/-- The channel of a lane and its target. -/
def Lane.target {τ κ : Type} (l : Lane τ ρ κ) : ChannelId × Option Int32 :=
  (l.channel.id, l.channel.target)

/-- The channels of an outlet and their targets. -/
def Outlet.targets : Outlet ρ → List (ChannelId × Option Int32)
  | .channels bank => bank.lanes.map Lane.target
  | .direct .. => []

/-- Where the records of an outlet go. -/
def Outlet.receivers : Outlet ρ → List Receiver
  | .channels bank => bank.lanes.map Lane.receiver
  | .direct _ receiver => [receiver]

/-- An output gate without records. -/
structure GateStanding where
  state : GateState
  targets : List (ChannelId × Option Int32)
  receivers : List Receiver
  chain : Option Chain
  pending : List GateAction

/-- An output gate without records. -/
def OutputGate.standing (gate : OutputGate ρ) : GateStanding where
  state := gate.state
  targets := gate.outlet.targets
  receivers := gate.outlet.receivers
  chain := gate.chain
  pending := gate.pending

/-- A task without records: which of its input gates are halted, and how its output gates stand. -/
structure TaskStanding where
  halted : List Bool
  gates : List GateStanding

/-- A task without records. -/
def Task.standing (t : Task σ ρ) : TaskStanding where
  halted := t.inputs.map fun gate => gate.halt.requested
  gates := t.outputs.map OutputGate.standing

namespace World

/-- An instance without records. -/
def standing (w : World σ ρ) : Bool × KeySet Nat × List TaskStanding :=
  (w.isEager, w.signalled, w.tasks.map Task.standing)

/-- Another instance stands as this one does. -/
def StandsAs (w w' : World σ ρ) : Prop := w'.standing = w.standing

/-- The state of an output gate. -/
def stateAt (w : World σ ρ) (g : GateRef) : Option GateState := (w.output? g).map OutputGate.state

/-- The target of a channel of an output gate, if there is such a channel. -/
def targetOf (w : World σ ρ) (g : GateRef) (channel : ChannelId) : Option (Option Int32) :=
  (w.output? g).bind fun gate => gate.outlet.targets.lookup channel

/-- Where the records of an output gate go, unless they pass through a chain. -/
def receiversAt (w : World σ ρ) (g : GateRef) : List Receiver :=
  ((w.output? g).map fun gate => gate.outlet.receivers).getD []

variable {w w' : World σ ρ} {g i : GateRef}

/-! ### Views of the same standing -/

theorem output?_standing (w : World σ ρ) (g : GateRef) :
    (w.output? g).map OutputGate.standing =
      w.standing.2.2[g.task]?.bind fun t => t.gates[g.gate]? := by
  simp only [output?, task?, standing, List.getElem?_map]
  cases w.tasks[g.task]? with
  | none => rfl
  | some t => simp [Task.standing]

theorem standing_output? (hw : w'.standing = w.standing) (g : GateRef) :
    (w'.output? g).map OutputGate.standing = (w.output? g).map OutputGate.standing := by
  rw [output?_standing, output?_standing, hw]

theorem stateAt_eq (w : World σ ρ) (g : GateRef) :
    w.stateAt g = ((w.output? g).map OutputGate.standing).map GateStanding.state := by
  rw [Option.map_map]
  rfl

theorem targetOf_eq (w : World σ ρ) (g : GateRef) (channel : ChannelId) : w.targetOf g channel =
    ((w.output? g).map OutputGate.standing).bind fun s => s.targets.lookup channel := by
  rw [Option.bind_map]
  rfl

theorem stateAt_congr (hw : w'.standing = w.standing) (g : GateRef) :
    w'.stateAt g = w.stateAt g := by
  rw [stateAt_eq, stateAt_eq, standing_output? hw]

theorem targetOf_congr (hw : w'.standing = w.standing) (g : GateRef) (channel : ChannelId) :
    w'.targetOf g channel = w.targetOf g channel := by
  rw [targetOf_eq, targetOf_eq, standing_output? hw]

theorem receiversAt_eq (w : World σ ρ) (g : GateRef) : w.receiversAt g =
    (((w.output? g).map OutputGate.standing).map GateStanding.receivers).getD [] := by
  rw [Option.map_map]
  rfl

theorem receiversAt_congr (hw : w'.standing = w.standing) (g : GateRef) :
    w'.receiversAt g = w.receiversAt g := by
  rw [receiversAt_eq, receiversAt_eq, standing_output? hw]

theorem isSignalled_congr (hw : w'.standing = w.standing) (number : ℕ) :
    w'.isSignalled number = w.isSignalled number := by
  have hsignalled : w'.signalled = w.signalled := congrArg (fun s => s.2.1) hw
  rw [isSignalled, hsignalled, isSignalled]

/-! ### Steps that only move records -/

theorem standing_modifyTask {k : ℕ} {f : Task σ ρ → Task σ ρ}
    (hf : ∀ t, w.task? k = some t → (f t).standing = t.standing) :
    (w.modifyTask k f).standing = w.standing := by
  have htasks : (w.tasks.modify k f).map Task.standing = w.tasks.map Task.standing :=
    map_modify_of_eq Task.standing hf
  simp only [standing, modifyTask, htasks]

theorem standing_modifyInput {f : InputGate ρ → InputGate ρ}
    (hf : ∀ gate, (f gate).halt.requested = gate.halt.requested) :
    (w.modifyInput i f).standing = w.standing := by
  refine standing_modifyTask fun t _ => ?_
  have hhalted : (t.inputs.modify i.gate f).map (fun gate => gate.halt.requested)
      = t.inputs.map fun gate => gate.halt.requested :=
    map_modify_of_eq (fun gate => gate.halt.requested) fun gate _ => hf gate
  simp only [Task.standing, hhalted]

theorem standing_modifyOutput {f : OutputGate ρ → OutputGate ρ}
    (hf : ∀ gate, w.output? g = some gate → (f gate).standing = gate.standing) :
    (w.modifyOutput g f).standing = w.standing := by
  refine standing_modifyTask fun t ht => ?_
  have hgates : (t.outputs.modify g.gate f).map OutputGate.standing
      = t.outputs.map OutputGate.standing := by
    refine map_modify_of_eq OutputGate.standing fun gate hgate => hf gate ?_
    simp [output?, ht, hgate]
  simp only [Task.standing, hgates]

/-- A change of an output gate that changes nothing there. -/
theorem modifyOutput_of_eq {f : OutputGate ρ → OutputGate ρ}
    (hf : ∀ gate, w.output? g = some gate → f gate = gate) : w.modifyOutput g f = w := by
  have houtputs : ∀ t, w.task? g.task = some t → t.outputs.modify g.gate f = t.outputs := by
    intro t ht
    have hgates : (t.outputs.modify g.gate f).map id = t.outputs.map id := by
      refine map_modify_of_eq id fun gate hgate => hf gate ?_
      simp [output?, ht, hgate]
    rwa [List.map_id, List.map_id] at hgates
  have htasks : (w.tasks.modify g.task fun t =>
      { t with outputs := t.outputs.modify g.gate f }).map id = w.tasks.map id := by
    refine map_modify_of_eq id fun t ht => ?_
    rw [houtputs t ht]
  rw [List.map_id, List.map_id] at htasks
  rw [modifyOutput, modifyTask, htasks]

/-- Nobody who observes a task has a say in how it stands. -/
theorem standing_observe (t : Task σ ρ) (now : Int64) (e : GateEvent) :
    (t.observe now e).standing = t.standing := by
  unfold Task.observe
  split_ifs
  · cases e <;> dsimp only <;> split <;> rfl
  · rfl

@[simp] theorem standing_report (w : World σ ρ) (task : ℕ) (e : GateEvent) :
    (w.report task e).standing = w.standing :=
  standing_modifyTask fun t _ => standing_observe t w.clock e

@[simp] theorem standing_arrive (w : World σ ρ) (s : Shipment ρ Receiver) :
    (w.arrive s).standing = w.standing := by
  obtain ⟨receiver, records⟩ := s
  cases receiver with
  | task k => exact standing_modifyInput fun _ => rfl
  | sink k => rfl

@[simp] theorem standing_read (w : World σ ρ) (i : GateRef) :
    (w.read i).2.standing = w.standing := by
  unfold read
  split
  · rw [standing_report]
    exact standing_modifyInput fun _ => rfl
  · rfl

@[simp] theorem standing_takeQueue (w : World σ ρ) (i : GateRef) :
    (w.takeQueue i).2.standing = w.standing := standing_modifyInput fun _ => rfl

@[simp] theorem standing_runCode (w : World σ ρ) (task : ℕ) (record : ρ) :
    (w.runCode task record).2.standing = w.standing := by
  unfold runCode
  split
  · exact standing_modifyTask fun _ _ => rfl
  · rfl

@[simp] theorem standing_select (w : World σ ρ) (g : GateRef) (record : ρ) :
    (w.select g record).2.standing = w.standing := by
  unfold select
  split
  · exact standing_modifyOutput fun _ _ => rfl
  · rfl

@[simp] theorem standing_startWork (w : World σ ρ) (task : ℕ) :
    (w.startWork task).standing = w.standing :=
  standing_modifyTask fun t _ => by split <;> rfl

@[simp] theorem standing_countRead (w : World σ ρ) (task : ℕ) :
    (w.countRead task).standing = w.standing :=
  standing_modifyTask fun t _ => by split <;> rfl

/-- A thread that may park does so, but it is not asked to halt thereby. -/
@[simp] theorem standing_stopWork (w : World σ ρ) (task : ℕ) :
    (w.stopWork task).standing = w.standing := by
  refine standing_modifyTask fun t _ => ?_
  split
  · have hhalted : (t.inputs.modify 0 fun gate => { gate with halt := gate.halt.enter }).map
        (fun gate => gate.halt.requested) = t.inputs.map fun gate => gate.halt.requested := by
      apply map_modify_of_eq
      exact fun _ _ => rfl
    simp only [Task.standing, hhalted]
  · rfl

@[simp] theorem standing_endThread (w : World σ ρ) (task : ℕ) (result : Except Error ℕ) :
    (w.endThread task result).standing = w.standing := standing_modifyTask fun _ _ => rfl

end World

/-! ### Buffers -/

section

variable {τ κ : Type}

@[simp] theorem Channel.id_flush (c : Channel τ ρ) (connected : Bool) :
    (c.flush connected).2.id = c.id := by
  unfold flush
  split_ifs <;> rfl

@[simp] theorem Channel.target_flush (c : Channel τ ρ) (connected : Bool) :
    (c.flush connected).2.target = c.target := by
  unfold flush
  split_ifs <;> rfl

@[simp] theorem Channel.id_write [Millis τ] (c : Channel τ ρ) (now : τ) (connected : Bool)
    (record : ρ) : (c.write now connected record).2.id = c.id := by
  simp only [write]
  split_ifs
  · rw [id_flush]
    rfl
  · rfl

@[simp] theorem Channel.target_write [Millis τ] (c : Channel τ ρ) (now : τ) (connected : Bool)
    (record : ρ) : (c.write now connected record).2.target = c.target := by
  simp only [write]
  split_ifs
  · rw [target_flush]
    rfl
  · rfl

theorem Bank.targets_flushLanes (connected : κ → Bool) (lanes : List (Lane τ ρ κ)) :
    (flushLanes connected lanes).2.2.map Lane.target = lanes.map Lane.target := by
  induction lanes with
  | nil => rfl
  | cons l rest ih =>
    have hid := l.channel.id_flush (connected l.receiver)
    have htarget := l.channel.target_flush (connected l.receiver)
    unfold flushLanes
    split <;> next hsent =>
      rw [hsent] at hid htarget
      simp_all [Lane.target]

theorem Bank.receivers_flushLanes (connected : κ → Bool) (lanes : List (Lane τ ρ κ)) :
    (flushLanes connected lanes).2.2.map Lane.receiver = lanes.map Lane.receiver := by
  induction lanes with
  | nil => rfl
  | cons l rest ih =>
    unfold flushLanes
    split <;> simp [ih]

/-- What is sent goes to receivers of the lanes. -/
theorem Bank.mem_receivers_of_flushLanes {connected : κ → Bool} {lanes : List (Lane τ ρ κ)}
    {s : Shipment ρ κ} (hs : s ∈ (flushLanes connected lanes).2.1) :
    s.1 ∈ lanes.map Lane.receiver := by
  induction lanes with
  | nil => cases hs
  | cons l rest ih =>
    unfold flushLanes at hs
    split at hs
    · rcases List.mem_cons.mp hs with rfl | hrest
      · exact List.mem_cons_self
      · exact List.mem_cons_of_mem _ (ih hrest)
    · cases hs

theorem Bank.targets_write [Millis τ] (b : Bank τ ρ κ) (index : ℕ) (now : τ)
    (connected : κ → Bool) (record : ρ) :
    (b.write index now connected record).2.lanes.map Lane.target = b.lanes.map Lane.target := by
  cases hl : b.lanes[index]? with
  | none => simp only [write, hl]
  | some l =>
    simp only [write, hl, setChannel]
    refine map_modify_of_eq Lane.target fun l' hl' => ?_
    obtain rfl : l = l' := Option.some.inj (hl.symm.trans hl')
    simp only [Lane.target, Channel.id_write, Channel.target_write]

theorem Bank.receivers_write [Millis τ] (b : Bank τ ρ κ) (index : ℕ) (now : τ)
    (connected : κ → Bool) (record : ρ) : (b.write index now connected record).2.lanes.map
      Lane.receiver = b.lanes.map Lane.receiver := by
  cases hl : b.lanes[index]? with
  | none => simp only [write, hl]
  | some l =>
    simp only [write, hl, setChannel]
    exact map_modify_of_eq Lane.receiver fun _ _ => rfl

theorem Bank.mem_receivers_of_write [Millis τ] {b : Bank τ ρ κ} {index : ℕ} {now : τ}
    {connected : κ → Bool} {record : ρ} {s : Shipment ρ κ}
    (hs : (b.write index now connected record).1 = .ok s) :
    s.1 ∈ b.lanes.map Lane.receiver := by
  cases hl : b.lanes[index]? with
  | none =>
    simp only [write, hl] at hs
    cases hs
  | some l =>
    simp only [write, hl] at hs
    cases hsent : (l.channel.write now (connected l.receiver) record).1 with
    | error e =>
      rw [hsent] at hs
      cases hs
    | ok sent =>
      rw [hsent] at hs
      cases hs
      exact List.mem_map_of_mem (List.mem_of_getElem? hl)

end

namespace World

variable {w : World σ ρ} {g : GateRef} {gate : OutputGate ρ}

/-- An outlet may be replaced by one with the same targets and receivers. -/
theorem standing_setOutlet {outlet : Outlet ρ} (hgate : w.output? g = some gate)
    (htargets : outlet.targets = gate.outlet.targets)
    (hreceivers : outlet.receivers = gate.outlet.receivers) :
    (w.modifyOutput g fun gate => { gate with outlet }).standing = w.standing := by
  refine standing_modifyOutput fun gate' hgate' => ?_
  obtain rfl : gate = gate' := Option.some.inj (hgate.symm.trans hgate')
  simp only [OutputGate.standing, htargets, hreceivers]

end World

end LatencyControl
