import Mathlib.Logic.Function.Basic
import LatencyControl.Proofs.Flow.Control
import LatencyControl.Proofs.Flow.Selecting

/-!
# Whose turn it is

What an output gate selects depends on its selector and on how many channels it has; this is its
turn, and `World.turnAt` has the turns of all gates.  `Picks` says how turns change: by selections
that are made one after the other, each by the gate whose turn it is.  What that means for a single
gate is `Picks.of_gate`: the selections at the gate are what its selector makes of the records that
come there, whatever is selected elsewhere in between.

Almost no small step has a say in whose turn it is, nor in how threads have ended, which
`World.footing` has as well.  The exceptions are a selection (`World.turnAt_select`) and the end of
a thread.
-/

namespace LatencyControl

variable {σ ρ : Type}

/-! ### Selections -/

/-- A selection: the channels of an output gate for a record. -/
structure Pick (ρ : Type) where
  gate : GateRef
  record : ρ
  channels : List ℕ
  deriving DecidableEq, Repr

/-- The selector of an output gate, and how many channels there are to select from. -/
def OutputGate.turn (gate : OutputGate ρ) : Selector ρ × ℕ := (gate.selector, gate.outlet.size)

/-- The turns of output gates. -/
abbrev Turns (ρ : Type) := GateRef → Option (Selector ρ × ℕ)

/-- Selections are made, one after the other, each by the selector of its gate, and turns change
accordingly. -/
inductive Picks (turns : Turns ρ) : List (Pick ρ) → Turns ρ → Prop
  | nil : Picks turns [] turns
  | select {picks : List (Pick ρ)} {turns' : Turns ρ} (h : Picks turns picks turns') {g : GateRef}
      {selector : Selector ρ} {n : ℕ} (hg : turns' g = some (selector, n)) (record : ρ) :
      Picks turns (picks ++ [⟨g, record, (selector.select record n).1⟩])
        (Function.update turns' g (some ((selector.select record n).2, n)))

namespace Picks

variable {turns turns' turns'' : Turns ρ} {picks picks' : List (Pick ρ)}

theorem trans (h : Picks turns picks turns') (h' : Picks turns' picks' turns'') :
    Picks turns (picks ++ picks') turns'' := by
  induction h' with
  | nil => rwa [List.append_nil]
  | select _ hg record ih =>
    rw [← List.append_assoc]
    exact ih.select hg record

/-- A selection leaves the channels where they are. -/
theorem size_eq (h : Picks turns picks turns') (g : GateRef) :
    (turns' g).map Prod.snd = (turns g).map Prod.snd := by
  induction h with
  | nil => rfl
  | @select _ turns' _ g' _ _ hg record ih =>
    rw [← ih]
    by_cases hsame : g = g'
    · subst hsame
      rw [Function.update_self, hg]
      rfl
    · rw [Function.update_of_ne hsame]

/-- A gate that is there was there before, with as many channels. -/
theorem exists_before (h : Picks turns picks turns') {g : GateRef} {selector : Selector ρ} {n : ℕ}
    (hg : turns' g = some (selector, n)) : ∃ selector', turns g = some (selector', n) := by
  have hsize := h.size_eq g
  rw [hg] at hsize
  obtain ⟨⟨selector', m⟩, hbefore, rfl⟩ := Option.map_eq_some_iff.mp hsize.symm
  exact ⟨selector', hbefore⟩

/-- Every selection is made at a gate that is there, and it selects different channels that are
there. -/
theorem sound (h : Picks turns picks turns') {p : Pick ρ} (hp : p ∈ picks) :
    ∃ selector n, turns p.gate = some (selector, n) ∧ p.channels.Nodup ∧
      ∀ i ∈ p.channels, i < n := by
  induction h with
  | nil => cases hp
  | @select _ _ h g selector n hg record ih =>
    rcases List.mem_append.mp hp with hp | hp
    · exact ih hp
    · obtain rfl := List.mem_singleton.mp hp
      obtain ⟨selector', hbefore⟩ := h.exists_before hg
      exact ⟨selector', n, hbefore, selector.nodup_select record n,
        fun i => Selector.lt_of_mem_select⟩

/-- **The selections of one gate.**  They are what its selector makes of the records that come to
it. -/
theorem of_gate (h : Picks turns picks turns') {g : GateRef} {selector : Selector ρ} {n : ℕ}
    (hg : turns g = some (selector, n)) :
    turns' g = some ((selector.selectAll n
        ((picks.filter (·.gate = g)).map Pick.record)).2, n) ∧
      (picks.filter (·.gate = g)).map Pick.channels =
        (selector.selectAll n ((picks.filter (·.gate = g)).map Pick.record)).1 := by
  induction h with
  | nil => exact ⟨hg, rfl⟩
  | @select picks turns' _ g' selector' n' hg' record ih =>
    obtain ⟨hnow, hbefore⟩ := ih
    by_cases hsame : g' = g
    · subst hsame
      obtain ⟨rfl, rfl⟩ := Prod.mk.inj (Option.some.inj (hg'.symm.trans hnow))
      simp only [List.filter_append, List.filter_singleton, decide_true, cond_true, List.map_append,
        List.map_singleton, Selector.selectAll_concat, Function.update_self, hbefore, and_self]
    · have hother : ([⟨g', record, (selector'.select record n').1⟩] : List (Pick ρ)).filter
          (·.gate = g) = [] := by
        simp [hsame]
      rw [List.filter_append, hother, List.append_nil, Function.update_of_ne (Ne.symm hsame)]
      exact ⟨hnow, hbefore⟩

end Picks

/-! ### What turns -/

/-- How a thread has ended, if it has. -/
def Thread.result? : Thread → Option (Except Error ℕ)
  | .live .. => none
  | .ended result => some result

/-- The turns of a task's output gates, and how its thread has ended. -/
def Task.footing (t : Task σ ρ) : List (Selector ρ × ℕ) × Option (Except Error ℕ) :=
  (t.outputs.map OutputGate.turn, t.thread.bind Thread.result?)

/-- An activity has not failed for lack of a channel. -/
def Finds {α : Type} (result : Except Error α) : Prop :=
  ∀ gate index, result ≠ .error (.noChannel gate index)

namespace World

/-- The turns of the output gates of an instance. -/
def turnAt (w : World σ ρ) : Turns ρ := fun g => (w.output? g).map OutputGate.turn

/-- The turns of all output gates, and how threads have ended. -/
def footing (w : World σ ρ) : List (List (Selector ρ × ℕ) × Option (Except Error ℕ)) :=
  w.tasks.map Task.footing

/-- No thread has ended for lack of a channel. -/
def ThreadsFind (w : World σ ρ) : Prop :=
  ∀ t ∈ w.tasks, ∀ result, t.thread = some (.ended result) → Finds result

variable {w w' : World σ ρ} {g i : GateRef}

/-! ### Views of the same footing -/

theorem turnAt_eq (w : World σ ρ) (g : GateRef) :
    w.turnAt g = w.footing[g.task]?.bind fun t => t.1[g.gate]? := by
  simp only [turnAt, output?, task?, footing, List.getElem?_map]
  cases w.tasks[g.task]? with
  | none => rfl
  | some t => simp [Task.footing]

theorem turnAt_congr (hw : w'.footing = w.footing) : w'.turnAt = w.turnAt := by
  funext g
  rw [turnAt_eq, turnAt_eq, hw]

theorem threadsFind_iff :
    w.ThreadsFind ↔ ∀ t ∈ w.footing, ∀ result, t.2 = some result → Finds result := by
  rw [footing, List.forall_mem_map]
  refine forall₂_congr fun t _ => forall_congr' fun result => ?_
  have hended : t.footing.2 = some result ↔ t.thread = some (.ended result) := by
    unfold Task.footing
    rcases t.thread with _ | ⟨_, _⟩ | _ <;> simp [Thread.result?]
  rw [hended]

theorem threadsFind_congr (hw : w'.footing = w.footing) : w'.ThreadsFind ↔ w.ThreadsFind := by
  rw [threadsFind_iff, threadsFind_iff, hw]

/-! ### Steps that leave the footing as it is -/

theorem footing_modifyTask {k : ℕ} {f : Task σ ρ → Task σ ρ}
    (hf : ∀ t, w.task? k = some t → (f t).footing = t.footing) :
    (w.modifyTask k f).footing = w.footing := map_modify_of_eq Task.footing hf

theorem footing_modifyInput (i : GateRef) (f : InputGate ρ → InputGate ρ) :
    (w.modifyInput i f).footing = w.footing := footing_modifyTask fun _ _ => rfl

theorem footing_modifyOutput {f : OutputGate ρ → OutputGate ρ}
    (hf : ∀ gate, w.output? g = some gate → (f gate).turn = gate.turn) :
    (w.modifyOutput g f).footing = w.footing := by
  refine footing_modifyTask fun t ht => ?_
  have hgates : (t.outputs.modify g.gate f).map OutputGate.turn
      = t.outputs.map OutputGate.turn := by
    refine map_modify_of_eq OutputGate.turn fun gate hgate => hf gate ?_
    simp [output?, ht, hgate]
  simp only [Task.footing, hgates]

@[simp] theorem footing_report (w : World σ ρ) (task : ℕ) (e : GateEvent) :
    (w.report task e).footing = w.footing := by
  refine footing_modifyTask fun t _ => ?_
  unfold Task.observe
  split_ifs
  · cases e <;> dsimp only <;> split <;> rfl
  · rfl

@[simp] theorem footing_arrive (w : World σ ρ) (s : Shipment ρ Receiver) :
    (w.arrive s).footing = w.footing := by
  obtain ⟨receiver, records⟩ := s
  cases receiver with
  | task k => exact footing_modifyInput _ _
  | sink k => rfl

@[simp] theorem footing_read (w : World σ ρ) (i : GateRef) :
    (w.read i).2.footing = w.footing := by
  unfold read
  split
  · rw [footing_report]
    exact footing_modifyInput _ _
  · rfl

@[simp] theorem footing_takeQueue (w : World σ ρ) (i : GateRef) :
    (w.takeQueue i).2.footing = w.footing := footing_modifyInput _ _

@[simp] theorem footing_runCode (w : World σ ρ) (task : ℕ) (record : ρ) :
    (w.runCode task record).2.footing = w.footing := by
  unfold runCode
  split
  · exact footing_modifyTask fun _ _ => rfl
  · rfl

/-- A thread that goes on has not ended. -/
theorem footing_modifyThread {k : ℕ} {f : Task σ ρ → Bool → ℕ → Task σ ρ}
    (hf : ∀ t busy read, t.thread = some (.live busy read) →
      (f t busy read).footing = t.footing) :
    (w.modifyTask k fun t =>
      match t.thread with
      | some (.live busy read) => f t busy read
      | _ => t).footing = w.footing := by
  refine footing_modifyTask fun t _ => ?_
  rcases hthread : t.thread with _ | ⟨busy, read⟩ | result
  · rfl
  · exact hf t busy read hthread
  · rfl

@[simp] theorem footing_startWork (w : World σ ρ) (task : ℕ) :
    (w.startWork task).footing = w.footing :=
  footing_modifyThread fun t busy read hthread => by rw [Task.footing, Task.footing, hthread]; rfl

@[simp] theorem footing_countRead (w : World σ ρ) (task : ℕ) :
    (w.countRead task).footing = w.footing :=
  footing_modifyThread fun t busy read hthread => by rw [Task.footing, Task.footing, hthread]; rfl

@[simp] theorem footing_stopWork (w : World σ ρ) (task : ℕ) :
    (w.stopWork task).footing = w.footing :=
  footing_modifyThread fun t busy read hthread => by rw [Task.footing, Task.footing, hthread]; rfl

@[simp] theorem footing_halt (w : World σ ρ) (i : GateRef) :
    (w.halt i).2.footing = w.footing := by
  unfold halt
  split
  · exact footing_modifyInput _ _
  · rfl

@[simp] theorem footing_wake (w : World σ ρ) (i : GateRef) :
    (w.wake i).2.footing = w.footing := by
  unfold wake
  split
  · exact footing_modifyInput _ _
  · rfl

@[simp] theorem footing_wakeLinks (w : World σ ρ) (links : List ChainLink) :
    (w.wakeLinks links).footing = w.footing := by
  refine List.foldlRecOn (motive := fun w' : World σ ρ => w'.footing = w.footing) links _ rfl ?_
  exact fun w' hw' l _ => (footing_wake w' l.inputRef).trans hw'

@[simp] theorem footing_takeChain (w : World σ ρ) (g : GateRef) :
    (w.takeChain g).2.footing = w.footing := footing_modifyOutput fun _ _ => rfl

@[simp] theorem footing_dropChain (w : World σ ρ) (g : GateRef) :
    (w.dropChain g).footing = w.footing := by
  rw [dropChain, footing_wakeLinks, footing_takeChain]

@[simp] theorem footing_dissolve (w : World σ ρ) (c : Chain) :
    (w.dissolve c).footing = w.footing := by
  refine List.foldlRecOn (motive := fun w' : World σ ρ => w'.footing = w.footing) c.links _ rfl ?_
  intro w' hw' l _
  exact (footing_wakeLinks _ _).trans ((footing_takeChain w' l.outputRef).trans hw')

@[simp] theorem footing_replaceChain (w : World σ ρ) (g : GateRef) (c : Chain) :
    (w.replaceChain g c).footing = w.footing := by
  have hgiven : ((w.takeChain g).2.modifyOutput g fun gate =>
      { gate with chain := some c }).footing = (w.takeChain g).2.footing :=
    footing_modifyOutput fun _ _ => rfl
  exact (footing_wakeLinks _ _).trans (hgiven.trans (footing_takeChain w g))

@[simp] theorem footing_signal (w : World σ ρ) (c : Chain) :
    (w.signal c).footing = w.footing := rfl

@[simp] theorem footing_popAction (w : World σ ρ) (g : GateRef) :
    (w.popAction g).2.footing = w.footing := by
  unfold popAction
  split
  · exact footing_modifyOutput fun _ _ => rfl
  · rfl

/-- An outlet may be replaced by one with the same receivers. -/
theorem footing_setOutlet {gate : OutputGate ρ} {outlet : Outlet ρ}
    (hgate : w.output? g = some gate) (hreceivers : outlet.receivers = gate.outlet.receivers) :
    (w.modifyOutput g fun gate => { gate with outlet }).footing = w.footing := by
  have hsize : ∀ o : Outlet ρ, o.size = o.receivers.length := by
    intro o
    cases o with
    | channels bank => exact (List.length_map _).symm
    | direct id receiver => rfl
  refine footing_modifyOutput fun gate' hgate' => ?_
  obtain rfl : gate = gate' := Option.some.inj (hgate.symm.trans hgate')
  simp only [OutputGate.turn, hsize, hreceivers]

/-! ### Steps that change it -/

/-- A selection is made by the selector whose turn it is. -/
theorem turnAt_select {selector : Selector ρ} {n : ℕ} (hturn : w.turnAt g = some (selector, n))
    (record : ρ) : (w.select g record).1 = (selector.select record n).1 ∧
      (w.select g record).2.turnAt =
        Function.update w.turnAt g (some ((selector.select record n).2, n)) := by
  obtain ⟨gate, hgate, hgateTurn⟩ := Option.map_eq_some_iff.mp hturn
  obtain ⟨rfl, rfl⟩ := Prod.mk.inj hgateTurn
  have hselect : w.select g record = ((gate.selector.select record gate.outlet.size).1,
      w.modifyOutput g fun gate' =>
        { gate' with selector := (gate.selector.select record gate.outlet.size).2 }) := by
    simp only [select, hgate]
  rw [hselect]
  refine ⟨rfl, funext fun h => ?_⟩
  rw [turnAt, output?_modifyOutput]
  by_cases hsame : h = g
  · subst hsame
    rw [if_pos rfl, Function.update_self, hgate]
    rfl
  · rw [if_neg (Ne.symm hsame), Function.update_of_ne hsame, turnAt]

theorem threadsFind_modifyTask {k : ℕ} {f : Task σ ρ → Task σ ρ}
    (hf : ∀ t, (f t).thread = t.thread) (hw : w.ThreadsFind) : (w.modifyTask k f).ThreadsFind := by
  have hthreads : (w.modifyTask k f).tasks.map Task.thread = w.tasks.map Task.thread :=
    map_modify_of_eq Task.thread fun t _ => hf t
  intro t ht result hthread
  have hmem : some (.ended result) ∈ w.tasks.map Task.thread :=
    hthreads ▸ hthread ▸ List.mem_map_of_mem ht
  obtain ⟨t₀, ht₀, hthread₀⟩ := List.mem_map.mp hmem
  exact hw t₀ ht₀ result hthread₀

theorem ThreadsFind.select (hw : w.ThreadsFind) (g : GateRef) (record : ρ) :
    (w.select g record).2.ThreadsFind := by
  unfold World.select
  split
  · exact threadsFind_modifyTask (fun _ => rfl) hw
  · exact hw

theorem turnAt_endThread (w : World σ ρ) (task : ℕ) (result : Except Error ℕ) :
    (w.endThread task result).turnAt = w.turnAt := by
  funext g
  simp only [turnAt, output?, endThread, modifyTask, task?, List.getElem?_modify]
  by_cases htask : task = g.task
  · cases w.tasks[g.task]? <;> simp [htask]
  · simp [htask]

theorem ThreadsFind.endThread (hw : w.ThreadsFind) {task : ℕ} {result : Except Error ℕ}
    (hresult : Finds result) : (w.endThread task result).ThreadsFind := by
  intro t ht result' hthread
  obtain ⟨k, hk⟩ := List.mem_iff_getElem?.mp ht
  simp only [World.endThread, modifyTask, List.getElem?_modify] at hk
  obtain ⟨t₀, ht₀, rfl⟩ := Option.map_eq_some_iff.mp hk
  split_ifs at hthread with htask
  · obtain rfl : result = result' := Thread.ended.inj (Option.some.inj hthread)
    exact hresult
  · exact hw t₀ (List.mem_of_getElem? ht₀) result' hthread

end World

end LatencyControl
