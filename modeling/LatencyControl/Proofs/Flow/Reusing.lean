import LatencyControl.Proofs.Flow.Dispatching
import LatencyControl.Proofs.Flow.Replacing
import LatencyControl.Proofs.Flow.States

/-!
# Members that are registered again

A chain that is replaced wakes those of its links whose members the new chain does not have.  While
every member stands for the same task, these are the links that are no longer chained.  But a member
may be withdrawn and registered again for another task between the dispatches of the two chains, and
then the gate of the old task is not woken, nor is it a link any longer.

`Steered.halted_of_replaced` says that this is the only way in which a link of the replaced chain
stays halted, in whatever way an instance is run; and `exists_parked_of_reuse` is such a run.
-/

namespace LatencyControl

open LatencyControl.Flow World

variable {σ ρ : Type}

/-! ### Instances whose tasks come and go -/

/-- An instance is in the course of a run, in which messages are dispatched to it and its tasks come
and go.  The list has the chains that were dispatched, each with the instance that it was dispatched
in.  No other chains are queued or given to gates; apart from that, the steps may come in any order,
so that what there is in the middle of an activity belongs to the course of the run. -/
inductive Steered (w₀ : World σ ρ) : List (World σ ρ × Chain) → World σ ρ → Prop
  | start : Steered w₀ [] w₀
  /-- A message asks for a chain. -/
  | dispatch {made : List (World σ ρ × Chain)} {w : World σ ρ} (h : Steered w₀ made w)
      {id : ChainId} {m : Message} {c : Chain} (hc : (w.dispatch id m).1 = .chainEnqueued c) :
      Steered w₀ (made ++ [(w, c)]) (w.dispatch id m).2
  | enqueue {made : List (World σ ρ × Chain)} {w : World σ ρ} (h : Steered w₀ made w)
      (g : GateRef) {a : GateAction} (ha : ∀ c, a = .establishChain c → ∃ s, (s, c) ∈ made) :
      Steered w₀ made (w.enqueue g a)
  | popAction {made : List (World σ ρ × Chain)} {w : World σ ρ} (h : Steered w₀ made w)
      (g : GateRef) : Steered w₀ made (w.popAction g).2
  | halt {made : List (World σ ρ × Chain)} {w : World σ ρ} (h : Steered w₀ made w) (i : GateRef) :
      Steered w₀ made (w.halt i).2
  | wake {made : List (World σ ρ × Chain)} {w : World σ ρ} (h : Steered w₀ made w) (i : GateRef) :
      Steered w₀ made (w.wake i).2
  | takeChain {made : List (World σ ρ × Chain)} {w : World σ ρ} (h : Steered w₀ made w)
      (g : GateRef) : Steered w₀ made (w.takeChain g).2
  | giveChain {made : List (World σ ρ × Chain)} {w : World σ ρ} (h : Steered w₀ made w)
      (g : GateRef) {c : Chain} (hc : ∃ s, (s, c) ∈ made) :
      Steered w₀ made (w.modifyOutput g fun gate => { gate with chain := some c })
  /-- Tasks are registered or withdrawn, records move, gates change their states, time passes. -/
  | elsewhere {made : List (World σ ρ × Chain)} {w w' : World σ ρ} (h : Steered w₀ made w)
      (hw : w'.control = w.control) : Steered w₀ made w'

namespace World

/-- All chains that are held or queued are of one kind, and there are certain output gates. -/
structure HasOnly (C : Chain → Prop) (gates : GateRef → Bool) (w : World σ ρ) : Prop where
  held : ∀ g c, w.Holds g c → C c
  queued : ∀ g c, w.Awaits g c → C c
  hasOutput : ∀ g, w.hasOutput g = gates g

variable {C C' : Chain → Prop} {gates : GateRef → Bool} {w w' : World σ ρ}

theorem HasOnly.mono (hw : HasOnly C gates w) (h : ∀ c, C c → C' c) : HasOnly C' gates w :=
  ⟨fun g c hc => h c (hw.held g c hc), fun g c hc => h c (hw.queued g c hc), hw.hasOutput⟩

theorem HasOnly.of_sameGates (hw : HasOnly C gates w) (h : SameGates w w') :
    HasOnly C gates w' where
  held g c hc := hw.held g c ((h.chainAt g).symm.trans hc)
  queued g c hc := hw.queued g c (by rwa [Awaits, h.queuedAt] at hc)
  hasOutput g := (h.hasOutput g).trans (hw.hasOutput g)

theorem HasOnly.of_sameThreads (hw : HasOnly C gates w) (h : SameThreads w w')
    (hqueued : ∀ g c, w'.Awaits g c → C c) : HasOnly C gates w' where
  held g c hc := hw.held g c ((h.chainAt g).symm.trans hc)
  queued := hqueued
  hasOutput g := (h.hasOutput g).trans (hw.hasOutput g)

theorem HasOnly.enqueue (hw : HasOnly C gates w) (g : GateRef) {a : GateAction}
    (ha : ∀ c, a = .establishChain c → C c) : HasOnly C gates (w.enqueue g a) :=
  hw.of_sameThreads (sameThreads_enqueue _ _ _) fun g c hc =>
    (mem_queuedAt_enqueue hc).elim (hw.queued g c) fun h => ha c h.2.symm

theorem HasOnly.modifyChain {new : Option Chain} (hw : HasOnly C gates w) (g : GateRef)
    (hnew : ∀ h q, (w.modifyOutput g fun gate => { gate with chain := new }).Holds h q → C q) :
    HasOnly C gates (w.modifyOutput g fun gate => { gate with chain := new }) where
  held := hnew
  queued h q hq := hw.queued h q (by rwa [Awaits, queuedAt_modifyOutput_chain] at hq)
  hasOutput h := (hasOutput_modifyOutput _).trans (hw.hasOutput h)

/-- An action that is for one gate is about no chain in particular. -/
theorem ne_establishChain_of_queuesAction {m : Message} {g : GateRef} {a : GateAction}
    (h : w.QueuesAction m g a) (c : Chain) : a ≠ .establishChain c := by
  rintro rfl
  obtain ⟨member, gate, t, -, ha, -⟩ := h
  cases haction : m.action <;> rw [haction] at ha <;> cases ha

/-- The only chain that a message brings is the one that it asks for. -/
theorem HasOnly.dispatch (hw : HasOnly C gates w) {id : ChainId} {m : Message} {c : Chain}
    (hm : (w.dispatch id m).1 = .chainEnqueued c) (hc : C c) :
    HasOnly C gates (w.dispatch id m).2 := by
  rcases w.dispatch_cases id m with ⟨-, heq⟩ | ⟨-, g, a, -, heq⟩ | ⟨-, g, c', -, heq⟩
  · rw [heq] at hm
    cases hm
  · rw [heq] at hm
    cases hm
  · rw [heq] at hm ⊢
    obtain rfl := Dispatched.chainEnqueued.inj hm
    have hmore : HasOnly C gates { w with chains := w.chains ++ [c'] } :=
      hw.of_sameGates (SameGates.of_control rfl)
    refine hmore.enqueue g ?_
    rintro _ ⟨⟩
    exact hc

end World

namespace Steered

variable {w₀ w : World σ ρ} {made : List (World σ ρ × Chain)}

/-- All links that a chain was dispatched with were registered at that time. -/
theorem enchains (hrun : Steered w₀ made w) {s : World σ ρ} {c : Chain} (hc : (s, c) ∈ made)
    {l : ChainLink} (hl : l ∈ c.links) : ∃ t, s.Enchains l t := by
  induction hrun with
  | start => cases hc
  | dispatch hrun hdispatched ih =>
    rcases List.mem_append.mp hc with hold | hnew
    · exact ih hold
    · obtain ⟨rfl, rfl⟩ := Prod.mk.inj (List.mem_singleton.mp hnew)
      obtain ⟨_, _, -, -, -, -, hlinks⟩ := shape_of_dispatch hdispatched
      exact hlinks l hl
  -- no other step dispatches a chain
  | enqueue _ _ _ ih | popAction _ _ ih | halt _ _ ih | wake _ _ ih | takeChain _ _ ih
  | giveChain _ _ _ ih | elsewhere _ _ ih => exact ih hc

/-- All chains that are held or queued were dispatched. -/
theorem hasOnly (hrun : Steered w₀ made w) (h₀ : w₀.IsFresh) :
    HasOnly (fun c => ∃ s, (s, c) ∈ made) w₀.hasOutput w := by
  induction hrun with
  | start => exact ⟨fun _ _ hc => absurd hc h₀.not_holds, fun _ _ hc => absurd hc h₀.not_awaits,
      fun _ => rfl⟩
  | @dispatch made w hrun id m c hc ih =>
    -- the list grows first, and then the new chain is one of it
    have hmore : HasOnly (fun c' => ∃ s, (s, c') ∈ made ++ [(w, c)]) w₀.hasOutput w :=
      ih.mono fun c' ⟨s, hs⟩ => ⟨s, List.mem_append_left _ hs⟩
    exact hmore.dispatch hc ⟨w, List.mem_append_right made (List.mem_singleton_self _)⟩
  | enqueue hrun g ha ih => exact ih.enqueue g ha
  | @popAction made w hrun g ih =>
    exact ih.of_sameThreads (sameThreads_popAction w g) fun h c hc =>
      ih.queued h c (mem_queuedAt_popAction hc)
  | @halt made w hrun i ih => exact ih.of_sameGates (sameGates_halt w i)
  | @wake made w hrun i ih => exact ih.of_sameGates (sameGates_wake w i)
  | takeChain hrun g ih => exact ih.modifyChain g fun h q hq => ih.held h q (holds_of_takeChain hq)
  | giveChain hrun g hc ih =>
    refine ih.modifyChain g fun h q hq => ?_
    rcases holds_of_giveChain hq with rfl | hold
    · exact hc
    · exact ih.held h q hold
  | elsewhere hrun hw ih => exact ih.of_sameGates (SameGates.of_control hw)

theorem isOfStanding_steered : IsOfStanding (Steered w₀ made) :=
  fun _ _ hw h => h.elsewhere (control_congr hw)

/-- Whatever is done to an instance leads on in the course of the run. -/
theorem upkeep (h₀ : w₀.IsFresh) (made : List (World σ ρ × Chain)) :
    Upkeep (fun _ : Unit => Steered w₀ made) fun _ c => ∃ s, (s, c) ∈ made where
  ofControl _ _ _ hw h := h.elsewhere hw
  enqueue h ha := h.enqueue _ ha
  popAction h := h.popAction _
  admits h hc := (h.hasOnly h₀).queued _ _ hc
  dropChain h := dropChain_of_steps (fun _ i h => h.wake i) (fun _ g h => h.takeChain g) _ h
  keeps_install {write g c} hwrite hc i := by
    have hflush := keeps_flushGate isOfStanding_steered
      (keeps_deliver isOfStanding_steered (hwrite i))
    exact keeps_install_of_steps isOfStanding_steered (fun _ i h => h.wake i)
      (fun _ g h => h.takeChain g) (fun _ i h => h.halt i) (fun h _ => hflush h)
      (fun l _ => hwrite i l.outputRef) fun _ h => h.giveChain g hc

end Steered

/-- What is done to an instance whose tasks come and go. -/
inductive ControlOp (ρ : Type)
  /-- A task is registered, or a member is withdrawn. -/
  | amend (op : RegisterOp)
  /-- A message is dispatched; if it asks for a chain, this gets the given identifier. -/
  | dispatch (id : ChainId) (m : Message)
  | operate (o : GateOp ρ)

/-- Does something to an instance whose tasks come and go. -/
def World.handle (w : World σ ρ) : ControlOp ρ → World σ ρ
  | .amend op => w.amend op
  | .dispatch id m => (w.dispatch id m).2
  | .operate o => o.apply w

theorem Steered.exists_handle {w₀ w : World σ ρ} {made : List (World σ ρ × Chain)}
    (hrun : Steered w₀ made w) (h₀ : w₀.IsFresh) {op : ControlOp ρ}
    (hop : ∀ g c, op ≠ .operate (.enqueue g (.establishChain c))) :
    ∃ made', Steered w₀ made' (w.handle op) := by
  cases op with
  | amend op =>
    refine ⟨made, hrun.elsewhere ?_⟩
    rw [World.handle, w.amend_eq op]
    rfl
  | dispatch id m =>
    cases hanswer : (w.dispatch id m).1 with
    | chainEnqueued c => exact ⟨_, hrun.dispatch hanswer⟩
    | skipped | enqueued =>
      refine ⟨made, ?_⟩
      rcases w.dispatch_cases id m with ⟨-, heq⟩ | ⟨-, g, a, hqueues, heq⟩ | ⟨-, g, c, -, heq⟩
      · rwa [World.handle, heq]
      · rw [World.handle, heq]
        exact hrun.enqueue g fun c hc => absurd hc (ne_establishChain_of_queuesAction hqueues c)
      · rw [heq] at hanswer
        cases hanswer
  | operate o =>
    have hact := (Steered.upkeep h₀ made).keeps_act
      (fun g c ho => absurd (congrArg ControlOp.operate ho) (hop g c)) ()
    exact ⟨made, (hact w hrun).final⟩

/-- Whatever is done to a new instance, it is in the course of a run. -/
theorem exists_steered {w₀ : World σ ρ} (h₀ : w₀.IsFresh) {ops : List (ControlOp ρ)}
    (hops : ∀ g c, .operate (.enqueue g (.establishChain c)) ∉ ops) :
    ∃ made, Steered w₀ made (ops.foldl World.handle w₀) := by
  refine List.foldlRecOn (motive := fun w => ∃ made, Steered w₀ made w) ops _ ⟨[], .start⟩ ?_
  rintro w ⟨made, hrun⟩ op hop
  refine hrun.exists_handle h₀ ?_
  rintro g c rfl
  exact hops g c hop

namespace Steered

variable {w₀ w : World σ ρ} {made : List (World σ ρ × Chain)}

/-! ### Links that stay parked -/

/-- The member of a link stood for another task when another chain was dispatched that has it. -/
def IsReused (made : List (World σ ρ × Chain)) (p c : Chain) (l : ChainLink) : Prop :=
  ∃ l' ∈ c.links, l'.member = l.member ∧ l'.task ≠ l.task ∧
    ∃ s s' t t', (s, p) ∈ made ∧ (s', c) ∈ made ∧ s.Enchains l t ∧ s'.Enchains l' t'

/-- Links have the first gates of their tasks, so that one which is neither released nor taken over
has lost its member to another task. -/
theorem isReused_of_not_released (hrun : Steered w₀ made w) {s s' : World σ ρ} {p c : Chain}
    (hp : (s, p) ∈ made) (hc : (s', c) ∈ made) {l : ChainLink} (hl : l ∈ p.links)
    (hgone : l.inputRef ∉ c.inputs) (hkept : l.inputRef ∉ p.released c) :
    IsReused made p c l := by
  obtain ⟨l', hl', hmember⟩ := Chain.exists_link_of_not_mem_released hl hkept
  obtain ⟨t, ht⟩ := hrun.enchains hp hl
  obtain ⟨t', ht'⟩ := hrun.enchains hc hl'
  refine ⟨l', hl', hmember, fun htask => hgone ?_, s, s', t, t', hp, hc, ht, ht'⟩
  have hsame : l'.inputRef = l.inputRef := by
    rw [ChainLink.inputRef, ChainLink.inputRef, htask, ht.gates.1, ht'.gates.1]
  exact hsame ▸ List.mem_map_of_mem hl'

/-- **Threads of links that a replacement leaves parked.**  While an instance is run, messages are
dispatched to it and its tasks come and go; and a chain is established at a gate that runs.  Let
`w₁` be the instance before the chains change hands and `w₂` the one after that.

* Exactly those input gates are halted in `w₂` that are halted in `w₁` and that no chain releases
  which the gate or an output gate of a new link holds in `w₁`.
* A link of the chain that the gate held is not halted in `w₂`, unless it is a link of the new chain
  as well, or its member stood for different tasks when the two chains were dispatched.
* If nothing is queued wherever records come to, `w₁` has the chains that were there at first and
  just halts the links in addition, and at the end those gates are halted that are halted in `w₂`. -/
theorem halted_of_replaced {w' : World σ ρ} {g : GateRef} {c : Chain} {depth : ℕ}
    (hrun : Steered w₀ made w) (h₀ : w₀.IsFresh) (hrunning : w.stateAt g = some .running)
    (hqueued : (w.popAction g).1 = some (.establishChain c))
    (hdone : (perform (writeWithin depth) g (.establishChain c)).run.run (w.popAction g).2
      = (.ok (), w')) :
    ∃ w₁ w₂, Establishes (writeWithin depth) g c (w.popAction g).2 w₁ w₂ w' ∧
      (∀ i, w₂.isHalted i = true ↔
        w₁.isHalted i = true ∧ ∀ h ∈ g :: c.outputs, ∀ q, w₁.Holds h q → i ∉ q.released c) ∧
      (∀ p, w₁.Holds g p → ∀ l ∈ p.links, w₂.isHalted l.inputRef = true →
        l.inputRef ∈ c.inputs ∨ IsReused made p c l) ∧
      (∀ kind, w.IsQuietFor kind g c → (∀ h, w₁.chainAt h = w.chainAt h) ∧
        (∀ i, w₁.isHalted i = true ↔ w.isHalted i = true ∨ i ∈ c.inputs) ∧
          ∀ i, w'.isHalted i = w₂.isHalted i) := by
  obtain ⟨w₁, w₂, hestablishes⟩ := exists_establishes (stateAt_popAction.trans hrunning) hdone
  have hw := hrun.hasOnly h₀
  have hw₁ : HasOnly (fun c => ∃ s, (s, c) ∈ made) w₀.hasOutput w₁ := by
    have hwrite := (upkeep h₀ made).attends.keeps_writeWithin depth ()
    have hflush := keeps_flushGate isOfStanding_steered (keeps_deliver isOfStanding_steered hwrite)
    have hprepare : Keeps (Steered w₀ made) (prepare (writeWithin depth) g c) :=
      keeps_prepare (fun _ i h => h.halt i) (fun _ i h => h.wake i) fun h _ => hflush h
    exact ((hprepare _ (hrun.popAction g)).of_ok hestablishes.prepared).hasOnly h₀
  -- gates are never taken away, whatever else happens while the links come to rest
  have hthere : w₁.hasOutput g = true := by
    rw [hw₁.hasOutput, ← hw.hasOutput, hasOutput]
    obtain ⟨gate, hgate, -⟩ := Option.map_eq_some_iff.mp hrunning
    rw [hgate]
    rfl
  have hhalted : ∀ i, w₂.isHalted i = true ↔
      w₁.isHalted i = true ∧ ∀ h ∈ g :: c.outputs, ∀ q, w₁.Holds h q → i ∉ q.released c := by
    rw [hestablishes.replaced]
    exact isHalted_replaced hthere c
  refine ⟨w₁, w₂, hestablishes, hhalted, fun p hp l hl hparked => ?_, fun kind hquiet => ?_⟩
  · obtain ⟨s, hs⟩ := hw₁.held g p hp
    obtain ⟨s', hs'⟩ := hw.queued g c (mem_queuedAt_of_popAction hqueued)
    have hkept : l.inputRef ∉ p.released c :=
      ((hhalted l.inputRef).mp hparked).2 g List.mem_cons_self p hp
    by_cases hover : l.inputRef ∈ c.inputs
    · exact .inl hover
    · exact .inr (hrun.isReused_of_not_released hs hs' hl hover hkept)
  · obtain ⟨hchains, hlinks, hend⟩ := hestablishes.of_isQuietFor (hquiet.popAction g)
    refine ⟨fun h => ?_, fun i => ?_, hend⟩
    · exact (hchains h).trans ((sameThreads_popAction w g).chainAt h)
    · rw [hlinks, (sameThreads_popAction w g).isHalted]

end Steered

/-! ### A member that is registered again -/

/-- The task `a` writes to the first of two tasks that are named `b`. -/
def reusePlan : Plan Unit ℕ where
  job := ⟨"job"⟩
  clock := 0
  tasks := [relayPlan "a" 0 "b" false, relayPlan "b" 1 "sink" true, relayPlan "b" 1 "sink" true]

/-- A message that asks for a chain of `a` and `b`. -/
def chainMessage : Message := { job := ⟨"job"⟩, action := .establishChain [⟨"a"⟩, ⟨"b"⟩] }

/-- The chain of `a` and the `b` of some index. -/
def reuseChain (number : ℕ) (id : String) (task : ℕ) : Chain where
  number
  id := ⟨id⟩
  head := ⟨"a"⟩
  links := [⟨⟨"b"⟩, task, 0, 0⟩]

/-- A chain of `a` and `b` is established; then the other `b` is registered in place of the first
one, and the same chain is asked for once more. -/
def reuseOps : List (ControlOp ℕ) :=
  [.dispatch ⟨"first"⟩ chainMessage, .operate (.perform ⟨0, 0⟩), .amend (.unregister ⟨"b"⟩),
    .amend (.register 2), .dispatch ⟨"second"⟩ chainMessage]

theorem not_mem_reuseOps (g : GateRef) (c : Chain) :
    .operate (.enqueue g (.establishChain c)) ∉ reuseOps := by
  simp [reuseOps]

/-- The instance when the new chain is queued at `a`. -/
def reuseWorld : World Unit ℕ := reuseOps.foldl World.handle reusePlan.world

theorem holds_reuseWorld : reuseWorld.Holds ⟨0, 0⟩ (reuseChain 0 "first" 1) := by
  unfold Holds
  decide +kernel

theorem popAction_reuseWorld :
    (reuseWorld.popAction ⟨0, 0⟩).1 = some (.establishChain (reuseChain 1 "second" 2)) := by
  decide +kernel

/-- The instance when `a` has become the head of the new chain. -/
def reusedWorld : World Unit ℕ :=
  ((perform (writeWithin reuseWorld.depth) ⟨0, 0⟩
    (.establishChain (reuseChain 1 "second" 2))).run.run (reuseWorld.popAction ⟨0, 0⟩).2).2

theorem run_perform_reuseWorld : (perform (writeWithin reuseWorld.depth) ⟨0, 0⟩
    (.establishChain (reuseChain 1 "second" 2))).run.run (reuseWorld.popAction ⟨0, 0⟩).2
      = (.ok (), reusedWorld) := by
  refine Prod.ext ?_ rfl
  show _ = Except.ok ()
  decide +kernel

/-- Nothing is queued at either `b`, and both of them write to the outside. -/
theorem isQuietFor_reuseWorld : reuseWorld.IsQuietFor (fun h => h = ⟨1, 0⟩ ∨ h = ⟨2, 0⟩) ⟨0, 0⟩
    (reuseChain 1 "second" 2) := by
  have houtside : ∀ h, h = (⟨1, 0⟩ : GateRef) ∨ h = ⟨2, 0⟩ → reuseWorld.queuedAt h = [] ∧
      reuseWorld.receiversAt h = [.sink 0] ∧ reuseWorld.chainAt h = none := by
    rintro h (rfl | rfl) <;> decide +kernel
  have hreceivers : reuseWorld.receiversAt ⟨0, 0⟩ = [.task 1] := by decide +kernel
  refine ⟨⟨fun h hh => (houtside h hh).1, fun h hh task htask => ?_, fun h c hh hc => ?_⟩,
    fun task htask => ?_, ?_⟩
  · rw [(houtside h hh).2.1] at htask
    cases List.mem_singleton.mp htask
  · rw [Holds, (houtside h hh).2.2] at hc
    cases hc
  · rw [hreceivers] at htask
    cases List.mem_singleton.mp htask
    exact .inl rfl
  · exact List.forall_mem_singleton.mpr (.inr rfl)

/-- The thread of the first `b` stays parked, and its member has gone to the other one. -/
theorem halted_of_replaced_reuseWorld : reusePlan.world.IsFresh ∧
    reuseWorld.stateAt ⟨0, 0⟩ = some .running ∧
      reusedWorld.isHalted ⟨1, 0⟩ = true ∧
        ∃ made, Steered reusePlan.world made reuseWorld ∧
          Steered.IsReused made (reuseChain 0 "first" 1) (reuseChain 1 "second" 2)
            ⟨⟨"b"⟩, 1, 0, 0⟩ := by
  have hfresh : reusePlan.world.IsFresh := reusePlan.isFresh_world
  obtain ⟨made, hrun⟩ := exists_steered hfresh not_mem_reuseOps
  have hrunning : reuseWorld.stateAt ⟨0, 0⟩ = some .running := by decide +kernel
  have hparked : reusedWorld.isHalted ⟨1, 0⟩ = true := by decide +kernel
  obtain ⟨w₁, w₂, -, -, hlinks, hcalm⟩ := Steered.halted_of_replaced hrun hfresh hrunning
    popAction_reuseWorld run_perform_reuseWorld
  obtain ⟨hchains, -, hend⟩ := hcalm _ isQuietFor_reuseWorld
  have hheld : w₁.Holds ⟨0, 0⟩ (reuseChain 0 "first" 1) := (hchains ⟨0, 0⟩).trans holds_reuseWorld
  have hover := hlinks _ hheld ⟨⟨"b"⟩, 1, 0, 0⟩ List.mem_cons_self
    ((hend ⟨1, 0⟩).symm.trans hparked)
  exact ⟨hfresh, hrunning, hparked, made, hrun, hover.resolve_left (by decide)⟩

/-- The gate of a link of the replaced chain may stay halted, although it is none of the new one. -/
theorem exists_parked_of_reuse : ¬∀ (w₀ : World Unit ℕ) (ops : List (ControlOp ℕ)) (g : GateRef)
    (p c : Chain) (w' : World Unit ℕ),
    let w := ops.foldl World.handle w₀
    w₀.IsFresh → (∀ g c, .operate (.enqueue g (.establishChain c)) ∉ ops) →
      w.stateAt g = some .running → w.Holds g p →
        (w.popAction g).1 = some (.establishChain c) →
          (perform (writeWithin w.depth) g (.establishChain c)).run.run (w.popAction g).2
            = (.ok (), w') →
              ∀ i ∈ p.inputs, i ∉ c.inputs → w'.isHalted i = false := by
  intro hall
  have hwoken := hall reusePlan.world reuseOps ⟨0, 0⟩ (reuseChain 0 "first" 1)
    (reuseChain 1 "second" 2) reusedWorld reusePlan.isFresh_world not_mem_reuseOps
    (by decide +kernel) holds_reuseWorld popAction_reuseWorld run_perform_reuseWorld ⟨1, 0⟩
    (by decide) (by decide)
  have hparked : reusedWorld.isHalted ⟨1, 0⟩ = true := by decide +kernel
  exact Bool.false_ne_true (hwoken.symm.trans hparked)

end LatencyControl
