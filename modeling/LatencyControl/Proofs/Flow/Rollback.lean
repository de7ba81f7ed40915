import LatencyControl.Proofs.Flow.Overlap
import LatencyControl.Proofs.Result

/-!
# Chains that are not established

A gate that is to become the head of a chain first sends its buffers and brings the links to rest
(`Flow.prepare`), and only then exchanges any chains and drains the links (`Flow.takeOver`).  If the
first part fails, at whatever point, no chain has changed hands, and exactly those input gates that
were halted for it are woken again; those that another chain had halted before stay halted.

`World.establishing_outcomes` says this, and what holds of every other outcome.  As buffers are sent
and the links are brought to rest one after the other, threads that work off at once what arrives
may do something else in the meantime; so the instance has to be calm (`World.IsCalm`).
-/

namespace LatencyControl

open LatencyControl.Flow World

variable {σ ρ : Type}

/-! ### The two parts of an installation -/

namespace Flow

section

variable (write : GateRef → ρ → Flow σ ρ Unit)

/-- An output gate sends its buffers and brings the links of a chain to rest.  If one does not come
to rest, those that were halted for it are woken. -/
def prepare (g : GateRef) (c : Chain) : Flow σ ρ Unit := do
  flushGate write g
  let (result, halted) ← haltLinks write (← outputGate g).timeout c.links
  if let .error e := result then
    modify (·.wakeLinks halted)
    throw e

/-- An output gate becomes the head of a chain whose links have come to rest.  If the records that
are queued at them do not get through, it is left without a chain. -/
def takeOver (g : GateRef) (c : Chain) : Flow σ ρ Unit := do
  modify (·.dissolve c)
  modify (·.replaceChain g c)
  if let .error e ← attempt (drainLinks write c c.links.zipIdx.reverse) then
    modify (·.dropChain g)
    throw e

theorem install_eq (g : GateRef) (c : Chain) :
    install write g c = prepare write g c >>= fun _ => takeOver write g c := by
  unfold install prepare takeOver
  simp only [bind_assoc]
  refine bind_congr fun _ => bind_congr fun gate => bind_congr fun answer => ?_
  obtain ⟨result, halted⟩ := answer
  cases result with
  | ok _ => exact (pure_bind _ _).symm
  | error e => exact (bind_assoc _ _ _).symm

end

variable {write : GateRef → ρ → Flow σ ρ Unit} {w w' : World σ ρ} {g : GateRef} {c : Chain}
  {gate : OutputGate ρ} {e : Error}

/-- The points at which an installation may fail before any chain changes hands: the gate's own
buffers are not sent; or, when all links before it have come to rest, a link does not park, or its
output gate does not send its buffers. -/
inductive FailsToPrepare (write : GateRef → ρ → Flow σ ρ Unit) (g : GateRef) (c : Chain)
    (w : World σ ρ) (e : Error) : Prop
  | ownFlush {w₁ : World σ ρ} (hflush : (flushGate write g).run.run w = (.error e, w₁))
  | notParked {w₁ w₂ : World σ ρ} {gate : OutputGate ρ} {before after halted : List ChainLink}
      {l : ChainLink} (hlinks : c.links = before ++ l :: after)
      (hflush : (flushGate write g).run.run w = (.ok (), w₁)) (hgate : w₁.output? g = some gate)
      (hbefore : (haltLinks write gate.timeout before).run.run w₁ = (.ok (.ok (), halted), w₂))
      (hparked : (w₂.halt l.inputRef).2.awaitParked l.inputRef gate.timeout = .error e)
  | linkFlush {w₁ w₂ w₃ : World σ ρ} {gate : OutputGate ρ} {before after halted : List ChainLink}
      {l : ChainLink} (hlinks : c.links = before ++ l :: after)
      (hflush : (flushGate write g).run.run w = (.ok (), w₁)) (hgate : w₁.output? g = some gate)
      (hbefore : (haltLinks write gate.timeout before).run.run w₁ = (.ok (.ok (), halted), w₂))
      (hparked : (w₂.halt l.inputRef).2.awaitParked l.inputRef gate.timeout = .ok ())
      (hlink : (flushGate write l.outputRef).run.run (w₂.halt l.inputRef).2 = (.error e, w₃))

/-- A link that cannot be made sure of, behind links that have come to rest. -/
theorem run_haltLinks_of_error {millis : ℕ} {before halted : List ChainLink} {l : ChainLink}
    {w₂ w₃ : World σ ρ} (after : List ChainLink)
    (hbefore : (haltLinks write millis before).run.run w = (.ok (.ok (), halted), w₂))
    (hlink : (secureLink write millis l).run.run (w₂.halt l.inputRef).2 = (.error e, w₃)) :
    ∃ halted', (haltLinks write millis (before ++ l :: after)).run.run w =
      (.ok (.error e, halted'), w₃) := by
  induction before generalizing w halted with
  | nil =>
    cases hbefore
    rw [List.nil_append, haltLinks, run_modifyGet_bind, run_attempt_bind hlink]
    exact ⟨_, rfl⟩
  | cons l' rest ih =>
    rw [haltLinks, run_modifyGet_bind] at hbefore
    rw [List.cons_append, haltLinks, run_modifyGet_bind]
    rcases hsecure : (secureLink write millis l').run.run (w.halt l'.inputRef).2
      with ⟨e' | ⟨⟩, w₁⟩
    · rw [run_attempt_bind hsecure] at hbefore
      cases hbefore
    · rw [run_attempt_bind hsecure] at hbefore ⊢
      obtain ⟨⟨result, later⟩, w', hrest, hend⟩ := run_bind_eq_ok.mp hbefore
      cases hend
      obtain ⟨halted', hrun⟩ := ih hrest
      rw [run_bind_of_ok hrun]
      exact ⟨_, rfl⟩

/-- At each of these points the error is the result of the first part. -/
theorem FailsToPrepare.run_prepare (h : FailsToPrepare write g c w e) :
    ∃ w', (prepare write g c).run.run w = (.error e, w') := by
  have hlater : ∀ {w₁ w₂ w₃ : World σ ρ} {gate : OutputGate ρ}
      {before after halted : List ChainLink} {l : ChainLink}, c.links = before ++ l :: after →
      (flushGate write g).run.run w = (.ok (), w₁) → w₁.output? g = some gate →
      (haltLinks write gate.timeout before).run.run w₁ = (.ok (.ok (), halted), w₂) →
      (secureLink write gate.timeout l).run.run (w₂.halt l.inputRef).2 = (.error e, w₃) →
      ∃ w', (prepare write g c).run.run w = (.error e, w') := by
    intro w₁ w₂ w₃ gate before after halted l hlinks hflush hgate hbefore hlink
    obtain ⟨halted', hrun⟩ := run_haltLinks_of_error after hbefore hlink
    rw [← hlinks] at hrun
    rw [prepare, run_bind_of_ok hflush, run_outputGate_bind hgate, run_bind_of_ok hrun]
    exact ⟨_, rfl⟩
  cases h with
  | ownFlush hflush => exact ⟨_, run_bind_of_error hflush⟩
  | @notParked w₁ w₂ gate before after halted l hlinks hflush hgate hbefore hparked =>
    have hlink : (secureLink write gate.timeout l).run.run (w₂.halt l.inputRef).2 =
        (.error e, (w₂.halt l.inputRef).2) := by
      rw [secureLink, run_get_bind, hparked]
      rfl
    exact hlater hlinks hflush hgate hbefore hlink
  | @linkFlush w₁ w₂ w₃ gate before after halted l hlinks hflush hgate hbefore hparked hfailed =>
    have hlink : (secureLink write gate.timeout l).run.run (w₂.halt l.inputRef).2 =
        (.error e, w₃) := by
      rw [secureLink, run_get_bind, hparked]
      exact hfailed
    exact hlater hlinks hflush hgate hbefore hlink

/-! ### Establishing -/

/-- What comes of establishing a chain at a running gate, noted in any case. -/
theorem run_establish (hgate : w.output? g = some gate) (hrunning : gate.state = .running)
    {result : Except Error Unit} (hinstall : (install write g c).run.run w = (result, w')) :
    (establish write g c).run.run w = (result, w'.signal c) := by
  rw [establish, run_outputGate_bind hgate, if_pos hrunning, run_attempt_bind hinstall]
  rfl

theorem run_establish_of_not_running (hgate : w.output? g = some gate)
    (hstate : gate.state ≠ .running) : (establish write g c).run.run w = (.ok (), w.signal c) := by
  rw [establish, run_outputGate_bind hgate, if_neg hstate]
  rfl

theorem isSignalled_signal (w : World σ ρ) (c : Chain) :
    (w.signal c).isSignalled c.number = true := by
  simp [signal, isSignalled, KeySet.add, Table.contains]

/-- Whatever comes of it, the chain has been dealt with. -/
theorem isSignalled_of_establish (hgate : w.output? g = some gate) {result : Except Error Unit}
    (hrun : (establish write g c).run.run w = (result, w')) : w'.isSignalled c.number = true := by
  by_cases hrunning : gate.state = .running
  · rcases hinstall : (install write g c).run.run w with ⟨result', w₁⟩
    rw [run_establish hgate hrunning hinstall] at hrun
    cases hrun
    exact isSignalled_signal w₁ c
  · rw [run_establish_of_not_running hgate hrunning] at hrun
    cases hrun
    exact isSignalled_signal w c

/-- An installation that fails in its second part leaves the gate without a chain. -/
theorem run_takeOver_of_error {w₁ w₂ : World σ ρ}
    (hdrain : (drainLinks write c c.links.zipIdx.reverse).run.run
      ((w₁.dissolve c).replaceChain g c) = (.error e, w₂)) :
    (takeOver write g c).run.run w₁ = (.error e, w₂.dropChain g) := by
  rw [takeOver, run_modify_bind, run_modify_bind, run_attempt_bind hdrain]
  rfl

/-! ### The first part -/

/-- Waking those that were halted anew undoes the halting. -/
theorem isHalted_wakeLinks_of_haltsAll {links : List ChainLink}
    {answer : Except Error Unit × List ChainLink} (h : HaltsAll w w' links answer) (i : GateRef) :
    (w'.wakeLinks answer.2).isHalted i = w.isHalted i := by
  rw [Bool.eq_iff_iff, World.isHalted_wakeLinks]
  constructor
  · rintro ⟨hi, hnot⟩
    exact (h.only i hi).resolve_right hnot
  · intro hi
    refine ⟨h.kept i hi, fun hmem => ?_⟩
    obtain ⟨l, hl, rfl⟩ := List.mem_map.mp hmem
    simp [h.fresh l hl] at hi

/-- The first part of an installation halts the links.  If it fails, chains, queues and halted gates
are what they were. -/
theorem leads_prepare (hw : w.IsCalm (g :: c.outputs)) (depth : ℕ) :
    (prepare (writeWithin depth) g c).Leads w
      (fun _ w' => SameGates w w' ∧
        ∀ i, w'.isHalted i = true ↔ w.isHalted i = true ∨ i ∈ c.inputs)
      fun w' => SameGates w w' ∧ ∀ i, w'.isHalted i = w.isHalted i := by
  have hdone : ∀ w', w.StandsAs w' → SameGates w w' ∧ ∀ i, w'.isHalted i = w.isHalted i :=
    fun w' hw' => ⟨SameGates.of_control (control_congr hw'), isHalted_congr (control_congr hw')⟩
  have hflush := keeps_flushGate_of_calm hw depth List.mem_cons_self w rfl
  refine leads_bind (hflush.mono ?_ hdone)
  intro _ w₁ hw₁
  obtain ⟨hsame, hbefore⟩ := hdone w₁ hw₁
  refine leads_bind (leads_outputGate ?_ ⟨hsame, hbefore⟩)
  intro gate _
  have hlinks : ∀ w : World σ ρ, w.IsCalm (g :: c.outputs) → ∀ l ∈ c.links,
      Keeps w.StandsAs (flushGate (writeWithin depth) l.outputRef) := fun w hw l hl =>
    keeps_flushGate_of_calm hw depth (List.mem_cons_of_mem g (List.mem_map_of_mem hl))
  have hhalt := leads_haltLinks_of_calm (writeWithin depth) isOfStanding_isCalm
    (fun _ i hw => hw.halt i) hlinks gate.timeout (isOfStanding_isCalm hw₁ hw)
  have hsubset := leads_haltLinks_subset (writeWithin depth) gate.timeout c.links w₁
  refine leads_bind ((hhalt.and hsubset).mono ?_ fun _ hfalse => hfalse.1.elim)
  rintro ⟨result, halted⟩ w₂ ⟨hall, hsub⟩
  cases result with
  | ok _ =>
    refine leads_pure ⟨hsame.trans hall.sameGates, fun i => ?_⟩
    rw [← hbefore i]
    constructor
    · exact fun hi => (hall.only i hi).imp_right fun hnew => List.map_subset _ hsub hnew
    · rintro (hold | hlink)
      · exact hall.kept i hold
      · obtain ⟨l, hl, rfl⟩ := List.mem_map.mp hlink
        exact hall.halted rfl l hl
  | error e =>
    refine leads_bind (leads_modify (leads_throw ⟨?_, fun i => ?_⟩))
    · exact hsame.trans (hall.sameGates.trans (sameGates_wakeLinks halted w₂))
    · rw [isHalted_wakeLinks_of_haltsAll hall i, hbefore]

end Flow

/-! ### Outcomes -/

/-- The first queued action fails. -/
theorem Flow.run_performPending_of_error {write : GateRef → ρ → Flow σ ρ Unit} {w w' : World σ ρ}
    {g : GateRef} {gate : OutputGate ρ} {a : GateAction} {rest : List GateAction} {e : Error}
    (hgate : w.output? g = some gate) (hqueue : gate.pending = a :: rest)
    (hrun : (perform write g a).run.run (w.popAction g).2 = (.error e, w')) :
    (performPending write g).run.run w = (.error e, w') := by
  rw [performPending, run_outputGate_bind hgate, hqueue, List.length_cons, performQueued,
    run_modifyGet_bind]
  have hfirst : (w.popAction g).1 = some a := by rw [popAction_of_pending hgate hqueue]
  rw [hfirst]
  exact run_bind_of_error hrun

/-- **A chain that is not established leaves no trace.**  Let the first action that is queued at a
gate be to establish a chain.  Whatever comes of it, the chain is noted as dealt with.  If the gate
runs and the installation fails before any chain changes hands, then the error is the result, all
chains are where they were, those input gates are halted that were halted, and the later actions
stay queued.  If it fails afterwards, the gate is left without a chain. -/
theorem World.establishing_outcomes {w : World σ ρ} {g : GateRef} {gate : OutputGate ρ} {c : Chain}
    {rest : List GateAction} (hgate : w.output? g = some gate)
    (hqueue : gate.pending = .establishChain c :: rest) (depth : ℕ) :
    (∀ result w', (perform (writeWithin depth) g (.establishChain c)).run.run (w.popAction g).2 =
      (result, w') → w'.isSignalled c.number = true) ∧
    (gate.state = .running → (w.popAction g).2.IsCalm (g :: c.outputs) → ∀ e,
      FailsToPrepare (writeWithin depth) g c (w.popAction g).2 e →
        ∃ w', (performPending (writeWithin depth) g).run.run w = (.error e, w') ∧
          (∀ h, w'.chainAt h = w.chainAt h) ∧ (∀ i, w'.isHalted i = w.isHalted i) ∧
            (∀ h, w'.queuedAt h = if g = h then rest else w.queuedAt h) ∧
              w'.isSignalled c.number = true) ∧
    (gate.state = .running → ∀ e w₁ w₂,
      (prepare (writeWithin depth) g c).run.run (w.popAction g).2 = (.ok (), w₁) →
        (drainLinks (writeWithin depth) c c.links.zipIdx.reverse).run.run
          ((w₁.dissolve c).replaceChain g c) = (.error e, w₂) →
          ∃ w', (performPending (writeWithin depth) g).run.run w = (.error e, w') ∧
            w'.chainAt g = none ∧ w'.isSignalled c.number = true) := by
  have hpopped := popAction_of_pending hgate hqueue
  have hthere : (w.popAction g).2.output? g = some { gate with pending := rest } := by
    simp [hpopped, output?_modifyOutput, hgate]
  refine ⟨fun result w' hrun => isSignalled_of_establish hthere hrun, ?_, ?_⟩
  · intro hrunning hcalm e hfails
    obtain ⟨w', hprepare⟩ := hfails.run_prepare
    obtain ⟨hsame, hhalted⟩ := (leads_prepare hcalm depth).of_error hprepare
    have hinstall :
        (install (writeWithin depth) g c).run.run (w.popAction g).2 = (.error e, w') := by
      rw [install_eq, run_bind_of_error hprepare]
    have hestablish := run_establish hthere hrunning hinstall
    have hthreads := sameThreads_popAction w g
    refine ⟨_, run_performPending_of_error hgate hqueue hestablish, fun h => ?_, fun i => ?_,
      fun h => ?_, isSignalled_signal w' c⟩
    · exact (hsame.chainAt h).trans (hthreads.chainAt h)
    · exact (hhalted i).trans (hthreads.isHalted i)
    · have hqueued : (w.popAction g).2.queuedAt h = if g = h then rest else w.queuedAt h := by
        rw [hpopped]
        exact queuedAt_modifyOutput_pending hgate
      exact (hsame.queuedAt h).trans hqueued
  · intro hrunning e w₁ w₂ hprepare hdrain
    have hinstall : (install (writeWithin depth) g c).run.run (w.popAction g).2 =
        (.error e, w₂.dropChain g) := by
      rw [install_eq, run_bind_of_ok hprepare]
      exact run_takeOver_of_error hdrain
    have hestablish := run_establish hthere hrunning hinstall
    refine ⟨_, run_performPending_of_error hgate hqueue hestablish, ?_, isSignalled_signal _ c⟩
    exact ((exchanges_dropChain w₂ g).chainAt g).trans (if_pos rfl)

/-! ### A link without a thread -/

/-- The tasks `a` and `x` write to the task `b`, which has a thread and writes to the task `d`,
which has none. -/
def stuckPlan : Plan Unit ℕ where
  job := ⟨"job"⟩
  clock := 0
  tasks := [relayPlan "a" 0 "b" false, relayPlan "x" 0 "b" false, relayPlan "b" 1 "d" true,
    relayPlan "d" 1 "sink" false]

/-- A chain of `a`, `b` and `d`. -/
def stuckChain : Chain where
  number := 1
  id := ⟨"a"⟩
  head := ⟨"a"⟩
  links := [⟨⟨"b"⟩, 2, 0, 0⟩, ⟨⟨"d"⟩, 3, 0, 0⟩]

/-- The instance, whose threads wait for their turns. -/
def stuckStart : World Unit ℕ := { stuckPlan.world with isEager := false }

/-- The task `x` is made the head of a chain with `b`; then `a` is to become the head of a chain
with `b` and `d`, and something else is queued behind that. -/
def stuckWorld : World Unit ℕ :=
  stuckStart.after
    [.enqueue ⟨1, 0⟩ (.establishChain (joinChain 0 "x")), .perform ⟨1, 0⟩,
      .enqueue ⟨0, 0⟩ (.establishChain stuckChain), .enqueue ⟨0, 0⟩ .dropChain]

/-- The thread of `b` is parked already, but `d` has none that could park. -/
theorem failsToPrepare_stuckChain : FailsToPrepare (writeWithin stuckWorld.depth) ⟨0, 0⟩ stuckChain
    (stuckWorld.popAction ⟨0, 0⟩).2 (.inputGateNotParked ⟨"d/in0"⟩ 5000000000) := by
  generalize hw : (stuckWorld.popAction ⟨0, 0⟩).2 = w
  generalize hw₁ : ((flushGate (writeWithin stuckWorld.depth) ⟨0, 0⟩).run.run w).2 = w₁
  generalize hw₂ : ((haltLinks (writeWithin stuckWorld.depth) 5000 [⟨⟨"b"⟩, 2, 0, 0⟩]).run.run
    w₁).2 = w₂
  have htimeout : (w₁.output? ⟨0, 0⟩).map OutputGate.timeout = some 5000 := by
    rw [← hw₁, ← hw]
    decide +kernel
  obtain ⟨gate, hgate, htimeout⟩ := Option.map_eq_some_iff.mp htimeout
  have hflush : (flushGate (writeWithin stuckWorld.depth) ⟨0, 0⟩).run.run w = (.ok (), w₁) := by
    refine Prod.ext ?_ hw₁
    show _ = Except.ok ()
    rw [← hw]
    decide +kernel
  have hbefore : (haltLinks (writeWithin stuckWorld.depth) gate.timeout
      [⟨⟨"b"⟩, 2, 0, 0⟩]).run.run w₁ = (.ok (.ok (), []), w₂) := by
    rw [htimeout]
    refine Prod.ext ?_ hw₂
    show _ = Except.ok (Except.ok (), [])
    rw [← hw₁, ← hw]
    decide +kernel
  have hlinks : stuckChain.links = [⟨⟨"b"⟩, 2, 0, 0⟩] ++ ⟨⟨"d"⟩, 3, 0, 0⟩ :: [] := rfl
  refine .notParked hlinks hflush hgate hbefore ?_
  rw [htimeout, ← hw₂, ← hw₁, ← hw]
  decide +kernel

/-- The thread of `b` stays parked, for the sake of the chain of `x`, and `d` is woken. -/
theorem establishing_outcomes_stuckWorld : ∃ gate w', stuckWorld.output? ⟨0, 0⟩ = some gate ∧
    gate.pending = [.establishChain stuckChain, .dropChain] ∧
      (performAll ⟨0, 0⟩).run.run stuckWorld =
        (.error (.inputGateNotParked ⟨"d/in0"⟩ 5000000000), w') ∧
          w'.chainAt ⟨1, 0⟩ = some (joinChain 0 "x") ∧ w'.isHalted ⟨2, 0⟩ = true ∧
            w'.isHalted ⟨3, 0⟩ = false ∧ w'.queuedAt ⟨0, 0⟩ = [.dropChain] ∧
              w'.isSignalled 1 = true := by
  have hqueued : (stuckWorld.output? ⟨0, 0⟩).map (fun gate => (gate.pending, gate.state)) =
      some ([.establishChain stuckChain, .dropChain], .running) := by decide +kernel
  obtain ⟨gate, hgate, hqueue⟩ := Option.map_eq_some_iff.mp hqueued
  obtain ⟨hqueue, hrunning⟩ := Prod.mk.inj hqueue
  have hcalm : (stuckWorld.popAction ⟨0, 0⟩).2.IsCalm (⟨0, 0⟩ :: stuckChain.outputs) :=
    .inl (by decide +kernel)
  obtain ⟨-, hfails, -⟩ := establishing_outcomes hgate hqueue stuckWorld.depth
  obtain ⟨w', hrun, hchain, hhalted, hrest, hsignalled⟩ :=
    hfails hrunning hcalm _ failsToPrepare_stuckChain
  refine ⟨gate, w', hgate, hqueue, ?_, ?_, ?_, ?_, ?_, hsignalled⟩
  · rw [performAll, run_withWriter]
    exact hrun
  · rw [hchain]
    decide +kernel
  · rw [hhalted]
    decide +kernel
  · rw [hhalted]
    decide +kernel
  · rw [hrest, if_pos rfl]

end LatencyControl
