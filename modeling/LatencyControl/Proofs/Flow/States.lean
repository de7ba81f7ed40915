import LatencyControl.Proofs.Flow.Overlap

/-!
# Gates that do not run

A gate leaves the running state when it is suspended or closed, and then it gives up its chain.  An
action that is queued may still establish another one, and is carried out in any state; but a gate
that does not run ignores it.  So a gate that does not run never holds a chain, and a closed gate
stays closed (`Reaches.states_kept`).

The states of gates are changed by three operations only.  That carries the proof: throughout any
other activity the states are what they were (`Rests`), whatever becomes of the records.
-/

namespace LatencyControl

open LatencyControl.Flow World

variable {σ ρ : Type}

/-! ### States -/

namespace World

variable {w w' : World σ ρ} {g h i : GateRef}

@[simp] theorem stateAt_modifyInput (f : InputGate ρ → InputGate ρ) :
    (w.modifyInput i f).stateAt g = w.stateAt g := by
  simp [stateAt]

theorem stateAt_modifyOutput {f : OutputGate ρ → OutputGate ρ}
    (hf : ∀ gate, (f gate).state = gate.state) : (w.modifyOutput h f).stateAt g = w.stateAt g := by
  rw [stateAt, output?_modifyOutput, stateAt]
  split_ifs
  · cases w.output? g <;> simp [hf]
  · rfl

/-- A gate that is brought to another state, if it is there. -/
theorem stateAt_modifyOutput_state (state : GateState) :
    (w.modifyOutput h fun gate => { gate with state }).stateAt g =
      if h = g then (w.stateAt g).map fun _ => state else w.stateAt g := by
  rw [stateAt, output?_modifyOutput, stateAt]
  split_ifs
  · cases w.output? g <;> rfl
  · rfl

@[simp] theorem stateAt_halt : (w.halt i).2.stateAt g = w.stateAt g := by
  unfold halt
  split
  · exact stateAt_modifyInput _
  · rfl

@[simp] theorem stateAt_wake : (w.wake i).2.stateAt g = w.stateAt g := by
  unfold wake
  split
  · exact stateAt_modifyInput _
  · rfl

@[simp] theorem stateAt_popAction : (w.popAction h).2.stateAt g = w.stateAt g := by
  unfold popAction
  split
  · exact stateAt_modifyOutput fun _ => rfl
  · rfl

@[simp] theorem stateAt_enqueue (a : GateAction) : (w.enqueue h a).stateAt g = w.stateAt g :=
  stateAt_modifyOutput fun _ => rfl

@[simp] theorem stateAt_takeChain : (w.takeChain h).2.stateAt g = w.stateAt g :=
  stateAt_modifyOutput fun _ => rfl

@[simp] theorem stateAt_dropChain : (w.dropChain h).stateAt g = w.stateAt g := by
  have hwake : ∀ (w' : World σ ρ) i, w'.stateAt g = w.stateAt g →
      (w'.wake i).2.stateAt g = w.stateAt g := fun _ _ hw' => stateAt_wake.trans hw'
  have htake : ∀ (w' : World σ ρ) i, w'.stateAt g = w.stateAt g →
      (w'.takeChain i).2.stateAt g = w.stateAt g := fun _ _ hw' => stateAt_takeChain.trans hw'
  exact dropChain_of_steps (P := fun w' => w'.stateAt g = w.stateAt g) hwake htake h rfl

/-- The answer says whether the gate was suspended. -/
theorem resume_iff : (w.resume g).1 = true ↔ w.stateAt g = some .suspended := by
  unfold resume stateAt
  cases hgate : w.output? g with
  | none => simp
  | some gate =>
    dsimp only
    split_ifs with hstate <;> simp [hstate]

/-- A gate that is not suspended is left as it is. -/
theorem resume_of_not_suspended (hg : w.stateAt g ≠ some .suspended) : (w.resume g).2 = w := by
  unfold resume
  unfold stateAt at hg
  cases hgate : w.output? g with
  | none => rfl
  | some gate =>
    have hstate : gate.state ≠ .suspended := by simpa [hgate] using hg
    simp only [hstate, if_false]

theorem stateAt_resume : (w.resume g).2.stateAt h =
    if g = h ∧ w.stateAt g = some .suspended then some .running else w.stateAt h := by
  by_cases hsuspended : w.stateAt g = some .suspended
  · unfold resume
    have hg := hsuspended
    unfold stateAt at hsuspended
    cases hgate : w.output? g with
    | none => simp [hgate] at hsuspended
    | some gate =>
      have hstate : gate.state = .suspended := by simpa [hgate] using hsuspended
      simp only [hstate, if_true]
      rw [stateAt_modifyOutput_state]
      by_cases hgh : g = h
      · subst hgh
        simp [hg]
      · simp [hgh]
  · rw [resume_of_not_suspended hsuspended, if_neg fun hboth => hsuspended hboth.2]

end World

/-! ### While no gate changes its state -/

/-- The gates have these states, and only running gates hold chains. -/
structure Rests (states : GateRef → Option GateState) (w : World σ ρ) : Prop where
  stateAt : ∀ g, w.stateAt g = states g
  held : ∀ g c, w.Holds g c → states g = some .running

namespace Rests

variable {states : GateRef → Option GateState} {w w' : World σ ρ} {g : GateRef}

/-- Chains may go, and come to running gates. -/
theorem of_same (hw : Rests states w) (hstate : ∀ g, w'.stateAt g = w.stateAt g)
    (hheld : ∀ g c, w'.Holds g c → w.Holds g c ∨ states g = some .running) : Rests states w' where
  stateAt g := (hstate g).trans (hw.stateAt g)
  held g c hc := (hheld g c hc).elim (hw.held g c) id

theorem of_chainAt (hw : Rests states w) (hstate : ∀ g, w'.stateAt g = w.stateAt g)
    (hchain : ∀ g, w'.chainAt g = w.chainAt g) : Rests states w' :=
  hw.of_same hstate fun g _ hc => .inl ((hchain g).symm.trans hc)

theorem of_standing : IsOfStanding (Rests (σ := σ) (ρ := ρ) states) :=
  fun _ _ h hw => hw.of_chainAt (stateAt_congr h) (chainAt_congr (control_congr h))

theorem halt (hw : Rests states w) (i : GateRef) : Rests states (w.halt i).2 :=
  hw.of_chainAt (fun _ => stateAt_halt) (sameGates_halt w i).chainAt

theorem wake (hw : Rests states w) (i : GateRef) : Rests states (w.wake i).2 :=
  hw.of_chainAt (fun _ => stateAt_wake) (sameGates_wake w i).chainAt

theorem exchange {new : Option Chain} {woken : Chain → List GateRef} (hw : Rests states w)
    (hstate : ∀ g, w'.stateAt g = w.stateAt g) (hx : Exchanges w w' g new woken)
    (hnew : ∀ c, new = some c → states g = some .running) : Rests states w' := by
  refine hw.of_same hstate fun h c hc => ?_
  rcases hx.holds hc with ⟨rfl, hgiven⟩ | ⟨-, hold⟩
  · exact .inr (hnew c hgiven)
  · exact .inl hold

theorem takeChain (hw : Rests states w) (g : GateRef) : Rests states (w.takeChain g).2 := by
  refine hw.exchange (fun _ => stateAt_takeChain) (exchanges_modifyOutput (.inr rfl)) ?_
  rintro c ⟨⟩

theorem dropChain (hw : Rests states w) (g : GateRef) : Rests states (w.dropChain g) :=
  dropChain_of_steps (fun _ i hw => hw.wake i) (fun _ h hw => hw.takeChain h) g hw

theorem giveChain (hw : Rests states w) {c : Chain} (hg : states g = some .running) :
    Rests states (w.modifyOutput g fun gate => { gate with chain := some c }) := by
  have hthere : w.hasOutput g = true := by
    have hstate : w.stateAt g = some .running := (hw.stateAt g).trans hg
    unfold hasOutput
    cases hgate : w.output? g with
    | none => simp [World.stateAt, hgate] at hstate
    | some gate => rfl
  exact hw.exchange (fun _ => stateAt_modifyOutput fun _ => rfl)
    (exchanges_modifyOutput (.inl hthere)) fun _ _ => hg

theorem popAction (hw : Rests states w) (g : GateRef) : Rests states (w.popAction g).2 :=
  hw.of_chainAt (fun _ => stateAt_popAction) (sameThreads_popAction w g).chainAt

end Rests

/-- A chain is installed at a gate that is running, and no other one. -/
theorem attends_rests : Attends (Rests (σ := σ) (ρ := ρ)) where
  ofStanding _ := Rests.of_standing
  leads_perform {write states w g a} hwrite hw _ := by
    have hpopped := hw.popAction g
    refine leads_perform_of hpopped (fun _ _ _ _ _ _ _ => ?_) (hpopped.dropChain g)
      (fun c _ hrunning => ?_) fun _ _ hw => hw.of_chainAt (fun _ => rfl) fun _ => rfl
    · exact hpopped.of_chainAt (fun _ => stateAt_modifyOutput fun _ => rfl)
        fun _ => chainAt_modifyOutput fun _ => rfl
    · have hg : states g = some .running := (hpopped.stateAt g).symm.trans hrunning
      have hdeliver := keeps_deliver Rests.of_standing (hwrite states)
      exact keeps_install_of_steps Rests.of_standing (fun _ i hw => hw.wake i)
        (fun _ h hw => hw.takeChain h) (fun _ i hw => hw.halt i)
        (fun h _ => keeps_flushGate Rests.of_standing hdeliver h)
        (fun l _ => hwrite states l.outputRef) (fun _ hw => hw.giveChain hg) _ hpopped

/-! ### Every run -/

/-- What becomes of an instance that is operated, if in between anything may happen to it but that
gates change their states or chains: receivers go away, records arrive, actions are queued. -/
inductive Reaches (w₀ : World σ ρ) : World σ ρ → Prop
  | start : Reaches w₀ w₀
  | operate {w : World σ ρ} (h : Reaches w₀ w) (o : GateOp ρ) : Reaches w₀ (o.apply w)
  | flush {w : World σ ρ} (h : Reaches w₀ w) (g : GateRef) : Reaches w₀ ((flush g).run.run w).2
  | elsewhere {w w' : World σ ρ} (h : Reaches w₀ w) (hstate : ∀ g, w'.stateAt g = w.stateAt g)
      (hchain : ∀ g, w'.chainAt g = w.chainAt g) : Reaches w₀ w'

theorem Reaches.after {w₀ w : World σ ρ} (h : Reaches w₀ w) (ops : List (GateOp ρ)) :
    Reaches w₀ (w.after ops) := by
  induction ops generalizing w with
  | nil => exact h
  | cons o rest ih => exact ih (h.operate o)

/-- Only running gates hold chains, and gates that were closed are closed. -/
structure RestsSince (w₀ w : World σ ρ) : Prop where
  held : ∀ g c, w.Holds g c → w.stateAt g = some .running
  closed : ∀ g, w₀.stateAt g = some .closed → w.stateAt g = some .closed

namespace RestsSince

variable {w₀ w w' : World σ ρ}

theorem rests (hw : RestsSince w₀ w) : Rests w.stateAt w := ⟨fun _ => rfl, hw.held⟩

theorem of_rests (hw : RestsSince w₀ w) (hw' : Rests w.stateAt w') : RestsSince w₀ w' where
  held g c hc := (hw'.stateAt g).trans (hw'.held g c hc)
  closed g hg := (hw'.stateAt g).trans (hw.closed g hg)

theorem of_keeps {α : Type} {x : Flow σ ρ α} (hw : RestsSince w₀ w)
    (hx : Keeps (Rests w.stateAt) x) : RestsSince w₀ (x.run.run w).2 :=
  hw.of_rests (hx w hw.rests).final

theorem leaveRunning (hw : RestsSince w₀ w) (g : GateRef) {state : GateState} :
    RestsSince w₀ ((leaveRunning g state).run.run w).2 := by
  suffices h : (Flow.leaveRunning g state).Leads w (fun _ => RestsSince w₀) (RestsSince w₀) from
    h.final
  refine leads_bind (leads_outputGate (fun gate hgate => ?_) hw)
  split_ifs with hstate
  · refine leads_bind (leads_modify (leads_bind (leads_modify ?_)))
    -- The gate had another state than `closed`, and has no chain in its new one.
    have hleft : RestsSince w₀
        ((w.modifyOutput g fun gate => { gate with state }).dropChain g) := by
      constructor
      · intro h c hc
        rcases (exchanges_dropChain _ g).holds hc with ⟨-, hnone⟩ | ⟨hgh, hold⟩
        · cases hnone
        · rw [stateAt_dropChain, stateAt_modifyOutput_state, if_neg hgh]
          have hkept : (w.modifyOutput g fun gate => { gate with state }).chainAt h = w.chainAt h :=
            chainAt_modifyOutput fun _ => rfl
          exact hw.held h c (hkept.symm.trans hold)
      · intro h hclosed
        have hold := hw.closed h hclosed
        have hgh : g ≠ h := by
          rintro rfl
          exact hstate (by simpa [stateAt, hgate] using hold)
        rwa [stateAt_dropChain, stateAt_modifyOutput_state, if_neg hgh]
    have hflush := attends_rests.keeps_flush g _ _ hleft.rests
    exact hflush.mono (fun _ _ => hleft.of_rests) fun _ => hleft.of_rests
  · exact leads_pure hw

theorem resume (hw : RestsSince w₀ w) (g : GateRef) : RestsSince w₀ (w.resume g).2 where
  held h c hc := by
    have hold : w.Holds h c := by rwa [Holds, chainAt_congr (control_resume w g)] at hc
    rw [stateAt_resume]
    split_ifs
    · rfl
    · exact hw.held h c hold
  closed h hclosed := by
    have hold := hw.closed h hclosed
    rw [stateAt_resume, if_neg, hold]
    rintro ⟨rfl, hsuspended⟩
    rw [hsuspended] at hold
    cases hold

theorem apply (hw : RestsSince w₀ w) (o : GateOp ρ) : RestsSince w₀ (o.apply w) := by
  cases o with
  | enqueue g a =>
    refine hw.of_rests (hw.rests.of_chainAt (fun _ => stateAt_enqueue a) ?_)
    exact (sameThreads_enqueue w g a).chainAt
  | write g record => exact hw.of_keeps (attends_rests.keeps_write g record _)
  | perform g => exact hw.of_keeps (attends_rests.keeps_performAll g _)
  | dropChain g => exact hw.of_rests (hw.rests.dropChain g)
  | suspend g => exact hw.leaveRunning g
  | close g => exact hw.leaveRunning g
  | resume g => exact hw.resume g
  | step task => exact hw.of_keeps (attends_rests.keeps_step task _)

end RestsSince

theorem Reaches.restsSince {w₀ w : World σ ρ} (hrun : Reaches w₀ w)
    (h₀ : ∀ g c, w₀.Holds g c → w₀.stateAt g = some .running) : RestsSince w₀ w := by
  induction hrun with
  | start => exact ⟨h₀, fun _ => id⟩
  | operate _ o ih => exact ih.apply o
  | flush _ g ih => exact ih.of_keeps (attends_rests.keeps_flush g _)
  | elsewhere _ hstate hchain ih => exact ih.of_rests (ih.rests.of_chainAt hstate hchain)

/-- A record that is written to a gate that does not run is refused, and nothing else happens. -/
theorem write_of_not_running {w : World σ ρ} {g : GateRef} {gate : OutputGate ρ}
    (hgate : w.output? g = some gate) (hstate : gate.state ≠ .running) (record : ρ) :
    (Flow.write g record).run.run w = (.error (.gateNotRunning gate.id gate.state), w) := by
  obtain ⟨depth, hdepth⟩ := exists_depth_eq w
  rw [Flow.write, run_withWriter, hdepth, writeWithin, run_writeOnce_of_not_running hgate hstate]

/-- **Gates that do not run rest.**  Whatever is done to an instance whose gates hold no chains at
first, and whatever becomes of it: a gate that does not run holds no chain, a closed gate stays
closed, resuming succeeds for suspended gates only and changes no other ones, and a gate that does
not run refuses records without any other effect. -/
theorem Reaches.states_kept {w₀ w w' : World σ ρ} (h₀ : ∀ g, w₀.chainAt g = none)
    (hw : Reaches w₀ w) (hw' : Reaches w w') :
    (∀ g gate, w.output? g = some gate → gate.state ≠ .running → gate.chain = none) ∧
    (∀ g, w.stateAt g = some .closed → w'.stateAt g = some .closed) ∧
    (∀ g, ((w.resume g).1 = true ↔ w.stateAt g = some .suspended) ∧
      (w.stateAt g ≠ some .suspended → (w.resume g).2 = w)) ∧
    ∀ g gate record, w.output? g = some gate → gate.state ≠ .running →
      (Flow.write g record).run.run w = (.error (.gateNotRunning gate.id gate.state), w) := by
  have hrests : RestsSince w₀ w := hw.restsSince fun g c hc => by simp [Holds, h₀ g] at hc
  refine ⟨?_, (hw'.restsSince hrests.held).closed, fun g => ⟨resume_iff, resume_of_not_suspended⟩,
    fun g gate record hgate hstate => write_of_not_running hgate hstate record⟩
  intro g gate hgate hstate
  by_contra hchain
  obtain ⟨c, hc⟩ := Option.ne_none_iff_exists'.mp hchain
  have hrunning := hrests.held g c (by simp [Holds, chainAt, hgate, hc])
  exact hstate (by simpa [stateAt, hgate] using hrunning)

/-- The task `a` is made the head of a chain with `b`, is closed, and is asked for a chain again. -/
def closeOps : List (GateOp ℕ) :=
  [.enqueue ⟨0, 0⟩ (.establishChain (joinChain 0 "a")), .perform ⟨0, 0⟩, .close ⟨0, 0⟩,
    .enqueue ⟨0, 0⟩ (.establishChain (joinChain 1 "a")), .perform ⟨0, 0⟩]

theorem states_kept_joinWorld : (∀ g, joinWorld.chainAt g = none) ∧
    ∃ w w', Reaches joinWorld w ∧ Reaches w w' ∧ ∃ gate, w.output? ⟨0, 0⟩ = some gate ∧
      gate.state = .closed ∧ gate.chain = none ∧ (w.resume ⟨0, 0⟩).1 = false ∧
        w'.stateAt ⟨0, 0⟩ = some .closed ∧
          (Flow.write ⟨0, 0⟩ 7).run.run w = (.error (.gateNotRunning gate.id .closed), w) := by
  have hw : Reaches joinWorld (joinWorld.after closeOps) := Reaches.start.after closeOps
  have hw' : Reaches (joinWorld.after closeOps)
      ((joinWorld.after closeOps).after [.resume ⟨0, 0⟩]) := Reaches.start.after _
  have hclosed : (joinWorld.after closeOps).stateAt ⟨0, 0⟩ = some .closed := by decide +kernel
  obtain ⟨gate, hgate, hstate⟩ := Option.map_eq_some_iff.mp hclosed
  have hne : gate.state ≠ .running := by simp [hstate]
  obtain ⟨hchain, hkept, hresume, hwrite⟩ := hw.states_kept isFresh_joinWorld.chainAt hw'
  refine ⟨isFresh_joinWorld.chainAt, _, _, hw, hw', gate, hgate, hstate, hchain _ gate hgate hne,
    ?_, hkept _ hclosed, ?_⟩
  · have hnot := (hresume ⟨0, 0⟩).1.not.mpr (by simp [hclosed])
    simpa using hnot
  · rw [← hstate]
    exact hwrite _ gate 7 hgate hne

end LatencyControl
