import LatencyControl.Proofs.Flow.InOrder

/-!
# Actions that arrive in the middle of a call

Any thread may queue an action at a gate, also while the gate is carrying out others.  A gate takes
off its queue whatever it finds there, until it finds nothing (`Flow.performNext`), so it carries
out such an action in the same call, unless it has looked for the last time already.

* `Flow.performPending` counts what is queued at its start.  `Flow.run_performPending` says that it
  nevertheless satisfies the equation of the loop: nothing can be queued in the middle of it, so it
  has looked often enough.
* `Flow.performArriving` is the loop with others that queue actions between two of its looks.  If
  nobody does, it is `Flow.performPending` (`Flow.run_performArriving_of_nil`).
* `Flow.performArriving_spec` says that everything is carried out in the order of its arrival, no
  matter when it came.  `InOrder.performArriving` is the same for a gate with a history, so a call
  in the middle of which actions arrive may stand anywhere in a run.
-/

namespace LatencyControl

open LatencyControl.Flow World

variable {σ ρ : Type} {g : GateRef} {w w' : World σ ρ}

/-! ### Several actions -/

/-- Queues some actions at an output gate, one after the other. -/
def World.enqueueAll (w : World σ ρ) (g : GateRef) (actions : List GateAction) : World σ ρ :=
  actions.foldl (fun w a => w.enqueue g a) w

theorem InOrder.enqueueAll {all : List GateAction} {targets : ChannelId → Option (Option Int32)}
    {busy : List Chain} (hw : InOrder g all targets busy w) (actions : List GateAction) :
    InOrder g (all ++ actions) targets busy (w.enqueueAll g actions) := by
  induction actions generalizing w all with
  | nil => rwa [List.append_nil]
  | cons a rest ih =>
    rw [← List.singleton_append, ← List.append_assoc]
    exact ih (hw.enqueue a)

namespace Flow

/-! ### Looking at the queue -/

/-- An output gate looks at its queue.  It carries out the first action that it finds there and goes
on, or it is done. -/
def performNext (write : GateRef → ρ → Flow σ ρ Unit) (g : GateRef) (goOn : Flow σ ρ Unit) :
    Flow σ ρ Unit := do
  match ← modifyGet (·.popAction g) with
  | none => return
  | some a =>
    perform write g a
    goOn

theorem run_performNext_of_nil {write : GateRef → ρ → Flow σ ρ Unit} {goOn : Flow σ ρ Unit}
    (hpop : (w.popAction g).1 = none) : (performNext write g goOn).run.run w = (.ok (), w) := by
  obtain ⟨-, hsame⟩ := popAction_of_none hpop
  rw [performNext, run_modifyGet_bind, hpop, hsame]
  rfl

theorem run_performNext_of_some {write : GateRef → ρ → Flow σ ρ Unit} {goOn : Flow σ ρ Unit}
    {a : GateAction} (hpop : (w.popAction g).1 = some a) :
    (performNext write g goOn).run.run w =
      (perform write g a >>= fun _ => goOn).run.run (w.popAction g).2 := by
  rw [performNext, run_modifyGet_bind, hpop]

variable {depth : ℕ}

/-- How a gate goes on only matters where less is queued than before. -/
theorem run_performNext_congr {goOn goOn' : Flow σ ρ Unit} (hg : w.hasOutput g = true)
    (h : ∀ w₂ : World σ ρ, w₂.hasOutput g = true →
      (w₂.queuedAt g).length < (w.queuedAt g).length → goOn.run.run w₂ = goOn'.run.run w₂) :
    (performNext (writeWithin depth) g goOn).run.run w =
      (performNext (writeWithin depth) g goOn').run.run w := by
  cases hpop : (w.popAction g).1 with
  | none => rw [run_performNext_of_nil hpop, run_performNext_of_nil hpop]
  | some a =>
    have hqueue : w.queuedAt g = a :: (w.popAction g).2.queuedAt g := queuedAt_popAction hpop
    have hthere : (w.popAction g).2.hasOutput g = true :=
      ((sameThreads_popAction w g).hasOutput g).trans hg
    rw [run_performNext_of_some hpop, run_performNext_of_some hpop]
    rcases hrun : (perform (writeWithin depth) g a).run.run (w.popAction g).2 with ⟨e | _, w₂⟩
    · rw [run_bind_of_error hrun, run_bind_of_error hrun]
    · -- The action itself may have taken off more of the queue, but it adds nothing.
      obtain ⟨hg₂, inner, hinner⟩ := exists_inner_of_perform hthere hrun
      have hfewer : (w₂.queuedAt g).length < (w.queuedAt g).length := by
        rw [hqueue, hinner, List.length_cons, List.length_append]
        omega
      rw [run_bind_of_ok hrun, run_bind_of_ok hrun]
      exact h w₂ hg₂ hfewer

/-- Looking once more than there are actions finds nothing. -/
theorem run_performQueued_succ {n : ℕ} (hg : w.hasOutput g = true)
    (hn : (w.queuedAt g).length ≤ n) :
    (performQueued (writeWithin depth) g (n + 1)).run.run w =
      (performQueued (writeWithin depth) g n).run.run w := by
  induction n generalizing w with
  | zero =>
    have hnone : (w.popAction g).1 = none := by
      by_contra hsome
      obtain ⟨a, ha⟩ := Option.ne_none_iff_exists'.mp hsome
      rw [queuedAt_popAction ha, List.length_cons] at hn
      omega
    exact run_performNext_of_nil hnone
  | succ n ih =>
    refine run_performNext_congr hg fun w₂ hg₂ hfewer => ?_
    exact ih hg₂ (by omega)

theorem run_performQueued {n : ℕ} (hg : w.hasOutput g = true) (hn : (w.queuedAt g).length ≤ n) :
    (performQueued (writeWithin depth) g n).run.run w =
      (performPending (writeWithin depth) g).run.run w := by
  obtain ⟨gate, hgate⟩ := Option.isSome_iff_exists.mp hg
  have hcount : w.queuedAt g = gate.pending := by simp [queuedAt, hgate]
  rw [performPending, run_outputGate_bind hgate, ← hcount]
  induction hn with
  | refl => rfl
  | step hn ih => exact (run_performQueued_succ hg hn).trans ih

/-- **A gate looks until it finds nothing.** -/
theorem run_performPending (hg : w.hasOutput g = true) :
    (performPending (writeWithin depth) g).run.run w =
      (performNext (writeWithin depth) g (performPending (writeWithin depth) g)).run.run w := by
  calc (performPending (writeWithin depth) g).run.run w
      = (performQueued (writeWithin depth) g ((w.queuedAt g).length + 1)).run.run w :=
        (run_performQueued hg (Nat.le_succ _)).symm
    _ = (performNext (writeWithin depth) g
          (performQueued (writeWithin depth) g (w.queuedAt g).length)).run.run w := rfl
    _ = _ := run_performNext_congr hg fun _ hg₂ hfewer =>
        run_performQueued hg₂ (Nat.le_of_lt hfewer)

/-! ### Arrivals -/

/-- An output gate carries out what is queued, while others queue actions: before each look at the
queue those that arrived since the last one, and none any more when the list is at its end. -/
def performArriving (write : GateRef → ρ → Flow σ ρ Unit) (g : GateRef) :
    List (List GateAction) → Flow σ ρ Unit
  | [] => performPending write g
  | arriving :: later => do
    modify (·.enqueueAll g arriving)
    performNext write g (performArriving write g later)

/-- If nothing arrives, nothing is different. -/
theorem run_performArriving_of_nil {arrivals : List (List GateAction)}
    (hnone : ∀ arriving ∈ arrivals, arriving = []) (hg : w.hasOutput g = true) :
    (performArriving (writeWithin depth) g arrivals).run.run w =
      (performPending (writeWithin depth) g).run.run w := by
  induction arrivals generalizing w with
  | nil => rfl
  | cons arriving later ih =>
    obtain ⟨rfl, hlater⟩ := List.forall_mem_cons.mp hnone
    rw [run_performPending hg, performArriving, run_modify_bind]
    exact run_performNext_congr hg fun _ hg₂ _ => ih hlater hg₂

end Flow

section

variable {depth : ℕ} {all : List GateAction} {targets : ChannelId → Option (Option Int32)}
  {arrivals : List (List GateAction)} {result : Except Error Unit}

/-- Whatever was queued before, the actions that arrive in the middle of a call come after it, and
all are carried out in this order.  A gate that gets through leaves nothing behind. -/
theorem InOrder.performArriving (hw : InOrder g all targets [] w)
    (hrun : (performArriving (writeWithin depth) g arrivals).run.run w = (result, w')) :
    ∃ looks, InOrder g (all ++ (arrivals.take looks).flatten) targets [] w' ∧
      (result = .ok () → w'.queuedAt g = []) := by
  have hwrite : ∀ all busy g' (record : ρ), Keeps (InOrder (σ := σ) g all targets busy)
      (writeWithin depth g' record) :=
    fun _ busy g' record => attends_inOrder.keeps_writeWithin depth busy g' record
  induction arrivals generalizing w all with
  | nil =>
    have hkept := leads_iff_run.mp (attends_inOrder.keeps_performPending (hwrite all) g [] w hw)
      result w' hrun
    refine ⟨0, by simpa using hkept, ?_⟩
    rintro rfl
    obtain ⟨steps, hsteps⟩ := exists_carriesOut_of_performPending hw.hasOutput hrun
    exact hsteps.queuedAt_of_ok
  | cons arriving later ih =>
    rw [Flow.performArriving, run_modify_bind] at hrun
    have hw₁ := hw.enqueueAll arriving
    -- The call may end with this look, because there is nothing or because an action fails.
    have hlast : (arriving :: later).take 1 = [arriving] := rfl
    cases hpop : ((w.enqueueAll g arriving).popAction g).1 with
    | none =>
      rw [run_performNext_of_nil hpop] at hrun
      cases hrun
      refine ⟨1, by rwa [hlast, List.flatten_singleton], fun _ => (popAction_of_none hpop).1⟩
    | some a =>
      rw [run_performNext_of_some hpop] at hrun
      have hperform := leads_iff_run.mp (attends_inOrder.leads_perform (hwrite _) hw₁ hpop)
      rcases run_bind_cases hrun with ⟨e, hfailed, rfl⟩ | ⟨_, w₂, hdone, hrest⟩
      · refine ⟨1, ?_, by rintro ⟨⟩⟩
        rw [hlast, List.flatten_singleton]
        exact hperform _ _ hfailed
      · obtain ⟨looks, hkept, hempty⟩ := ih (hperform _ _ hdone) hrest
        refine ⟨looks + 1, ?_, hempty⟩
        rwa [List.take_succ_cons, List.flatten_cons, ← List.append_assoc]

/-- A write hands its record over before it looks at the queue, so what arrives until then waits for
its turn as well. -/
theorem InOrder.handOver_performArriving {chain : Option Chain} {channels : List ℕ} {record : ρ}
    (hw : InOrder g all targets [] w)
    (hrun : (handOver (writeWithin depth) g chain channels record >>= fun _ =>
      Flow.performArriving (writeWithin depth) g arrivals).run.run w = (result, w')) :
    ∃ looks, InOrder g (all ++ (arrivals.take looks).flatten) targets [] w' ∧
      (result = .ok () → w'.queuedAt g = []) := by
  have hwrite : ∀ g' (record : ρ), Keeps (InOrder (σ := σ) g all targets [])
      (writeWithin depth g' record) :=
    fun g' record => attends_inOrder.keeps_writeWithin depth [] g' record
  have hchannel := keeps_writeChannel InOrder.of_standing
    (keeps_deliver InOrder.of_standing hwrite) g record
  have hover : Keeps (InOrder g all targets [])
      (handOver (writeWithin depth) g chain channels record) :=
    keeps_handOver InOrder.of_standing hchannel (fun _ _ l _ => hwrite l.outputRef) channels
  rcases run_bind_cases hrun with ⟨e, hfailed, rfl⟩ | ⟨_, w₁, hdone, hrest⟩
  · have hkept := leads_iff_run.mp (hover w hw) _ _ hfailed
    exact ⟨0, by simpa using hkept, by rintro ⟨⟩⟩
  · have hkept := leads_iff_run.mp (hover w hw) _ _ hdone
    exact hkept.performArriving hrest

/-- **Actions that arrive in the middle of a call are carried out in their turn.**  Those that are
carried out are the first ones of what was queued and what arrived before the looks that the gate
took; the others are queued, and none is if the gate gets through.  Each channel has the target that
the last of them gives it, and their chains have been dealt with. -/
theorem Flow.performArriving_spec (hg : w.hasOutput g = true)
    (hrun : (performArriving (writeWithin depth) g arrivals).run.run w = (result, w')) :
    ∃ looks carriedOut,
      w.queuedAt g ++ (arrivals.take looks).flatten = carriedOut ++ w'.queuedAt g ∧
      (result = .ok () → w'.queuedAt g = []) ∧
      (∀ channel, w'.targetOf g channel = (w.targetOf g channel).map fun target =>
        (GateAction.lastTarget? channel carriedOut).or target) ∧
      ∀ c, .establishChain c ∈ carriedOut → w'.isSignalled c.number = true := by
  have hstart : InOrder g (w.queuedAt g) (w.targetOf g) [] w := InOrder.of_queuedAt hg
  obtain ⟨looks, hend, hempty⟩ := hstart.performArriving hrun
  obtain ⟨carriedOut, hqueue, htargets, hchains⟩ := hend.exists_applied
  refine ⟨looks, carriedOut, hqueue, hempty, htargets, fun c hc => ?_⟩
  exact (hchains c hc).resolve_right List.not_mem_nil

end

/-- The second target arrives when the first one has been set, and is set in the same call. -/
example : ((performArriving (writeWithin 1) ⟨0, 0⟩ [[.setLifetimeTarget ⟨"a"⟩ 5],
    [.setLifetimeTarget ⟨"a"⟩ 1]]).run.run stuckStart).2.targetOf ⟨0, 0⟩ ⟨"a"⟩ = some (some 1) := by
  decide +kernel

end LatencyControl
