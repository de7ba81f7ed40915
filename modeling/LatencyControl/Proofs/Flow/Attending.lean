import LatencyControl.Proofs.Flow.Keeping

/-!
# Conditions that queued actions keep

A write may make others, to any depth, and each of them carries out what is queued at its gate.  So
whatever is kept by taking one action off a queue and performing it, no matter which writes that
makes, is kept by every write.  `Attends` is this one fact about some conditions.
-/

namespace LatencyControl.Flow

open World

variable {σ ρ : Type} {ι : Type}

/-- Conditions that are kept when a queued action is taken off its queue and performed, as long as
the writes that this makes keep them.  There may be several of them, as one may have to rely on
another one for a while. -/
structure Attends (P : ι → World σ ρ → Prop) : Prop where
  ofStanding : ∀ i, IsOfStanding (P i)
  leads_perform : ∀ {write : GateRef → ρ → Flow σ ρ Unit} {i w g a},
    (∀ i g record, Keeps (P i) (write g record)) → P i w → (w.popAction g).1 = some a →
      (perform write g a).Leads (w.popAction g).2 (fun _ => P i) (P i)

namespace Attends

variable {P : ι → World σ ρ → Prop} (hP : Attends P)

include hP

section

variable {write : GateRef → ρ → Flow σ ρ Unit}
  (hwrite : ∀ i g record, Keeps (P i) (write g record))

include hwrite

theorem keeps_performPending (g : GateRef) (i : ι) : Keeps (P i) (performPending write g) :=
  (keeps_outputGate g).bind fun _ =>
    keeps_performQueued_of (fun _ _ => hP.leads_perform hwrite) _

theorem keeps_writeOnce (g : GateRef) (record : ρ) (i : ι) :
    Keeps (P i) (writeOnce write g record) := by
  have hdeliver := keeps_deliver (hP.ofStanding i) (hwrite i)
  refine keeps_writeOnce_of (hP.ofStanding i)
    (keeps_writeChannel (hP.ofStanding i) hdeliver g record) ?_
    (hP.keeps_performPending hwrite g i)
  exact fun _ _ _ _ l _ => hwrite i l.outputRef

end

/-- However deep writes are made inside each other, they keep the conditions. -/
theorem keeps_writeWithin (depth : ℕ) (i : ι) (g : GateRef) (record : ρ) :
    Keeps (P i) (writeWithin depth g record) := by
  induction depth generalizing i g record with
  | zero => exact keeps_throw _
  | succ depth ih => exact hP.keeps_writeOnce ih g record i

theorem keeps_withWriter {α : Type} {x : (GateRef → ρ → Flow σ ρ Unit) → Flow σ ρ α} (i : ι)
    (hx : ∀ write, (∀ i g record, Keeps (P i) (write g record)) → Keeps (P i) (x write)) :
    Keeps (P i) (withWriter x) :=
  keeps_get.bind fun w => hx _ (hP.keeps_writeWithin w.depth)

theorem keeps_write (g : GateRef) (record : ρ) (i : ι) :
    Keeps (P i) (Flow.write g record : Flow σ ρ Unit) :=
  hP.keeps_withWriter i fun _ hwrite => hwrite i g record

theorem keeps_performAll (g : GateRef) (i : ι) : Keeps (P i) (performAll g : Flow σ ρ Unit) :=
  hP.keeps_withWriter i fun _ hwrite => hP.keeps_performPending hwrite g i

theorem keeps_flush (g : GateRef) (i : ι) : Keeps (P i) (flush g : Flow σ ρ Unit) := by
  refine hP.keeps_withWriter i fun write hwrite => ?_
  exact keeps_flushGate (hP.ofStanding i) (keeps_deliver (hP.ofStanding i) (hwrite i)) g

theorem keeps_step (task : ℕ) (i : ι) : Keeps (P i) (step task : Flow σ ρ Unit) :=
  hP.keeps_withWriter i fun _ hwrite => keeps_giveTurn (hP.ofStanding i) (hwrite i _) 1

/-- A gate that leaves the running state changes its state and gives up its chain; in between, the
condition need not hold. -/
theorem keeps_leaveRunning_of {g : GateRef} {state : GateState} {i : ι}
    (hleave : ∀ w gate, P i w → w.output? g = some gate → gate.state ≠ .closed →
      P i ((w.modifyOutput g fun gate => { gate with state }).dropChain g)) :
    Keeps (P i) (leaveRunning g state : Flow σ ρ Unit) := by
  intro w hw
  refine leads_bind (leads_outputGate ?_ hw)
  intro gate hgate
  split_ifs with hstate
  · refine leads_bind (leads_modify (leads_bind (leads_modify ?_)))
    exact hP.keeps_flush g i _ (hleave w gate hw hgate hstate)
  · exact leads_pure hw

end Attends

end LatencyControl.Flow
