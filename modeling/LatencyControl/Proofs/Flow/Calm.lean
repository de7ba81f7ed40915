import LatencyControl.Proofs.Flow.Keeping

/-!
# Calm instances

A thread that works off at once what arrives writes to a gate, and the gate carries out what is
queued at it.  So when a gate sends its records, chains may come and go elsewhere.  Nothing of this
happens if threads wait for their turns, or if nothing is queued at any gate that the records come
to (`World.IsCalm`): then the records move on, and that is all (`keeps_flushGate_of_calm`).
-/

namespace LatencyControl

open LatencyControl.Flow World

variable {σ ρ : Type}

/-! ### Where records go -/

theorem Outlet.receivers_setTarget {outlet outlet' : Outlet ρ} {channel : ChannelId}
    {target : Int32} (h : outlet.setTarget channel target = .ok outlet') :
    outlet'.receivers = outlet.receivers := by
  cases outlet with
  | direct id receiver =>
    cases h
    rfl
  | channels bank =>
    simp only [setTarget] at h
    split at h
    · rename_i index _
      cases hl : bank.lanes[index]? with
      | none =>
        simp only [Bank.setTarget, hl] at h
        cases h
      | some l =>
        simp only [Bank.setTarget, hl] at h
        cases h
        exact map_modify_of_eq Lane.receiver fun _ _ => rfl
    · cases h
      rfl

namespace World

section

variable {w : World σ ρ} {g h i : GateRef}

theorem receiversAt_halt (w : World σ ρ) (i g : GateRef) :
    (w.halt i).2.receiversAt g = w.receiversAt g := by
  unfold halt
  split
  · simp [receiversAt]
  · rfl

theorem receiversAt_wake (w : World σ ρ) (i g : GateRef) :
    (w.wake i).2.receiversAt g = w.receiversAt g := by
  unfold wake
  split
  · simp [receiversAt]
  · rfl

theorem receiversAt_modifyOutput {f : OutputGate ρ → OutputGate ρ}
    (hf : ∀ gate, w.output? h = some gate → (f gate).outlet.receivers = gate.outlet.receivers) :
    (w.modifyOutput h f).receiversAt g = w.receiversAt g := by
  rw [receiversAt, output?_modifyOutput, receiversAt]
  split_ifs with hgh
  · subst hgh
    cases hgate : w.output? h <;> simp [hf, hgate]
  · rfl

theorem receiversAt_popAction (w : World σ ρ) (h g : GateRef) :
    (w.popAction h).2.receiversAt g = w.receiversAt g := by
  unfold popAction
  split
  · exact receiversAt_modifyOutput fun _ _ => rfl
  · rfl

/-- A target changes nothing about where records go. -/
theorem receiversAt_setTarget {gate : OutputGate ρ} {outlet : Outlet ρ} {channel : ChannelId}
    {target : Int32} (hgate : w.output? h = some gate)
    (houtlet : gate.outlet.setTarget channel target = .ok outlet) :
    (w.modifyOutput h fun gate => { gate with outlet }).receiversAt g = w.receiversAt g := by
  refine receiversAt_modifyOutput fun gate' hgate' => ?_
  obtain rfl : gate = gate' := Option.some.inj (hgate.symm.trans hgate')
  exact Outlet.receivers_setTarget houtlet

end

/-! ### Quiet gates -/

/-- The threads that an output gate sends records to write to gates of some kind. -/
def SendsTo (w : World σ ρ) (kind : GateRef → Prop) (g : GateRef) : Prop :=
  ∀ task, .task task ∈ w.receiversAt g → kind { task, gate := 0 }

/-- Nothing is queued at gates of some kind, and whatever is written to one of them comes to others
of this kind only, be it that a thread passes it on or a chain. -/
structure IsQuiet (w : World σ ρ) (kind : GateRef → Prop) : Prop where
  queuedAt : ∀ g, kind g → w.queuedAt g = []
  sends : ∀ g, kind g → w.SendsTo kind g
  links : ∀ g c, kind g → w.Holds g c → ∀ l ∈ c.links, kind l.outputRef

/-- Threads wait for their turns, or nothing is queued where the records of some gates come to. -/
def IsCalm (w : World σ ρ) (senders : List GateRef) : Prop :=
  w.isEager = false ∨ ∃ kind, w.IsQuiet kind ∧ ∀ g ∈ senders, w.SendsTo kind g

variable {w w' : World σ ρ} {kind : GateRef → Prop} {senders : List GateRef}

theorem IsQuiet.of_sameGates (hw : w.IsQuiet kind) (h : SameGates w w')
    (hreceivers : ∀ g, w'.receiversAt g = w.receiversAt g) : w'.IsQuiet kind where
  queuedAt g hg := (h.queuedAt g).trans (hw.queuedAt g hg)
  sends g hg task htask := hw.sends g hg task (hreceivers g ▸ htask)
  links g c hg hc := hw.links g c hg ((h.chainAt g).symm.trans hc)

theorem IsCalm.of_sameGates (hw : w.IsCalm senders) (h : SameGates w w')
    (hreceivers : ∀ g, w'.receiversAt g = w.receiversAt g) : w'.IsCalm senders := by
  refine hw.imp h.isEager.trans ?_
  rintro ⟨kind, hquiet, hsends⟩
  refine ⟨kind, hquiet.of_sameGates h hreceivers, fun g hg task htask => ?_⟩
  exact hsends g hg task (hreceivers g ▸ htask)

theorem isOfStanding_isCalm : IsOfStanding fun w : World σ ρ => w.IsCalm senders :=
  fun _ _ h hw => hw.of_sameGates (SameGates.of_control (control_congr h)) (receiversAt_congr h)

theorem IsCalm.halt (hw : w.IsCalm senders) (i : GateRef) : (w.halt i).2.IsCalm senders :=
  hw.of_sameGates (sameGates_halt w i) (receiversAt_halt w i)

end World

namespace Flow

variable {w : World σ ρ} {kind : GateRef → Prop} {senders : List GateRef} {g : GateRef}

/-- Writing to a quiet gate only moves records. -/
theorem keeps_writeWithin_of_quiet (hw : w.IsQuiet kind) (depth : ℕ) (hg : kind g) (record : ρ) :
    Keeps w.StandsAs (writeWithin depth g record) := by
  have hkeeps := isOfStanding_standsAs w
  induction depth generalizing g record with
  | zero => exact keeps_throw _
  | succ depth ih =>
    refine keeps_writeOnce_of hkeeps (keeps_writeChannel_of hkeeps ?_ record) ?_ ?_
    · intro w' hw' receiver hreceiver records
      refine keeps_deliver_of hkeeps fun task htask => ih (hw.sends g hg task ?_)
      rw [receiversAt_congr hw'] at hreceiver
      exact htask ▸ hreceiver
    · intro w' c hw' hc l hl record
      have hheld : w.Holds g c := (chainAt_congr (control_congr hw') g).symm.trans hc
      exact ih (hw.links g c hg hheld l hl) record
    · -- There is nothing to carry out.
      refine (keeps_outputGate g).bind fun _ => keeps_performQueued_of (fun w' a hw' ha => ?_) _
      have hmem : a ∈ w'.queuedAt g := mem_queuedAt_of_popAction ha
      rw [queuedAt_congr (control_congr hw'), hw.queuedAt g hg] at hmem
      exact absurd hmem List.not_mem_nil

/-- Threads that wait for their turns leave records where they arrive. -/
theorem keeps_deliver_lazy {write : GateRef → ρ → Flow σ ρ Unit} (hlazy : w.isEager = false)
    (s : Shipment ρ Receiver) : Keeps w.StandsAs (deliver write s) :=
  keeps_deliver_of_lazy (isOfStanding_standsAs w)
    (fun _ hw' => (isEager_congr (control_congr hw')).trans hlazy) s

section

variable (hw : w.IsCalm senders) (depth : ℕ) (hg : g ∈ senders)

include hw hg

theorem keeps_deliver_of_calm {receiver : Receiver} (hreceiver : receiver ∈ w.receiversAt g)
    (records : List ρ) :
    Keeps w.StandsAs (deliver (writeWithin depth) (receiver, records)) := by
  rcases hw with hlazy | ⟨kind, hquiet, hsends⟩
  · exact keeps_deliver_lazy hlazy _
  · refine keeps_deliver_of (isOfStanding_standsAs w) fun task htask => ?_
    exact keeps_writeWithin_of_quiet hquiet depth (hsends g hg task (htask ▸ hreceiver))

theorem keeps_flushGate_of_calm : Keeps w.StandsAs (flushGate (writeWithin depth) g) := by
  refine keeps_flushGate_of (isOfStanding_standsAs w) fun w' hw' receiver hreceiver => ?_
  exact keeps_deliver_of_calm hw depth hg (receiversAt_congr hw' g ▸ hreceiver)

theorem keeps_writeChannel_of_calm (record : ρ) (index : ℕ) :
    Keeps w.StandsAs (writeChannel (writeWithin depth) g record index) := by
  refine keeps_writeChannel_of (isOfStanding_standsAs w) (fun w' hw' receiver hreceiver => ?_)
    record index
  exact keeps_deliver_of_calm hw depth hg (receiversAt_congr hw' g ▸ hreceiver)

end

end Flow

end LatencyControl
