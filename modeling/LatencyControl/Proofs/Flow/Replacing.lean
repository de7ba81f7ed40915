import LatencyControl.Proofs.Flow.Rollback
import Mathlib.Data.List.Induction

/-!
# Chains that are replaced

When a gate becomes the head of a chain, it gives up the chain that it had, and so do the output
gates of the new links.  A chain that goes wakes those of its links that the new one does not take
over, and which these are is decided by member, although it is the gates of tasks that are halted.
`World.isHalted_replaced` says exactly which gates come out halted.

That is said of the moment at which the chains change hands.  Before it the new links come to rest,
and after it the records that are queued at them pass through the chain, and other things may happen
meanwhile.  If nothing does, the installation as a whole halts the new links and otherwise does what
the replacement does (`Flow.Establishes.of_isQuietFor`).
-/

namespace LatencyControl

open LatencyControl.Flow World

variable {σ ρ : Type}

/-! ### Chains that make room -/

namespace World

variable {w w' w'' : World σ ρ} {c : Chain} {gates : List GateRef} {g : GateRef}

/-- Some output gates have given up their chains, for the sake of another one. -/
structure MakesRoom (w w' : World σ ρ) (c : Chain) (gates : List GateRef) : Prop where
  isHalted : ∀ i, w'.isHalted i = true ↔
    w.isHalted i = true ∧ ∀ h ∈ gates, ∀ q, w.Holds h q → i ∉ q.released c
  chainAt : ∀ h, w'.chainAt h = if h ∈ gates then none else w.chainAt h

/-- One more gate gives up its chain; if it has given it up before, there is nothing to wake. -/
theorem MakesRoom.isHalted_exchange (h : MakesRoom w w' c gates) {new : Option Chain}
    (hx : Exchanges w' w'' g new fun q => q.released c) (i : GateRef) :
    w''.isHalted i = true ↔
      w.isHalted i = true ∧ ∀ h ∈ g :: gates, ∀ q, w.Holds h q → i ∉ q.released c := by
  rw [hx.isHalted, h.isHalted, and_assoc]
  refine and_congr_right fun _ => ?_
  constructor
  · rintro ⟨hbefore, hlast⟩ h' hh' q hq
    by_cases hold : h' ∈ gates
    · exact hbefore h' hold q hq
    · obtain rfl := (List.mem_cons.mp hh').resolve_right hold
      refine hlast q ?_
      rwa [Holds, h.chainAt, if_neg hold]
  · intro hall
    refine ⟨fun h' hh' => hall h' (List.mem_cons_of_mem g hh'), fun q hq => ?_⟩
    rw [Holds, h.chainAt] at hq
    split_ifs at hq
    exact hall g List.mem_cons_self q hq

theorem MakesRoom.cons (h : MakesRoom w w' c gates)
    (hx : Exchanges w' w'' g none fun q => q.released c) : MakesRoom w w'' c (g :: gates) where
  isHalted := h.isHalted_exchange hx
  chainAt h' := by
    rw [hx.chainAt, h.chainAt]
    by_cases hgh : g = h'
    · rw [if_pos hgh, if_pos (hgh ▸ List.mem_cons_self)]
    · rw [if_neg hgh]
      exact if_congr (List.mem_cons.trans (or_iff_right (Ne.symm hgh))).symm rfl rfl

/-- The order of the gates does not matter. -/
theorem MakesRoom.congr {gates' : List GateRef} (h : MakesRoom w w' c gates)
    (hgates : ∀ g, g ∈ gates' ↔ g ∈ gates) : MakesRoom w w' c gates' where
  isHalted i := by simp only [hgates, h.isHalted]
  chainAt g := by simp only [hgates, h.chainAt]

theorem makesRoom_dissolve (w : World σ ρ) (c : Chain) :
    MakesRoom w (w.dissolve c) c c.outputs := by
  unfold dissolve Chain.outputs
  -- the links are gone through from the first one on
  induction c.links using List.reverseRecOn with
  | nil => exact ⟨fun i => by simp, fun h => by simp⟩
  | append_singleton rest l ih =>
    rw [List.foldl_concat]
    refine (ih.cons (exchanges_release _ l.outputRef c)).congr fun g => ?_
    rw [List.map_append, List.mem_append, List.mem_cons, or_comm]
    simp

/-- **What is halted after a replacement**: what was halted before and is not released by the chain
of the gate or of one of the new links. -/
theorem isHalted_replaced (hg : w.hasOutput g = true) (c : Chain) (i : GateRef) :
    ((w.dissolve c).replaceChain g c).isHalted i = true ↔
      w.isHalted i = true ∧ ∀ h ∈ g :: c.outputs, ∀ q, w.Holds h q → i ∉ q.released c := by
  have hthere : (w.dissolve c).hasOutput g = true := (hasOutput_dissolve w c).trans hg
  exact (makesRoom_dissolve w c).isHalted_exchange (exchanges_replaceChain hthere c) i

end World

/-! ### The course of an installation -/

namespace Flow

variable {write : GateRef → ρ → Flow σ ρ Unit} {w w₁ w₂ w' : World σ ρ} {g : GateRef} {c : Chain}

/-- An output gate becomes the head of a chain: the links come to rest, then the chains change
hands, and then what is queued at the links passes through the chain. -/
structure Establishes (write : GateRef → ρ → Flow σ ρ Unit) (g : GateRef) (c : Chain)
    (w w₁ w₂ w' : World σ ρ) : Prop where
  prepared : (prepare write g c).run.run w = (.ok (), w₁)
  replaced : w₂ = (w₁.dissolve c).replaceChain g c
  drained : ∃ w₃, (drainLinks write c c.links.zipIdx.reverse).run.run w₂ = (.ok (), w₃) ∧
    w' = w₃.signal c

/-- The course of an installation that gets through. -/
theorem exists_establishes (hrunning : w.stateAt g = some .running)
    (hrun : (perform write g (.establishChain c)).run.run w = (.ok (), w')) :
    ∃ w₁ w₂, Establishes write g c w w₁ w₂ w' := by
  obtain ⟨gate, hgate, hstate⟩ := Option.map_eq_some_iff.mp hrunning
  rcases hinstall : (install write g c).run.run w with ⟨result, w₃⟩
  have hestablish : (establish write g c).run.run w = (.ok (), w') := hrun
  rw [run_establish hgate hstate hinstall] at hestablish
  obtain ⟨rfl, rfl⟩ := Prod.mk.inj hestablish
  rw [install_eq] at hinstall
  rcases run_bind_cases hinstall with ⟨e, -, hfailed⟩ | ⟨⟨⟩, w₁, hprepare, htake⟩
  · cases hfailed
  rcases hdrain : (drainLinks write c c.links.zipIdx.reverse).run.run
    ((w₁.dissolve c).replaceChain g c) with ⟨e | ⟨⟩, w₂⟩
  · rw [run_takeOver_of_error hdrain] at htake
    cases htake
  · rw [takeOver, run_modify_bind, run_modify_bind, run_attempt_bind hdrain] at htake
    cases htake
    exact ⟨w₁, _, hprepare, rfl, _, hdrain, rfl⟩

/-! ### The first part -/

/-- What each of its steps keeps, the first part of an installation keeps. -/
theorem keeps_prepare {P : World σ ρ → Prop} (hhalt : ∀ w i, P w → P (w.halt i).2)
    (hwake : ∀ w i, P w → P (w.wake i).2)
    (hflush : ∀ h ∈ g :: c.outputs, Keeps P (flushGate write h)) : Keeps P (prepare write g c) := by
  obtain ⟨hfirst, houtputs⟩ := List.forall_mem_cons.mp hflush
  refine hfirst.bind fun _ => (keeps_outputGate g).bind fun gate => ?_
  have hlinks : ∀ l ∈ c.links, Keeps P (flushGate write l.outputRef) :=
    fun l hl => houtputs l.outputRef (List.mem_map_of_mem hl)
  refine Keeps.bind (fun w hw => ?_) ?_
  · exact (leads_haltLinks_of_steps hhalt hlinks gate.timeout hw).mono (fun _ _ => id)
      fun _ hfalse => hfalse.elim
  · rintro ⟨result, halted⟩
    cases result with
    | ok _ => exact keeps_pure _
    | error e =>
      refine (keeps_modify fun w hw => ?_).bind fun _ => keeps_throw e
      exact wakeLinks_of_steps hwake halted hw

end Flow

/-! ### Chains that are taken and given -/

namespace World

variable {w w' : World σ ρ} {c q : Chain} {g h : GateRef}

theorem holds_of_takeChain (hq : (w.takeChain g).2.Holds h q) : w.Holds h q := by
  have hx : Exchanges w (w.takeChain g).2 g none fun _ => [] := exchanges_modifyOutput (.inr rfl)
  rcases hx.holds hq with ⟨-, hnone⟩ | ⟨-, hold⟩
  · cases hnone
  · exact hold

theorem holds_of_giveChain
    (hq : (w.modifyOutput g fun gate => { gate with chain := some c }).Holds h q) :
    q = c ∨ w.Holds h q := by
  rw [Holds, chainAt, output?_modifyOutput] at hq
  split_ifs at hq
  · cases hgate : w.output? h with
    | none =>
      rw [hgate] at hq
      cases hq
    | some gate =>
      rw [hgate] at hq
      exact .inl (Option.some.inj hq).symm
  · exact .inr hq

/-! ### If nothing else happens -/

/-- Nothing is queued wherever records come to that an output gate sends, or that pass through the
links of a chain. -/
structure IsQuietFor (kind : GateRef → Prop) (g : GateRef) (c : Chain) (w : World σ ρ) : Prop where
  quiet : w.IsQuiet kind
  sends : w.SendsTo kind g
  outputs : ∀ h ∈ c.outputs, kind h

variable {kind : GateRef → Prop}

theorem IsQuietFor.isCalm (hw : w.IsQuietFor kind g c) : w.IsCalm (g :: c.outputs) :=
  .inr ⟨kind, hw.quiet, List.forall_mem_cons.mpr
    ⟨hw.sends, fun h hh => hw.quiet.sends h (hw.outputs h hh)⟩⟩

/-- Queues may get shorter, and chains may go or come from the links. -/
theorem IsQuietFor.of_holds (hw : w.IsQuietFor kind g c)
    (hqueued : ∀ h, ∀ a ∈ w'.queuedAt h, a ∈ w.queuedAt h)
    (hreceivers : ∀ h, w'.receiversAt h = w.receiversAt h)
    (hholds : ∀ h q, w'.Holds h q → q = c ∨ w.Holds h q) : w'.IsQuietFor kind g c where
  quiet :=
    { queuedAt := fun h hh => List.eq_nil_iff_forall_not_mem.mpr fun a ha => by
        have hold := hqueued h a ha
        rw [hw.quiet.queuedAt h hh] at hold
        exact List.not_mem_nil hold
      sends := fun h hh task htask => hw.quiet.sends h hh task (hreceivers h ▸ htask)
      links := fun h q hh hq l hl => by
        rcases hholds h q hq with rfl | hold
        · exact hw.outputs _ (List.mem_map_of_mem hl)
        · exact hw.quiet.links h q hh hold l hl }
  sends task htask := hw.sends task (hreceivers g ▸ htask)
  outputs := hw.outputs

theorem IsQuietFor.of_sameGates (hw : w.IsQuietFor kind g c) (h : SameGates w w')
    (hreceivers : ∀ g, w'.receiversAt g = w.receiversAt g) : w'.IsQuietFor kind g c :=
  hw.of_holds (fun g a ha => by rwa [h.queuedAt] at ha) hreceivers
    fun g _ hq => .inr ((h.chainAt g).symm.trans hq)

theorem isOfStanding_isQuietFor : IsOfStanding fun w : World σ ρ => w.IsQuietFor kind g c :=
  fun _ _ h hw => hw.of_sameGates (SameGates.of_control (control_congr h)) (receiversAt_congr h)

theorem IsQuietFor.halt (hw : w.IsQuietFor kind g c) (i : GateRef) :
    (w.halt i).2.IsQuietFor kind g c :=
  hw.of_sameGates (sameGates_halt w i) (receiversAt_halt w i)

theorem IsQuietFor.wake (hw : w.IsQuietFor kind g c) (i : GateRef) :
    (w.wake i).2.IsQuietFor kind g c :=
  hw.of_sameGates (sameGates_wake w i) (receiversAt_wake w i)

theorem IsQuietFor.popAction (hw : w.IsQuietFor kind g c) (h : GateRef) :
    (w.popAction h).2.IsQuietFor kind g c :=
  hw.of_holds (fun _ _ => mem_queuedAt_popAction) (receiversAt_popAction w h)
    fun h' _ hq => .inr (((sameThreads_popAction w h).chainAt h').symm.trans hq)

theorem IsQuietFor.takeChain (hw : w.IsQuietFor kind g c) (h : GateRef) :
    (w.takeChain h).2.IsQuietFor kind g c :=
  hw.of_holds (fun _ _ ha => by rwa [World.takeChain, queuedAt_modifyOutput_chain] at ha)
    (fun _ => receiversAt_modifyOutput fun _ _ => rfl) fun _ _ hq => .inr (holds_of_takeChain hq)

theorem IsQuietFor.giveChain (hw : w.IsQuietFor kind g c) (h : GateRef) :
    (w.modifyOutput h fun gate => { gate with chain := some c }).IsQuietFor kind g c :=
  hw.of_holds (fun _ _ ha => by rwa [queuedAt_modifyOutput_chain] at ha)
    (fun _ => receiversAt_modifyOutput fun _ _ => rfl) fun _ _ => holds_of_giveChain

end World

namespace Flow

variable {w w₁ w₂ w' : World σ ρ} {g : GateRef} {c : Chain} {kind : GateRef → Prop} {depth : ℕ}

/-- If nothing else happens, the links are halted in the first part of an installation, and nothing
is halted or woken in its last. -/
theorem Establishes.of_isQuietFor (h : Establishes (writeWithin depth) g c w w₁ w₂ w')
    (hw : w.IsQuietFor kind g c) : (∀ h, w₁.chainAt h = w.chainAt h) ∧
      (∀ i, w₁.isHalted i = true ↔ w.isHalted i = true ∨ i ∈ c.inputs) ∧
        ∀ i, w'.isHalted i = w₂.isHalted i := by
  obtain ⟨hsame, hhalted⟩ := (leads_prepare hw.isCalm depth).of_ok h.prepared
  have hkeeps : Keeps (fun w : World σ ρ => w.IsQuietFor kind g c)
      (prepare (writeWithin depth) g c) := by
    refine keeps_prepare (fun _ i hw => hw.halt i) (fun _ i hw => hw.wake i) fun h hh w hw => ?_
    exact (keeps_flushGate_of_calm hw.isCalm depth hh w rfl).mono
      (fun _ _ hw' => isOfStanding_isQuietFor hw' hw) fun _ hw' => isOfStanding_isQuietFor hw' hw
  have hw₁ : w₁.IsQuietFor kind g c := (hkeeps w hw).of_ok h.prepared
  have hw₂ : w₂.IsQuietFor kind g c := by
    have hroom := dissolve_of_steps (P := fun w : World σ ρ => w.IsQuietFor kind g c)
      (fun _ i hw => hw.wake i) (fun _ h hw => hw.takeChain h) c hw₁
    rw [h.replaced]
    exact wakeLinks_of_steps (P := fun w : World σ ρ => w.IsQuietFor kind g c)
      (fun _ i hw => hw.wake i) _ ((hroom.takeChain g).giveChain g)
  obtain ⟨w₃, hdrain, rfl⟩ := h.drained
  -- what is drained comes out at gates that have nothing to carry out
  have hstill : w₂.StandsAs w₃ := by
    have hdrains := keeps_drainLinks (isOfStanding_standsAs w₂)
      (fun l hl => keeps_writeWithin_of_quiet hw₂.quiet depth
        (hw₂.outputs l.outputRef (List.mem_map_of_mem hl))) c.links.zipIdx.reverse
    exact (hdrains w₂ rfl).of_ok hdrain
  refine ⟨hsame.chainAt, hhalted, fun i => ?_⟩
  rw [isHalted_congr (control_signal w₃ c), isHalted_congr (control_congr hstill)]

end Flow

end LatencyControl
