import LatencyControl.Proofs.Flow.Queue

/-!
# Actions in the order of their arrival

Actions may be queued at a gate at any time; it carries them out when a record has been written to
it, or when it is asked to.  However these things follow each other, the actions are carried out in
the order in which they were queued, and each of them once (`Attended.acts_in_order`).

`CarriesOut` and `Writes` say what a single call does.  A write may come back to the gate that it
started from, if a chain that is held or queued leads there; then the inner write carries out
actions in the middle of the outer one.  So both relations also say which actions these are, and
there are none of them if records come to later gates only (`World.LeadsOn`).
-/

namespace LatencyControl

open LatencyControl.Flow World

variable {σ ρ : Type}

/-! ### Single calls -/

namespace Flow

section

variable (write : GateRef → ρ → Flow σ ρ Unit) (g : GateRef)

/-- An output gate carries out what is queued, action by action, up to the first one that fails.
Each action comes with those that writes to the same gate carry out in the course of it. -/
inductive CarriesOut : List (GateAction × List GateAction) → World σ ρ → Except Error Unit →
    World σ ρ → Prop
  | done {w : World σ ρ} (hqueue : w.queuedAt g = []) : CarriesOut [] w (.ok ()) w
  | next {a : GateAction} {inner : List GateAction} {steps : List (GateAction × List GateAction)}
      {w w₁ w₂ w' : World σ ρ} {result : Except Error Unit} (hpop : w.popAction g = (some a, w₁))
      (hrun : (perform write g a).run.run w₁ = (.ok (), w₂))
      (hinner : w₁.queuedAt g = inner ++ w₂.queuedAt g) (hrest : CarriesOut steps w₂ result w') :
      CarriesOut ((a, inner) :: steps) w result w'
  | stop {a : GateAction} {inner : List GateAction} {w w₁ w₂ : World σ ρ} {e : Error}
      (hpop : w.popAction g = (some a, w₁))
      (hrun : (perform write g a).run.run w₁ = (.error e, w₂))
      (hinner : w₁.queuedAt g = inner ++ w₂.queuedAt g) :
      CarriesOut [(a, inner)] w (.error e) w₂

/-- A running gate hands a record over to the chain that it holds, or else to channels, before it
looks at its queue.  In a calm instance everything stands as it did until the record is in the last
channel; inner writes may have carried out some actions otherwise. -/
structure HandsOver (record : ρ) (w w' : World σ ρ) (inner : List GateAction)
    (result : Except Error Unit) : Prop where
  exists_run : ∃ gate channels w₁, w.output? g = some gate ∧ gate.state = .running ∧
    w₁.standing = w.standing ∧
      (handOver write g gate.chain channels record).run.run w₁ = (result, w') ∧
        (w.IsCalm [g] → ∀ before after, channels = before ++ after → ∀ w₂,
          (before.forM (writeChannel write g record)).run.run w₁ = (.ok (), w₂) →
            w.StandsAs w₂)
  queuedAt : w.queuedAt g = inner ++ w'.queuedAt g

/-- A record is refused by a gate that does not run; or it does not get through; or it has been
handed over, and then the gate carries out what is queued. -/
inductive Writes (record : ρ) (w : World σ ρ) : List GateAction →
    List (GateAction × List GateAction) → Except Error Unit → World σ ρ → Prop
  | refused {gate : OutputGate ρ} (hgate : w.output? g = some gate)
      (hstate : gate.state ≠ .running) :
      Writes record w [] [] (.error (.gateNotRunning gate.id gate.state)) w
  | stopped {inner : List GateAction} {e : Error} {w' : World σ ρ}
      (hover : HandsOver write g record w w' inner (.error e)) :
      Writes record w inner [] (.error e) w'
  | handedOver {inner : List GateAction} {steps : List (GateAction × List GateAction)}
      {result : Except Error Unit} {w₁ w' : World σ ρ}
      (hover : HandsOver write g record w w₁ inner (.ok ()))
      (hacts : CarriesOut write g steps w₁ result w') : Writes record w inner steps result w'

end

variable {write : GateRef → ρ → Flow σ ρ Unit} {g : GateRef} {w w' : World σ ρ}
  {steps : List (GateAction × List GateAction)} {result : Except Error Unit}

/-- All actions that are carried out were queued in front of those that are still queued. -/
theorem CarriesOut.queuedAt_eq (h : CarriesOut write g steps w result w') :
    w.queuedAt g = (steps.flatMap fun step => step.1 :: step.2) ++ w'.queuedAt g := by
  have hfirst : ∀ {w w₁ : World σ ρ} {a}, w.popAction g = (some a, w₁) →
      w.queuedAt g = a :: w₁.queuedAt g := by
    intro w w₁ a hpop
    have hqueue := queuedAt_popAction (w := w) (g := g) (congrArg Prod.fst hpop)
    rwa [hpop] at hqueue
  induction h with
  | done hqueue => simp
  | next hpop _ hinner _ ih => simp [hfirst hpop, hinner, ih]
  | stop hpop _ hinner => simp [hfirst hpop, hinner]

theorem CarriesOut.queuedAt_of_ok (h : CarriesOut write g steps w (.ok ()) w') :
    w'.queuedAt g = [] := by
  generalize hresult : Except.ok () = result at h
  induction h with
  | done hqueue => exact hqueue
  | next _ _ _ _ ih => exact ih hresult
  | stop => cases hresult

/-- What is kept of the queue by an action that is performed. -/
theorem exists_inner_of_perform {depth : ℕ} {a : GateAction} (hg : w.hasOutput g = true)
    (hrun : (perform (writeWithin depth) g a).run.run w = (result, w')) :
    w'.hasOutput g = true ∧ ∃ inner, w.queuedAt g = inner ++ w'.queuedAt g := by
  by_cases ha : ∀ channel, a.targetFor? channel = none
  · have hwrite := attends_inOrder.keeps_writeWithin (σ := σ) (ρ := ρ)
      (P := InOrder g (w.queuedAt g) (w.targetOf g)) depth []
    have hkept := leads_iff_run.mp (keeps_perform_inOrder hwrite (fun _ => ha) w
      (InOrder.of_queuedAt hg)) result w' hrun
    obtain ⟨applied, hqueue, -, -⟩ := hkept.exists_applied
    exact ⟨hkept.hasOutput, applied, hqueue⟩
  · -- Only the outlet of the gate is replaced.
    cases a with
    | setLifetimeTarget channel target =>
      obtain ⟨gate, hgate⟩ := Option.isSome_iff_exists.mp hg
      obtain ⟨outlet, houtlet, -, -⟩ := gate.outlet.setTarget_eq_ok channel target
      rw [run_perform_setLifetimeTarget hgate houtlet] at hrun
      cases hrun
      refine ⟨(hasOutput_modifyOutput _).trans hg, [], ?_⟩
      simp [queuedAt, output?_modifyOutput, hgate]
    | _ => exact absurd (fun _ => rfl) ha

/-- What is performed is what is queued at the beginning, so nothing is left over if all of it gets
through. -/
theorem exists_carriesOut_of_performQueued {depth n : ℕ} (hg : w.hasOutput g = true)
    (hn : (w.queuedAt g).length ≤ n)
    (hrun : (performQueued (writeWithin depth) g n).run.run w = (result, w')) :
    ∃ steps, CarriesOut (writeWithin depth) g steps w result w' := by
  induction n generalizing w with
  | zero =>
    cases hrun
    exact ⟨[], .done (List.length_eq_zero_iff.mp (Nat.le_zero.mp hn))⟩
  | succ n ih =>
    rw [performQueued, run_modifyGet_bind] at hrun
    rcases hpop : w.popAction g with ⟨_ | a, w₁⟩
    · obtain ⟨hqueue, hsame⟩ := popAction_of_none (congrArg Prod.fst hpop)
      rw [hpop] at hrun hsame
      obtain rfl : w₁ = w := hsame
      cases hrun
      exact ⟨[], .done hqueue⟩
    · rw [hpop] at hrun
      have hqueue : w.queuedAt g = a :: w₁.queuedAt g := by
        rw [queuedAt_popAction (congrArg Prod.fst hpop), hpop]
      have hg₁ : w₁.hasOutput g = true := by
        rw [← hg, ← (sameThreads_popAction w g).hasOutput, hpop]
      rcases run_bind_cases hrun with ⟨e, hperform, rfl⟩ | ⟨_, w₂, hperform, hrest⟩
      · obtain ⟨-, inner, hinner⟩ := exists_inner_of_perform hg₁ hperform
        exact ⟨_, .stop hpop hperform hinner⟩
      · obtain ⟨hg₂, inner, hinner⟩ := exists_inner_of_perform hg₁ hperform
        have hshort : (w₂.queuedAt g).length ≤ n := by
          rw [hqueue, hinner, List.length_cons, List.length_append] at hn
          omega
        obtain ⟨steps, hsteps⟩ := ih hg₂ hshort hrest
        exact ⟨_, .next hpop hperform hinner hsteps⟩

theorem exists_carriesOut_of_performPending {depth : ℕ} (hg : w.hasOutput g = true)
    (hrun : (performPending (writeWithin depth) g).run.run w = (result, w')) :
    ∃ steps, CarriesOut (writeWithin depth) g steps w result w' := by
  obtain ⟨gate, hgate⟩ := Option.isSome_iff_exists.mp hg
  rw [performPending, run_outputGate_bind hgate] at hrun
  exact exists_carriesOut_of_performQueued hg (by simp [queuedAt, hgate]) hrun

/-- What is kept of the queue by a record that is handed over. -/
theorem exists_inner_of_handOver {depth : ℕ} {chain : Option Chain} {channels : List ℕ}
    {record : ρ} (hg : w.hasOutput g = true)
    (hrun : (handOver (writeWithin depth) g chain channels record).run.run w = (result, w')) :
    w'.hasOutput g = true ∧ ∃ inner, w.queuedAt g = inner ++ w'.queuedAt g := by
  have hwrite := attends_inOrder.keeps_writeWithin (σ := σ) (ρ := ρ) (P := InOrder g (w.queuedAt g)
    (w.targetOf g)) depth []
  have hover : Keeps (InOrder g (w.queuedAt g) (w.targetOf g) [])
      (handOver (writeWithin depth) g chain channels record) :=
    keeps_handOver InOrder.of_standing
      (keeps_writeChannel InOrder.of_standing (keeps_deliver InOrder.of_standing hwrite) g record)
      (fun c _ l _ => hwrite l.outputRef) channels
  have hkept := leads_iff_run.mp (hover w (InOrder.of_queuedAt hg)) result w' hrun
  obtain ⟨applied, hqueue, -, -⟩ := hkept.exists_applied
  exact ⟨hkept.hasOutput, applied, hqueue⟩

/-- While a record is written to channels of a gate, nothing else happens in a calm instance. -/
theorem standsAs_of_writeChannels {depth : ℕ} {w₁ : World σ ρ} {record : ρ} {channels : List ℕ}
    (hcalm : w.IsCalm [g])
    (hrun : (channels.forM (writeChannel (writeWithin depth) g record)).run.run w = (.ok (), w₁)) :
    w.StandsAs w₁ := by
  have hchannel := keeps_writeChannel_of_calm hcalm depth List.mem_cons_self record
  exact leads_iff_run.mp (keeps_forM hchannel channels w rfl) _ w₁ hrun

/-- How a write goes. -/
theorem exists_writes {depth : ℕ} {record : ρ} (hg : w.hasOutput g = true)
    (hrun : (writeOnce (writeWithin depth) g record).run.run w = (result, w')) :
    ∃ inner steps, Writes (writeWithin depth) g record w inner steps result w' := by
  obtain ⟨gate, hgate⟩ := Option.isSome_iff_exists.mp hg
  by_cases hrunning : gate.state = .running
  · obtain ⟨channels, w₁, hw₁, hwrite⟩ := run_writeOnce_of_running hgate hrunning record
    rw [hwrite] at hrun
    have hsame : SameQueue g w w₁ := SameQueue.of_standing hw₁
    have hover : ∀ {result w₂}, (handOver (writeWithin depth) g gate.chain channels
        record).run.run w₁ = (result, w₂) → w₂.hasOutput g = true ∧
          ∃ inner, HandsOver (writeWithin depth) g record w w₂ inner result := by
      intro result w₂ hover
      obtain ⟨hthere, inner, hinner⟩ := exists_inner_of_handOver (hsame.hasOutput.trans hg) hover
      refine ⟨hthere, inner, ⟨gate, channels, w₁, hgate, hrunning, hw₁, hover, ?_⟩,
        hsame.queuedAt.symm.trans hinner⟩
      intro hcalm before after _ w₂ hbefore
      exact (standsAs_of_writeChannels (isOfStanding_isCalm hw₁ hcalm) hbefore).trans hw₁
    rcases run_bind_cases hrun with ⟨e, hfailed, rfl⟩ | ⟨_, w₂, hdone, hpending⟩
    · obtain ⟨-, inner, hhands⟩ := hover hfailed
      exact ⟨inner, [], .stopped hhands⟩
    · obtain ⟨hthere, inner, hhands⟩ := hover hdone
      obtain ⟨steps, hsteps⟩ := exists_carriesOut_of_performPending hthere hpending
      exact ⟨inner, steps, .handedOver hhands hsteps⟩
  · rw [run_writeOnce_of_not_running hgate hrunning] at hrun
    cases hrun
    exact ⟨[], [], .refused hgate hrunning⟩

theorem Writes.queuedAt_eq {record : ρ} {inner : List GateAction}
    (h : Writes write g record w inner steps result w') : w.queuedAt g =
      inner ++ (steps.flatMap fun step => step.1 :: step.2) ++ w'.queuedAt g := by
  cases h with
  | refused => simp
  | stopped hover => simpa using hover.queuedAt
  | handedOver hover hacts => rw [hover.queuedAt, hacts.queuedAt_eq, List.append_assoc]

theorem Writes.queuedAt_of_ok {record : ρ} {inner : List GateAction}
    (h : Writes write g record w inner steps (.ok ()) w') : w'.queuedAt g = [] := by
  cases h with
  | handedOver _ hacts => exact hacts.queuedAt_of_ok

end Flow

/-! ### Records that lead on -/

/-- In some order of the gates, records come from gates to later gates only, be it through chains
that are held or queued, or through threads that work off at once what arrives. -/
structure World.LeadsOn (rank : GateRef → ℕ) (w : World σ ρ) : Prop where
  sends : w.isEager = true → ∀ h, w.SendsTo (fun h' => rank h < rank h') h
  held : ∀ h c, w.Holds h c → ∀ l ∈ c.links, rank h < rank l.outputRef
  queued : ∀ h c, w.Awaits h c → ∀ l ∈ c.links, rank h < rank l.outputRef

/-- Records lead on, and these are the actions that are queued at a gate. -/
structure Spares (rank : GateRef → ℕ) (g : GateRef) (queue : List GateAction) (eager : Bool)
    (w : World σ ρ) : Prop where
  leadsOn : w.LeadsOn rank
  queuedAt : w.queuedAt g = queue
  isEager : w.isEager = eager

namespace Spares

variable {rank : GateRef → ℕ} {g h : GateRef} {queue : List GateAction} {eager : Bool}
  {w w' : World σ ρ}

theorem of_sameGates (hw : Spares rank g queue eager w) (h : SameGates w w')
    (hreceivers : ∀ h', w'.receiversAt h' = w.receiversAt h') : Spares rank g queue eager w' where
  leadsOn :=
    { sends := fun heager h' task htask =>
        hw.leadsOn.sends (h.isEager.symm.trans heager) h' task (hreceivers h' ▸ htask)
      held := fun h' c hc => hw.leadsOn.held h' c ((h.chainAt h').symm.trans hc)
      queued := fun h' c hc => hw.leadsOn.queued h' c (by rwa [Awaits, h.queuedAt] at hc) }
  queuedAt := (h.queuedAt g).trans hw.queuedAt
  isEager := h.isEager.trans hw.isEager

theorem of_standing : IsOfStanding (Spares (σ := σ) (ρ := ρ) rank g queue eager) :=
  fun _ _ h hw => hw.of_sameGates (SameGates.of_control (control_congr h)) (receiversAt_congr h)

/-- A chain may come to a gate if it leads on. -/
theorem exchange {new : Option Chain} {woken : Chain → List GateRef}
    (hw : Spares rank g queue eager w) (hx : Exchanges w w' h new woken)
    (hreceivers : ∀ h', w'.receiversAt h' = w.receiversAt h')
    (hnew : ∀ c, new = some c → ∀ l ∈ c.links, rank h < rank l.outputRef) :
    Spares rank g queue eager w' where
  leadsOn :=
    { sends := fun heager h' task htask =>
        hw.leadsOn.sends (hx.isEager.symm.trans heager) h' task (hreceivers h' ▸ htask)
      held := fun h' c hc => by
        rcases hx.holds hc with ⟨rfl, hgiven⟩ | ⟨-, hold⟩
        · exact hnew c hgiven
        · exact hw.leadsOn.held h' c hold
      queued := fun h' c hc => hw.leadsOn.queued h' c (hx.awaits hc) }
  queuedAt := (hx.queuedAt g).trans hw.queuedAt
  isEager := hx.isEager.trans hw.isEager

theorem wake (hw : Spares rank g queue eager w) (i : GateRef) :
    Spares rank g queue eager (w.wake i).2 :=
  hw.of_sameGates (sameGates_wake w i) (receiversAt_wake w i)

theorem halt (hw : Spares rank g queue eager w) (i : GateRef) :
    Spares rank g queue eager (w.halt i).2 :=
  hw.of_sameGates (sameGates_halt w i) (receiversAt_halt w i)

theorem takeChain (hw : Spares rank g queue eager w) (h : GateRef) :
    Spares rank g queue eager (w.takeChain h).2 := by
  refine hw.exchange (exchanges_modifyOutput (.inr rfl))
    (fun _ => receiversAt_modifyOutput fun _ _ => rfl) ?_
  rintro c ⟨⟩

theorem giveChain {c : Chain} (hw : Spares rank g queue eager w)
    (hc : ∀ l ∈ c.links, rank h < rank l.outputRef) :
    Spares rank g queue eager (w.modifyOutput h fun gate => { gate with chain := some c }) := by
  have hreceivers : ∀ h', (w.modifyOutput h fun gate =>
      { gate with chain := some c }).receiversAt h' = w.receiversAt h' :=
    fun _ => receiversAt_modifyOutput fun _ _ => rfl
  cases hgate : w.output? h with
  | some gate =>
    have hthere : w.hasOutput h = true := by simp [hasOutput, hgate]
    refine hw.exchange (exchanges_modifyOutput (.inl hthere)) hreceivers ?_
    rintro _ ⟨⟩
    exact hc
  | none =>
    -- There is no such gate, so nothing changes.
    refine hw.of_sameGates ⟨rfl, fun h' => ?_, fun h' => queuedAt_modifyOutput_chain,
      fun h' => hasOutput_modifyOutput _⟩ hreceivers
    rw [chainAt, output?_modifyOutput, chainAt]
    split_ifs with heq
    · rw [← heq, hgate]
      rfl
    · rfl

theorem popAction {rest : List GateAction} (hw : Spares rank g queue eager w)
    (hrest : (w.popAction h).2.queuedAt g = rest) :
    Spares rank g rest eager (w.popAction h).2 where
  leadsOn :=
    { sends := fun heager h' task htask =>
        hw.leadsOn.sends ((sameThreads_popAction w h).isEager.symm.trans heager) h' task
          (receiversAt_popAction w h h' ▸ htask)
      held := fun h' c hc =>
        hw.leadsOn.held h' c (((sameThreads_popAction w h).chainAt h').symm.trans hc)
      queued := fun h' c hc => hw.leadsOn.queued h' c (mem_queuedAt_popAction hc) }
  queuedAt := hrest
  isEager := (sameThreads_popAction w h).isEager.trans hw.isEager

section

variable {write : GateRef → ρ → Flow σ ρ Unit}
  (hwrite : ∀ h', rank h < rank h' → ∀ record,
    Keeps (Spares rank g queue eager) (write h' record))

include hwrite

/-- What is sent by a gate or behind it comes to later gates. -/
theorem keeps_deliver {h' : GateRef} (hh' : rank h ≤ rank h') (hw : Spares rank g queue eager w)
    {receiver : Receiver} (hreceiver : receiver ∈ w.receiversAt h') (records : List ρ) :
    Keeps (Spares rank g queue eager) (deliver write (receiver, records)) := by
  cases eager with
  | false => exact keeps_deliver_of_lazy of_standing (fun _ hw => hw.isEager) _
  | true =>
    refine keeps_deliver_of of_standing fun task htask => hwrite _ (Nat.lt_of_le_of_lt hh' ?_)
    exact hw.leadsOn.sends hw.isEager h' task (htask ▸ hreceiver)

theorem keeps_flushGate {h' : GateRef} (hh' : rank h ≤ rank h') :
    Keeps (Spares rank g queue eager) (flushGate write h') :=
  keeps_flushGate_of of_standing fun _ hw _ hreceiver => keeps_deliver hwrite hh' hw hreceiver

theorem keeps_writeChannel (record : ρ) (index : ℕ) :
    Keeps (Spares rank g queue eager) (writeChannel write h record index) :=
  keeps_writeChannel_of of_standing
    (fun _ hw _ hreceiver => keeps_deliver hwrite (Nat.le_refl _) hw hreceiver) record index

/-- What is performed at a gate or behind it writes only to later gates. -/
theorem keeps_perform {a : GateAction}
    (ha : ∀ c, a = .establishChain c → ∀ l ∈ c.links, rank h < rank l.outputRef) :
    Keeps (Spares rank g queue eager) (perform write h a) := by
  intro w hw
  refine leads_perform_of hw (fun _ _ _ gate hgate outlet houtlet => ?_) ?_ (fun c hc _ => ?_) ?_
  · have hsame : SameGates w (w.modifyOutput h fun gate => { gate with outlet }) :=
      SameGates.of_control (control_modifyOutput fun _ => ⟨rfl, rfl⟩)
    exact hw.of_sameGates hsame fun _ => receiversAt_setTarget hgate houtlet
  · exact dropChain_of_steps (fun _ i hw => hw.wake i) (fun _ h' hw => hw.takeChain h') h hw
  · have hlinks := ha c hc
    refine keeps_install_of_steps of_standing (fun _ i hw => hw.wake i)
      (fun _ h' hw => hw.takeChain h') (fun _ i hw => hw.halt i) (fun h' hh' => ?_)
      (fun l hl => hwrite l.outputRef (hlinks l hl)) (fun _ hw => hw.giveChain hlinks) w hw
    rcases List.mem_cons.mp hh' with rfl | hmem
    · exact keeps_flushGate hwrite (Nat.le_refl _)
    · obtain ⟨l, hl, rfl⟩ := List.mem_map.mp hmem
      exact keeps_flushGate hwrite (Nat.le_of_lt (hlinks l hl))
  · exact fun w c hw => hw.of_sameGates (SameGates.of_control (control_signal w c)) fun _ => rfl

end

/-- Nothing is taken off the queue of a gate by writes to later gates. -/
theorem keeps_writeWithin (depth : ℕ) (hrank : rank g < rank h) (record : ρ) :
    Keeps (Spares (σ := σ) (ρ := ρ) rank g queue eager) (writeWithin depth h record) := by
  induction depth generalizing h record with
  | zero => exact keeps_throw _
  | succ depth ih =>
    have hlater : ∀ h', rank h < rank h' → ∀ record,
        Keeps (Spares (σ := σ) (ρ := ρ) rank g queue eager) (writeWithin depth h' record) :=
      fun h' hh' record => ih (Nat.lt_trans hrank hh') record
    have hpending : Keeps (Spares (σ := σ) (ρ := ρ) rank g queue eager)
        (performPending (writeWithin depth) h) := by
      refine (keeps_outputGate h).bind fun _ => keeps_performQueued_of ?_ _
      intro w a hw ha
      have hgh : h ≠ g := by
        rintro rfl
        exact Nat.lt_irrefl _ hrank
      have hpopped := hw.popAction (((sameQueue_popAction w hgh).queuedAt).trans hw.queuedAt)
      refine keeps_perform hlater ?_ _ hpopped
      rintro c rfl
      exact hw.leadsOn.queued h c (mem_queuedAt_of_popAction ha)
    refine keeps_writeOnce_of of_standing (keeps_writeChannel hlater record) ?_ hpending
    exact fun w c hw hc l hl => hlater l.outputRef (hw.leadsOn.held h c hc l hl)

end Spares

namespace Flow

variable {rank : GateRef → ℕ} {depth : ℕ} {g : GateRef} {w w' : World σ ρ}
  {steps : List (GateAction × List GateAction)} {inner : List GateAction}
  {result : Except Error Unit}

/-- If records lead on, writes do not come back to the gate, so nobody else takes anything off its
queue while an action is performed. -/
theorem inner_eq_nil_of_perform {w₁ w₂ : World σ ρ} {a : GateAction} (hw : w.LeadsOn rank)
    (hpop : w.popAction g = (some a, w₁))
    (hrun : (perform (writeWithin depth) g a).run.run w₁ = (result, w₂))
    (hinner : w₁.queuedAt g = inner ++ w₂.queuedAt g) : inner = [] ∧ w₂.LeadsOn rank := by
  have hstart : Spares rank g (w₁.queuedAt g) w.isEager w₁ := by
    have hpopped := (Spares.mk hw rfl rfl).popAction (h := g) (g := g) rfl
    rwa [hpop] at hpopped
  have hforward : ∀ c, a = .establishChain c → ∀ l ∈ c.links, rank g < rank l.outputRef := by
    rintro c rfl
    exact hw.queued g c (mem_queuedAt_of_popAction (congrArg Prod.fst hpop))
  have hkeeps : Keeps (Spares (σ := σ) (ρ := ρ) rank g (w₁.queuedAt g) w.isEager)
      (perform (writeWithin depth) g a) :=
    Spares.keeps_perform (fun h' hh' => Spares.keeps_writeWithin depth hh') hforward
  have hend := leads_iff_run.mp (hkeeps w₁ hstart) result w₂ hrun
  rw [hend.queuedAt] at hinner
  exact ⟨List.append_left_eq_self.mp hinner.symm, hend.leadsOn⟩

theorem CarriesOut.inner_eq_nil (h : CarriesOut (writeWithin depth) g steps w result w')
    (hw : w.LeadsOn rank) : ∀ step ∈ steps, step.2 = [] := by
  induction h with
  | done => exact fun _ hstep => absurd hstep List.not_mem_nil
  | next hpop hrun hinner _ ih =>
    obtain ⟨hnil, hlater⟩ := inner_eq_nil_of_perform hw hpop hrun hinner
    exact List.forall_mem_cons.mpr ⟨hnil, ih hlater⟩
  | stop hpop hrun hinner =>
    exact List.forall_mem_singleton.mpr (inner_eq_nil_of_perform hw hpop hrun hinner).1

/-- The same while a record is handed over. -/
theorem HandsOver.inner_eq_nil {record : ρ}
    (h : HandsOver (writeWithin depth) g record w w' inner result) (hw : w.LeadsOn rank) :
    inner = [] ∧ w'.LeadsOn rank := by
  obtain ⟨gate, channels, w₁, hgate, -, hw₁, hrun, -⟩ := h.exists_run
  have hstart : Spares rank g (w.queuedAt g) w.isEager w₁ :=
    Spares.of_standing hw₁ ⟨hw, rfl, rfl⟩
  have hchain : ∀ c, gate.chain = some c → w.Holds g c := by
    intro c hc
    rw [Holds, chainAt, hgate, Option.bind_some, hc]
  have hkeeps : Keeps (Spares (σ := σ) (ρ := ρ) rank g (w.queuedAt g) w.isEager)
      (handOver (writeWithin depth) g gate.chain channels record) :=
    keeps_handOver Spares.of_standing
      (Spares.keeps_writeChannel (fun h' hh' => Spares.keeps_writeWithin depth hh') record)
      (fun c hc l hl => Spares.keeps_writeWithin depth (hw.held g c (hchain c hc) l hl)) channels
  have hend := leads_iff_run.mp (hkeeps w₁ hstart) result w' hrun
  have hinner := h.queuedAt
  rw [hend.queuedAt] at hinner
  exact ⟨List.append_left_eq_self.mp hinner.symm, hend.leadsOn⟩

theorem Writes.inner_eq_nil {record : ρ}
    (h : Writes (writeWithin depth) g record w inner steps result w') (hw : w.LeadsOn rank) :
    inner = [] ∧ ∀ step ∈ steps, step.2 = [] := by
  cases h with
  | refused => exact ⟨rfl, fun _ hstep => absurd hstep List.not_mem_nil⟩
  | stopped hover =>
    exact ⟨(hover.inner_eq_nil hw).1, fun _ hstep => absurd hstep List.not_mem_nil⟩
  | handedOver hover hacts =>
    obtain ⟨hnil, hlater⟩ := hover.inner_eq_nil hw
    exact ⟨hnil, hacts.inner_eq_nil hlater⟩

/-- A target of a channel that is not there is ignored. -/
theorem run_perform_of_unknown {write : GateRef → ρ → Flow σ ρ Unit} {channel : ChannelId}
    (hg : w.hasOutput g = true) (hchannel : w.targetOf g channel = none) (target : Int32) :
    (perform write g (.setLifetimeTarget channel target)).run.run w = (.ok (), w) := by
  obtain ⟨gate, hgate⟩ := Option.isSome_iff_exists.mp hg
  obtain ⟨outlet, houtlet, hsame, -⟩ := gate.outlet.setTarget_eq_ok channel target
  rw [targetOf, hgate, Option.bind_some] at hchannel
  rw [run_perform_setLifetimeTarget hgate houtlet, hsame hchannel, modifyOutput_of_eq]
  intro gate' hgate'
  obtain rfl : gate = gate' := Option.some.inj (hgate.symm.trans hgate')
  rfl

end Flow

/-! ### Every run -/

/-- What becomes of an instance, and of the queue of one of its gates, to which these actions come
one after the other.  In between, the instance is operated in any other way, and anything may happen
that does not concern the queue. -/
inductive Attended (g : GateRef) (w₀ : World σ ρ) : List GateAction → World σ ρ → Prop
  | start : Attended g w₀ [] w₀
  | enqueue {all : List GateAction} {w : World σ ρ} (h : Attended g w₀ all w) (a : GateAction) :
      Attended g w₀ (all ++ [a]) (w.enqueue g a)
  | operate {all : List GateAction} {w : World σ ρ} (h : Attended g w₀ all w) (o : GateOp ρ)
      (ho : ∀ a, o ≠ .enqueue g a) : Attended g w₀ all (o.apply w)
  | flush {all : List GateAction} {w : World σ ρ} (h : Attended g w₀ all w) (h' : GateRef) :
      Attended g w₀ all ((flush h').run.run w).2
  | elsewhere {all : List GateAction} {w w' : World σ ρ} (h : Attended g w₀ all w)
      (hw : SameQueue g w w') : Attended g w₀ all w'

theorem InOrder.enqueue {g : GateRef} {all : List GateAction}
    {targets : ChannelId → Option (Option Int32)} {busy : List Chain} {w : World σ ρ}
    (hw : InOrder g all targets busy w) (a : GateAction) :
    InOrder g (all ++ [a]) targets busy (w.enqueue g a) := by
  obtain ⟨applied, hall, htargets, hchains⟩ := hw.exists_applied
  refine ⟨(hasOutput_modifyOutput _).trans hw.hasOutput, applied, ?_, fun channel => ?_, hchains⟩
  · rw [queuedAt_enqueue hw.hasOutput, hall, List.append_assoc]
  · rw [targetOf_enqueue, htargets]

/-- Whatever else is done to the instance. -/
theorem InOrder.apply {g : GateRef} {all : List GateAction}
    {targets : ChannelId → Option (Option Int32)} {w : World σ ρ}
    (hw : InOrder g all targets [] w) {o : GateOp ρ} (ho : ∀ a, o ≠ .enqueue g a) :
    InOrder g all targets [] (o.apply w) := by
  have hdrop : ∀ {w : World σ ρ} h, InOrder g all targets [] w →
      InOrder g all targets [] (w.dropChain h) := fun h =>
    dropChain_of_steps (InOrder.wake g all targets []) (InOrder.takeChain g all targets []) h
  have hleave : ∀ h state, Keeps (InOrder g all targets [])
      (leaveRunning h state : Flow σ ρ Unit) := fun h state =>
    attends_inOrder.keeps_leaveRunning_of fun w gate hw _ _ =>
      hdrop h (hw.of_sameQueue (sameQueue_modifyOutput fun _ _ => ⟨rfl, rfl⟩))
  cases o with
  | enqueue h a =>
    have hgh : h ≠ g := by
      rintro rfl
      exact ho a rfl
    exact hw.of_sameQueue (sameQueue_modifyOutput fun heq => absurd heq hgh)
  | write h record => exact (attends_inOrder.keeps_write h record [] w hw).final
  | perform h => exact (attends_inOrder.keeps_performAll h [] w hw).final
  | dropChain h => exact hdrop h hw
  | suspend h => exact (hleave h _ w hw).final
  | close h => exact (hleave h _ w hw).final
  | resume h =>
    show InOrder g all targets [] (w.resume h).2
    unfold resume
    split
    · split_ifs
      · exact hw.of_sameQueue (sameQueue_modifyOutput fun _ _ => ⟨rfl, rfl⟩)
      · exact hw
    · exact hw
  | step task => exact (attends_inOrder.keeps_step task [] w hw).final

theorem Attended.inOrder {g : GateRef} {w₀ w : World σ ρ} {all : List GateAction}
    (hrun : Attended g w₀ all w) (hg : w₀.hasOutput g = true) (h₀ : w₀.queuedAt g = []) :
    InOrder g all (w₀.targetOf g) [] w := by
  induction hrun with
  | start =>
    have hstart : InOrder g (w₀.queuedAt g) (w₀.targetOf g) [] w₀ := InOrder.of_queuedAt hg
    rwa [h₀] at hstart
  | enqueue _ a ih => exact ih.enqueue a
  | operate _ o ho ih => exact ih.apply ho
  | flush _ h ih => exact (attends_inOrder.keeps_flush h [] _ ih).final
  | elsewhere _ hw ih => exact ih.of_sameQueue hw

/-- **Actions are carried out in the order of their arrival.**  Let these actions have come to a
gate at which nothing was queued at first, while anything else was done to the instance.  Then

* the first ones have been carried out, the others are queued, each channel has the target that the
  last of the first ones gives it, and their chains have been dealt with;
* to queue another action puts it behind the others, and carries out nothing;
* a write hands its record over before it carries out anything, and if it succeeds then nothing is
  queued any more; if an action fails, exactly the actions up to this one are gone, and some others
  only if a write has come back to the gate;
* the same holds of a gate that is asked to carry out what is queued;
* a target for a channel that is not there changes nothing. -/
theorem Attended.acts_in_order {g : GateRef} {w₀ w : World σ ρ} {all : List GateAction}
    (hrun : Attended g w₀ all w) (hg : w₀.hasOutput g = true) (h₀ : w₀.queuedAt g = []) :
    (∃ applied, all = applied ++ w.queuedAt g ∧
      (∀ channel, w.targetOf g channel = (w₀.targetOf g channel).map fun target =>
        (GateAction.lastTarget? channel applied).or target) ∧
      ∀ c, .establishChain c ∈ applied → w.isSignalled c.number = true) ∧
    (∀ a, (w.enqueue g a).queuedAt g = w.queuedAt g ++ [a] ∧ SameThreads w (w.enqueue g a) ∧
      ∀ h channel, (w.enqueue g a).targetOf h channel = w.targetOf h channel) ∧
    (∀ record result w', (Flow.write g record).run.run w = (result, w') → ∃ depth inner steps,
      w.depth = depth + 1 ∧ Writes (writeWithin depth) g record w inner steps result w' ∧
        (result = .ok () → w'.queuedAt g = []) ∧
        w.queuedAt g = inner ++ (steps.flatMap fun step => step.1 :: step.2) ++ w'.queuedAt g ∧
        ∀ rank, w.LeadsOn rank → inner = [] ∧ ∀ step ∈ steps, step.2 = []) ∧
    (∀ result w', (performAll g).run.run w = (result, w') → ∃ steps,
      CarriesOut (writeWithin w.depth) g steps w result w' ∧
        (result = .ok () → w'.queuedAt g = []) ∧
        w.queuedAt g = (steps.flatMap fun step => step.1 :: step.2) ++ w'.queuedAt g ∧
        ∀ rank, w.LeadsOn rank → ∀ step ∈ steps, step.2 = []) ∧
    ∀ channel target (write : GateRef → ρ → Flow σ ρ Unit), w.targetOf g channel = none →
      (perform write g (.setLifetimeTarget channel target)).run.run w = (.ok (), w) := by
  have hw : InOrder g all (w₀.targetOf g) [] w := hrun.inOrder hg h₀
  refine ⟨?_, fun a => ?_, fun record result w' hwrite => ?_, fun result w' hperform => ?_, ?_⟩
  · obtain ⟨applied, hall, htargets, hchains⟩ := hw.exists_applied
    refine ⟨applied, hall, htargets, fun c hc => ?_⟩
    exact (hchains c hc).resolve_right List.not_mem_nil
  · exact ⟨queuedAt_enqueue hw.hasOutput a, sameThreads_enqueue w g a,
      fun _ channel => targetOf_enqueue a channel⟩
  · obtain ⟨depth, hdepth⟩ := exists_depth_eq w
    rw [Flow.write, run_withWriter, hdepth, writeWithin] at hwrite
    obtain ⟨inner, steps, hwrites⟩ := exists_writes hw.hasOutput hwrite
    refine ⟨depth, inner, steps, hdepth, hwrites, ?_, hwrites.queuedAt_eq,
      fun rank => hwrites.inner_eq_nil⟩
    rintro rfl
    exact hwrites.queuedAt_of_ok
  · rw [performAll, run_withWriter] at hperform
    obtain ⟨steps, hsteps⟩ := exists_carriesOut_of_performPending hw.hasOutput hperform
    refine ⟨steps, hsteps, ?_, hsteps.queuedAt_eq, fun rank => hsteps.inner_eq_nil⟩
    rintro rfl
    exact hsteps.queuedAt_of_ok
  · exact fun channel target write hchannel => run_perform_of_unknown hw.hasOutput hchannel target

/-- What comes to the gate of `a`: targets for its channel and for one that is not there, and a
chain that cannot be established between two of them. -/
def targetActions : List GateAction :=
  [.setLifetimeTarget ⟨"a"⟩ 5, .setLifetimeTarget ⟨"z"⟩ 7, .establishChain stuckChain,
    .setLifetimeTarget ⟨"a"⟩ 1]

/-- A record is written when the first two actions have come, and another one at the end. -/
def targetWorld : World Unit ℕ :=
  let w := (stuckStart.enqueue ⟨0, 0⟩ (.setLifetimeTarget ⟨"a"⟩ 5)).enqueue ⟨0, 0⟩
    (.setLifetimeTarget ⟨"z"⟩ 7)
  let w := ((GateOp.write ⟨0, 0⟩ 7).apply w).enqueue ⟨0, 0⟩ (.establishChain stuckChain)
  (GateOp.write ⟨0, 0⟩ 8).apply (w.enqueue ⟨0, 0⟩ (.setLifetimeTarget ⟨"a"⟩ 1))

theorem attended_targetWorld : Attended ⟨0, 0⟩ stuckStart targetActions targetWorld := by
  have hstart : Attended ⟨0, 0⟩ stuckStart [] stuckStart := .start
  have htargets := (hstart.enqueue (.setLifetimeTarget ⟨"a"⟩ 5)).enqueue
    (.setLifetimeTarget ⟨"z"⟩ 7)
  have hwritten := htargets.operate (.write ⟨0, 0⟩ 7) (by rintro a ⟨⟩)
  have hall := (hwritten.enqueue (.establishChain stuckChain)).enqueue (.setLifetimeTarget ⟨"a"⟩ 1)
  exact hall.operate (.write ⟨0, 0⟩ 8) (by rintro a ⟨⟩)

/-- The last action is still queued, so the channel of `a` has the target of the first one. -/
theorem acts_in_order_targetWorld : Attended ⟨0, 0⟩ stuckStart targetActions targetWorld ∧
    stuckStart.hasOutput ⟨0, 0⟩ = true ∧ stuckStart.queuedAt ⟨0, 0⟩ = [] ∧
      targetWorld.queuedAt ⟨0, 0⟩ = [.setLifetimeTarget ⟨"a"⟩ 1] ∧
        targetWorld.targetOf ⟨0, 0⟩ ⟨"a"⟩ = some (some 5) ∧ targetWorld.isSignalled 1 = true := by
  have hthere : stuckStart.hasOutput ⟨0, 0⟩ = true := by decide +kernel
  have hempty : stuckStart.queuedAt ⟨0, 0⟩ = [] := by decide +kernel
  have hqueue : targetWorld.queuedAt ⟨0, 0⟩ = [.setLifetimeTarget ⟨"a"⟩ 1] := by decide +kernel
  obtain ⟨⟨applied, hall, htargets, hchains⟩, -⟩ :=
    attended_targetWorld.acts_in_order hthere hempty
  have hsplit : targetActions = [.setLifetimeTarget ⟨"a"⟩ 5, .setLifetimeTarget ⟨"z"⟩ 7,
      .establishChain stuckChain] ++ [.setLifetimeTarget ⟨"a"⟩ 1] := rfl
  rw [hqueue, hsplit] at hall
  obtain rfl := List.append_cancel_right hall
  refine ⟨attended_targetWorld, hthere, hempty, hqueue, ?_, hchains stuckChain (by decide)⟩
  have hold : stuckStart.targetOf ⟨0, 0⟩ ⟨"a"⟩ = some none := by decide +kernel
  rw [htargets, hold]
  decide

end LatencyControl
