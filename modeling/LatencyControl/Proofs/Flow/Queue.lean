import LatencyControl.Proofs.Flow.Rollback

/-!
# The queue of a gate

What is queued at an output gate is taken off its queue from the front, one action at a time, and by
nothing but the carrying out of queued actions.  So what has been taken off so far is a first part
of all that was ever queued, in the same order.

`InOrder` says this together with what the actions that were taken off have come to: each channel
has the target that the last of them gave it, and each chain has been dealt with, those excepted
that are being dealt with at the moment.  It is kept by whatever an instance does
(`attends_inOrder`).
-/

namespace LatencyControl

open LatencyControl.Flow World

variable {σ ρ : Type}

/-! ### Targets -/

namespace GateAction

/-- The target that an action gives to a channel. -/
def targetFor? (channel : ChannelId) : GateAction → Option Int32
  | .setLifetimeTarget channel' target => if channel' = channel then some target else none
  | _ => none

/-- The target that some actions, one after the other, give to a channel. -/
def lastTarget? (channel : ChannelId) (actions : List GateAction) : Option Int32 :=
  (actions.filterMap (targetFor? channel)).getLast?

theorem lastTarget?_concat (channel : ChannelId) (actions : List GateAction) (a : GateAction) :
    lastTarget? channel (actions ++ [a]) =
      (a.targetFor? channel).or (lastTarget? channel actions) := by
  unfold lastTarget?
  rw [List.filterMap_append]
  cases ha : a.targetFor? channel <;> simp [ha]

end GateAction

/-- A lane whose channel is given a target. -/
def Lane.setTarget {κ : Type} (target : Int32) (l : Lane Int64 ρ κ) : Lane Int64 ρ κ :=
  { l with channel := l.channel.setTarget target }

/-- The first lane with the channel is the one that is looked up, and the one that is given a
target. -/
theorem lookup_targets_modify {κ : Type} (lanes : List (Lane Int64 ρ κ)) (channel : ChannelId)
    (target : Int32) :
    (lanes.findIdx? (fun l => l.channel.id = channel) = none ∧
      (lanes.map Lane.target).lookup channel = none) ∨
    ∃ index l old, lanes.findIdx? (fun l => l.channel.id = channel) = some index ∧
      lanes[index]? = some l ∧ (lanes.map Lane.target).lookup channel = some old ∧
        ∀ channel', ((lanes.modify index (Lane.setTarget target)).map Lane.target).lookup channel' =
          if channel' = channel then some (some target)
          else (lanes.map Lane.target).lookup channel' := by
  induction lanes with
  | nil => exact .inl ⟨rfl, rfl⟩
  | cons l rest ih =>
    rw [List.findIdx?_cons]
    by_cases hl : l.channel.id = channel
    · refine .inr ⟨0, l, l.channel.target, by simp [hl], rfl, by simp [Lane.target, hl], ?_⟩
      intro channel'
      by_cases hchannel : channel' = channel
      · simp [Lane.setTarget, Lane.target, Channel.setTarget, hl, hchannel]
      · have hne : (channel' == channel) = false := by simpa using hchannel
        simp [Lane.setTarget, Lane.target, Channel.setTarget, hl, hchannel, hne, List.lookup_cons]
    · have hne : (channel == l.channel.id) = false := by simpa using Ne.symm hl
      rcases ih with ⟨hnone, hlookup⟩ | ⟨index, l', old, hindex, hthere, hold, hlookup⟩
      · exact .inl ⟨by simp [hl, hnone], by simp [Lane.target, List.lookup_cons, hne, hlookup]⟩
      · refine .inr ⟨index + 1, l', old, by simp [hl, hindex], by simpa using hthere,
          by simp [Lane.target, List.lookup_cons, hne, hold], fun channel' => ?_⟩
        rw [List.modify_succ_cons, List.map_cons, List.map_cons, List.lookup_cons, hlookup,
          List.lookup_cons]
        by_cases hchannel : channel' = channel
        · subst hchannel
          simp [Lane.target, hne]
        · simp only [hchannel, if_false]

theorem Bank.setTarget_eq {b : Bank Int64 ρ Receiver} {index : ℕ} {l : Lane Int64 ρ Receiver}
    (hl : b.lanes[index]? = some l) (target : Int32) :
    b.setTarget index target =
      .ok { b with lanes := b.lanes.modify index (Lane.setTarget target) } := by
  have hlanes : b.lanes.modify index (fun l' => { l' with channel := l.channel.setTarget target }) =
      b.lanes.modify index (Lane.setTarget target) := by
    refine List.ext_getElem? fun k => ?_
    rw [List.getElem?_modify, List.getElem?_modify]
    by_cases hk : index = k
    · subst hk
      simp [hl, Lane.setTarget]
    · simp [hk]
  simp only [setTarget, hl, setChannel, hlanes]

/-- Setting the target of a channel cannot fail, and does nothing for a channel that is not
there. -/
theorem Outlet.setTarget_eq_ok (outlet : Outlet ρ) (channel : ChannelId) (target : Int32) :
    ∃ outlet', outlet.setTarget channel target = .ok outlet' ∧
      (outlet.targets.lookup channel = none → outlet' = outlet) ∧
        ∀ channel', outlet'.targets.lookup channel' =
          if channel' = channel then (outlet.targets.lookup channel').map fun _ => some target
          else outlet.targets.lookup channel' := by
  cases outlet with
  | direct id receiver => exact ⟨_, rfl, fun _ => rfl, fun channel' => by simp [targets]⟩
  | channels bank =>
    rcases lookup_targets_modify bank.lanes channel target with
      ⟨hnone, hlookup⟩ | ⟨index, l, old, hindex, hl, hold, hlookup⟩
    · refine ⟨.channels bank, by simp [setTarget, Bank.indexOf?, hnone], fun _ => rfl, ?_⟩
      intro channel'
      split_ifs with hchannel
      · rw [hchannel, targets, hlookup, Option.map_none]
      · rfl
    · refine ⟨_, by simp only [setTarget, Bank.indexOf?, hindex, Bank.setTarget_eq hl]; rfl, ?_, ?_⟩
      · intro hnone
        rw [targets, hold] at hnone
        cases hnone
      · intro channel'
        rw [targets, targets, hlookup]
        split_ifs with hchannel
        · rw [hchannel, hold, Option.map_some]
        · rfl

/-! ### What has to do with the queue of a gate -/

namespace World

variable {w w' : World σ ρ} {g h i : GateRef}

/-- Nothing has become of what is queued at a gate: the queue and the targets of the channels are
the same, and no chain is taken back that has been dealt with. -/
structure SameQueue (g : GateRef) (w w' : World σ ρ) : Prop where
  hasOutput : w'.hasOutput g = w.hasOutput g
  queuedAt : w'.queuedAt g = w.queuedAt g
  targetOf : ∀ channel, w'.targetOf g channel = w.targetOf g channel
  isSignalled : ∀ number, w.isSignalled number = true → w'.isSignalled number = true

theorem SameQueue.refl (w : World σ ρ) : SameQueue g w w :=
  ⟨rfl, rfl, fun _ => rfl, fun _ => id⟩

theorem SameQueue.trans {w'' : World σ ρ} (h : SameQueue g w w') (h' : SameQueue g w' w'') :
    SameQueue g w w'' where
  hasOutput := h'.hasOutput.trans h.hasOutput
  queuedAt := h'.queuedAt.trans h.queuedAt
  targetOf channel := (h'.targetOf channel).trans (h.targetOf channel)
  isSignalled number hn := h'.isSignalled number (h.isSignalled number hn)

theorem SameQueue.of_standing (hw : w'.standing = w.standing) : SameQueue g w w' where
  hasOutput := hasOutput_congr (control_congr hw) g
  queuedAt := queuedAt_congr (control_congr hw) g
  targetOf := targetOf_congr hw g
  isSignalled number hn := (isSignalled_congr hw number).trans hn

theorem sameQueue_modifyInput (f : InputGate ρ → InputGate ρ) :
    SameQueue g w (w.modifyInput i f) where
  hasOutput := by simp [World.hasOutput]
  queuedAt := by simp [World.queuedAt]
  targetOf channel := by simp [World.targetOf]
  isSignalled _ := id

/-- Another gate may be changed, or something else of the gate. -/
theorem sameQueue_modifyOutput {f : OutputGate ρ → OutputGate ρ}
    (hf : h = g → ∀ gate, (f gate).pending = gate.pending ∧ (f gate).outlet = gate.outlet) :
    SameQueue g w (w.modifyOutput h f) where
  hasOutput := hasOutput_modifyOutput f
  queuedAt := by
    rw [World.queuedAt, output?_modifyOutput, World.queuedAt]
    split_ifs with hgh
    · cases w.output? g <;> simp [hf hgh]
    · rfl
  targetOf channel := by
    rw [World.targetOf, output?_modifyOutput, World.targetOf]
    split_ifs with hgh
    · cases w.output? g <;> simp [hf hgh]
    · rfl
  isSignalled _ := id

theorem sameQueue_halt (w : World σ ρ) (i : GateRef) : SameQueue g w (w.halt i).2 := by
  unfold halt
  split
  · exact sameQueue_modifyInput _
  · exact SameQueue.refl w

theorem sameQueue_wake (w : World σ ρ) (i : GateRef) : SameQueue g w (w.wake i).2 := by
  unfold wake
  split
  · exact sameQueue_modifyInput _
  · exact SameQueue.refl w

theorem sameQueue_takeChain (w : World σ ρ) (h : GateRef) : SameQueue g w (w.takeChain h).2 :=
  sameQueue_modifyOutput fun _ _ => ⟨rfl, rfl⟩

theorem sameQueue_popAction (w : World σ ρ) (hgh : h ≠ g) : SameQueue g w (w.popAction h).2 := by
  unfold popAction
  split
  · exact sameQueue_modifyOutput fun heq => absurd heq hgh
  · exact SameQueue.refl w

theorem sameQueue_signal (w : World σ ρ) (c : Chain) : SameQueue g w (w.signal c) where
  hasOutput := rfl
  queuedAt := rfl
  targetOf _ := rfl
  isSignalled number hn := by
    by_cases hnumber : c.number = number
    · exact hnumber ▸ isSignalled_signal w c
    · have hfind : (w.signal c).signalled.find? number = w.signalled.find? number :=
        Table.find?_insert_of_ne w.signalled hnumber ()
      unfold World.isSignalled Table.contains at hn ⊢
      rwa [hfind]

theorem queuedAt_popAction {a : GateAction} (ha : (w.popAction g).1 = some a) :
    w.queuedAt g = a :: (w.popAction g).2.queuedAt g := by
  cases hgate : w.output? g with
  | none => simp [popAction, hgate] at ha
  | some gate =>
    cases hqueue : gate.pending with
    | nil => simp [popAction, hgate, hqueue] at ha
    | cons b rest =>
      rw [popAction_of_pending hgate hqueue] at ha ⊢
      obtain rfl : b = a := Option.some.inj ha
      rw [queuedAt_modifyOutput_pending hgate, if_pos rfl]
      simp [World.queuedAt, hgate, hqueue]

/-- An action that is taken off a queue has no say in anything else. -/
theorem targetOf_popAction (channel : ChannelId) :
    (w.popAction h).2.targetOf g channel = w.targetOf g channel := by
  have hpending : ∀ rest : List GateAction,
      (w.modifyOutput h fun gate => { gate with pending := rest }).targetOf g channel =
        w.targetOf g channel := by
    intro rest
    rw [targetOf, output?_modifyOutput, targetOf]
    split_ifs
    · cases w.output? g <;> rfl
    · rfl
  unfold popAction
  split
  · exact hpending _
  · rfl

theorem isSignalled_popAction (number : ℕ) :
    (w.popAction h).2.isSignalled number = w.isSignalled number := by
  unfold popAction
  split <;> rfl

/-- What is queued last waits longest, and nothing else happens. -/
theorem queuedAt_enqueue (hg : w.hasOutput g = true) (a : GateAction) :
    (w.enqueue g a).queuedAt g = w.queuedAt g ++ [a] := by
  obtain ⟨gate, hgate⟩ := Option.isSome_iff_exists.mp hg
  simp [World.queuedAt, enqueue, output?_modifyOutput, hgate]

theorem targetOf_enqueue (a : GateAction) (channel : ChannelId) :
    (w.enqueue h a).targetOf g channel = w.targetOf g channel := by
  rw [targetOf, enqueue, output?_modifyOutput, targetOf]
  split_ifs
  · cases w.output? g <;> rfl
  · rfl

end World

/-! ### First come, first served -/

/-- The first of all actions that were ever queued at a gate have been taken off its queue, and the
others are queued.  Each channel has the target that the first ones give it, or else the one that it
had before them, and their chains have been dealt with but for some that are being dealt with. -/
structure InOrder (g : GateRef) (all : List GateAction)
    (targets : ChannelId → Option (Option Int32)) (busy : List Chain) (w : World σ ρ) : Prop where
  hasOutput : w.hasOutput g = true
  exists_applied : ∃ applied, all = applied ++ w.queuedAt g ∧
    (∀ channel, w.targetOf g channel =
      (targets channel).map fun target => (GateAction.lastTarget? channel applied).or target) ∧
    ∀ c, .establishChain c ∈ applied → w.isSignalled c.number = true ∨ c ∈ busy

namespace InOrder

variable {g h : GateRef} {all : List GateAction} {targets : ChannelId → Option (Option Int32)}
  {busy : List Chain} {w w' : World σ ρ}

/-- Nothing has been taken off the queue yet. -/
theorem of_queuedAt (hg : w.hasOutput g = true) :
    InOrder g (w.queuedAt g) (w.targetOf g) busy w := by
  refine ⟨hg, [], rfl, fun channel => ?_, fun c hc => absurd hc List.not_mem_nil⟩
  cases w.targetOf g channel <;> simp [GateAction.lastTarget?]

theorem of_sameQueue (hw : InOrder g all targets busy w) (h : SameQueue g w w') :
    InOrder g all targets busy w' := by
  obtain ⟨applied, hall, htargets, hchains⟩ := hw.exists_applied
  refine ⟨h.hasOutput.trans hw.hasOutput, applied, by rw [h.queuedAt, hall], fun channel => ?_, ?_⟩
  · rw [h.targetOf, htargets]
  · exact fun c hc => (hchains c hc).imp_left (h.isSignalled _)

theorem of_standing : IsOfStanding (InOrder (σ := σ) (ρ := ρ) g all targets busy) :=
  fun _ _ h hw => hw.of_sameQueue (SameQueue.of_standing h)

/-- A chain that is noted is no longer being dealt with. -/
theorem of_signalled {c : Chain} (hw : InOrder g all targets (c :: busy) w)
    (hc : w.isSignalled c.number = true) : InOrder g all targets busy w := by
  obtain ⟨applied, hall, htargets, hchains⟩ := hw.exists_applied
  refine ⟨hw.hasOutput, applied, hall, htargets, fun c' hc' => ?_⟩
  rcases hchains c' hc' with hsignalled | hbusy
  · exact .inl hsignalled
  · rcases List.mem_cons.mp hbusy with rfl | hbusy
    · exact .inl hc
    · exact .inr hbusy

theorem mono {more : List Chain} (hw : InOrder g all targets busy w) (h : busy ⊆ more) :
    InOrder g all targets more w := by
  obtain ⟨applied, hall, htargets, hchains⟩ := hw.exists_applied
  exact ⟨hw.hasOutput, applied, hall, htargets, fun c hc => (hchains c hc).imp_right (@h c)⟩

/-- The first action is taken off the queue.  What it does to targets is done at once, and a chain
is being dealt with from now on. -/
theorem next {a : GateAction} (hw : InOrder g all targets busy w)
    (hqueue : w.queuedAt g = a :: w'.queuedAt g) (hthere : w'.hasOutput g = true)
    (htarget : ∀ channel, w'.targetOf g channel =
      (w.targetOf g channel).map fun target => (a.targetFor? channel).or target)
    (hsignalled : ∀ number, w.isSignalled number = true → w'.isSignalled number = true)
    (hbusy : ∀ c, a = .establishChain c → c ∈ busy) : InOrder g all targets busy w' := by
  obtain ⟨applied, hall, htargets, hchains⟩ := hw.exists_applied
  refine ⟨hthere, applied ++ [a], by rw [hall, hqueue, List.append_assoc]; rfl, ?_, ?_⟩
  · intro channel
    rw [htarget, htargets, Option.map_map]
    refine congrArg (Option.map · (targets channel)) (funext fun target => ?_)
    rw [GateAction.lastTarget?_concat, Option.or_assoc]
    rfl
  · intro c hc
    rcases List.mem_append.mp hc with hbefore | hnow
    · exact (hchains c hbefore).imp_left (hsignalled _)
    · exact .inr (hbusy c (List.mem_singleton.mp hnow).symm)

/-- An action that gives no target and is taken off the queue. -/
theorem popAction {a : GateAction} (hw : InOrder g all targets busy w)
    (ha : (w.popAction g).1 = some a) (htarget : ∀ channel, a.targetFor? channel = none)
    (hbusy : ∀ c, a = .establishChain c → c ∈ busy) :
    InOrder g all targets busy (w.popAction g).2 := by
  have hthere := ((sameThreads_popAction w g).hasOutput g).trans hw.hasOutput
  refine hw.next (queuedAt_popAction ha) hthere (fun channel => ?_) (fun number hn => ?_) hbusy
  · rw [targetOf_popAction, htarget]
    simp
  · rwa [isSignalled_popAction]

section

variable (g all targets busy)

theorem halt (w : World σ ρ) (i : GateRef) (hw : InOrder g all targets busy w) :
    InOrder g all targets busy (w.halt i).2 := hw.of_sameQueue (sameQueue_halt w i)

theorem wake (w : World σ ρ) (i : GateRef) (hw : InOrder g all targets busy w) :
    InOrder g all targets busy (w.wake i).2 := hw.of_sameQueue (sameQueue_wake w i)

theorem takeChain (w : World σ ρ) (h : GateRef) (hw : InOrder g all targets busy w) :
    InOrder g all targets busy (w.takeChain h).2 := hw.of_sameQueue (sameQueue_takeChain w h)

end

end InOrder

section

variable {write : GateRef → ρ → Flow σ ρ Unit} {g h : GateRef} {all : List GateAction}
  {targets : ChannelId → Option (Option Int32)} {busy : List Chain} {w : World σ ρ}

/-- Once it has been taken off the queue, an action keeps the order, unless it sets a target of the
gate. -/
theorem keeps_perform_inOrder
    (hwrite : ∀ g' record, Keeps (InOrder g all targets busy) (write g' record)) {a : GateAction}
    (ha : h = g → ∀ channel, a.targetFor? channel = none) :
    Keeps (InOrder g all targets busy) (perform write h a) := by
  intro w hw
  refine leads_perform_of hw ?_ ?_ (fun c _ _ => ?_)
    fun w c hw => hw.of_sameQueue (sameQueue_signal w c)
  · rintro channel target rfl gate - outlet -
    have hgh : h ≠ g := fun heq => by simpa [GateAction.targetFor?] using ha heq channel
    exact hw.of_sameQueue (sameQueue_modifyOutput fun heq => absurd heq hgh)
  · exact dropChain_of_steps (InOrder.wake g all targets busy)
      (InOrder.takeChain g all targets busy) h hw
  · have hdeliver := keeps_deliver InOrder.of_standing hwrite
    exact keeps_install_of_steps InOrder.of_standing (InOrder.wake g all targets busy)
      (InOrder.takeChain g all targets busy) (InOrder.halt g all targets busy)
      (fun h _ => keeps_flushGate InOrder.of_standing hdeliver h)
      (fun l _ => hwrite l.outputRef)
      (fun _ hw => hw.of_sameQueue (sameQueue_modifyOutput fun _ _ => ⟨rfl, rfl⟩)) w hw

/-- Setting a target cannot fail. -/
theorem run_perform_setLifetimeTarget {gate : OutputGate ρ} {outlet : Outlet ρ}
    {channel : ChannelId} {target : Int32} (hgate : w.output? g = some gate)
    (houtlet : gate.outlet.setTarget channel target = .ok outlet) :
    (perform write g (.setLifetimeTarget channel target)).run.run w =
      (.ok (), w.modifyOutput g fun gate => { gate with outlet }) := by
  rw [perform, run_outputGate_bind hgate, houtlet]
  rfl

/-- The order is kept when an action is taken off the queue and performed. -/
theorem attends_inOrder : Attends (InOrder (σ := σ) (ρ := ρ) g all targets) where
  ofStanding _ := InOrder.of_standing
  leads_perform {write busy w h a} hwrite hw ha := by
    by_cases hgh : h = g
    · subst hgh
      cases a with
      | limitBufferSize channel size =>
        exact leads_pure (hw.popAction ha (fun _ => rfl) (by rintro c ⟨⟩))
      | dropChain =>
        have hpopped := hw.popAction ha (fun _ => rfl) (by rintro c ⟨⟩)
        exact keeps_perform_inOrder (a := .dropChain) (hwrite busy) (fun _ _ => rfl) _ hpopped
      | establishChain c =>
        -- While the chain is being established, it is the one exception.
        have hbusy : InOrder h all targets (c :: busy) w := hw.mono (List.subset_cons_self c busy)
        have hpopped := hbusy.popAction ha (fun _ => rfl)
          (by rintro _ ⟨⟩; exact List.mem_cons_self)
        have hkept := keeps_perform_inOrder (h := h) (a := .establishChain c) (hwrite (c :: busy))
          (fun _ _ => rfl) _ hpopped
        obtain ⟨gate, hgate⟩ := Option.isSome_iff_exists.mp hpopped.hasOutput
        refine leads_iff_run.mpr fun result w' hrun => ?_
        exact (leads_iff_run.mp hkept result w' hrun).of_signalled
          (isSignalled_of_establish hgate hrun)
      | setLifetimeTarget channel target =>
        have hthere := ((sameThreads_popAction w h).hasOutput h).trans hw.hasOutput
        obtain ⟨gate, hgate⟩ := Option.isSome_iff_exists.mp hthere
        obtain ⟨outlet, houtlet, -, hlookup⟩ := gate.outlet.setTarget_eq_ok channel target
        refine leads_iff_run.mpr fun result w' hrun => ?_
        rw [run_perform_setLifetimeTarget hgate houtlet] at hrun
        cases hrun
        refine hw.next (a := .setLifetimeTarget channel target) ?_
          ((hasOutput_modifyOutput _).trans hthere) ?_ ?_ (by rintro c ⟨⟩)
        · rw [queuedAt_popAction ha]
          simp [queuedAt, output?_modifyOutput, hgate]
        · intro channel'
          have hold : w.targetOf h channel' = gate.outlet.targets.lookup channel' := by
            rw [← targetOf_popAction (h := h), targetOf, hgate, Option.bind_some]
          rw [hold, targetOf, output?_modifyOutput, if_pos rfl, hgate, Option.map_some,
            Option.bind_some, hlookup]
          by_cases hchannel : channel = channel'
          · simp [GateAction.targetFor?, hchannel]
          · simp [GateAction.targetFor?, hchannel, Ne.symm hchannel]
        · exact fun number hn => (isSignalled_popAction number).trans hn
    · have hpopped := hw.of_sameQueue (sameQueue_popAction w hgh)
      exact keeps_perform_inOrder (hwrite busy) (fun heq => absurd heq hgh) _ hpopped

end

end LatencyControl
