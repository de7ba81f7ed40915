import LatencyControl.Proofs.Flow.Control
import LatencyControl.Proofs.Flow.Outcome

/-!
# Moving records around

Records are read, sent, passed along and written, and user code runs on them; nothing of this has a
say in how an instance stands.  So a condition that only depends on `World.standing` is kept by
every such activity, if it is kept by the writes that the activity makes.

The installation of a chain does more than that.  `keeps_install_of` says what is left to show for
it, and `keeps_install_of_steps` says it step by step, for conditions that hold in between as well.
-/

namespace LatencyControl.Flow

open World

variable {σ ρ α : Type}

/-- A condition on worlds that depends on their standing only. -/
def IsOfStanding (P : World σ ρ → Prop) : Prop :=
  ∀ ⦃w w' : World σ ρ⦄, w'.standing = w.standing → P w → P w'

/-- A condition on worlds that depends on their control only. -/
def IsOfControl (P : World σ ρ → Prop) : Prop :=
  ∀ ⦃w w' : World σ ρ⦄, w'.control = w.control → P w → P w'

theorem IsOfControl.ofStanding {P : World σ ρ → Prop} (hP : IsOfControl P) : IsOfStanding P :=
  fun _ _ hw => hP (control_congr hw)

theorem isOfStanding_standsAs (w : World σ ρ) : IsOfStanding w.StandsAs :=
  fun _ _ hw h => hw.trans h

variable {P : World σ ρ → Prop}

theorem keeps_modify_of_control (hP : IsOfControl P) {f : World σ ρ → World σ ρ}
    (hf : ∀ w, (f w).control = w.control) : Keeps P (modify f : Flow σ ρ Unit) :=
  keeps_modify fun w => hP (hf w)

variable (hP : IsOfStanding P)

section

include hP

theorem keeps_modify_of_standing {f : World σ ρ → World σ ρ}
    (hf : ∀ w, (f w).standing = w.standing) : Keeps P (modify f : Flow σ ρ Unit) :=
  keeps_modify fun w => hP (hf w)

theorem keeps_modifyGet_of_standing {f : World σ ρ → α × World σ ρ}
    (hf : ∀ w, (f w).2.standing = w.standing) : Keeps P (modifyGet f : Flow σ ρ α) :=
  keeps_modifyGet fun w => hP (hf w)

/-- A gate that is given an outlet with the targets and receivers that it has. -/
theorem leads_setOutlet {g : GateRef} {gate : OutputGate ρ} {outlet : Outlet ρ} {w : World σ ρ}
    (hgate : w.output? g = some gate) (htargets : outlet.targets = gate.outlet.targets)
    (hreceivers : outlet.receivers = gate.outlet.receivers) (hw : P w) :
    (setOutlet g outlet).Leads w (fun _ => P) P :=
  leads_modify (hP (standing_setOutlet hgate htargets hreceivers) hw)

end

variable {write : GateRef → ρ → Flow σ ρ Unit}

/-! ### Threads -/

section

include hP

section

variable {task : ℕ} (hwrite : ∀ record, Keeps P (write { task, gate := 0 } record))

include hwrite

theorem keeps_handleRecord : Keeps P (handleRecord write task) := by
  unfold handleRecord
  refine (keeps_modifyGet_of_standing hP fun w => standing_read w _).bind fun read => ?_
  cases read with
  | none => exact keeps_pure _
  | some record =>
    refine (keeps_modify_of_standing hP fun w => standing_countRead w task).bind fun _ => ?_
    refine (keeps_modifyGet_of_standing hP fun w => standing_runCode w task record).bind ?_
    intro made
    exact keeps_forM hwrite made

theorem keeps_handleRecords (n : ℕ) : Keeps P (handleRecords write task n) := by
  induction n with
  | zero => exact keeps_pure _
  | succ n ih =>
    unfold handleRecords
    refine keeps_get.bind fun w => ?_
    cases w.task? task with
    | none => exact keeps_pure _
    | some t =>
      dsimp only
      split_ifs
      · refine (keeps_handleRecord hP hwrite).attempt.bind fun result => ?_
        cases result with
        | ok _ => exact ih
        | error e => exact keeps_modify_of_standing hP fun w => standing_endThread w task _
      · exact keeps_pure _

theorem keeps_giveTurn (records : ℕ) : Keeps P (giveTurn write task records) := by
  unfold giveTurn
  refine keeps_get.bind fun w => ?_
  cases w.task? task with
  | none => exact keeps_pure _
  | some t =>
    dsimp only
    split_ifs
    · refine (keeps_modify_of_standing hP fun w => standing_startWork w task).bind fun _ => ?_
      refine (keeps_handleRecords hP hwrite records).bind fun _ => ?_
      exact keeps_modify_of_standing hP fun w => standing_stopWork w task
    · exact keeps_pure _

theorem keeps_settle : Keeps P (settle write task) := by
  unfold settle
  refine keeps_get.bind fun w => ?_
  split_ifs
  · exact keeps_giveTurn hP hwrite _
  · exact keeps_pure _

end

/-- Only the task that the records arrive at writes. -/
theorem keeps_deliver_of {s : Shipment ρ Receiver}
    (hwrite : ∀ task, s.1 = .task task → ∀ record, Keeps P (write { task, gate := 0 } record)) :
    Keeps P (deliver write s) := by
  unfold deliver
  refine (keeps_modify_of_standing hP fun w => standing_arrive w s).bind fun _ => ?_
  cases hreceiver : s.1 with
  | task task => exact keeps_settle hP (hwrite task hreceiver)
  | sink _ => exact keeps_pure _

theorem keeps_deliver (hwrite : ∀ g record, Keeps P (write g record)) (s : Shipment ρ Receiver) :
    Keeps P (deliver write s) :=
  keeps_deliver_of hP fun _ _ => hwrite _

/-- If threads wait to be given turns, records that arrive are left where they are. -/
theorem keeps_deliver_of_lazy (hlazy : ∀ w, P w → w.isEager = false) (s : Shipment ρ Receiver) :
    Keeps P (deliver write s) := by
  unfold deliver
  refine (keeps_modify_of_standing hP fun w => standing_arrive w s).bind fun _ => ?_
  cases s.1 with
  | sink _ => exact keeps_pure _
  | task task =>
    intro w hw
    refine leads_bind (leads_get ?_)
    rw [if_neg (by simp [hlazy w hw])]
    exact leads_pure hw

end

/-! ### Channels -/

section

variable {g : GateRef} (hdeliver : ∀ w, P w → ∀ receiver ∈ w.receiversAt g, ∀ records,
  Keeps P (deliver write (receiver, records)))

include hP hdeliver

/-- Records are delivered to receivers of the gate only. -/
theorem keeps_flushGate_of : Keeps P (flushGate write g) := by
  intro w hw
  refine leads_bind (leads_outputGate ?_ hw)
  intro gate hgate
  cases houtlet : gate.outlet with
  | direct _ _ => exact leads_throw hw
  | channels bank =>
    refine leads_bind (leads_get (leads_bind ?_))
    have htargets : (Outlet.channels (bank.flush w.isOpen).2.2).targets = gate.outlet.targets := by
      rw [houtlet]
      exact Bank.targets_flushLanes w.isOpen bank.lanes
    have hreceivers : (Outlet.channels (bank.flush w.isOpen).2.2).receivers
        = gate.outlet.receivers := by
      rw [houtlet]
      exact Bank.receivers_flushLanes w.isOpen bank.lanes
    have hshipments : ∀ s ∈ (bank.flush w.isOpen).2.1, Keeps P (deliver write s) := by
      intro s hs
      refine hdeliver w hw s.1 ?_ s.2
      simpa [receiversAt, hgate, houtlet, Outlet.receivers]
        using Bank.mem_receivers_of_flushLanes hs
    refine (leads_setOutlet hP hgate htargets hreceivers hw).mono ?_ fun _ => id
    intro _ w' hw'
    exact (keeps_forM_of_mem hshipments).bind (fun _ => keeps_ofExcept _) w' hw'

theorem keeps_writeChannel_of (record : ρ) (index : ℕ) :
    Keeps P (writeChannel write g record index) := by
  intro w hw
  refine leads_bind (leads_get (leads_bind (leads_outputGate ?_ hw)))
  intro gate hgate
  cases houtlet : gate.outlet with
  | direct _ receiver =>
    have hreceiver : receiver ∈ w.receiversAt g := by
      simp [receiversAt, hgate, houtlet, Outlet.receivers]
    dsimp only
    split_ifs
    · exact hdeliver w hw receiver hreceiver [record] w hw
    · exact leads_throw hw
  | channels bank =>
    refine leads_bind ?_
    have htargets : (Outlet.channels (bank.write index w.clock w.isOpen record).2).targets
        = gate.outlet.targets := by
      rw [houtlet]
      exact bank.targets_write index w.clock w.isOpen record
    have hreceivers : (Outlet.channels (bank.write index w.clock w.isOpen record).2).receivers
        = gate.outlet.receivers := by
      rw [houtlet]
      exact bank.receivers_write index w.clock w.isOpen record
    refine (leads_setOutlet hP hgate htargets hreceivers hw).mono ?_ fun _ => id
    intro _ w' hw'
    refine leads_bind (leads_ofExcept (fun s hs => hdeliver w hw s.1 ?_ s.2 w' hw') hw')
    simpa [receiversAt, hgate, houtlet, Outlet.receivers] using Bank.mem_receivers_of_write hs

end

section

variable (hdeliver : ∀ s, Keeps P (deliver write s))

include hP hdeliver

theorem keeps_flushGate (g : GateRef) : Keeps P (flushGate write g) :=
  keeps_flushGate_of hP fun _ _ _ _ _ => hdeliver _

theorem keeps_writeChannel (g : GateRef) (record : ρ) (index : ℕ) :
    Keeps P (writeChannel write g record index) :=
  keeps_writeChannel_of hP (fun _ _ _ _ _ => hdeliver _) record index

end

theorem keeps_secureLink {l : ChainLink} (hflush : Keeps P (flushGate write l.outputRef))
    (millis : ℕ) : Keeps P (secureLink write millis l) :=
  keeps_get.bind fun _ => (keeps_ofExcept _).bind fun _ => hflush

/-! ### Chains -/

section

include hP

theorem keeps_runLink (l : ChainLink) (records : List ρ) : Keeps P (runLink l records) := by
  induction records with
  | nil => exact keeps_pure _
  | cons record rest ih =>
    refine (keeps_modify_of_standing hP fun w => standing_report w l.task _).bind fun _ => ?_
    refine (keeps_modifyGet_of_standing hP fun w => standing_runCode w l.task record).bind ?_
    intro made
    exact ih.bind fun _ => keeps_pure _

/-- Only the gates of links are written to. -/
theorem keeps_passAlong {links : List ChainLink}
    (hlinks : ∀ l ∈ links, ∀ record, Keeps P (write l.outputRef record)) (records : List ρ) :
    Keeps P (passAlong write links records) := by
  fun_induction passAlong write links records with
  | case1 => exact keeps_pure _
  | case2 last records =>
    have hlast := hlinks last List.mem_cons_self
    exact (keeps_runLink hP last records).bind (keeps_forM hlast)
  | case3 l next rest records ih =>
    refine (keeps_runLink hP l records).bind fun made => ?_
    refine (keeps_forM (fun _ => ?_) made).bind fun _ => ?_
    · exact keeps_modify_of_standing hP fun w => standing_report w l.task _
    · exact ih made fun l' hl' => hlinks l' (List.mem_cons_of_mem l hl')

variable {c : Chain} (hlinks : ∀ l ∈ c.links, ∀ record, Keeps P (write l.outputRef record))

include hlinks

theorem keeps_writeFrom (start : ℕ) (record : ρ) : Keeps P (writeFrom write c start record) := by
  unfold writeFrom
  split_ifs
  · exact keeps_passAlong hP (fun l hl => hlinks l (List.mem_of_mem_drop hl)) _
  · exact keeps_throw _

theorem keeps_drainLinks (links : List (ChainLink × ℕ)) : Keeps P (drainLinks write c links) := by
  induction links with
  | nil => exact keeps_pure _
  | cons entry rest ih =>
    refine (keeps_modifyGet_of_standing hP fun w => standing_takeQueue w entry.1.inputRef).bind ?_
    intro records
    exact (keeps_forM (keeps_writeFrom hP hlinks entry.2) records).bind fun _ => ih

/-- What is special about the installation of a chain is that its links are halted first.  If the
condition holds again after they have been woken, when they do not come to rest, and after the gate
has been made their head, when they do, then the installation keeps it. -/
theorem keeps_install_of {g : GateRef} (hflush : Keeps P (flushGate write g))
    (hdrop : ∀ w, P w → P (w.dropChain g))
    (hhalt : ∀ w millis, P w → w.hasOutput g = true →
      (haltLinks write millis c.links).Leads w (fun answer w' =>
        (∀ e, answer.1 = .error e → P (w'.wakeLinks answer.2)) ∧
          (answer.1 = .ok () → P ((w'.dissolve c).replaceChain g c))) fun _ => False) :
    Keeps P (install write g c) := by
  intro w hw
  refine leads_bind ((hflush w hw).mono ?_ fun _ => id)
  intro _ w₁ hw₁
  refine leads_bind (leads_outputGate ?_ hw₁)
  intro gate hgate
  have hg : w₁.hasOutput g = true := by simp [hasOutput, hgate]
  refine leads_bind ((hhalt w₁ gate.timeout hw₁ hg).mono ?_ fun _ hfalse => hfalse.elim)
  rintro ⟨result, halted⟩ w₂ ⟨herror, hok⟩
  cases result with
  | error e => exact leads_bind (leads_modify (leads_bind (leads_throw (herror e rfl))))
  | ok _ =>
    refine leads_bind (leads_modify (leads_bind (leads_modify ?_)))
    have hdrain := keeps_drainLinks hP hlinks c.links.zipIdx.reverse
    refine leads_bind ((hdrain.attempt _ (hok rfl)).mono ?_ fun _ => id)
    intro drained w₃ hw₃
    cases drained with
    | ok _ => exact leads_pure hw₃
    | error e => exact leads_bind (leads_modify (leads_throw (hdrop w₃ hw₃)))

end

/-! ### Chains, step by step -/

section

variable (hwake : ∀ w i, P w → P (w.wake i).2) (htake : ∀ w h, P w → P (w.takeChain h).2)

include hwake

theorem wakeLinks_of_steps (links : List ChainLink) {w : World σ ρ} (hw : P w) :
    P (w.wakeLinks links) :=
  List.foldlRecOn (motive := P) links _ hw fun w hw l _ => hwake w l.inputRef hw

include htake

theorem dropChain_of_steps (g : GateRef) {w : World σ ρ} (hw : P w) : P (w.dropChain g) :=
  wakeLinks_of_steps hwake _ (htake w g hw)

theorem dissolve_of_steps (c : Chain) {w : World σ ρ} (hw : P w) : P (w.dissolve c) := by
  refine List.foldlRecOn (motive := P) c.links _ hw ?_
  intro w hw l _
  exact wakeLinks_of_steps hwake _ (htake w l.outputRef hw)

variable (hhalt : ∀ w i, P w → P (w.halt i).2)

include hhalt

omit hwake htake in
/-- Links that do not come to rest are no failure of the halting itself. -/
theorem leads_haltLinks_of_steps {links : List ChainLink}
    (hflush : ∀ l ∈ links, Keeps P (flushGate write l.outputRef)) (millis : ℕ) {w : World σ ρ}
    (hw : P w) : (haltLinks write millis links).Leads w (fun _ => P) fun _ => False := by
  induction links generalizing w with
  | nil => exact leads_pure hw
  | cons l rest ih =>
    refine leads_bind (leads_modifyGet ?_)
    obtain ⟨hfirst, hrest⟩ := List.forall_mem_cons.mp hflush
    have hsecure := keeps_secureLink hfirst millis _ (hhalt w l.inputRef hw)
    refine leads_bind (leads_attempt (hsecure.mono ?_ ?_))
    · intro _ w' hw'
      refine leads_bind ((ih hrest hw').mono ?_ fun _ hfalse => hfalse)
      exact fun _ w'' hw'' => leads_pure hw''
    · exact fun w' hw' e => leads_pure hw'

include hP

/-- A condition that is kept by each step of the installation of a chain. -/
theorem keeps_install_of_steps {g : GateRef} {c : Chain}
    (hflush : ∀ h ∈ g :: c.outputs, Keeps P (flushGate write h))
    (hlinks : ∀ l ∈ c.links, ∀ record, Keeps P (write l.outputRef record))
    (hgive : ∀ w, P w → P (w.modifyOutput g fun gate => { gate with chain := some c })) :
    Keeps P (install write g c) := by
  obtain ⟨hfirst, houtputs⟩ := List.forall_mem_cons.mp hflush
  refine keeps_install_of hP hlinks hfirst (fun w => dropChain_of_steps hwake htake g) ?_
  intro w millis hw _
  have hhalted := leads_haltLinks_of_steps hhalt
    (fun l hl => houtputs l.outputRef (List.mem_map_of_mem hl)) millis hw
  refine hhalted.mono ?_ fun _ => id
  intro answer w' hw'
  refine ⟨fun _ _ => wakeLinks_of_steps hwake _ hw', fun _ => ?_⟩
  have hroom : P (w'.dissolve c) := dissolve_of_steps hwake htake c hw'
  exact wakeLinks_of_steps hwake _ (hgive _ (htake _ g hroom))

end

/-! ### Queued actions -/

/-- What is left to show for an action: that a target may be set, that a chain may be dropped, and
that one may be installed if the gate is running. -/
theorem leads_perform_of {g : GateRef} {a : GateAction} {w : World σ ρ} (hw : P w)
    (htarget : ∀ channel target, a = .setLifetimeTarget channel target → ∀ gate,
      w.output? g = some gate → ∀ outlet, gate.outlet.setTarget channel target = .ok outlet →
        P (w.modifyOutput g fun gate => { gate with outlet }))
    (hdrop : P (w.dropChain g))
    (hinstall : ∀ c, a = .establishChain c → w.stateAt g = some .running →
      (install write g c).Leads w (fun _ => P) P)
    (hsignal : ∀ w c, P w → P (w.signal c)) : (perform write g a).Leads w (fun _ => P) P := by
  cases a with
  | limitBufferSize channel size => exact leads_pure hw
  | setLifetimeTarget channel target =>
    refine leads_bind (leads_outputGate (fun gate hgate => leads_bind (leads_ofExcept ?_ hw)) hw)
    exact fun outlet houtlet => leads_modify (htarget channel target rfl gate hgate outlet houtlet)
  | dropChain => exact leads_modify hdrop
  | establishChain c =>
    refine leads_bind (leads_outputGate (fun gate hgate => ?_) hw)
    have hbody : Leads (if gate.state = .running then install write g c else pure ()) w
        (fun _ => P) P := by
      split_ifs with hrunning
      · exact hinstall c rfl (by rw [stateAt, hgate, Option.map_some, hrunning])
      · exact leads_pure hw
    refine leads_bind (leads_attempt (hbody.mono (fun _ w' hw' => ?_) fun w' hw' e => ?_))
    · exact leads_bind (leads_modify (keeps_ofExcept _ _ (hsignal w' c hw')))
    · exact leads_bind (leads_modify (keeps_ofExcept _ _ (hsignal w' c hw')))

/-- What is kept by taking any queued action off the queue and performing it. -/
theorem keeps_performQueued_of {g : GateRef}
    (hnext : ∀ w a, P w → (w.popAction g).1 = some a →
      (perform write g a).Leads (w.popAction g).2 (fun _ => P) P) (n : ℕ) :
    Keeps P (performQueued write g n) := by
  induction n with
  | zero => exact keeps_pure _
  | succ n ih =>
    intro w hw
    refine leads_bind (leads_modifyGet ?_)
    cases ha : (w.popAction g).1 with
    | none => exact leads_pure ((popAction_of_none ha).2.symm ▸ hw)
    | some a =>
      refine leads_bind ((hnext w a hw ha).mono ?_ fun _ => id)
      exact fun _ w' hw' => ih w' hw'

/-! ### Writes -/

/-- A record is handed over to the chain of a gate, or else to some of its channels. -/
def handOver (write : GateRef → ρ → Flow σ ρ Unit) (g : GateRef) (chain : Option Chain)
    (channels : List ℕ) (record : ρ) : Flow σ ρ Unit :=
  match chain with
  | some c => writeFrom write c 0 record
  | none => channels.forM (writeChannel write g record)

/-- A gate that does not run refuses records, and nothing else happens. -/
theorem run_writeOnce_of_not_running {w : World σ ρ} {g : GateRef} {gate : OutputGate ρ}
    (hgate : w.output? g = some gate) (hstate : gate.state ≠ .running) (record : ρ) :
    (writeOnce write g record).run.run w = (.error (.gateNotRunning gate.id gate.state), w) := by
  rw [writeOnce, run_outputGate_bind hgate, if_pos hstate]
  rfl

/-- A running gate reports a record and selects channels for it; then it hands the record over, and
then it carries out what is queued. -/
theorem run_writeOnce_of_running {w : World σ ρ} {g : GateRef} {gate : OutputGate ρ}
    (hgate : w.output? g = some gate) (hrunning : gate.state = .running) (record : ρ) :
    ∃ channels w₁, w₁.standing = w.standing ∧ (writeOnce write g record).run.run w =
      (handOver write g gate.chain channels record >>= fun _ =>
        performPending write g).run.run w₁ := by
  refine ⟨((w.report g.task (.emitted g.gate)).select g record).1,
    ((w.report g.task (.emitted g.gate)).select g record).2, by simp, ?_⟩
  rw [writeOnce, run_outputGate_bind hgate, if_neg (not_not.mpr hrunning)]
  beta_reduce
  rw [run_modify_bind, run_modifyGet_bind]
  cases gate.chain <;> rfl

section

variable {g : GateRef} {record : ρ}
  (hchannel : ∀ index, Keeps P (writeChannel write g record index))

include hP hchannel

theorem keeps_handOver {chain : Option Chain}
    (hlinks : ∀ c, chain = some c → ∀ l ∈ c.links, ∀ record, Keeps P (write l.outputRef record))
    (channels : List ℕ) : Keeps P (handOver write g chain channels record) := by
  cases chain with
  | some c => exact keeps_writeFrom hP (hlinks c rfl) 0 record
  | none => exact keeps_forM hchannel channels

/-- What is left to show for a write is that the chain of the gate and its queued actions may do
what they do. -/
theorem keeps_writeOnce_of
    (hlinks : ∀ w c, P w → w.Holds g c → ∀ l ∈ c.links, ∀ record,
      Keeps P (write l.outputRef record))
    (hpending : Keeps P (performPending write g)) : Keeps P (writeOnce write g record) := by
  intro w hw
  cases hgate : w.output? g with
  | none =>
    refine leads_bind (leads_outputGate (fun gate hthere => ?_) hw)
    rw [hgate] at hthere
    cases hthere
  | some gate =>
    refine leads_iff_run.mpr fun result w' hrun => ?_
    by_cases hrunning : gate.state = .running
    · obtain ⟨channels, w₁, hw₁, hwrite⟩ := run_writeOnce_of_running hgate hrunning record
      have hover : Keeps P (handOver write g gate.chain channels record) := by
        refine keeps_handOver hP hchannel (fun c hc => hlinks w c hw ?_) channels
        simp [Holds, chainAt, hgate, hc]
      rw [hwrite] at hrun
      exact leads_iff_run.mp (hover.bind (fun _ => hpending) w₁ (hP hw₁ hw)) result w' hrun
    · rw [run_writeOnce_of_not_running hgate hrunning] at hrun
      cases hrun
      exact hw

end

end LatencyControl.Flow
