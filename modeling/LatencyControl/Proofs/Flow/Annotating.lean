import LatencyControl.Proofs.Flow.Calm
import LatencyControl.Proofs.Flow.Noting
import LatencyControl.Proofs.Flow.Passing
import LatencyControl.Proofs.Flow.Queue

/-!
# Activities that note what is selected

`Flow.notingWithin` writes as `Flow.writeWithin` does, and notes for each record that comes to a
running gate which channels the gate selects for it, no matter how deep the write is made inside
others.  `Flow.Annotates x' x` says that an activity `x'` on an instance with notes does what `x`
does: it has the same outcome and changes the instance in the same way, and its new notes are the
selections by which the turns of the gates have changed.  Nothing fails for lack of a channel on the
way.

An activity that takes the way of writing as a parameter annotates itself if the ways of writing
annotate each other; this is shown for one activity after the other, as they call each other.  So
`Flow.annotates_writeWithin` follows by induction on the depth.
-/

namespace LatencyControl

variable {σ ρ α β γ : Type}

/-! ### Failures -/

theorem finds_ok (a : α) : Finds (.ok a : Except Error α) := by simp [Finds]

theorem Finds.error {e : Error} (h : Finds (.error e : Except Error α)) :
    Finds (.error e : Except Error β) :=
  fun gate index heq => h gate index (congrArg Except.error (Except.error.inj heq))

theorem Channel.finds_flush {τ : Type} (c : Channel τ ρ) (connected : Bool) :
    Finds (c.flush connected).1 := by
  unfold flush
  split_ifs
  · exact finds_ok _
  · exact finds_ok _
  · simp [Finds]

theorem Bank.finds_flush {τ κ : Type} (b : Bank τ ρ κ) (connected : κ → Bool) :
    Finds (b.flush connected).1 := by
  show Finds (flushLanes connected b.lanes).1
  induction b.lanes with
  | nil => exact finds_ok _
  | cons l rest ih =>
    have hfirst := l.channel.finds_flush (connected l.receiver)
    unfold flushLanes
    split
    · exact ih
    · next hsent =>
      rw [hsent] at hfirst
      exact hfirst.error

theorem Channel.finds_write {τ : Type} [Millis τ] (c : Channel τ ρ) (now : τ) (connected : Bool)
    (record : ρ) : Finds (c.write now connected record).1 := by
  simp only [write]
  split_ifs
  · exact finds_flush _ _
  · exact finds_ok _

/-- A write to a channel that is there does not fail for lack of it. -/
theorem Bank.finds_write {τ κ : Type} [Millis τ] {b : Bank τ ρ κ} {index : ℕ}
    (hindex : index < b.lanes.length) (now : τ) (connected : κ → Bool) (record : ρ) :
    Finds (b.write index now connected record).1 := by
  have hl : b.lanes[index]? = some b.lanes[index] := List.getElem?_eq_getElem hindex
  have hsent := b.lanes[index].channel.finds_write now (connected b.lanes[index].receiver) record
  simp only [write, hl]
  cases h : (b.lanes[index].channel.write now (connected b.lanes[index].receiver) record).1 with
  | ok records => exact finds_ok _
  | error e =>
    rw [h] at hsent
    exact hsent.error

namespace Flow

open World

/-! ### Notes -/

/-- What is selected on the way from one instance to another. -/
structure Course (w : World σ ρ) (picks : List (Pick ρ)) (w' : World σ ρ) : Prop where
  turns : Picks w.turnAt picks w'.turnAt
  threads : w.ThreadsFind → w'.ThreadsFind

variable {w w' w'' : World σ ρ} {picks picks' : List (Pick ρ)}

theorem Course.of_footing (hw : w'.footing = w.footing) : Course w [] w' where
  turns := turnAt_congr hw ▸ .nil
  threads := (threadsFind_congr hw).mpr

theorem Course.trans (h : Course w picks w') (h' : Course w' picks' w'') :
    Course w (picks ++ picks') w'' where
  turns := h.turns.trans h'.turns
  threads hw := h'.threads (h.threads hw)

/-- An activity on an instance with notes does what another one does without them, and notes what is
selected. -/
def AnnotatesAt (notes : List (Pick ρ)) (w : World σ ρ) (x' : Flow (Noted σ ρ) ρ α)
    (x : Flow σ ρ α) : Prop :=
  ∃ picks, x'.run.run (w.annotated notes)
      = ((x.run.run w).1, (x.run.run w).2.annotated (notes ++ picks)) ∧
    Course w picks (x.run.run w).2 ∧ Finds (x.run.run w).1

theorem AnnotatesAt.finds {notes : List (Pick ρ)} {x' : Flow (Noted σ ρ) ρ α} {x : Flow σ ρ α}
    (h : AnnotatesAt notes w x' x) : Finds (x.run.run w).1 := by
  obtain ⟨-, -, -, hfinds⟩ := h
  exact hfinds

/-- The same for all instances and notes. -/
def Annotates (x' : Flow (Noted σ ρ) ρ α) (x : Flow σ ρ α) : Prop :=
  ∀ notes w, AnnotatesAt notes w x' x

/-! ### How activities are put together -/

variable {notes : List (Pick ρ)} {x' : Flow (Noted σ ρ) ρ α} {x : Flow σ ρ α}

/-- Nothing is selected on the way. -/
theorem annotatesAt_of_run {result : Except Error α}
    (hrun' : x'.run.run (w.annotated notes) = (result, w'.annotated notes))
    (hrun : x.run.run w = (result, w')) (hw' : w'.footing = w.footing) (hresult : Finds result) :
    AnnotatesAt notes w x' x := by
  refine ⟨[], ?_, ?_, ?_⟩
  · rw [hrun', hrun, List.append_nil]
  · rw [hrun]
    exact .of_footing hw'
  · rw [hrun]
    exact hresult

theorem annotates_pure (a : α) :
    Annotates (pure a : Flow (Noted σ ρ) ρ α) (pure a : Flow σ ρ α) :=
  fun _ _ => annotatesAt_of_run rfl rfl rfl (finds_ok a)

theorem annotates_throw {e : Error} (he : ∀ gate index, e ≠ .noChannel gate index) :
    Annotates (throw e : Flow (Noted σ ρ) ρ α) (throw e : Flow σ ρ α) :=
  fun _ _ => annotatesAt_of_run rfl rfl rfl fun gate index h =>
    he gate index (Except.error.inj h)

theorem annotates_ofExcept {result : Except Error α} (hresult : Finds result) :
    Annotates (ofExcept result : Flow (Noted σ ρ) ρ α) (ofExcept result : Flow σ ρ α) :=
  fun _ _ => annotatesAt_of_run rfl rfl rfl hresult

theorem annotates_modify {f' : World (Noted σ ρ) ρ → World (Noted σ ρ) ρ}
    {f : World σ ρ → World σ ρ}
    (hannotated : ∀ notes w, f' (w.annotated notes) = (f w).annotated notes)
    (hfooting : ∀ w, (f w).footing = w.footing) :
    Annotates (modify f' : Flow (Noted σ ρ) ρ Unit) (modify f : Flow σ ρ Unit) :=
  fun notes w => annotatesAt_of_run (congrArg (Prod.mk _) (hannotated notes w)) rfl (hfooting w)
    (finds_ok _)

theorem annotates_modifyGet {f' : World (Noted σ ρ) ρ → α × World (Noted σ ρ) ρ}
    {f : World σ ρ → α × World σ ρ}
    (hannotated : ∀ notes w, f' (w.annotated notes) = ((f w).1, (f w).2.annotated notes))
    (hfooting : ∀ w, (f w).2.footing = w.footing) :
    Annotates (modifyGet f' : Flow (Noted σ ρ) ρ α) (modifyGet f : Flow σ ρ α) := by
  intro notes w
  have hrun' : (modifyGet f' : Flow (Noted σ ρ) ρ α).run.run (w.annotated notes) =
      (.ok (f w).1, (f w).2.annotated notes) := by
    show ((.ok (f' (w.annotated notes)).1, (f' (w.annotated notes)).2) : Except Error α × _) = _
    rw [hannotated]
  exact annotatesAt_of_run hrun' rfl (hfooting w) (finds_ok _)

/-- What follows an activity may rely on how that ended and on what was selected. -/
theorem AnnotatesAt.bind {f' : α → Flow (Noted σ ρ) ρ β} {f : α → Flow σ ρ β}
    (hx : AnnotatesAt notes w x' x)
    (hf : ∀ a w₁ more, x.run.run w = (.ok a, w₁) → Course w more w₁ →
      AnnotatesAt (notes ++ more) w₁ (f' a) (f a)) :
    AnnotatesAt notes w (x' >>= f') (x >>= f) := by
  obtain ⟨picks, hrun', hcourse, hfinds⟩ := hx
  rcases hrun : x.run.run w with ⟨e | a, w₁⟩
  · rw [hrun] at hrun' hcourse hfinds
    refine ⟨picks, ?_, ?_, ?_⟩
    · rw [run_bind_of_error hrun', run_bind_of_error hrun]
    · rw [run_bind_of_error hrun]
      exact hcourse
    · rw [run_bind_of_error hrun]
      exact hfinds.error
  · rw [hrun] at hrun' hcourse
    obtain ⟨more, hmore', hmore, hfinds'⟩ := hf a w₁ picks hrun hcourse
    refine ⟨picks ++ more, ?_, ?_, ?_⟩
    · rw [run_bind_of_ok hrun', run_bind_of_ok hrun, hmore', List.append_assoc]
    · rw [run_bind_of_ok hrun]
      exact hcourse.trans hmore
    · rw [run_bind_of_ok hrun]
      exact hfinds'

theorem Annotates.bind {f' : α → Flow (Noted σ ρ) ρ β} {f : α → Flow σ ρ β}
    (hx : Annotates x' x) (hf : ∀ a, Annotates (f' a) (f a)) :
    Annotates (x' >>= f') (x >>= f) :=
  fun notes w => (hx notes w).bind fun a w₁ more _ _ => hf a (notes ++ more) w₁

/-- A failure that is held on to is none for lack of a channel. -/
theorem AnnotatesAt.attempt_bind {f' : Except Error α → Flow (Noted σ ρ) ρ β}
    {f : Except Error α → Flow σ ρ β} (hx : AnnotatesAt notes w x' x)
    (hf : ∀ result w₁ more, Finds result → Course w more w₁ →
      AnnotatesAt (notes ++ more) w₁ (f' result) (f result)) :
    AnnotatesAt notes w (attempt x' >>= f') (attempt x >>= f) := by
  obtain ⟨picks, hrun', hcourse, hfinds⟩ := hx
  rcases hrun : x.run.run w with ⟨result, w₁⟩
  rw [hrun] at hrun' hcourse hfinds
  obtain ⟨more, hmore', hmore, hfinds'⟩ := hf result w₁ picks hfinds hcourse
  refine ⟨picks ++ more, ?_, ?_, ?_⟩
  · rw [run_attempt_bind hrun', run_attempt_bind hrun, hmore', List.append_assoc]
  · rw [run_attempt_bind hrun]
    exact hcourse.trans hmore
  · rw [run_attempt_bind hrun]
    exact hfinds'

theorem Annotates.attempt_bind {f' : Except Error α → Flow (Noted σ ρ) ρ β}
    {f : Except Error α → Flow σ ρ β} (hx : Annotates x' x)
    (hf : ∀ result, Finds result → Annotates (f' result) (f result)) :
    Annotates (attempt x' >>= f') (attempt x >>= f) :=
  fun notes w => (hx notes w).attempt_bind fun result w₁ more hresult _ =>
    hf result hresult (notes ++ more) w₁

theorem annotatesAt_get_bind {f' : World (Noted σ ρ) ρ → Flow (Noted σ ρ) ρ β}
    {f : World σ ρ → Flow σ ρ β} (hf : AnnotatesAt notes w (f' (w.annotated notes)) (f w)) :
    AnnotatesAt notes w (get >>= f') (get >>= f) := hf

theorem annotatesAt_outputGate_bind {g : GateRef} {f' : OutputGate ρ → Flow (Noted σ ρ) ρ β}
    {f : OutputGate ρ → Flow σ ρ β}
    (hf : ∀ gate, w.output? g = some gate → AnnotatesAt notes w (f' gate) (f gate)) :
    AnnotatesAt notes w (outputGate g >>= f') (outputGate g >>= f) := by
  cases hgate : w.output? g with
  | some gate =>
    have hgate' : (w.annotated notes).output? g = some gate := (output?_annotated w g).trans hgate
    unfold AnnotatesAt
    rw [run_outputGate_bind hgate', run_outputGate_bind hgate]
    exact hf gate hgate
  | none =>
    have hgate' : (w.annotated notes).output? g = none := (output?_annotated w g).trans hgate
    have hmissing : ∀ {σ' : Type} {w' : World σ' ρ} {k : OutputGate ρ → Flow σ' ρ β},
        w'.output? g = none →
          (outputGate g >>= k).run.run w' = (.error (.noOutputGate g.gate), w') := by
      intro _ w' k hnone
      refine run_bind_of_error ?_
      rw [outputGate, run_get_bind, hnone]
      rfl
    exact annotatesAt_of_run (hmissing hgate') (hmissing hgate) rfl (by simp [Finds])

theorem annotates_forM {f' : γ → Flow (Noted σ ρ) ρ PUnit} {f : γ → Flow σ ρ PUnit}
    (hf : ∀ c, Annotates (f' c) (f c)) (items : List γ) :
    Annotates (items.forM f') (items.forM f) := by
  induction items with
  | nil => exact annotates_pure _
  | cons c rest ih => exact (hf c).bind fun _ => ih

/-! ### Threads -/

section

variable {write' : GateRef → ρ → Flow (Noted σ ρ) ρ Unit} {write : GateRef → ρ → Flow σ ρ Unit}
  (hwrite : ∀ g record, Annotates (write' g record) (write g record))

include hwrite

theorem annotates_handleRecord (task : ℕ) :
    Annotates (handleRecord write' task) (handleRecord write task) := by
  unfold handleRecord
  refine (annotates_modifyGet (by simp) (by simp)).bind ?_
  intro read
  cases read with
  | none => exact annotates_pure _
  | some record =>
    refine (annotates_modify (by simp) (by simp)).bind fun _ => ?_
    refine (annotates_modifyGet (by simp) (by simp)).bind fun made => ?_
    exact annotates_forM (hwrite _) made

theorem annotates_handleRecords (task n : ℕ) :
    Annotates (handleRecords write' task n) (handleRecords write task n) := by
  induction n with
  | zero => exact annotates_pure _
  | succ n ih =>
    intro notes w
    unfold handleRecords
    refine annotatesAt_get_bind ?_
    rw [task?_annotated]
    cases w.task? task with
    | none => exact annotates_pure _ notes w
    | some t =>
      show AnnotatesAt notes w (if t.isLive && t.hasWork then _ else _)
        (if t.isLive && t.hasWork then _ else _)
      split_ifs
      · refine (annotates_handleRecord hwrite task notes w).attempt_bind ?_
        intro result w₁ more hresult _
        cases result with
        | ok _ => exact ih _ w₁
        | error e =>
          -- nothing is selected here, but the footing changes, as the thread ends
          refine ⟨[], ?_, ⟨?_, fun hw₁ => hw₁.endThread hresult.error⟩, finds_ok _⟩
          · rw [List.append_nil]
            exact congrArg (Prod.mk _) (endThread_annotated w₁ task _)
          · show Picks w₁.turnAt [] (w₁.endThread task (.error e)).turnAt
            rw [turnAt_endThread]
            exact .nil
      · exact annotates_pure _ notes w

theorem annotates_giveTurn (task records : ℕ) :
    Annotates (giveTurn write' task records) (giveTurn write task records) := by
  intro notes w
  unfold giveTurn
  refine annotatesAt_get_bind ?_
  rw [task?_annotated]
  cases w.task? task with
  | none => exact annotates_pure _ notes w
  | some t =>
    show AnnotatesAt notes w (if t.isIdle then _ else _) (if t.isIdle then _ else _)
    split_ifs
    · refine Annotates.bind (annotates_modify (by simp) (by simp)) (fun _ => ?_) notes w
      refine (annotates_handleRecords hwrite task records).bind fun _ => ?_
      exact annotates_modify (by simp) (by simp)
    · exact annotates_pure _ notes w

theorem annotates_settle (task : ℕ) : Annotates (settle write' task) (settle write task) := by
  intro notes w
  unfold settle
  refine annotatesAt_get_bind ?_
  rw [input?_annotated]
  show AnnotatesAt notes w (if w.isEager then _ else _) (if w.isEager then _ else _)
  split_ifs
  · exact annotates_giveTurn hwrite task _ notes w
  · exact annotates_pure _ notes w

theorem annotates_deliver (s : Shipment ρ Receiver) :
    Annotates (deliver write' s) (deliver write s) := by
  unfold deliver
  refine (annotates_modify (by simp) (by simp)).bind ?_
  intro _
  cases s.1 with
  | task task => exact annotates_settle hwrite task
  | sink _ => exact annotates_pure _

/-! ### Channels -/

omit hwrite in
theorem annotatesAt_setOutlet {g : GateRef} {gate : OutputGate ρ} {outlet : Outlet ρ}
    (hgate : w.output? g = some gate) (hreceivers : outlet.receivers = gate.outlet.receivers) :
    AnnotatesAt notes w (setOutlet g outlet : Flow (Noted σ ρ) ρ Unit)
      (setOutlet g outlet : Flow σ ρ Unit) :=
  annotatesAt_of_run (congrArg (Prod.mk _) (modifyOutput_annotated w g _)) rfl
    (footing_setOutlet hgate hreceivers) (finds_ok _)

theorem annotates_flushGate (g : GateRef) : Annotates (flushGate write' g) (flushGate write g) := by
  intro notes w
  unfold flushGate
  refine annotatesAt_outputGate_bind fun gate hgate => ?_
  cases houtlet : gate.outlet with
  | direct _ _ =>
    exact annotates_throw (by simp) notes w
  | channels bank =>
    refine annotatesAt_get_bind ?_
    rw [isOpen_annotated]
    have hreceivers : (Outlet.channels (bank.flush w.isOpen).2.2).receivers
        = gate.outlet.receivers := by
      rw [houtlet]
      exact Bank.receivers_flushLanes w.isOpen bank.lanes
    refine (annotatesAt_setOutlet hgate hreceivers).bind fun _ w₁ more _ _ => ?_
    exact (annotates_forM (annotates_deliver hwrite) _).bind
      (fun _ => annotates_ofExcept (bank.finds_flush w.isOpen)) _ w₁

/-- A channel has to be there for a record to be written to it. -/
theorem annotatesAt_writeChannel {g : GateRef} {index : ℕ}
    (hindex : ∀ selector n, w.turnAt g = some (selector, n) → index < n) (record : ρ) :
    AnnotatesAt notes w (writeChannel write' g record index)
      (writeChannel write g record index) := by
  unfold writeChannel
  refine annotatesAt_get_bind (annotatesAt_outputGate_bind fun gate hgate => ?_)
  cases houtlet : gate.outlet with
  | direct _ receiver =>
    rw [isOpen_annotated]
    dsimp only
    split_ifs
    · exact annotates_deliver hwrite _ notes w
    · exact annotates_throw (by simp) notes w
  | channels bank =>
    rw [isOpen_annotated]
    have hbank : index < bank.lanes.length := by
      have hturn : w.turnAt g = some (gate.selector, gate.outlet.size) := by
        rw [turnAt, hgate]
        rfl
      have hsize := hindex _ _ hturn
      rwa [houtlet] at hsize
    have hreceivers : (Outlet.channels (bank.write index w.clock w.isOpen record).2).receivers
        = gate.outlet.receivers := by
      rw [houtlet]
      exact bank.receivers_write index w.clock w.isOpen record
    refine (annotatesAt_setOutlet hgate hreceivers).bind fun _ w₁ more _ _ => ?_
    exact (annotates_ofExcept (Bank.finds_write hbank w.clock w.isOpen record)).bind
      (fun s => annotates_deliver hwrite s) _ w₁

/-- While a record is written to one channel, the others stay where they are. -/
theorem annotatesAt_forM_writeChannel {g : GateRef} {channels : List ℕ}
    (hchannels : ∀ selector n, w.turnAt g = some (selector, n) → ∀ i ∈ channels, i < n)
    (record : ρ) :
    AnnotatesAt notes w (channels.forM (writeChannel write' g record))
      (channels.forM (writeChannel write g record)) := by
  induction channels generalizing notes w with
  | nil => exact annotates_pure _ notes w
  | cons index rest ih =>
    have hfirst : ∀ selector n, w.turnAt g = some (selector, n) → index < n :=
      fun selector n hturn => hchannels selector n hturn index List.mem_cons_self
    -- the write may have made others at this very gate, which leave the number of channels alone
    refine (annotatesAt_writeChannel hwrite hfirst record).bind fun _ w₁ more _ hcourse => ih ?_
    intro selector n hturn i hi
    obtain ⟨selector', hbefore⟩ := hcourse.turns.exists_before hturn
    exact hchannels selector' n hbefore i (List.mem_cons_of_mem index hi)

/-! ### Chains -/

omit hwrite in
theorem annotates_runLink (l : ChainLink) (records : List ρ) :
    Annotates (runLink l records : Flow (Noted σ ρ) ρ _) (runLink l records : Flow σ ρ _) := by
  induction records with
  | nil => exact annotates_pure _
  | cons record rest ih =>
    refine (annotates_modify (by simp) (by simp)).bind fun _ => ?_
    refine (annotates_modifyGet (by simp) (by simp)).bind fun made => ?_
    exact ih.bind fun _ => annotates_pure _

theorem annotates_passAlong (links : List ChainLink) (records : List ρ) :
    Annotates (passAlong write' links records) (passAlong write links records) := by
  fun_induction passAlong write links records with
  | case1 => exact annotates_pure _
  | case2 last records => exact (annotates_runLink last records).bind (annotates_forM (hwrite _))
  | case3 l next rest records ih =>
    refine (annotates_runLink l records).bind fun made => ?_
    refine (annotates_forM (fun _ => ?_) made).bind fun _ => ih made
    exact annotates_modify (by simp) (by simp)

theorem annotates_writeFrom (c : Chain) (start : ℕ) (record : ρ) :
    Annotates (writeFrom write' c start record) (writeFrom write c start record) := by
  unfold writeFrom
  split_ifs
  · exact annotates_passAlong hwrite _ _
  · exact annotates_throw (by simp)

omit hwrite in
theorem finds_awaitParked (w : World σ ρ) (i : GateRef) (millis : ℕ) :
    Finds (w.awaitParked i millis) := by
  unfold awaitParked
  split
  · split
    · exact finds_ok _
    · simp [Finds]
  · simp [Finds]

theorem annotates_secureLink (millis : ℕ) (l : ChainLink) :
    Annotates (secureLink write' millis l) (secureLink write millis l) := by
  intro notes w
  unfold secureLink
  refine annotatesAt_get_bind ?_
  rw [awaitParked_annotated]
  exact (annotates_ofExcept (finds_awaitParked w l.inputRef millis)).bind
    (fun _ => annotates_flushGate hwrite l.outputRef) notes w

theorem annotates_haltLinks (millis : ℕ) (links : List ChainLink) :
    Annotates (haltLinks write' millis links) (haltLinks write millis links) := by
  induction links with
  | nil => exact annotates_pure _
  | cons l rest ih =>
    unfold haltLinks
    refine (annotates_modifyGet (by simp) (by simp)).bind fun isNew => ?_
    refine (annotates_secureLink hwrite millis l).attempt_bind fun result _ => ?_
    cases result with
    | error e => exact annotates_pure _
    | ok _ => exact ih.bind fun answer => annotates_pure _

omit hwrite in
/-- An answer tells what has become of an activity. -/
theorem leads_attempt_of_run {post : Except Error α → World σ ρ → Prop} {fail : World σ ρ → Prop}
    (h : post (x.run.run w).1 (x.run.run w).2) : (attempt x).Leads w post fail := by
  unfold Leads
  rw [attempt, ExceptT.run_lift, StateT.run_map]
  exact h

/-- Links that do not come to rest are none for lack of a channel. -/
theorem leads_haltLinks_finds (millis : ℕ) (links : List ChainLink) (w : World σ ρ) :
    (haltLinks write millis links).Leads w (fun answer _ => Finds answer.1) fun _ => True := by
  induction links generalizing w with
  | nil => exact leads_pure (finds_ok _)
  | cons l rest ih =>
    refine leads_bind (leads_modifyGet (leads_bind ?_))
    have hsecure := (annotates_secureLink hwrite millis l [] (w.halt l.inputRef).2).finds
    refine leads_attempt_of_run ?_
    rcases hrun : (secureLink write millis l).run.run (w.halt l.inputRef).2 with ⟨e | _, w₁⟩
    · rw [hrun] at hsecure
      exact leads_pure hsecure.error
    · refine leads_bind ((ih w₁).mono ?_ fun _ => id)
      exact fun answer w₂ hanswer => leads_pure hanswer

theorem annotates_drainLinks (c : Chain) (links : List (ChainLink × ℕ)) :
    Annotates (drainLinks write' c links) (drainLinks write c links) := by
  induction links with
  | nil => exact annotates_pure _
  | cons entry rest ih =>
    refine (annotates_modifyGet (by simp) (by simp)).bind fun records => ?_
    exact (annotates_forM (annotates_writeFrom hwrite c entry.2) records).bind fun _ => ih

theorem annotates_install (g : GateRef) (c : Chain) :
    Annotates (install write' g c) (install write g c) := by
  unfold install
  refine (annotates_flushGate hwrite g).bind fun _ notes w => ?_
  refine annotatesAt_outputGate_bind fun gate _ => ?_
  refine (annotates_haltLinks hwrite gate.timeout c.links notes w).bind ?_
  rintro ⟨result, halted⟩ w₁ more hrun _
  have hresult : Finds result := (leads_haltLinks_finds hwrite gate.timeout c.links w).of_ok hrun
  cases result with
  | error e =>
    refine Annotates.bind (annotates_modify (by simp) (by simp)) (fun _ notes w => ?_) _ w₁
    refine AnnotatesAt.bind
      (annotates_throw (fun gate index h => hresult gate index (congrArg _ h)) notes w) ?_
    rintro _ _ _ ⟨⟩
  | ok _ =>
    refine Annotates.bind (annotates_modify (by simp) (by simp)) (fun _ => ?_) _ w₁
    refine (annotates_modify (by simp) (by simp)).bind fun _ => ?_
    refine (annotates_drainLinks hwrite c _).attempt_bind fun drained hdrained => ?_
    cases drained with
    | ok _ => exact annotates_pure _
    | error e =>
      refine (annotates_modify (by simp) (by simp)).bind fun _ => ?_
      exact annotates_throw fun gate index h => hdrained gate index (congrArg _ h)

theorem annotates_establish (g : GateRef) (c : Chain) :
    Annotates (establish write' g c) (establish write g c) := by
  intro notes w
  unfold establish
  refine annotatesAt_outputGate_bind fun gate _ => ?_
  have hbody : Annotates (if gate.state = .running then install write' g c else pure ())
      (if gate.state = .running then install write g c else pure ()) := by
    split_ifs
    · exact annotates_install hwrite g c
    · exact annotates_pure _
  refine Annotates.attempt_bind hbody (fun result hresult => ?_) notes w
  exact (annotates_modify (by simp) (by simp)).bind
    fun _ => annotates_ofExcept hresult

/-! ### Actions -/

theorem annotates_perform (g : GateRef) (a : GateAction) :
    Annotates (perform write' g a) (perform write g a) := by
  cases a with
  | limitBufferSize channel size => exact annotates_pure _
  | setLifetimeTarget channel target =>
    intro notes w
    refine annotatesAt_outputGate_bind fun gate hgate => ?_
    obtain ⟨outlet, houtlet, -⟩ := gate.outlet.setTarget_eq_ok channel target
    rw [houtlet]
    exact annotatesAt_setOutlet hgate (Outlet.receivers_setTarget houtlet)
  | establishChain c => exact annotates_establish hwrite g c
  | dropChain =>
    exact annotates_modify (by simp) (by simp)

theorem annotates_performQueued (g : GateRef) (n : ℕ) :
    Annotates (performQueued write' g n) (performQueued write g n) := by
  induction n with
  | zero => exact annotates_pure _
  | succ n ih =>
    unfold performQueued
    refine (annotates_modifyGet (by simp) (by simp)).bind fun next => ?_
    cases next with
    | none => exact annotates_pure _
    | some a => exact (annotates_perform hwrite g a).bind fun _ => ih

theorem annotates_performPending (g : GateRef) :
    Annotates (performPending write' g) (performPending write g) :=
  fun notes w => annotatesAt_outputGate_bind fun _ _ => annotates_performQueued hwrite g _ notes w

end

/-! ### Writes -/

/-- Writes a record to an output gate, with at most the given number of writes inside each other,
and notes what is selected for this record and for those that are written on the way. -/
def notingWithin : ℕ → GateRef → ρ → Flow (Noted σ ρ) ρ Unit
  | 0, _, _ => throw .nestingTooDeep
  | depth + 1, g, record => do
    modify (·.noteSelection g record)
    writeOnce (notingWithin depth) g record

/-- Carries out an activity with all the depth that it may need, and notes what is selected. -/
def withNotes (x : (GateRef → ρ → Flow (Noted σ ρ) ρ Unit) → Flow (Noted σ ρ) ρ α) :
    Flow (Noted σ ρ) ρ α := do
  x (notingWithin (← get).depth)

section

variable {write' : GateRef → ρ → Flow (Noted σ ρ) ρ Unit} {write : GateRef → ρ → Flow σ ρ Unit}
  (hwrite : ∀ g record, Annotates (write' g record) (write g record))

include hwrite

theorem annotatesAt_handOver {g : GateRef} {channels : List ℕ}
    (hchannels : ∀ selector n, w.turnAt g = some (selector, n) → ∀ i ∈ channels, i < n)
    (chain : Option Chain) (record : ρ) :
    AnnotatesAt notes w (handOver write' g chain channels record)
      (handOver write g chain channels record) := by
  cases chain with
  | some c => exact annotates_writeFrom hwrite c 0 record notes w
  | none => exact annotatesAt_forM_writeChannel hwrite hchannels record

omit hwrite in
/-- A running gate has selected channels for a record before it hands it over. -/
theorem run_writeOnce_eq_handOver {g : GateRef} {gate : OutputGate ρ}
    (hgate : w.output? g = some gate) (hrunning : gate.state = .running) (record : ρ) :
    (writeOnce write g record).run.run w =
      (handOver write g gate.chain ((w.report g.task (.emitted g.gate)).select g record).1
          record >>= fun _ => performPending write g).run.run
        ((w.report g.task (.emitted g.gate)).select g record).2 := by
  rw [run_writeOnce_eq_takeIn hgate hrunning, takeIn, run_modifyGet_bind]

omit hwrite in
/-- The selection for a record that comes to a gate.  That those who observe the task are told of
the record has no say in it. -/
theorem course_select {g : GateRef} {gate : OutputGate ρ} (hgate : w.output? g = some gate)
    (record : ρ) (e : GateEvent) :
    Course w [⟨g, record, (w.select g record).1⟩] ((w.report g.task e).select g record).2 ∧
      ∀ selector n, ((w.report g.task e).select g record).2.turnAt g = some (selector, n) →
        ∀ i ∈ ((w.report g.task e).select g record).1, i < n := by
  have hturn : w.turnAt g = some (gate.selector, gate.outlet.size) := by
    rw [turnAt, hgate]
    rfl
  have hfooting := footing_report w g.task e
  obtain ⟨hselected, -⟩ := turnAt_select hturn record
  obtain ⟨hchannels, hturns⟩ := turnAt_select ((turnAt_congr hfooting).symm ▸ hturn) record
  refine ⟨⟨?_, fun hw => ((threadsFind_congr hfooting).mpr hw).select g record⟩, ?_⟩
  · rw [hturns, turnAt_congr hfooting, hselected]
    exact Picks.nil.select hturn record
  · intro selector n hn i hi
    rw [hturns, Function.update_self] at hn
    obtain ⟨-, rfl⟩ := Prod.mk.inj (Option.some.inj hn)
    rw [hchannels] at hi
    exact Selector.lt_of_mem_select hi

/-- A write to a running gate notes its own selection before those that are made on the way. -/
theorem annotatesAt_writeOnce_of_running (notes : List (Pick ρ)) {g : GateRef}
    {gate : OutputGate ρ} (hgate : w.output? g = some gate) (hrunning : gate.state = .running)
    (record : ρ) :
    ∃ more, (modify (·.noteSelection g record) >>= fun _ => writeOnce write' g record).run.run
        (w.annotated notes) =
          (((writeOnce write g record).run.run w).1,
            ((writeOnce write g record).run.run w).2.annotated
              (notes ++ ([⟨g, record, (w.select g record).1⟩] ++ more))) ∧
      Course w ([⟨g, record, (w.select g record).1⟩] ++ more)
        ((writeOnce write g record).run.run w).2 ∧
      Finds ((writeOnce write g record).run.run w).1 := by
  have hgate' : ∀ notes, (w.annotated notes).output? g = some gate :=
    fun notes => (output?_annotated w g).trans hgate
  obtain ⟨hcourse, hthere⟩ := course_select hgate record (.emitted g.gate)
  obtain ⟨more, hrun, hmore, hfinds⟩ :=
    (annotatesAt_handOver hwrite hthere gate.chain record).bind
      fun _ w₂ more _ _ => annotates_performPending hwrite g
        (notes ++ [⟨g, record, (w.select g record).1⟩] ++ more) w₂
  rw [run_modify_bind, noteSelection_of_running hgate hrunning,
    run_writeOnce_eq_handOver hgate hrunning, run_writeOnce_eq_handOver (hgate' _) hrunning,
    report_annotated, select_annotated]
  refine ⟨more, ?_, hcourse.trans hmore, hfinds⟩
  rw [hrun, List.append_assoc]

theorem annotates_writeOnce (g : GateRef) (record : ρ) :
    Annotates (modify (·.noteSelection g record) >>= fun _ => writeOnce write' g record)
      (writeOnce write g record) := by
  intro notes w
  cases hgate : w.output? g with
  | none =>
    unfold AnnotatesAt
    rw [run_modify_bind, noteSelection_of_none hgate]
    exact annotatesAt_outputGate_bind fun gate hthere => absurd (hgate.symm.trans hthere) (by simp)
  | some gate =>
    by_cases hrunning : gate.state = .running
    · obtain ⟨more, hwritten⟩ := annotatesAt_writeOnce_of_running hwrite notes hgate hrunning record
      exact ⟨_, hwritten⟩
    · have hgate' : (w.annotated notes).output? g = some gate :=
        (output?_annotated w g).trans hgate
      unfold AnnotatesAt
      rw [run_modify_bind, noteSelection_of_not_running hgate hrunning]
      exact annotatesAt_of_run (run_writeOnce_of_not_running hgate' hrunning record)
        (run_writeOnce_of_not_running hgate hrunning record) rfl (by simp [Finds])

end

theorem annotates_writeWithin (depth : ℕ) (g : GateRef) (record : ρ) :
    Annotates (notingWithin depth g record : Flow (Noted σ ρ) ρ Unit)
      (writeWithin depth g record : Flow σ ρ Unit) := by
  induction depth generalizing g record with
  | zero => exact annotates_throw (by simp)
  | succ depth ih => exact annotates_writeOnce ih g record

theorem annotates_withWriter {x' : (GateRef → ρ → Flow (Noted σ ρ) ρ Unit) → Flow (Noted σ ρ) ρ α}
    {x : (GateRef → ρ → Flow σ ρ Unit) → Flow σ ρ α}
    (hx : ∀ write' write, (∀ g record, Annotates (write' g record) (write g record)) →
      Annotates (x' write') (x write)) : Annotates (withNotes x') (withWriter x) := by
  intro notes w
  refine annotatesAt_get_bind ?_
  rw [depth_annotated]
  exact hx _ _ (annotates_writeWithin w.depth) notes w

end Flow

end LatencyControl
