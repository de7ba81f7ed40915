import LatencyControl.Flow.Operation
import LatencyControl.Proofs.Flow.LineWrite

/-!
# Runs of a line

The head of a line writes, its followers get turns to handle one record each, and chains are queued
at any of its gates, in any order.  A single event does nothing to the line but that its head may
take a record (`LineEvent.succeeds_perform`), and the same goes for a whole run: no record is lost,
none is doubled and none overtakes another (`World.FreshLine.conserves_records`).
-/

namespace LatencyControl

variable {σ ρ : Type}

/-! ### Turns -/

namespace Line

/-- A stage whose thread is about to work. -/
def busy (L : Line σ ρ) (k : ℕ) : Line σ ρ :=
  L.modify k fun s => { s with working := s.working.map fun _ => true }

/-- A stage that takes a record off its queue and works on it, without having written what it
made. -/
def work (L : Line σ ρ) (k : ℕ) (record : ρ) : Line σ ρ :=
  L.modify k fun s =>
    { s.after [record] with queue := s.queue.tail, working := s.working.map fun _ => true }

/-- A stage whose thread is done with a record. -/
def rest (L : Line σ ρ) (k : ℕ) : Line σ ρ :=
  L.modify k fun s => { s with working := s.working.map fun _ => false }

theorem yield_work (L : Line σ ρ) (k : ℕ) (record : ρ) (ys : List ρ) :
    (L.work k record).yield k ys = L.yield k ys := by
  rw [work]
  refine yield_modify_self L k _ (fun s => ?_) ys
  rfl

theorem yield_rest (L : Line σ ρ) (k : ℕ) (ys : List ρ) :
    (L.rest k).yield k ys = L.yield k ys := by
  rw [rest]
  refine yield_modify_self L k _ (fun s => ?_) ys
  rfl

/-- A thread that works on a record and is done with it is where it was. -/
theorem fixed_rest {L L' : Line σ ρ} {k : ℕ} {record : ρ} {s : Stage σ ρ}
    (hs : L.stages[k]? = some s) (hidle : s.working = some false)
    (hfixed : L'.stages.map Stage.fixed = (L.work k record).stages.map Stage.fixed) :
    (L'.rest k).stages.map Stage.fixed = L.stages.map Stage.fixed := by
  refine List.ext_getElem? fun m => ?_
  have hm := congrArg (fun l => l[m]?) hfixed
  simp only [List.getElem?_map] at hm ⊢
  by_cases hmk : m = k
  · subst hmk
    rw [work, getElem?_modify_self, hs] at hm
    obtain ⟨s', hs', hsame⟩ := Option.map_eq_some_iff.mp hm
    simp only [Stage.fixed, Stage.after, Prod.mk.injEq] at hsame
    rw [rest, getElem?_modify_self, hs, hs']
    simp [Stage.fixed, hsame.1, hsame.2, hidle]
  · rw [work, getElem?_modify_of_ne L hmk] at hm
    rw [rest, getElem?_modify_of_ne L' hmk, hm]

/-- A thread that handles a record changes nothing before its own stage. -/
theorem getElem?_turn {L L' : Line σ ρ} {k : ℕ} {x : ρ} {made : List ρ}
    (hext : (L.work k x).Extends k made L') {m : ℕ} (hm : m < k) :
    (L'.rest k).stages[m]? = L.stages[m]? := by
  rw [rest, getElem?_modify_of_ne L' (by omega), hext.before m hm, work,
    getElem?_modify_of_ne L (by omega)]

/-- When a follower has handled a record, and its gate has taken what it made of it, nothing has
changed in the end. -/
theorem extends_turn {L L' : Line σ ρ} {k : ℕ} {s : Stage σ ρ} {x : ρ} {later : List ρ}
    (hs : L.stages[k + 1]? = some s) (hidle : s.working = some false)
    (hqueue : s.queue = x :: later)
    (hext : (L.work (k + 1) x).Extends (k + 1) (s.makes [x]) L') :
    L.Extends 0 [] (L'.rest (k + 1)) := by
  have hk : k + 1 < L.size := lt_size hs
  have hfixed := fixed_rest hs hidle hext.fixed
  have hbefore : ∀ m < k + 1, (L'.rest (k + 1)).stages[m]? = L.stages[m]? :=
    fun m hm => getElem?_turn hext hm
  have hinlet : (L'.rest (k + 1)).stages[k + 1]?.map Stage.inlet
      = some (s.code, (s.after [x]).memory, later) := by
    have := hext.inlet
    rw [work, getElem?_modify_self, hs] at this
    rw [rest, getElem?_modify_self, Option.map_map]
    simpa [Stage.inlet, Function.comp_def, Stage.after, hqueue] using this
  obtain ⟨s', hs', hsame⟩ := Option.map_eq_some_iff.mp hinlet
  simp only [Stage.inlet, Prod.mk.injEq] at hsame
  obtain ⟨hcode, hmemory, hlater⟩ := hsame
  have hmakes : ∀ ys, s'.makes ys = (s.after [x]).makes ys := fun ys => by
    rw [Stage.makes, Stage.makes, hcode, hmemory]
    rfl
  have hyield : ∀ ys, (L'.rest (k + 1)).yield (k + 1) ys = L.yield (k + 1) (s.makes [x] ++ ys) := by
    intro ys
    rw [yield_rest, hext.yield_eq, yield_work]
  -- the stage has made of `x` what it would have made later: the gate in front does not notice
  obtain ⟨prev, hprev⟩ := exists_stage (L := L) (k := k) (by omega)
  have hstep : ∀ ys, (L'.rest (k + 1)).yield k ys = L.yield k ys := fun ys =>
    calc (L'.rest (k + 1)).yield k ys
        = (L'.rest (k + 1)).yield (k + 1) (s'.makes (s'.queue ++ prev.buffer ++ ys)) :=
          yield_of_succ ((hbefore k (by omega)).trans hprev) hs' ys
      _ = L.yield (k + 1) (s.makes [x] ++ (s.after [x]).makes (later ++ prev.buffer ++ ys)) := by
          rw [hyield, hmakes, hlater]
      _ = L.yield (k + 1) (s.makes (s.queue ++ prev.buffer ++ ys)) := by
          rw [← Stage.makes_append, hqueue]
          rfl
      _ = L.yield k ys := (yield_of_succ hprev hs ys).symm
  have hhead : L.Extends k [] (L'.rest (k + 1)) :=
    ⟨fun m hm => hbefore m (by omega), by rw [hbefore k (by omega)], hfixed, hstep⟩
  exact hhead.of_le (by omega) (Nat.zero_le k)

/-- A follower that has something to read is not bypassed by a chain, so that all chains before it
stay in place. -/
theorem Sound.turn {L L' : Line σ ρ} {k : ℕ} {s : Stage σ ρ} (h : L.Sound 0)
    (hs : L.stages[k]? = some s) (hqueue : s.queue ≠ []) (hsize : L'.size = L.size)
    (hbefore : ∀ m < k, L'.stages[m]? = L.stages[m]?) (hsound : L'.Sound k) : L'.Sound 0 := by
  intro m s' _ hs'
  by_cases hm : k ≤ m
  · exact hsound m s' hm hs'
  · -- a chain before the follower ends before it, where the line is as it was
    rw [hbefore m (by omega)] at hs'
    obtain ⟨hfits, hclear⟩ := h m s' (Nat.zero_le m) hs'
    refine ⟨fun a ha => hsize ▸ hfits a ha, fun c hc => ?_⟩
    have hplace := hclear c hc
    have hend : m + c.links.length < k := by
      by_contra hreach
      exact hqueue (hplace.way.queues k s (by omega) (by omega) hs)
    refine hplace.imp hsize fun q r hq hq' hr => ?_
    rw [hbefore q (by omega)] at hr
    exact ⟨r, hr, fun _ hb => hb, fun _ hq => hq, fun _ _ hn => hn⟩

end Line

/-! ### Turns of threads -/

theorem World.Shows.read_nil {sink k : ℕ} {w : World σ ρ} {L : Line σ ρ} (h : w.Shows sink L)
    {s : Stage σ ρ} (hs : L.stages[k + 1]? = some s) (hqueue : s.queue = []) :
    w.read { task := k + 1, gate := 0 } = (none, w) := by
  obtain ⟨t, gate, ht, hgate, hs'⟩ := h.exists_input (Line.lt_size hs)
  obtain rfl : s = t.stage := Option.some.inj (hs.symm.trans hs')
  have hgate' : gate.queue = [] := by simpa [Task.stage, hgate] using hqueue
  have hinput : w.input? { task := k + 1, gate := 0 } = some gate := by
    simp [World.input?, World.task?, ht, hgate]
  rw [World.read, hinput, Option.map_some, hgate']

namespace Flow

variable {write : GateRef → ρ → Flow σ ρ Unit} {sink k : ℕ} {w : World σ ρ} {L : Line σ ρ}

/-- The thread of a follower, which is no longer idle, handles a record. -/
theorem succeeds_handleRecord (hwrite : WritesAt write sink L.size (k + 1)) {s : Stage σ ρ}
    {x : ρ} {later : List ρ} (hs : L.stages[k + 1]? = some s) (hqueue : s.queue = x :: later)
    (h : w.Shows sink (L.busy (k + 1))) (hsound : L.Sound (k + 1)) (hidle : L.IdleAfter (k + 1)) :
    (handleRecord write (k + 1)).Succeeds w fun _ w' =>
      w'.HasTaken sink (L.work (k + 1) x) (k + 1) (s.makes [x]) := by
  -- the three things that happen before the write: the record is read, counted and worked on
  have hs₁ : (L.busy (k + 1)).stages[k + 1]?
      = some { s with working := s.working.map fun _ => true } := by
    rw [Line.busy, Line.getElem?_modify_self, hs, Option.map_some]
  obtain ⟨hread, hshow₂⟩ := h.read hs₁ hqueue
  have hs₂ : ((L.busy (k + 1)).modify (k + 1) fun s => { s with queue := later }).stages[k + 1]?
      = some { s with working := s.working.map fun _ => true, queue := later } := by
    rw [Line.getElem?_modify_self, hs₁, Option.map_some]
  obtain ⟨hmade, hshow₃⟩ := (hshow₂.countRead (k + 1)).runCode hs₂ x
  have hwork : ((L.busy (k + 1)).modify (k + 1) fun s => { s with queue := later }).modify (k + 1)
      (·.after [x]) = L.work (k + 1) x := by
    rw [Line.busy, Line.modify_modify, Line.modify_modify, Line.work]
    refine Line.modify_congr fun s' hs' => ?_
    obtain rfl : s = s' := Option.some.inj (hs.symm.trans hs')
    simp [Stage.after, hqueue]
  rw [hwork] at hshow₃
  have hsound₃ : (L.work (k + 1) x).Sound (k + 1) :=
    hsound.modify (k + 1) _ fun s => ⟨fun _ ha => ha, .inl rfl, fun hb => hb, fun hq => by
      simp only [hq, List.tail_nil]⟩
  have hidle₃ : (L.work (k + 1) x).IdleAfter (k + 1) := fun m s hm hs => by
    rw [Line.work, Line.getElem?_modify_of_ne L (by omega)] at hs
    exact hidle m s hm hs
  have hsize : (L.work (k + 1) x).size = L.size := Line.size_modify L (k + 1) _
  refine succeeds_bind (succeeds_modifyGet ?_)
  rw [hread]
  refine succeeds_bind (succeeds_modify (succeeds_bind (succeeds_modifyGet ?_)))
  rw [hmade]
  exact succeeds_forM_write (hsize ▸ hwrite) _ hshow₃ (hsize ▸ Line.lt_size hs) hsound₃ hidle₃

/-- The thread of a follower handles at most one record: none if there is nothing to read, or if it
was asked to halt. -/
theorem succeeds_handleRecords (hwrite : WritesAt write sink L.size (k + 1)) {s : Stage σ ρ}
    (hs : L.stages[k + 1]? = some s) (h : w.Shows sink (L.busy (k + 1)))
    (hsound : L.Sound (k + 1)) (hidle : L.IdleAfter (k + 1)) :
    (handleRecords write (k + 1) 1).Succeeds w fun _ w' =>
      w'.Shows sink (L.busy (k + 1)) ∨ ∃ x later, s.queue = x :: later ∧
        w'.HasTaken sink (L.work (k + 1) x) (k + 1) (s.makes [x]) := by
  have hk : k + 1 < (L.busy (k + 1)).size := by
    rw [Line.busy, Line.size_modify]
    exact Line.lt_size hs
  obtain ⟨t, ht, -⟩ := h.exists_task hk
  refine succeeds_bind (succeeds_get ?_)
  rw [World.task?, ht]
  dsimp only
  split
  · refine succeeds_bind (succeeds_attempt ?_)
    cases hqueue : s.queue with
    | nil =>
      have hs₁ : (L.busy (k + 1)).stages[k + 1]?
          = some { s with working := s.working.map fun _ => true } := by
        rw [Line.busy, Line.getElem?_modify_self, hs, Option.map_some]
      refine succeeds_bind (succeeds_modifyGet ?_)
      rw [h.read_nil hs₁ hqueue]
      exact succeeds_pure (succeeds_pure (.inl h))
    | cons x later =>
      refine (succeeds_handleRecord hwrite hs hqueue h hsound hidle).mono fun _ w' h' => ?_
      exact succeeds_pure (.inr ⟨x, later, rfl, h'⟩)
  · exact succeeds_pure (.inl h)

/-- A follower that gets a turn: in the end, no record has noticed. -/
theorem succeeds_giveTurn (hwrite : WritesAt write sink L.size (k + 1)) (h : w.Shows sink L)
    (hsound : L.Sound 0) (hidle : L.IdleAfter 0) :
    (giveTurn write (k + 1) 1).Succeeds w fun _ w' => w'.HasTaken sink L 0 [] := by
  by_cases hk : k + 1 < L.size
  · obtain ⟨t, ht, hs, -⟩ := h.exists_task hk
    have hworking : t.stage.working = some false := hidle (k + 1) _ (Nat.succ_pos k) hs
    have hisIdle : t.isIdle = true := by
      rcases hthread : t.thread with _ | _ | _ <;>
        simp_all [Task.stage, Task.working, Task.isIdle]
    refine succeeds_bind (succeeds_get ?_)
    rw [World.task?, ht]
    dsimp only
    rw [if_pos hisIdle]
    refine succeeds_bind (succeeds_modify (succeeds_bind ?_))
    refine (succeeds_handleRecords hwrite hs (h.startWork (k + 1)) (hsound.mono (Nat.zero_le _))
      (hidle.mono (Nat.zero_le _))).mono ?_
    rintro _ w' (h' | ⟨x, later, hqueue, L', h', hext, hsound'⟩)
    · -- nothing was handled: the thread has started and stopped
      have hsame : (L.busy (k + 1)).rest (k + 1) = L := by
        rw [Line.busy, Line.rest, Line.modify_modify]
        refine Line.modify_eq_self fun s hs' => ?_
        obtain rfl : t.stage = s := Option.some.inj (hs.symm.trans hs')
        simp only [Function.comp, hworking, Option.map_some]
        rw [← hworking]
      have hstop : World.Shows sink (w'.stopWork (k + 1)) ((L.busy (k + 1)).rest (k + 1)) :=
        h'.stopWork (k + 1)
      rw [hsame] at hstop
      exact succeeds_modify (hstop.hasTaken_nil hsound)
    · have hextends := Line.extends_turn hs hworking hqueue hext
      refine succeeds_modify ⟨_, h'.stopWork (k + 1), hextends, ?_⟩
      refine hsound.turn hs (by simp [hqueue]) (Line.size_eq_of_fixed hextends.fixed)
        (fun m hm => Line.getElem?_turn hext hm) ?_
      exact hsound'.modify (k + 1) _ fun _ => ⟨fun _ ha => ha, .inl rfl, fun hb => hb, fun hq => hq⟩
  · -- there is no such follower
    refine succeeds_bind (succeeds_get ?_)
    have hnone : w.task? (k + 1) = none := by
      rw [h.size_eq] at hk
      exact List.getElem?_eq_none (by omega)
    rw [hnone]
    exact succeeds_pure (h.hasTaken_nil hsound)

end Flow

/-! ### Events -/

/-- What may happen to a line. -/
inductive LineEvent (ρ : Type)
  /-- The head writes a record. -/
  | write (record : ρ)
  /-- A follower, counted from zero, gets a turn to handle one record. -/
  | turn (follower : ℕ)
  /-- An action is queued at the gate of a task. -/
  | enqueue (task : ℕ) (action : GateAction)
  /-- Time passes. -/
  | tick (now : Int64)

namespace LineEvent

/-- Carries out an event. -/
def perform : LineEvent ρ → Flow σ ρ Unit
  | .write record => Flow.write { task := 0, gate := 0 } record
  | .turn follower => Flow.step (follower + 1)
  | .enqueue task action => modify (·.enqueue { task, gate := 0 } action)
  | .tick now => modify fun w => { w with clock := now }

/-- The records that the head writes in an event. -/
def written : LineEvent ρ → List ρ
  | .write record => [record]
  | _ => []

/-- Whether an event may happen in a line of the given size: chains have to take over tasks that
directly follow their heads. -/
def Fits (size : ℕ) : LineEvent ρ → Prop
  | .enqueue task action => action.Fits task size
  | _ => True

variable {sink : ℕ} {w : World σ ρ} {L : Line σ ρ}

/-- An event succeeds, and adds to what the line yields the record that the head writes. -/
theorem succeeds_perform (h : w.Shows sink L) (hsize : 0 < L.size) (hsound : L.Sound 0)
    (hidle : L.IdleAfter 0) {e : LineEvent ρ} (he : e.Fits L.size) :
    Flow.Succeeds e.perform w fun _ w' => w'.HasTaken sink L 0 e.written := by
  -- a write may nest as deep as the line is long
  have hdepth : L.size ≤ w.depth := by
    rw [h.size_eq, World.depth, Nat.mul_assoc]
    calc w.tasks.length ≤ (w.tasks.length + 1) * 1 := by omega
      _ ≤ (w.tasks.length + 1) * ((w.outputGates + 1) * (w.pendingActions + 1)) :=
        Nat.mul_le_mul_left _ (Nat.mul_pos (Nat.succ_pos _) (Nat.succ_pos _))
  cases e with
  | write record =>
    refine Flow.succeeds_bind (Flow.succeeds_get ?_)
    exact Flow.writesAt_writeWithin w.depth (by omega) w L record h rfl hsize hsound hidle
  | turn follower =>
    refine Flow.succeeds_bind (Flow.succeeds_get ?_)
    exact Flow.succeeds_giveTurn (Flow.writesAt_writeWithin w.depth (by omega)) h hsound hidle
  | enqueue task action =>
    refine Flow.succeeds_modify ⟨_, h.enqueue task action,
      Line.extends_modify L (Nat.zero_le task) (fun _ => rfl) (fun _ => rfl) fun _ => rfl, ?_⟩
    exact hsound.enqueue he
  | tick now => exact Flow.succeeds_modify ((h.setClock now).hasTaken_nil hsound)

/-- A run of events succeeds, and adds to what the line yields all records that the head writes, in
their order. -/
theorem succeeds_forM_perform (events : List (LineEvent ρ)) : ∀ {w : World σ ρ} {L : Line σ ρ},
    w.Shows sink L → 0 < L.size → L.Sound 0 → L.IdleAfter 0 → (∀ e ∈ events, e.Fits L.size) →
    Flow.Succeeds (events.forM perform) w fun _ w' =>
      w'.HasTaken sink L 0 (events.flatMap written) := by
  induction events with
  | nil => exact fun h _ hsound _ _ => Flow.succeeds_pure (h.hasTaken_nil hsound)
  | cons e rest ih =>
    intro w L h hsize hsound hidle hfits
    refine Flow.succeeds_bind ((succeeds_perform h hsize hsound hidle
      (hfits e List.mem_cons_self)).mono ?_)
    rintro _ w₁ ⟨L₁, h₁, hext₁, hsound₁⟩
    have hsize₁ := Line.size_eq_of_fixed hext₁.fixed
    have hrest := ih h₁ (hsize₁ ▸ hsize) hsound₁ (hidle.congr hext₁.fixed) fun e he =>
      hsize₁ ▸ hfits e (List.mem_cons_of_mem _ he)
    exact hrest.mono fun _ w₂ h₂ => hext₁.hasTaken h₂

end LineEvent

/-! ### From the start -/

/-- Nothing waits at a stage. -/
structure Stage.IsFresh (s : Stage σ ρ) : Prop where
  queue : s.queue = []
  buffer : s.buffer = []
  chain : s.chain = none
  pending : s.pending = []

/-- The instance is a line of tasks that leads to a sink, and nothing has happened yet. -/
structure World.FreshLine (sink : ℕ) (w : World σ ρ) : Prop where
  lazy : w.isEager = false
  lasting : w.isEnding = false
  nonempty : 0 < w.tasks.length
  wired : ∀ k (t : Task σ ρ), w.tasks[k]? = some t → t.Wired k w.tasks.length sink
  fresh : ∀ t ∈ w.tasks, t.stage.IsFresh
  idle : ∀ t ∈ w.tasks.tail, t.isIdle = true
  leaves : ∃ s, w.sinks[sink]? = some s ∧ s.isOpen = true ∧ s.arrived = []

/-- What has left an instance by a sink. -/
def World.arrivedAt (w : World σ ρ) (sink : ℕ) : List ρ :=
  ((w.sinks[sink]?).map Sink.arrived).getD []

/-- What stages make of some records, each of what the one before it has made. -/
def pipeline (stages : List (Stage σ ρ)) (records : List ρ) : List ρ :=
  stages.foldl (fun records s => s.makes records) records

/-- If nothing waits, what is written to the head passes through all followers. -/
theorem outflow_fresh (s : Stage σ ρ) (stages : List (Stage σ ρ))
    (hfresh : ∀ s' ∈ s :: stages, s'.IsFresh) (records : List ρ) :
    outflow (s :: stages) records = pipeline stages records := by
  induction stages generalizing s records with
  | nil => simp [outflow, pipeline, (hfresh s List.mem_cons_self).buffer]
  | cons next rest ih =>
    rw [outflow, ih next fun s' hs' => hfresh s' (List.mem_cons_of_mem s hs'),
      (hfresh s List.mem_cons_self).buffer,
      (hfresh next (List.mem_cons_of_mem s List.mem_cons_self)).queue]
    rfl

namespace World.FreshLine

variable {sink : ℕ} {w : World σ ρ}

theorem shows (h : w.FreshLine sink) : w.Shows sink ⟨w.tasks.map Task.stage, []⟩ where
  lazy := h.lazy
  lasting := h.lasting
  tasks := rfl
  wired := by simpa [Line.size] using h.wired
  leaves := h.leaves

theorem sound (h : w.FreshLine sink) : Line.Sound (⟨w.tasks.map Task.stage, []⟩ : Line σ ρ) 0 := by
  intro m s _ hs
  obtain ⟨t, ht, rfl⟩ := List.mem_map.mp (List.mem_of_getElem? hs)
  have hfresh := h.fresh t ht
  refine ⟨fun a ha => ?_, fun c hc => ?_⟩
  · rw [hfresh.pending] at ha
    cases ha
  · rw [hfresh.chain] at hc
    cases hc

theorem idleAfter (h : w.FreshLine sink) :
    Line.IdleAfter (⟨w.tasks.map Task.stage, []⟩ : Line σ ρ) 0 := by
  intro m s hm hs
  obtain ⟨k, rfl⟩ : ∃ k, m = k + 1 := ⟨m - 1, by omega⟩
  obtain ⟨t, ht, rfl⟩ := Option.map_eq_some_iff.mp (List.getElem?_map ▸ hs)
  have hidle := h.idle t (List.mem_of_getElem? (i := k) (by rw [List.getElem?_tail, ht]))
  rcases hthread : t.thread with _ | _ | _ <;> simp_all [Task.stage, Task.working, Task.isIdle]

/-- **Conservation.**  Whatever happens to a line, nothing fails, and what has left it, followed by
what the queues and buffers would still produce, is what the followers make of the records that the
head has written: none is lost, doubled or out of place. -/
theorem conserves_records (h : w.FreshLine sink) (events : List (LineEvent ρ))
    (hfits : ∀ e ∈ events, e.Fits w.tasks.length) :
    ∃ w', (events.forM LineEvent.perform : Flow σ ρ Unit).run.run w = (.ok (), w') ∧
      w'.arrivedAt sink ++ outflow (w'.tasks.map Task.stage) []
        = pipeline (w.tasks.tail.map Task.stage) (events.flatMap LineEvent.written) := by
  have hsize : Line.size (⟨w.tasks.map Task.stage, []⟩ : Line σ ρ) = w.tasks.length :=
    h.shows.size_eq
  obtain ⟨_, w', hrun, L', h', hext, -⟩ := LineEvent.succeeds_forM_perform events h.shows
    (hsize ▸ h.nonempty) h.sound h.idleAfter (by rwa [hsize])
  refine ⟨w', hrun, ?_⟩
  -- the left side is what the line yields at its head, which the run has changed by what is written
  obtain ⟨sk, hsink, -, harrived⟩ := h'.leaves
  have hremains : w'.arrivedAt sink ++ outflow (w'.tasks.map Task.stage) [] = L'.yield 0 [] := by
    rw [World.arrivedAt, hsink, h'.tasks, Line.yield, ← harrived]
    rfl
  obtain ⟨t, rest, htasks⟩ := List.exists_cons_of_length_pos h.nonempty
  have hfresh : ∀ s ∈ t.stage :: rest.map Task.stage, s.IsFresh := by
    intro s hs
    rw [← List.map_cons, ← htasks] at hs
    obtain ⟨t', ht', rfl⟩ := List.mem_map.mp hs
    exact h.fresh t' ht'
  rw [hremains, hext.yield_eq, List.append_nil, Line.yield, htasks]
  exact outflow_fresh t.stage (rest.map Task.stage) hfresh _

end World.FreshLine

/-! ### A line of three tasks -/

/-- A task of a line whose gate collects two records before it sends them. -/
def lineTask (name : String) (code : ℕ → ℕ → List ℕ × ℕ) (receiver : Receiver) : Task ℕ ℕ :=
  { id := ⟨name⟩
    inputs := [{ id := ⟨name⟩ }]
    outputs :=
      [{ outlet := .channels { id := ⟨name⟩, lanes := [⟨.ofLimit ⟨name⟩ 2, receiver⟩] }
         selector := .roundRobin 0
         timeout := 5000 }]
    code
    memory := 0
    thread := some (.live false 0) }

/-- A head, a task that sums up what it reads, and one that doubles everything. -/
def summingLine : World ℕ ℕ :=
  { job := ⟨"job"⟩
    clock := 0
    tasks :=
      [lineTask "head" (fun m x => ([x], m)) (.task 1),
        lineTask "sum" (fun m x => ([m + x], m + x)) (.task 2),
        lineTask "double" (fun m x => ([x, x], m)) (.sink 0)]
    sinks := [{ name := "out" }]
    isEager := false }

theorem freshLine_summingLine : summingLine.FreshLine 0 where
  lazy := rfl
  lasting := rfl
  nonempty := by decide
  wired := by
    rintro (_ | _ | _ | k) t ht
    · obtain rfl := Option.some.inj ht
      exact ⟨⟨_, rfl, rfl, _, _, rfl⟩, fun h => absurd h (by decide)⟩
    · obtain rfl := Option.some.inj ht
      exact ⟨⟨_, rfl, rfl, _, _, rfl⟩, fun _ => ⟨_, rfl⟩⟩
    · obtain rfl := Option.some.inj ht
      exact ⟨⟨_, rfl, rfl, _, _, rfl⟩, fun _ => ⟨_, rfl⟩⟩
    · cases ht
  fresh := by
    intro t ht
    simp only [summingLine, List.mem_cons, List.not_mem_nil, or_false] at ht
    rcases ht with rfl | rfl | rfl <;> exact ⟨rfl, rfl, rfl, rfl⟩
  idle := by
    intro t ht
    simp only [summingLine, List.tail_cons, List.mem_cons, List.not_mem_nil, or_false] at ht
    rcases ht with rfl | rfl <;> rfl
  leaves := ⟨{ name := "out" }, rfl, rfl, rfl⟩

/-- The chain of all three tasks. -/
def summingChain : Chain :=
  { number := 0
    id := ⟨"chain"⟩
    head := ⟨"head"⟩
    links := [⟨⟨"sum"⟩, 1, 0, 0⟩, ⟨⟨"double"⟩, 2, 0, 0⟩] }

/-- The chain is set up while records wait everywhere, and dropped again. -/
def summingEvents : List (LineEvent ℕ) :=
  [.write 1, .write 2, .turn 0, .write 3, .enqueue 0 (.establishChain summingChain), .write 4,
    .write 5, .turn 1, .enqueue 0 .dropChain, .write 6, .write 7, .turn 0]

theorem fits_summingEvents : ∀ e ∈ summingEvents, e.Fits 3 := by
  have hspans : summingChain.Spans 0 3 := ⟨by decide, by decide, by decide⟩
  simp [summingEvents, LineEvent.Fits, GateAction.Fits, hspans]

theorem conserves_records_summingLine :
    summingLine.FreshLine 0 ∧ (∀ e ∈ summingEvents, e.Fits 3) ∧
      ∃ w', (summingEvents.forM LineEvent.perform : Flow ℕ ℕ Unit).run.run summingLine
          = (.ok (), w') ∧
        w'.arrivedAt 0 ++ outflow (w'.tasks.map Task.stage) []
          = [1, 1, 3, 3, 6, 6, 10, 10, 15, 15, 21, 21, 28, 28] :=
  ⟨freshLine_summingLine, fits_summingEvents,
    freshLine_summingLine.conserves_records summingEvents fits_summingEvents⟩

end LatencyControl
