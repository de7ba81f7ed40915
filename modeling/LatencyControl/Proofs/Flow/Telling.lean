import LatencyControl.Proofs.Flow.Control

/-!
# Telling of records

Those who observe the tasks of an instance are told of one record at a time (`World.report`,
`World.tell`).  `Task.told` and `World.told` say without going through the records what that comes
to: how many were received and how many emitted, what the schedulers have heard and which reports
they have made.  `Task.observeAll_eq_told` and `World.tell_eq_told` say that it is the same.

Being told of a record has nothing to do with what a task is at, and user code does not notice it.
-/

namespace LatencyControl

variable {σ ρ : Type}

/-! ### One record after the other -/

namespace Task

/-- Those who observe the task are told of some records. -/
def observeAll (t : Task σ ρ) (now : Int64) (events : List GateEvent) : Task σ ρ :=
  events.foldl (fun t e => t.observe now e) t

/-- The task with other records in its queues, another memory and another thread. -/
def turned (t : Task σ ρ) (inputs : List (InputGate ρ)) (memory : σ) (thread : Option Thread) :
    Task σ ρ :=
  { t with inputs, memory, thread }

/-- Being told of a record has nothing to do with what the task is at. -/
theorem observe_turned (t : Task σ ρ) (inputs : List (InputGate ρ)) (memory : σ)
    (thread : Option Thread) (now : Int64) (e : GateEvent) :
    (t.turned inputs memory thread).observe now e
      = (t.observe now e).turned inputs memory thread := by
  unfold observe turned
  dsimp only
  split
  · cases t.scheduler <;> cases e <;> rfl
  · rfl

theorem observe_eq_turned (t : Task σ ρ) (now : Int64) (e : GateEvent) :
    t.observe now e = (t.observe now e).turned t.inputs t.memory t.thread :=
  t.observe_turned t.inputs t.memory t.thread now e

theorem observe_inputs (t : Task σ ρ) (now : Int64) (e : GateEvent) :
    (t.observe now e).inputs = t.inputs := by
  rw [observe_eq_turned]
  rfl

theorem observe_memory (t : Task σ ρ) (now : Int64) (e : GateEvent) :
    (t.observe now e).memory = t.memory := by
  rw [observe_eq_turned]
  rfl

theorem observe_thread (t : Task σ ρ) (now : Int64) (e : GateEvent) :
    (t.observe now e).thread = t.thread := by
  rw [observe_eq_turned]
  rfl

theorem observe_code (t : Task σ ρ) (now : Int64) (e : GateEvent) :
    (t.observe now e).code = t.code := by
  unfold observe
  split
  · cases t.scheduler <;> cases e <;> rfl
  · rfl

theorem observeAll_turned (t : Task σ ρ) (inputs : List (InputGate ρ)) (memory : σ)
    (thread : Option Thread) (now : Int64) (events : List GateEvent) :
    (t.turned inputs memory thread).observeAll now events
      = (t.observeAll now events).turned inputs memory thread := by
  induction events generalizing t with
  | nil => rfl
  | cons e rest ih => exact (congrArg (observeAll · now rest) (t.observe_turned ..)).trans (ih _)

theorem observeAll_append (t : Task σ ρ) (now : Int64) (events later : List GateEvent) :
    t.observeAll now (events ++ later) = (t.observeAll now events).observeAll now later :=
  List.foldl_append

theorem observeAll_code (t : Task σ ρ) (now : Int64) (events : List GateEvent) :
    (t.observeAll now events).code = t.code := by
  induction events generalizing t with
  | nil => rfl
  | cons e rest ih => exact (ih _).trans (t.observe_code now e)

/-- The task with another memory. -/
def remembering (t : Task σ ρ) (memory : σ) : Task σ ρ := t.turned t.inputs memory t.thread

theorem observe_remembering (t : Task σ ρ) (memory : σ) (now : Int64) (e : GateEvent) :
    (t.remembering memory).observe now e = (t.observe now e).remembering memory := by
  rw [remembering, observe_turned, remembering, observe_inputs, observe_thread]

end Task

/-! ### Tasks of an instance -/

namespace World

/-- Those who observe tasks are told of some records. -/
def tell (w : World σ ρ) (events : List (ℕ × GateEvent)) : World σ ρ :=
  events.foldl (fun w e => w.report e.1 e.2) w

theorem tell_append (w : World σ ρ) (events later : List (ℕ × GateEvent)) :
    w.tell (events ++ later) = (w.tell events).tell later := List.foldl_append

theorem task?_modifyTask_self (w : World σ ρ) (k : ℕ) (f : Task σ ρ → Task σ ρ) :
    (w.modifyTask k f).task? k = (w.task? k).map f := by
  simp [modifyTask, task?]

theorem task?_modifyTask_of_ne (w : World σ ρ) {j k : ℕ} (h : j ≠ k) (f : Task σ ρ → Task σ ρ) :
    (w.modifyTask j f).task? k = w.task? k := by
  simp [modifyTask, task?, h]

/-- The world in which a task has another memory. -/
def remember (w : World σ ρ) (k : ℕ) (memory : σ) : World σ ρ :=
  w.modifyTask k (·.remembering memory)

theorem remember_self {w : World σ ρ} {k : ℕ} {t : Task σ ρ} (ht : w.task? k = some t) :
    w.remember k t.memory = w := by
  have htasks : w.tasks.modify k (·.remembering t.memory) = w.tasks := by
    refine (List.map_id _).symm.trans ((map_modify_of_eq id fun t' ht' => ?_).trans (List.map_id _))
    obtain rfl : t = t' := Option.some.inj (ht.symm.trans ht')
    rfl
  unfold remember modifyTask
  rw [htasks]

theorem remember_remember (w : World σ ρ) (k : ℕ) (memory memory' : σ) :
    (w.remember k memory).remember k memory' = w.remember k memory' := by
  unfold remember modifyTask
  dsimp only
  rw [List.modify_modify_eq]
  rfl

theorem report_remember (w : World σ ρ) (j k : ℕ) (memory : σ) (e : GateEvent) :
    (w.remember j memory).report k e = (w.report k e).remember j memory := by
  have hclock : (w.remember j memory).clock = w.clock := rfl
  unfold report
  rw [hclock]
  unfold remember modifyTask
  dsimp only
  by_cases hjk : j = k
  · subst hjk
    rw [List.modify_modify_eq, List.modify_modify_eq]
    have hcomp : (·.observe w.clock e) ∘ (·.remembering memory)
        = (·.remembering memory) ∘ fun t : Task σ ρ => t.observe w.clock e :=
      funext fun t => t.observe_remembering memory w.clock e
    rw [hcomp]
  · rw [List.modify_modify_ne _ _ _ hjk]

/-- The user code of a task and what it remembers. -/
def user? (w : World σ ρ) (k : ℕ) : Option ((σ → ρ → List ρ × σ) × σ) :=
  (w.task? k).map fun t => (t.code, t.memory)

/-- User code does not notice what those who observe the tasks are told. -/
@[simp] theorem user?_report (w : World σ ρ) (j k : ℕ) (e : GateEvent) :
    (w.report k e).user? j = w.user? j := by
  unfold user?
  by_cases hkj : k = j
  · subst hkj
    rw [report, task?_modifyTask_self, Option.map_map]
    refine Option.map_congr fun t _ => ?_
    rw [Function.comp, Task.observe_code, Task.observe_memory]
  · rw [report, task?_modifyTask_of_ne w hkj]

theorem user?_remember {w : World σ ρ} {k : ℕ} {code : σ → ρ → List ρ × σ} {memory : σ}
    (h : w.user? k = some (code, memory)) (memory' : σ) :
    (w.remember k memory').user? k = some (code, memory') := by
  obtain ⟨t, ht, heq⟩ := Option.map_eq_some_iff.mp h
  obtain ⟨rfl, rfl⟩ := Prod.mk.inj heq
  rw [user?, remember, task?_modifyTask_self, ht]
  rfl

theorem runCode_eq_remember {w : World σ ρ} {k : ℕ} {t : Task σ ρ} (ht : w.task? k = some t)
    (record : ρ) : w.runCode k record
      = ((t.code t.memory record).1, w.remember k (t.code t.memory record).2) := by
  unfold runCode
  rw [ht]
  rfl

end World

/-! ### What is counted -/

/-- Whether a record came in at an input gate. -/
def GateEvent.isReceived : GateEvent → Bool
  | .received _ => true
  | .emitted _ => false

/-- The task when those who observe it were told of some records: it has counted those that came in
and those that went out, and its scheduler has heard of one after the other and made its reports. -/
def Task.told (t : Task σ ρ) (now : Int64) (events : List GateEvent) : Task σ ρ :=
  if t.isObserved then
    { t with
      received := t.received + events.countP fun e => e.isReceived
      emitted := t.emitted + events.countP fun e => !e.isReceived
      scheduler := t.scheduler.map fun s => (s.observeAll now events).1
      reports := t.reports ++ t.scheduler.elim [] fun s => (s.observeAll now events).2 }
  else t

/-- The counts of a task that is observed. -/
theorem Task.counts_told {t : Task σ ρ} (h : t.isObserved = true) (now : Int64)
    (events : List GateEvent) :
    (t.told now events).received = t.received + (events.countP fun e => e.isReceived) ∧
      (t.told now events).emitted = t.emitted + events.countP fun e => !e.isReceived := by
  unfold told
  rw [if_pos h]
  exact ⟨rfl, rfl⟩

theorem Task.told_nil (t : Task σ ρ) (now : Int64) : t.told now [] = t := by
  obtain ⟨id, inputs, outputs, code, memory, thread, observed, received, emitted, scheduler,
    reports⟩ := t
  unfold told
  split_ifs
  · cases scheduler <;> simp [Scheduler.observeAll]
  · rfl

theorem Task.observe_eq_told (t : Task σ ρ) (now : Int64) (e : GateEvent) :
    t.observe now e = t.told now [e] := by
  unfold observe told
  split_ifs
  · cases t.scheduler <;> cases e <;> simp [GateEvent.isReceived, Scheduler.observeAll]
  · rfl

/-- The counts add up, and the scheduler hears of the other records after the first one. -/
theorem Task.told_cons (t : Task σ ρ) (now : Int64) (e : GateEvent) (rest : List GateEvent) :
    (t.told now [e]).told now rest = t.told now (e :: rest) := by
  by_cases hobserved : t.isObserved = true
  · cases hscheduler : t.scheduler <;>
      simp [told, hobserved, hscheduler, Scheduler.observeAll, List.countP_cons] <;> omega
  · simp only [told, if_neg hobserved]

theorem Task.observeAll_eq_told (t : Task σ ρ) (now : Int64) (events : List GateEvent) :
    t.observeAll now events = t.told now events := by
  induction events generalizing t with
  | nil => exact (t.told_nil now).symm
  | cons e rest ih =>
    calc (t.observe now e).observeAll now rest
        = (t.observe now e).told now rest := ih _
      _ = (t.told now [e]).told now rest := by rw [observe_eq_told]
      _ = t.told now (e :: rest) := t.told_cons now e rest

/-- What those who observe a task are told, out of all that is told. -/
def eventsAt (k : ℕ) (events : List (ℕ × GateEvent)) : List GateEvent :=
  (events.filter fun e => e.1 = k).map Prod.snd

theorem eventsAt_append (k : ℕ) (events later : List (ℕ × GateEvent)) :
    eventsAt k (events ++ later) = eventsAt k events ++ eventsAt k later := by
  rw [eventsAt, List.filter_append, List.map_append]
  rfl

theorem eventsAt_cons (k : ℕ) (e : ℕ × GateEvent) (rest : List (ℕ × GateEvent)) :
    eventsAt k (e :: rest) = if e.1 = k then e.2 :: eventsAt k rest else eventsAt k rest := by
  rw [eventsAt, List.filter_cons]
  split_ifs <;> simp_all [eventsAt]

namespace World

/-- The world when those who observe the tasks were told of some records. -/
def told (w : World σ ρ) (events : List (ℕ × GateEvent)) : World σ ρ :=
  { w with tasks := w.tasks.mapIdx fun k t => t.told w.clock (eventsAt k events) }

theorem task?_report (w : World σ ρ) (j k : ℕ) (e : GateEvent) :
    (w.report j e).task? k
      = (w.task? k).map fun t => if j = k then t.observe w.clock e else t := by
  split_ifs with hjk
  · rw [hjk, report, task?_modifyTask_self]
  · rw [report, task?_modifyTask_of_ne w hjk, Option.map_id']

theorem task?_tell (w : World σ ρ) (events : List (ℕ × GateEvent)) (k : ℕ) :
    (w.tell events).task? k = (w.task? k).map fun t => t.told w.clock (eventsAt k events) := by
  induction events generalizing w with
  | nil =>
    have hsame : (fun t : Task σ ρ => t.told w.clock (eventsAt k [])) = id :=
      funext fun t => t.told_nil w.clock
    rw [hsame, Option.map_id]
    rfl
  | cons e rest ih =>
    show ((w.report e.1 e.2).tell rest).task? k = _
    rw [ih, task?_report, Option.map_map]
    refine Option.map_congr fun t _ => ?_
    rw [Function.comp_apply, eventsAt_cons]
    split_ifs
    · rw [Task.observe_eq_told]
      exact t.told_cons w.clock e.2 _
    · rfl

/-- Telling of one record after the other comes to the same as counting all of them. -/
theorem tell_eq_told (w : World σ ρ) (events : List (ℕ × GateEvent)) :
    w.tell events = w.told events := by
  have hrest : ∀ w : World σ ρ, w.tell events = { w with tasks := (w.tell events).tasks } := by
    induction events with
    | nil => exact fun _ => rfl
    | cons e rest ih => exact fun w => ih (w.report e.1 e.2)
  have htasks : (w.tell events).tasks
      = w.tasks.mapIdx fun k t => t.told w.clock (eventsAt k events) := by
    refine List.ext_getElem? fun k => ?_
    rw [List.getElem?_mapIdx]
    exact w.task?_tell events k
  rw [hrest w, htasks]
  rfl

end World

/-! ### What a task has told -/

/-- What a task has told so far. -/
def Task.seen (t : Task σ ρ) : ℕ × ℕ × Option (Scheduler Int64) × List (Report Int64) :=
  (t.received, t.emitted, t.scheduler, t.reports)

theorem Task.isObserved_observe (t : Task σ ρ) (now : Int64) (e : GateEvent) :
    (t.observe now e).isObserved = t.isObserved := by
  unfold observe
  split
  · cases t.scheduler <;> cases e <;> rfl
  · rfl

/-- What is told next depends on what was told before, and on nothing else. -/
theorem Task.seen_observe_congr {t t' : Task σ ρ} (hseen : t.seen = t'.seen)
    (hobserved : t.isObserved = t'.isObserved) (now : Int64) (e : GateEvent) :
    (t.observe now e).seen = (t'.observe now e).seen := by
  obtain ⟨hreceived, hemitted, hscheduler, hreports⟩ : t.received = t'.received ∧
      t.emitted = t'.emitted ∧ t.scheduler = t'.scheduler ∧ t.reports = t'.reports := by
    simpa [seen] using hseen
  unfold observe
  rw [hobserved]
  split
  · cases e <;> simp only [hscheduler] <;> cases t'.scheduler <;>
      simp [seen, hreceived, hemitted, hreports]
  · exact hseen

theorem Task.seen_observeAll_congr {t t' : Task σ ρ} (hseen : t.seen = t'.seen)
    (hobserved : t.isObserved = t'.isObserved) (now : Int64) (events : List GateEvent) :
    (t.observeAll now events).seen = (t'.observeAll now events).seen := by
  induction events generalizing t t' with
  | nil => exact hseen
  | cons e rest ih =>
    exact ih (seen_observe_congr hseen hobserved now e)
      (by rw [isObserved_observe, isObserved_observe, hobserved])

end LatencyControl
