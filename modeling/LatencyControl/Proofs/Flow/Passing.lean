import Mathlib.Algebra.GroupWithZero.Nat
import LatencyControl.Proofs.Flow.Keeping
import LatencyControl.Proofs.Flow.Unchained
import LatencyControl.Proofs.Result

/-!
# What a chain does with a record

A record that enters a chain at one of its links passes through that link and all later ones
(`World.legs`): the task of each link works on what the task of the link before it has made, record
by record, and in the end the gate of the last link gets what its task has made.
`Flow.writeFrom_spec` says that a write to the chain comes to exactly that, and what those who
observe the tasks are told of on the way: of each record that a task was given, and of each that it
made.  The model tells of one record at a time (`World.tell`); what that comes to for the counts and
the scheduler of a task is said without it (`World.told`).

A task that is not chained does the same (`Leg.IsLikeUnchained`), but in another order: its thread
hands over what it makes of a record before it reads the next one.
-/

namespace LatencyControl

variable {σ ρ : Type}

/-! ### Work -/

namespace World

/-- A task works on some records, one after the other: what it makes of them, and the world with the
memory that it is left with. -/
def work (w : World σ ρ) (k : ℕ) (records : List ρ) : List ρ × World σ ρ :=
  match w.user? k with
  | some (code, memory) =>
    ((transduce code memory records).1, w.remember k (transduce code memory records).2)
  | none => ([], w)

theorem work_nil (w : World σ ρ) (k : ℕ) : w.work k [] = ([], w) := by
  unfold work
  cases hk : w.user? k with
  | none => rfl
  | some user =>
    obtain ⟨t, ht, rfl⟩ := Option.map_eq_some_iff.mp hk
    exact congrArg (Prod.mk []) (remember_self ht)

/-- The user code runs on one record after the other. -/
theorem work_cons (w : World σ ρ) (k : ℕ) (record : ρ) (rest : List ρ) :
    w.work k (record :: rest) = ((w.runCode k record).1 ++ ((w.runCode k record).2.work k rest).1,
      ((w.runCode k record).2.work k rest).2) := by
  cases ht : w.task? k with
  | none => simp only [work, runCode, user?, ht, Option.map_none, List.append_nil]
  | some t =>
    have huser : w.user? k = some (t.code, t.memory) := by rw [user?, ht, Option.map_some]
    rw [runCode_eq_remember ht]
    simp only [work, huser, user?_remember huser, transduce, remember_remember]

theorem runCode_eq_work (w : World σ ρ) (k : ℕ) (record : ρ) :
    w.runCode k record = w.work k [record] := by
  rw [work_cons, work_nil, List.append_nil]

/-- Work is the same whether those who observe the tasks are told of a record before it or after
it. -/
theorem work_report (w : World σ ρ) (j k : ℕ) (records : List ρ) (e : GateEvent) :
    (w.report k e).work j records
      = ((w.work j records).1, (w.work j records).2.report k e) := by
  unfold work
  rw [user?_report]
  cases w.user? j with
  | none => rfl
  | some user => exact congrArg (Prod.mk _) (report_remember w j k _ e).symm

theorem work_tell (w : World σ ρ) (j : ℕ) (records : List ρ) (events : List (ℕ × GateEvent)) :
    (w.tell events).work j records = ((w.work j records).1, (w.work j records).2.tell events) := by
  induction events generalizing w with
  | nil => rfl
  | cons e rest ih =>
    calc ((w.report e.1 e.2).tell rest).work j records
        = (((w.report e.1 e.2).work j records).1,
            ((w.report e.1 e.2).work j records).2.tell rest) := ih _
      _ = ((w.work j records).1, ((w.work j records).2.report e.1 e.2).tell rest) := by
          rw [work_report]

end World

/-- The share that one task has in the passage of records. -/
structure Leg (σ ρ : Type) where
  link : ChainLink
  /-- The user code of the task, and what it remembered when the records came. -/
  user : Option ((σ → ρ → List ρ × σ) × σ)
  given : List ρ
  made : List ρ

namespace Leg

/-- What is told of the records that the task was given. -/
def heard (leg : Leg σ ρ) : List (ℕ × GateEvent) :=
  List.replicate leg.given.length (leg.link.task, .received leg.link.input)

/-- What is told of the records that the task made. -/
def uttered (leg : Leg σ ρ) : List (ℕ × GateEvent) :=
  List.replicate leg.made.length (leg.link.task, .emitted leg.link.output)

/-- How many records a task was given, over all of its links. -/
def givenTo (k : ℕ) (legs : List (Leg σ ρ)) : ℕ :=
  ((legs.filter fun leg => leg.link.task = k).map fun leg => leg.given.length).sum

/-- How many records a task made, over all of its links. -/
def madeBy (k : ℕ) (legs : List (Leg σ ρ)) : ℕ :=
  ((legs.filter fun leg => leg.link.task = k).map fun leg => leg.made.length).sum

theorem eventsAt_replicate (j k n : ℕ) (e : GateEvent) :
    eventsAt k (List.replicate n (j, e)) = if j = k then List.replicate n e else [] := by
  rw [eventsAt, List.filter_replicate]
  split_ifs <;> simp_all

/-- A task is told of each record that it was given, and of none that it made. -/
theorem countP_heard (leg : Leg σ ρ) (k : ℕ) :
    ((eventsAt k leg.heard).countP fun e => e.isReceived) = givenTo k [leg] ∧
      ((eventsAt k leg.heard).countP fun e => !e.isReceived) = 0 := by
  rw [heard, eventsAt_replicate, givenTo, List.filter_singleton]
  by_cases hk : leg.link.task = k
  · simp [hk, GateEvent.isReceived, List.countP_replicate]
  · simp [hk]

theorem countP_uttered (leg : Leg σ ρ) (k : ℕ) :
    ((eventsAt k leg.uttered).countP fun e => e.isReceived) = 0 ∧
      ((eventsAt k leg.uttered).countP fun e => !e.isReceived) = madeBy k [leg] := by
  rw [uttered, eventsAt_replicate, madeBy, List.filter_singleton]
  by_cases hk : leg.link.task = k
  · simp [hk, GateEvent.isReceived, List.countP_replicate]
  · simp [hk]

theorem givenTo_append (k : ℕ) (legs later : List (Leg σ ρ)) :
    givenTo k (legs ++ later) = givenTo k legs + givenTo k later := by
  rw [givenTo, List.filter_append, List.map_append, List.sum_append]
  rfl

theorem madeBy_append (k : ℕ) (legs later : List (Leg σ ρ)) :
    madeBy k (legs ++ later) = madeBy k legs + madeBy k later := by
  rw [madeBy, List.filter_append, List.map_append, List.sum_append]
  rfl

/-- A task is told of as many records as it was given and made. -/
theorem countP_legs (k : ℕ) (legs : List (Leg σ ρ)) :
    ((eventsAt k (legs.flatMap fun leg => leg.heard ++ leg.uttered)).countP fun e => e.isReceived)
        = givenTo k legs ∧
      ((eventsAt k (legs.flatMap fun leg => leg.heard ++ leg.uttered)).countP
        fun e => !e.isReceived) = madeBy k legs := by
  induction legs with
  | nil => exact ⟨rfl, rfl⟩
  | cons leg rest ih =>
    obtain ⟨hgiven, hmade⟩ := ih
    obtain ⟨hheard, hheard'⟩ := leg.countP_heard k
    obtain ⟨huttered, huttered'⟩ := leg.countP_uttered k
    have hgivens : givenTo k (leg :: rest) = givenTo k [leg] + givenTo k rest :=
      givenTo_append k [leg] rest
    have hmades : madeBy k (leg :: rest) = madeBy k [leg] + madeBy k rest :=
      madeBy_append k [leg] rest
    simp only [List.flatMap_cons, eventsAt_append, List.countP_append]
    omega

end Leg

namespace World

/-- Records pass through some links: the task of the first link works on them, and what it makes
passes through the other links. -/
def legs (w : World σ ρ) : List ChainLink → List ρ → List (Leg σ ρ)
  | [], _ => []
  | l :: rest, records =>
    { link := l, user := w.user? l.task, given := records, made := (w.work l.task records).1 } ::
      (w.work l.task records).2.legs rest (w.work l.task records).1

/-- The world after that, with the memories that the tasks are left with. -/
def afterwards (w : World σ ρ) : List ChainLink → List ρ → World σ ρ
  | [], _ => w
  | l :: rest, records => (w.work l.task records).2.afterwards rest (w.work l.task records).1

theorem user?_tell (w : World σ ρ) (k : ℕ) (events : List (ℕ × GateEvent)) :
    (w.tell events).user? k = w.user? k := by
  induction events generalizing w with
  | nil => rfl
  | cons e rest ih => exact (ih _).trans (user?_report w k e.1 e.2)

/-- The passage is the same whatever those who observe the tasks were told before. -/
theorem legs_tell (w : World σ ρ) (links : List ChainLink) (records : List ρ)
    (events : List (ℕ × GateEvent)) :
    (w.tell events).legs links records = w.legs links records ∧
      (w.tell events).afterwards links records = (w.afterwards links records).tell events := by
  induction links generalizing w records with
  | nil => exact ⟨rfl, rfl⟩
  | cons l rest ih =>
    obtain ⟨hlegs, hafter⟩ := ih (w.work l.task records).2 (w.work l.task records).1
    simp only [legs, afterwards, work_tell, user?_tell, hlegs, hafter, and_self]

/-- Work changes nothing at a task but what it remembers. -/
theorem exists_task?_work (w : World σ ρ) (j : ℕ) (records : List ρ) {k : ℕ} {t : Task σ ρ}
    (ht : w.task? k = some t) :
    ∃ memory, (w.work j records).2.task? k = some (t.remembering memory) := by
  unfold work
  cases w.user? j with
  | none => exact ⟨t.memory, ht⟩
  | some user =>
    obtain ⟨code, memory⟩ := user
    by_cases hjk : j = k
    · subst hjk
      refine ⟨(transduce code memory records).2, ?_⟩
      show (w.modifyTask j _).task? j = _
      rw [task?_modifyTask_self, ht, Option.map_some]
    · refine ⟨t.memory, ?_⟩
      show (w.modifyTask j _).task? k = _
      rw [task?_modifyTask_of_ne w hjk]
      exact ht

/-- The passage changes nothing at a task but what it remembers. -/
theorem exists_task?_afterwards (w : World σ ρ) (links : List ChainLink) (records : List ρ) {k : ℕ}
    {t : Task σ ρ} (ht : w.task? k = some t) :
    ∃ memory, (w.afterwards links records).task? k = some (t.remembering memory) := by
  induction links generalizing w t records with
  | nil => exact ⟨t.memory, ht⟩
  | cons l rest ih =>
    obtain ⟨memory, hmemory⟩ := w.exists_task?_work l.task records ht
    obtain ⟨memory', hmemory'⟩ := ih (w.work l.task records).2 (w.work l.task records).1 hmemory
    exact ⟨memory', hmemory'⟩

end World

/-! ### Runs -/

namespace Flow

open World

variable {w : World σ ρ}

/-- The task of a link works on some records, and those who observe it are told of each. -/
theorem run_runLink (l : ChainLink) (records : List ρ) :
    (runLink l records).run.run w = (.ok (w.work l.task records).1,
      (w.work l.task records).2.tell
        (List.replicate records.length (l.task, .received l.input))) := by
  induction records generalizing w with
  | nil =>
    rw [work_nil]
    rfl
  | cons record rest ih =>
    have hfirst : (w.report l.task (.received l.input)).runCode l.task record
        = ((w.runCode l.task record).1,
          (w.runCode l.task record).2.report l.task (.received l.input)) := by
      rw [runCode_eq_work, runCode_eq_work, work_report]
    have hrest := ih (w := (w.runCode l.task record).2.report l.task (.received l.input))
    rw [runLink, run_modify_bind, run_modifyGet_bind, hfirst, run_bind_of_ok hrest, work_cons,
      work_report]
    rfl

theorem run_forM_report (task : ℕ) (e : GateEvent) (records : List ρ) :
    (records.forM fun _ => (modify (·.report task e) : Flow σ ρ Unit)).run.run w
      = (.ok (), w.tell (List.replicate records.length (task, e))) := by
  induction records generalizing w with
  | nil => rfl
  | cons _ rest ih => exact ih

/-- Only the gate of the last link is written to: it gets what has passed through all links. -/
theorem run_passAlong (write : GateRef → ρ → Flow σ ρ Unit) {links : List ChainLink}
    (hlinks : links ≠ []) (records : List ρ) :
    ∃ passed tail, w.legs links records = passed ++ [tail] ∧ links.getLast? = some tail.link ∧
      (passAlong write links records).run.run w
        = (tail.made.forM (write tail.link.outputRef)).run.run ((w.afterwards links records).tell
          (passed.flatMap (fun leg => leg.heard ++ leg.uttered) ++ tail.heard)) := by
  induction links generalizing w records with
  | nil => exact absurd rfl hlinks
  | cons l rest ih =>
    have hrun := run_runLink (w := w) l records
    cases rest with
    | nil =>
      refine ⟨[], _, rfl, rfl, ?_⟩
      rw [passAlong, run_bind_of_ok hrun]
      rfl
    | cons next later =>
      have hreports := run_forM_report (w := (w.work l.task records).2.tell
        (List.replicate records.length (l.task, .received l.input))) l.task (.emitted l.output)
          (w.work l.task records).1
      obtain ⟨passed, tail, hlegs, hlast, hpass⟩ := ih (w := ((w.work l.task records).2.tell
        (List.replicate records.length (l.task, .received l.input))).tell
          (List.replicate (w.work l.task records).1.length (l.task, .emitted l.output)))
            (List.cons_ne_nil next later) (w.work l.task records).1
      rw [← tell_append, (legs_tell ..).1] at hlegs
      rw [← tell_append, (legs_tell ..).2, ← tell_append] at hpass
      refine ⟨_ :: passed, tail, congrArg (List.cons _) hlegs, hlast, ?_⟩
      rw [passAlong, run_bind_of_ok hrun, run_bind_of_ok hreports, ← tell_append, hpass]
      simp only [List.flatMap_cons, List.append_assoc]
      rfl

/-! ### The gate of the last link -/

/-- What is left of a write to a gate when those who observe the task have been told of it. -/
def takeIn (write : GateRef → ρ → Flow σ ρ Unit) (g : GateRef) (gate : OutputGate ρ) (record : ρ) :
    Flow σ ρ Unit := do
  let channels ← modifyGet (·.select g record)
  handOver write g gate.chain channels record
  performPending write g

variable {write : GateRef → ρ → Flow σ ρ Unit} {g : GateRef}

theorem run_writeOnce_eq_takeIn {gate : OutputGate ρ} (hgate : w.output? g = some gate)
    (hrunning : gate.state = .running) (record : ρ) :
    (writeOnce write g record).run.run w
      = (takeIn write g gate record).run.run (w.report g.task (.emitted g.gate)) := by
  rw [writeOnce, run_outputGate_bind hgate, if_neg (not_not.mpr hrunning)]
  beta_reduce
  rw [run_modify_bind, run_modifyGet_bind, takeIn, run_modifyGet_bind]
  cases gate.chain <;> rfl

/-- A gate takes some records, one after the other: it runs, those who observe the task are told of
the record, and nothing goes wrong with what is left of the write. -/
inductive Takes (write : GateRef → ρ → Flow σ ρ Unit) (g : GateRef) :
    World σ ρ → List ρ → World σ ρ → Prop
  | nil (w : World σ ρ) : Takes write g w [] w
  | cons {w w₁ w₂ : World σ ρ} {gate : OutputGate ρ} {record : ρ} {rest : List ρ} :
    w.output? g = some gate → gate.state = .running →
    (takeIn write g gate record).run.run (w.told [(g.task, .emitted g.gate)]) = (.ok (), w₁) →
    Takes write g w₁ rest w₂ → Takes write g w (record :: rest) w₂

/-- A write that succeeds was made to a running gate. -/
theorem run_writeOnce_eq_ok_iff {record : ρ} {w' : World σ ρ} :
    (writeOnce write g record).run.run w = (.ok (), w') ↔
      ∃ gate, w.output? g = some gate ∧ gate.state = .running ∧
        (takeIn write g gate record).run.run (w.told [(g.task, .emitted g.gate)])
          = (.ok (), w') := by
  rw [← tell_eq_told]
  constructor
  · intro h
    cases hgate : w.output? g with
    | none =>
      have hmissing : (outputGate g).run.run w = (.error (.noOutputGate g.gate), w) := by
        rw [outputGate, run_get_bind, hgate]
        rfl
      rw [writeOnce, run_bind_of_error hmissing] at h
      cases h
    | some gate =>
      by_cases hrunning : gate.state = .running
      · rw [run_writeOnce_eq_takeIn hgate hrunning] at h
        exact ⟨gate, rfl, hrunning, h⟩
      · rw [run_writeOnce_of_not_running hgate hrunning] at h
        cases h
  · rintro ⟨gate, hgate, hrunning, h⟩
    rw [run_writeOnce_eq_takeIn hgate hrunning]
    exact h

theorem run_forM_writeOnce_eq_ok_iff {records : List ρ} {w' : World σ ρ} :
    (records.forM (writeOnce write g)).run.run w = (.ok (), w') ↔ Takes write g w records w' := by
  induction records generalizing w with
  | nil =>
    constructor
    · intro h
      obtain rfl : w = w' := (Prod.mk.inj h).2
      exact .nil w
    · rintro ⟨⟩
      rfl
  | cons record rest ih =>
    change (writeOnce write g record >>= fun _ =>
      rest.forM (writeOnce write g)).run.run w = (.ok (), w') ↔ _
    rw [run_bind_eq_ok]
    constructor
    · rintro ⟨⟨⟩, w₁, hwrite, hrest⟩
      obtain ⟨gate, hgate, hrunning, hfirst⟩ := run_writeOnce_eq_ok_iff.mp hwrite
      exact .cons hgate hrunning hfirst (ih.mp hrest)
    · rintro (_ | ⟨hgate, hrunning, hfirst, hrest⟩)
      exact ⟨⟨⟩, _, run_writeOnce_eq_ok_iff.mpr ⟨_, hgate, hrunning, hfirst⟩, ih.mpr hrest⟩

end Flow

/-! ### With and without a chain -/

/-- A task that is not chained does the same: if the records wait to be read by its thread, then the
same records leave by its gate in the same order, and those who observe it are told of the same
records, if in another order. -/
def Leg.IsLikeUnchained (leg : Leg σ ρ) : Prop :=
  leg.link.input = 0 → leg.link.output = 0 →
    ∀ (u : World σ ρ) (t : Task σ ρ) (later : List ρ) (sink : ℕ),
      u.task? leg.link.task = some t → leg.user = some (t.code, t.memory) →
      t.Awaits (leg.given ++ later) →
      ∃ u' t' events,
        (Flow.handleRecords (Flow.letOut sink) leg.link.task leg.given.length).run.run u
          = (.ok (), u') ∧
        u'.sinks = left u.sinks sink leg.made ∧ u'.task? leg.link.task = some t' ∧
        t'.memory = (transduce t.code t.memory leg.given).2 ∧
        t'.seen = (t.told u.clock events).seen ∧
        (events.map fun e => (leg.link.task, e)).Perm (leg.heard ++ leg.uttered)

theorem World.made_of_mem_legs {w : World σ ρ} {links : List ChainLink} {records : List ρ}
    {leg : Leg σ ρ} (h : leg ∈ w.legs links records) {code : σ → ρ → List ρ × σ} {memory : σ}
    (huser : leg.user = some (code, memory)) :
    leg.made = (transduce code memory leg.given).1 := by
  induction links generalizing w records with
  | nil => exact (List.not_mem_nil h).elim
  | cons l rest ih =>
    rcases List.mem_cons.mp h with rfl | h
    · change (w.work l.task records).1 = _
      rw [work, show w.user? l.task = some (code, memory) from huser]
    · exact ih h

theorem World.isLikeUnchained_of_mem_legs {w : World σ ρ} {links : List ChainLink}
    {records : List ρ} {leg : Leg σ ρ} (h : leg ∈ w.legs links records) :
    leg.IsLikeUnchained := by
  intro hinput houtput u t later sink ht huser hawaits
  have hmade := made_of_mem_legs h huser
  obtain ⟨u', t', hrun, hsinks, ht', hmemory, hseen⟩ :=
    Flow.run_handleRecords_letOut sink ht hawaits
  rw [Task.observeAll_eq_told] at hseen
  refine ⟨u', t', _, hrun, hmade ▸ hsinks, ht', hmemory, hseen, ?_⟩
  refine ((threadEvents_perm t.code t.memory leg.given).map _).trans (.of_eq ?_)
  rw [List.map_append, List.map_replicate, List.map_replicate, ← hmade, Leg.heard, Leg.uttered,
    hinput, houtput]

namespace Flow

open World

/-- **What a chain does with a record.**  A record that is written to a chain passes through the
link with the given index and all later ones.  The write succeeds exactly if the gate of the last
link takes, in order, the records that its task makes; before that, those who observe the tasks
have been told of every record that a task was given or made, but for those made by the last one,
of which they are told as the gate takes them.  So a task that is observed counts as many records at
its input gates as it was given over all of its links, and as many at its output gates as it made.
Each task does what it would do without the chain.  If there is no link with the index, the write
fails, and nothing happens. -/
theorem writeFrom_spec (write : GateRef → ρ → Flow σ ρ Unit) (c : Chain) (w : World σ ρ) (i : ℕ)
    (record : ρ) :
    (c.links.length ≤ i → (writeFrom (writeOnce write) c i record).run.run w
      = (.error (.noLink c.id i), w)) ∧
    (i < c.links.length → ∃ passed tail w₁,
      w.legs (c.links.drop i) [record] = passed ++ [tail] ∧
      c.links.getLast? = some tail.link ∧
      w₁ = (w.afterwards (c.links.drop i) [record]).told
        (passed.flatMap (fun leg => leg.heard ++ leg.uttered) ++ tail.heard) ∧
      (∀ k t, w.task? k = some t → t.isObserved = true → ∃ t₁, w₁.task? k = some t₁ ∧
        t₁.received = t.received + Leg.givenTo k (passed ++ [tail]) ∧
        t₁.emitted = t.emitted + Leg.madeBy k passed) ∧
      (∀ w', (writeFrom (writeOnce write) c i record).run.run w = (.ok (), w') ↔
        Takes write tail.link.outputRef w₁ tail.made w') ∧
      ∀ leg ∈ passed ++ [tail], leg.IsLikeUnchained) := by
  refine ⟨fun hi => ?_, fun hi => ?_⟩
  · rw [writeFrom, if_neg (Nat.not_lt.mpr hi)]
    rfl
  · have hlinks : c.links.drop i ≠ [] := by
      rw [ne_eq, List.drop_eq_nil_iff]
      omega
    obtain ⟨passed, tail, hlegs, hlast, hrun⟩ :=
      run_passAlong (w := w) (writeOnce write) hlinks [record]
    refine ⟨passed, tail, _, hlegs, ?_, rfl, fun k t ht hobserved => ?_, fun w' => ?_,
      fun leg hleg => ?_⟩
    · rw [← hlast, List.getLast?_drop, if_neg (Nat.not_le.mpr hi)]
    · obtain ⟨memory, hmemory⟩ := w.exists_task?_afterwards (c.links.drop i) [record] ht
      obtain ⟨hgiven, hmade⟩ := Leg.countP_legs k passed
      obtain ⟨hheard, hunheard⟩ := tail.countP_heard k
      obtain ⟨hreceived, hemitted⟩ := Task.counts_told (t := t.remembering memory) hobserved
        (w.afterwards (c.links.drop i) [record]).clock
        (eventsAt k (passed.flatMap (fun leg => leg.heard ++ leg.uttered) ++ tail.heard))
      rw [eventsAt_append, List.countP_append, hgiven, hheard] at hreceived
      rw [eventsAt_append, List.countP_append, hmade, hunheard] at hemitted
      rw [← tell_eq_told, task?_tell, hmemory, Leg.givenTo_append, eventsAt_append]
      exact ⟨_, rfl, hreceived, hemitted⟩
    · rw [writeFrom, if_pos hi, hrun, run_forM_writeOnce_eq_ok_iff, tell_eq_told]
    · exact isLikeUnchained_of_mem_legs (hlegs ▸ hleg)

/-- The last two tasks of the line, chained to the first one. -/
def summingChain : Chain where
  number := 0
  id := ⟨"chain"⟩
  head := ⟨"head"⟩
  links := [⟨⟨"sum"⟩, 1, 0, 0⟩, ⟨⟨"double"⟩, 2, 0, 0⟩]

/-- The gate of the last task takes a record twice, and the last task has counted one record by
then. -/
theorem writeFrom_spec_summingChain :
    0 < summingChain.links.length ∧ ∃ passed tail w₁ t₁ w',
      summingLine.legs summingChain.links [5] = passed ++ [tail] ∧ tail.made = [5, 5] ∧
      w₁.task? 2 = some t₁ ∧ t₁.received = 1 ∧ t₁.emitted = 0 ∧
      (writeFrom (writeOnce (writeWithin 0)) summingChain 0 5).run.run summingLine = (.ok (), w') ∧
      Takes (writeWithin 0) ⟨2, 0⟩ w₁ [5, 5] w' := by
  have hlength : 0 < summingChain.links.length := by decide
  obtain ⟨passed, tail, w₁, hlegs, hlast, -, hcounts, hwrite, -⟩ :=
    (writeFrom_spec (writeWithin 0) summingChain summingLine 0 5).2 hlength
  have hlegs : summingLine.legs summingChain.links [5] = passed ++ [tail] := hlegs
  have hmade : tail.made = [5, 5] := by
    have hlegs' : (summingLine.legs summingChain.links [5]).getLast?.map Leg.made
        = some [5, 5] := by decide +kernel
    rw [hlegs, List.getLast?_concat] at hlegs'
    exact Option.some.inj hlegs'
  have hgiven : Leg.givenTo 2 (passed ++ [tail]) = 1 := by
    rw [← hlegs]
    decide +kernel
  have hpassed : Leg.madeBy 2 passed = 0 := by
    have hlegs' : Leg.madeBy 2 (summingLine.legs summingChain.links [5]).dropLast = 0 := by
      decide +kernel
    rwa [hlegs, List.dropLast_concat] at hlegs'
  obtain ⟨t₁, ht₁, hreceived, hemitted⟩ := hcounts 2 _ rfl rfl
  rw [hgiven] at hreceived
  rw [hpassed] at hemitted
  obtain ⟨w', hw'⟩ : ∃ w', (writeFrom (writeOnce (writeWithin 0)) summingChain 0 5).run.run
      summingLine = (.ok (), w') := by
    have hok : ((writeFrom (writeOnce (writeWithin 0)) summingChain 0 5).run.run
        summingLine).1.isOk = true := by decide +kernel
    obtain ⟨⟨⟩, hok⟩ := exists_eq_ok hok
    exact ⟨_, Prod.ext hok rfl⟩
  have htakes := (hwrite w').mp hw'
  rw [hmade, ← Option.some.inj (show some (⟨⟨"double"⟩, 2, 0, 0⟩ : ChainLink) = some tail.link
    from hlast)] at htakes
  exact ⟨hlength, passed, tail, w₁, t₁, w', hlegs, hmade, ht₁, hreceived, hemitted, hw', htakes⟩

end Flow

end LatencyControl
