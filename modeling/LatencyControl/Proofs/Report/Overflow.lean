import Mathlib.Data.Int.Notation
import Mathlib.Data.List.Induction
import LatencyControl.Proofs.Report.Checked
import LatencyControl.Proofs.Result
import LatencyControl.Settings

/-!
# Intervals that reach beyond the clock

A reporter looks whether the sum of its last report and the interval is at most what the clock
reads.  Settings bound the interval from below only, so the sum may be nothing that a clock of 64
bits can read, and then the program ends.  `Scheduler.agreesOn_iff` says of every run what this
comes to: a scheduler gets through and reports what it would report if it calculated in the
integers, unless a reporter looks at a sum that is beyond the greatest reading.  In the integers
such a reporter would just not report yet.

* `Reporter.overflowsAt_iff` says that of all that a check calculates only that sum can overflow, if
  the clock reads nothing before zero.
* `Reporter.unbounded` and `Scheduler.unbounded` calculate in the integers.
* `Scheduler.step_unbounded` is the step, and `Scheduler.StaysInReach.run` the run.
-/

namespace LatencyControl

/-! ### Reporters -/

/-- A report's time and its reporter. -/
def Report.stamp (p : Report ℤ) : ℤ × ReporterId := (p.timestamp, p.reporter)

/-- A report's time, as an integer, and its reporter. -/
def Report.unboundedStamp (p : Report Int64) : ℤ × ReporterId := (p.timestamp.toInt, p.reporter)

/-- The readings as integers. -/
def Readings.unbounded (readings : Readings Int64) : Readings ℤ where
  counting := readings.counting.toInt
  checking := readings.checking.toInt

/-- Something is true of both readings. -/
structure Readings.Are {τ : Type} (P : τ → Prop) (readings : Readings τ) : Prop where
  counting : P readings.counting
  checking : P readings.checking

namespace Reporter

/-- Something is true of all readings of the clock that the reporter remembers. -/
structure Remembers {τ : Type} (P : τ → Prop) (r : Reporter τ) : Prop where
  lastReport : P r.lastReport
  firstReceive : ∀ t ∈ r.firstReceive, P t

theorem Remembers.noted {τ : Type} {P : τ → Prop} {r : Reporter τ} (h : r.Remembers P) {now : τ}
    (hnow : P now) (e : GateEvent) : (r.noted now e).Remembers P := by
  refine ⟨(r.noted_lastReport now e).symm ▸ h.lastReport, ?_⟩
  unfold Reporter.noted
  split_ifs
  · cases e with
    | emitted gate => exact h.firstReceive
    | received gate =>
      intro t ht
      have hform : (if r.received = 0 then some now else r.firstReceive) = some t := ht
      split_ifs at hform
      · exact Option.some.inj hform ▸ hnow
      · exact h.firstReceive t hform
  · exact h.firstReceive

theorem Remembers.hear {τ : Type} [Millis τ] {P : τ → Prop} {r : Reporter τ} (h : r.Remembers P)
    {readings : Readings τ} (hreadings : readings.Are P) (interval : τ) (e : GateEvent) :
    (r.hear interval readings e).1.Remembers P := by
  rcases r.hear_cases interval readings e with ⟨n, hquiet⟩ | ⟨-, -, -, hreport⟩
  · rw [hquiet]
    obtain ⟨hlast, hfirst⟩ := h.noted hreadings.counting e
    exact ⟨hlast, hfirst⟩
  · rw [hreport]
    exact ⟨hreadings.checking, fun t ht => (Option.some_ne_none t ht.symm).elim⟩

/-- The reporter if it calculated in the integers. -/
def unbounded (r : Reporter Int64) : Reporter ℤ where
  id := r.id
  input := r.input
  output := r.output
  received := r.received
  emitted := r.emitted
  firstReceive := r.firstReceive.map Int64.toInt
  lastReport := r.lastReport.toInt
  probeInterval := r.probeInterval
  countdown := r.countdown

/-- What the reporter waits for is something that the clock may read. -/
def Fits (r : Reporter Int64) (interval : Int64) : Prop :=
  r.lastReport.toInt + interval.toInt ≤ Int64.maxValue.toInt

/-- At an event the reporter looks whether the interval has passed, which takes traffic on all of
its sides, and what it waits for is beyond the greatest reading. -/
structure Overreaches (r : Reporter Int64) (interval counting : Int64) (e : GateEvent) : Prop where
  hears : r.hears e = true
  checks : r.countdown ≤ 1
  traffic : (r.noted counting e).hasTraffic = true
  beyond : ¬ r.Fits interval

variable {r : Reporter Int64} {interval now : Int64} {readings : Readings Int64} {e : GateEvent}

theorem hears_unbounded (r : Reporter Int64) (e : GateEvent) :
    r.unbounded.hears e = r.hears e := by
  cases e <;> rfl

theorem count_unbounded (r : Reporter Int64) (now : Int64) (e : GateEvent) :
    (r.count now e).unbounded = r.unbounded.count now.toInt e := by
  cases e with
  | received gate =>
    by_cases hfirst : r.received = 0
    · simp [count, unbounded, hfirst]
    · simp [count, unbounded, hfirst]
  | emitted gate => rfl

/-- The interval of a reporter that waits for what does not fit would never pass in the integers. -/
theorem intervalPassed_unbounded_of_not_fits (hfits : ¬ r.Fits interval) (now : Int64) :
    r.unbounded.intervalPassed interval.toInt now.toInt = false := by
  rw [Fits, Int.not_le] at hfits
  have hgreatest := now.toInt_le
  refine decide_eq_false (Int.not_le.mpr ?_)
  show now.toInt < r.lastReport.toInt + interval.toInt
  omega

/-- If the clock reads nothing before zero, the times in a report can be read. -/
theorem metricsFit_of_nonneg (h : r.Remembers (0 ≤ ·)) (hnow : 0 ≤ now) :
    r.metricsFit now = true := by
  have hlast := Millis.differenceFits_of_nonneg hnow h.lastReport
  rw [metricsFit, hlast, Bool.true_and]
  cases hfirst : r.firstReceive with
  | none => cases r.input <;> cases r.output <;> rfl
  | some first =>
    have hdifference := Millis.differenceFits_of_nonneg hnow (h.firstReceive first hfirst)
    cases r.input <;> cases r.output <;> simp [hdifference]

/-- A reporter that overreaches would not report in the integers. -/
theorem Overreaches.hear_unbounded (h : r.Overreaches interval readings.counting e) :
    (r.unbounded.hear interval.toInt readings.unbounded e).2 = none := by
  have hwaiting := intervalPassed_unbounded_of_not_fits h.beyond readings.checking
  rcases r.unbounded.hear_cases interval.toInt readings.unbounded e with
    ⟨n, hquiet⟩ | ⟨-, -, hpassed, -⟩
  · rw [hquiet]
  · rw [intervalPassed, noted_lastReport] at hpassed
    exact absurd hpassed (Bool.eq_false_iff.mp hwaiting)

section

variable (hinterval : 0 ≤ interval)

include hinterval

/-- A reporter sees whether the interval has passed just if what it waits for fits, and then it sees
what it would see in the integers. -/
theorem intervalPassed?_eq (hlast : 0 ≤ r.lastReport) (now : Int64) :
    (r.Fits interval → r.intervalPassed? interval now =
        some (r.unbounded.intervalPassed interval.toInt now.toInt)) ∧
      (¬ r.Fits interval → r.intervalPassed? interval now = none) := by
  have hsum := Millis.sumFits_iff hlast hinterval
  constructor
  · intro hfits
    have hexact : Millis.toInt (Millis.add r.lastReport interval) =
        r.lastReport.toInt + interval.toInt := Millis.toInt_add _ _ (hsum.mpr hfits)
    have hpassed : r.intervalPassed interval now =
        r.unbounded.intervalPassed interval.toInt now.toInt := by
      unfold intervalPassed
      rw [Bool.eq_iff_iff, Millis.atMost_iff, Millis.atMost_iff, hexact]
      rfl
    rw [intervalPassed?, if_pos (hsum.mpr hfits), hpassed]
  · intro hbeyond
    exact if_neg fun hfits => hbeyond (hsum.mp hfits)

/-- **What can overflow.**  If the clock reads nothing before zero, it is the sum of the last report
and the interval, and nothing else. -/
theorem overflowsAt_iff (h : r.Remembers (0 ≤ ·)) (hreadings : readings.Are (0 ≤ ·)) :
    r.overflowsAt interval readings e = true ↔ r.Overreaches interval readings.counting e := by
  have hcount : r.hears e = true → r.noted readings.counting e = r.count readings.counting e :=
    fun hhears => if_pos hhears
  have hremembers := h.noted hreadings.counting e
  have hmetrics := metricsFit_of_nonneg hremembers hreadings.checking
  obtain ⟨hexact, hnone⟩ := intervalPassed?_eq hinterval hremembers.lastReport readings.checking
  have hsame : (r.noted readings.counting e).Fits interval ↔ r.Fits interval := by
    rw [Fits, noted_lastReport, Fits]
  have hoverflows : (r.noted readings.counting e).overflows interval readings.checking = true ↔
      (r.noted readings.counting e).hasTraffic = true ∧ ¬ r.Fits interval := by
    rw [overflows, Bool.and_eq_true]
    refine and_congr_right fun _ => ?_
    by_cases hfits : r.Fits interval
    · rw [hexact (hsame.mpr hfits), hmetrics]
      simp [hfits]
    · rw [hnone fun h => hfits (hsame.mp h)]
      simp [hfits]
  rw [overflowsAt, Bool.and_eq_true, Bool.and_eq_true, decide_eq_true_iff]
  constructor
  · rintro ⟨⟨hhears, hzero⟩, hcheck⟩
    rw [← hcount hhears, hoverflows] at hcheck
    exact ⟨hhears, by omega, hcheck.1, hcheck.2⟩
  · rintro ⟨hhears, hchecks, htraffic, hbeyond⟩
    refine ⟨⟨hhears, by omega⟩, ?_⟩
    rw [← hcount hhears]
    exact hoverflows.mpr ⟨htraffic, hbeyond⟩

section

variable (hlast : 0 ≤ r.lastReport)

include hlast

theorem check_unbounded (hfits : r.hasTraffic = true → r.Fits interval) (now : Int64) :
    (r.check interval now).1.unbounded =
        (r.unbounded.check interval.toInt now.toInt).1 ∧
      (r.check interval now).2.map Report.unboundedStamp =
        (r.unbounded.check interval.toInt now.toInt).2.map Report.stamp := by
  have hdue : (r.hasTraffic && r.intervalPassed interval now) =
      (r.unbounded.hasTraffic && r.unbounded.intervalPassed interval.toInt now.toInt) := by
    show _ = (r.hasTraffic && _)
    cases htraffic : r.hasTraffic with
    | false => rfl
    | true =>
      have hsees := (intervalPassed?_eq hinterval hlast now).1 (hfits htraffic)
      have hsum := (Millis.sumFits_iff hlast hinterval).mpr (hfits htraffic)
      rw [intervalPassed?, if_pos hsum] at hsees
      rw [Option.some.inj hsees]
  unfold check
  rw [hdue]
  split_ifs <;> exact ⟨rfl, rfl⟩

theorem tick_unbounded (hfits : r.countdown ≤ 1 → r.hasTraffic = true → r.Fits interval)
    (now : Int64) :
    (r.tick interval now).1.unbounded = (r.unbounded.tick interval.toInt now.toInt).1 ∧
      (r.tick interval now).2.map Report.unboundedStamp =
        (r.unbounded.tick interval.toInt now.toInt).2.map Report.stamp := by
  unfold tick
  rw [show r.unbounded.countdown = r.countdown from rfl]
  split_ifs with hzero
  · have hchecks : r.countdown ≤ 1 := by omega
    exact check_unbounded (r := { r with countdown := r.probeInterval }) hinterval hlast
      (hfits hchecks) now
  · exact ⟨rfl, rfl⟩

/-- A reporter that does not overreach does what it would do in the integers. -/
theorem hear_unbounded (h : ¬ r.Overreaches interval readings.counting e) :
    (r.hear interval readings e).1.unbounded =
        (r.unbounded.hear interval.toInt readings.unbounded e).1 ∧
      (r.hear interval readings e).2.map Report.unboundedStamp =
        (r.unbounded.hear interval.toInt readings.unbounded e).2.map Report.stamp := by
  unfold hear
  rw [hears_unbounded]
  by_cases hhears : r.hears e = true
  · rw [if_pos hhears, if_pos hhears, Readings.unbounded, ← count_unbounded]
    have hnoted : r.noted readings.counting e = r.count readings.counting e := if_pos hhears
    rw [← hnoted]
    refine tick_unbounded hinterval (by rwa [noted_lastReport]) (fun hchecks htraffic => ?_) _
    by_contra hbeyond
    obtain ⟨_, _, _, hform⟩ := r.exists_noted_eq readings.counting e
    rw [hform] at hchecks
    rw [Fits, noted_lastReport] at hbeyond
    exact h ⟨hhears, hchecks, htraffic, hbeyond⟩
  · rw [if_neg hhears, if_neg hhears]
    exact ⟨rfl, rfl⟩

end

end

end Reporter

namespace Scheduler

/-! ### Calls -/

/-- All readings of the clock that come with a call are such. -/
def Call.Reads {τ : Type} (P : τ → Prop) : Call τ → Prop
  | .register now _ _ _ => P now
  | .event clock _ => ∀ id, (clock id).Are P

/-- What is true of all readings is true of those that the reporters remember. -/
theorem remembers_step {τ : Type} [Millis τ] {P : τ → Prop} {s : Scheduler τ}
    (h : ∀ r ∈ s.reporters, r.Remembers P) {call : Call τ} (hcall : call.Reads P) :
    ∀ r ∈ (s.step call).1.reporters, r.Remembers P := by
  intro r hr
  cases call with
  | event clock e =>
    obtain ⟨r₀, hr₀, rfl⟩ := mem_reporters_hear.mp hr
    exact (h r₀ hr₀).hear (hcall r₀.id) s.interval e
  | register now input output id =>
    obtain ⟨-, hsame | ⟨s', -, hs', -, hreporters⟩⟩ := s.step_register now input output id
    · rw [hsame] at hr
      exact h r hr
    · rw [hs', hreporters] at hr
      rcases List.mem_append.mp hr with hr | hr
      · exact h r hr
      · obtain rfl := List.mem_singleton.mp hr
        exact ⟨hcall, fun t ht => (Option.some_ne_none t ht.symm).elim⟩

theorem remembers_after {τ : Type} [Millis τ] {P : τ → Prop} {s : Scheduler τ}
    (h : ∀ r ∈ s.reporters, r.Remembers P) {calls : List (Call τ)}
    (hcalls : ∀ call ∈ calls, call.Reads P) :
    ∀ r ∈ (s.after calls).reporters, r.Remembers P := by
  induction calls generalizing s with
  | nil => exact h
  | cons call rest ih =>
    refine ih (remembers_step h (hcalls call List.mem_cons_self)) fun later hlater => ?_
    exact hcalls later (List.mem_cons_of_mem _ hlater)

/-- The call with its readings as integers. -/
def Call.unbounded : Call Int64 → Call ℤ
  | .register now input output id => .register now.toInt input output id
  | .event clock e => .event (fun id => (clock id).unbounded) e

/-- The scheduler if it calculated in the integers. -/
def unbounded (s : Scheduler Int64) : Scheduler ℤ where
  interval := s.interval.toInt
  inputs := s.inputs
  outputs := s.outputs
  reporters := s.reporters.map Reporter.unbounded

/-- One of the reporters overreaches at the call. -/
def Overreaches (s : Scheduler Int64) : Call Int64 → Prop
  | .register .. => False
  | .event clock e => ∃ r ∈ s.reporters, r.Overreaches s.interval (clock r.id).counting e

/-- Nothing overflows in the integers. -/
theorem getsThrough_int (s : Scheduler ℤ) (calls : List (Call ℤ)) : s.GetsThrough calls := by
  induction calls generalizing s with
  | nil => trivial
  | cons call rest ih =>
    refine ⟨?_, ih _⟩
    cases call with
    | register now input output id => rfl
    | event clock e =>
      refine Bool.eq_false_iff.mpr fun hoverflows => ?_
      obtain ⟨r, -, hr⟩ := List.any_eq_true.mp hoverflows
      have hfits : ∀ r : Reporter ℤ, ∀ interval now, r.overflows interval now = false := by
        intro r interval now
        have hmetrics : r.metricsFit now = true := by
          unfold Reporter.metricsFit
          cases r.input <;> cases r.output <;> cases r.firstReceive <;>
            simp [Millis.differenceFits, Millis.fits]
        simp [Reporter.overflows, Reporter.intervalPassed?, Millis.sumFits, Millis.fits, hmetrics]
      rw [Reporter.overflowsAt, hfits, Bool.and_false] at hr
      cases hr

variable {s : Scheduler Int64} {call : Call Int64}

theorem register_unbounded (s : Scheduler Int64) (now : Int64) (input output : Option ℕ)
    (id : ReporterId) :
    s.unbounded.register now.toInt input output id =
      (s.register now input output id).map fun (isNew, s') => (isNew, s'.unbounded) := by
  have hfound : (s.unbounded.find? id).isSome = (s.find? id).isSome := by
    rw [Bool.eq_iff_iff, find?_isSome_iff, find?_isSome_iff]
    simp only [ids, unbounded, List.map_map]
    rfl
  have hgates : s.unbounded.checkGates input output id = s.checkGates input output id := rfl
  unfold register
  rw [hfound, hgates]
  cases s.checkGates input output id with
  | error e => rfl
  | ok _ =>
    by_cases hold : (s.find? id).isSome = true
    · simp [hold, Except.map, pure, Except.pure, bind, Except.bind]
    · simp [hold, Except.map, pure, Except.pure, bind, Except.bind, unbounded, Reporter.unbounded]

section

variable (hinterval : 0 ≤ s.interval)

include hinterval

/-- A call overflows just if a reporter overreaches. -/
theorem overflowsOn_iff (hremembers : ∀ r ∈ s.reporters, r.Remembers (0 ≤ ·))
    (hclock : call.Reads (0 ≤ ·)) : s.overflowsOn call = true ↔ s.Overreaches call := by
  cases call with
  | register now input output id => simp [overflowsOn, Overreaches]
  | event clock e =>
    show s.overflowsAt clock e = true ↔ _
    rw [overflowsAt, List.any_eq_true]
    refine exists_congr fun r => and_congr_right fun hr => ?_
    exact Reporter.overflowsAt_iff hinterval (hremembers r hr) (hclock r.id)

/-- A call at which no reporter overreaches does what it would do in the integers. -/
theorem step_unbounded (hlast : ∀ r ∈ s.reporters, 0 ≤ r.lastReport) (h : ¬ s.Overreaches call) :
    (s.step call).1.unbounded = (s.unbounded.step call.unbounded).1 ∧
      (s.step call).2.map Report.unboundedStamp =
        (s.unbounded.step call.unbounded).2.map Report.stamp := by
  cases call with
  | register now input output id =>
    constructor
    · simp only [step, Call.unbounded, register_unbounded]
      cases s.register now input output id with
      | error e => rfl
      | ok answer => rfl
    · unfold Call.unbounded
      rw [(s.step_register now input output id).1,
        (s.unbounded.step_register now.toInt input output id).1]
      rfl
  | event clock e =>
    have hwithin : ∀ r ∈ s.reporters, ¬ r.Overreaches s.interval (clock r.id).counting e :=
      fun r hr hoverreaches => h ⟨r, hr, hoverreaches⟩
    have hheard := fun r hr => Reporter.hear_unbounded hinterval (hlast r hr) (hwithin r hr)
    constructor
    · simp only [step, Call.unbounded, hear, unbounded, List.map_map]
      congr 1
      exact List.map_congr_left fun r hr => (hheard r hr).1
    · simp only [step, Call.unbounded, hear, unbounded, List.map_filterMap,
        List.filterMap_map]
      exact List.filterMap_congr fun r hr => (hheard r hr).2

end

/-! ### Runs -/

/-- No reporter overreaches at any of the calls. -/
def StaysInReach (s : Scheduler Int64) : List (Call Int64) → Prop
  | [] => True
  | call :: rest => ¬ s.Overreaches call ∧ (s.step call).1.StaysInReach rest

/-- The scheduler gets through the calls, and comes to what it would come to if it calculated in the
integers: the same reporters, and reports of the same reporters at the same times. -/
def AgreesOn (s : Scheduler Int64) (calls : List (Call Int64)) : Prop :=
  ∃ s' reports, s.run? calls = some (s', reports) ∧
    ∃ t reports', s.unbounded.run? (calls.map Call.unbounded) = some (t, reports') ∧
      s'.unbounded = t ∧ reports.map Report.unboundedStamp = reports'.map Report.stamp

section

variable {calls : List (Call Int64)} (hinterval : 0 ≤ s.interval)
  (hremembers : ∀ r ∈ s.reporters, r.Remembers (0 ≤ ·))
  (hclock : ∀ call ∈ calls, call.Reads (0 ≤ ·))

include hinterval hremembers hclock

theorem getsThrough_iff : s.GetsThrough calls ↔ s.StaysInReach calls := by
  induction calls generalizing s with
  | nil => exact Iff.rfl
  | cons call rest ih =>
    obtain ⟨hfirst, hrest⟩ := List.forall_mem_cons.mp hclock
    have hoverflows := overflowsOn_iff hinterval hremembers hfirst
    have hinterval' : 0 ≤ (s.step call).1.interval := by rwa [interval_step]
    refine and_congr ?_ (ih hinterval' (remembers_step hremembers hfirst) hrest)
    rw [← hoverflows, Bool.not_eq_true]

/-- If no reporter overreaches, the scheduler comes to what it would come to in the integers. -/
theorem StaysInReach.run (h : s.StaysInReach calls) :
    (s.after calls).unbounded = s.unbounded.after (calls.map Call.unbounded) ∧
      (s.reports calls).map Report.unboundedStamp =
        (s.unbounded.reports (calls.map Call.unbounded)).map Report.stamp := by
  induction calls generalizing s with
  | nil => exact ⟨rfl, rfl⟩
  | cons call rest ih =>
    obtain ⟨hwithin, hlater⟩ := h
    obtain ⟨hfirst, hrest⟩ := List.forall_mem_cons.mp hclock
    have hinterval' : 0 ≤ (s.step call).1.interval := by rwa [interval_step]
    obtain ⟨hstep, hreports⟩ :=
      step_unbounded hinterval (fun r hr => (hremembers r hr).lastReport) hwithin
    obtain ⟨hafter, hreports'⟩ := ih hinterval' (remembers_step hremembers hfirst) hrest hlater
    rw [hstep] at hafter hreports'
    refine ⟨hafter, ?_⟩
    show ((s.step call).2 ++ (s.step call).1.reports rest).map _ = _
    rw [List.map_append, hreports, hreports', ← List.map_append]
    rfl

theorem agreesOn_iff_staysInReach : s.AgreesOn calls ↔ s.StaysInReach calls := by
  have hthrough := getsThrough_iff hinterval hremembers hclock
  constructor
  · rintro ⟨s', reports, hrun, -⟩
    exact hthrough.mp (run?_eq_some_iff.mp hrun).1
  · intro hreach
    obtain ⟨hafter, hreports⟩ := hreach.run hinterval hremembers hclock
    exact ⟨_, _, s.run?_eq_some (hthrough.mpr hreach), _, _,
      s.unbounded.run?_eq_some (getsThrough_int _ _), hafter, hreports⟩

end

/-- If the interval after each reading is something that the clock may read, no reporter
overreaches. -/
theorem staysInReach_of_reads {s : Scheduler Int64} {calls : List (Call Int64)}
    (hremembers : ∀ r ∈ s.reporters, r.Remembers fun t =>
      t.toInt + s.interval.toInt ≤ Int64.maxValue.toInt)
    (hclock : ∀ call ∈ calls, call.Reads fun t =>
      t.toInt + s.interval.toInt ≤ Int64.maxValue.toInt) : s.StaysInReach calls := by
  induction calls generalizing s with
  | nil => trivial
  | cons call rest ih =>
    obtain ⟨hfirst, hrest⟩ := List.forall_mem_cons.mp hclock
    constructor
    · intro hoverreaches
      cases call with
      | register now input output id => exact hoverreaches
      | event clock e =>
        obtain ⟨r, hr, hbeyond⟩ := hoverreaches
        exact hbeyond.beyond (hremembers r hr).lastReport
    · have hinterval := s.interval_step call
      refine ih ?_ ?_
      · rw [hinterval]
        exact remembers_step hremembers hfirst
      · rw [hinterval]
        exact hrest

end Scheduler

theorem Settings.aggregationInterval_pos {settings : Settings}
    (h : settings.validate = .ok ()) : 0 < settings.aggregationInterval := by
  rw [validate, check_eq_ok] at h
  exact Int64.not_le.mp h.1

namespace Scheduler

/-- **When a reporter looks at the right time.**  A scheduler without reporters has an interval that
settings accept, and it is called for anything, while the clock reads nothing before zero.  Then
- whenever a reporter looks whether the interval has passed, it sees what it would see in the
  integers if the sum of its last report and the interval is something that the clock may read, and
  else the program ends;
- the scheduler gets through the calls and reports what it would report in the integers just if no
  reporter looks at a sum that the clock cannot read, and it does so if the interval after each
  reading is something that the clock may read;
- else the program ends, and it does so where a reporter would not report in the integers. -/
theorem agreesOn_iff {settings : Settings} (hvalid : settings.validate = .ok ())
    {s : Scheduler Int64} (hs : s.reporters = [])
    (hinterval : s.interval = settings.aggregationInterval) {calls : List (Call Int64)}
    (hclock : ∀ call ∈ calls, call.Reads (0 ≤ ·)) :
    (∀ before later, calls = before ++ later → ∀ s' reports,
        s.run? before = some (s', reports) → ∀ r ∈ s'.reporters, ∀ now,
          (r.Fits s.interval → r.intervalPassed? s.interval now =
            some (r.unbounded.intervalPassed s.interval.toInt now.toInt)) ∧
          (¬ r.Fits s.interval → r.intervalPassed? s.interval now = none)) ∧
      (s.AgreesOn calls ↔ s.StaysInReach calls) ∧
      ((∀ call ∈ calls, call.Reads fun t => t.toInt + s.interval.toInt ≤ Int64.maxValue.toInt) →
        s.AgreesOn calls) ∧
      (s.run? calls = none ↔ ¬ s.StaysInReach calls) ∧
      ∀ before clock e later, calls = before ++ .event clock e :: later →
        ∀ s' reports, s.run? before = some (s', reports) →
          (s'.hear? clock e = none ↔ s'.Overreaches (.event clock e)) ∧
          ∀ r ∈ s'.reporters, r.Overreaches s.interval (clock r.id).counting e →
            (r.unbounded.hear s.interval.toInt (clock r.id).unbounded e).2 = none := by
  have hpositive : 0 ≤ s.interval :=
    hinterval ▸ Int64.le_of_lt (Settings.aggregationInterval_pos hvalid)
  have hempty : ∀ P : Int64 → Prop, ∀ r ∈ s.reporters, r.Remembers P := fun P r hr =>
    (List.not_mem_nil (hs ▸ hr)).elim
  have hagrees := agreesOn_iff_staysInReach hpositive (hempty _) hclock
  have hthrough := getsThrough_iff hpositive (hempty _) hclock
  -- whatever a run comes to, its reporters remember readings of the clock
  have hreached : ∀ before later, calls = before ++ later → ∀ s' reports,
      s.run? before = some (s', reports) →
        s'.interval = s.interval ∧ ∀ r ∈ s'.reporters, r.Remembers (0 ≤ ·) := by
    rintro before later rfl s' reports hrun
    obtain ⟨-, rfl, -⟩ := run?_eq_some_iff.mp hrun
    exact ⟨s.interval_after before, remembers_after (hempty _) fun call hcall =>
      hclock call (List.mem_append_left later hcall)⟩
  refine ⟨fun before later hsplit s' reports hrun r hr now => ?_, hagrees, fun hreads => ?_, ?_,
    fun before clock e later hsplit s' reports hrun => ?_⟩
  · obtain ⟨-, hremembers⟩ := hreached before later hsplit s' reports hrun
    exact Reporter.intervalPassed?_eq hpositive (hremembers r hr).lastReport now
  · exact hagrees.mpr (staysInReach_of_reads (hempty _) hreads)
  · rw [← hthrough]
    constructor
    · intro hnone hfits
      cases hnone.symm.trans (s.run?_eq_some hfits)
    · exact s.run?_eq_none
  · obtain ⟨hsame, hremembers⟩ := hreached before _ hsplit s' reports hrun
    have hreads : (Call.event clock e).Reads (0 ≤ ·) := by
      refine hclock _ ?_
      rw [hsplit]
      exact List.mem_append_right _ List.mem_cons_self
    have hoverflows := overflowsOn_iff (s := s') (hsame.symm ▸ hpositive) hremembers hreads
    refine ⟨?_, fun r _ hoverreaches => hoverreaches.hear_unbounded⟩
    rw [← hoverflows]
    exact hear?_eq_none_iff

/-- The scheduler of a task with an output gate. -/
def sourceScheduler (settings : Settings) : Scheduler Int64 where
  interval := settings.aggregationInterval
  inputs := 0
  outputs := 1

/-- The reporter of the output gate. -/
def sourceReporter : ReporterId := .vertex ⟨"v"⟩ none (some ⟨"v/out0"⟩)

/-- A record is emitted when the reporter is registered, and another two seconds later. -/
def sourceCalls : List (Call Int64) :=
  [.register 1 none (some 0) sourceReporter,
    .event (fun _ => { counting := 1, checking := 1 }) (.emitted 0),
    .event (fun _ => { counting := 2001, checking := 2001 }) (.emitted 0)]

theorem sourceCalls_reads {P : Int64 → Prop} (h₁ : P 1) (h₂ : P 2001) :
    ∀ call ∈ sourceCalls, call.Reads P := by
  simp only [sourceCalls, List.forall_mem_cons, Call.Reads]
  exact ⟨h₁, fun _ => ⟨h₁, h₁⟩, fun _ => ⟨h₂, h₂⟩, fun _ h => (List.not_mem_nil h).elim⟩

/-- The settings with the longest of all intervals. -/
def patientSettings : Settings := { aggregationInterval := Int64.maxValue }

theorem agreesOn_iff_sourceCalls :
    ({} : Settings).validate = .ok () ∧ (sourceScheduler {}).reporters = [] ∧
      (∀ call ∈ sourceCalls, call.Reads (0 ≤ ·)) ∧
      ((sourceScheduler {}).AgreesOn sourceCalls ↔ (sourceScheduler {}).StaysInReach sourceCalls) ∧
      (sourceScheduler {}).AgreesOn sourceCalls := by
  have hvalid : ({} : Settings).validate = .ok () := by decide +kernel
  have hreads : ∀ call ∈ sourceCalls, call.Reads (0 ≤ ·) :=
    sourceCalls_reads (by decide) (by decide)
  obtain ⟨-, hiff, hfits, -⟩ := agreesOn_iff hvalid (s := sourceScheduler {}) rfl rfl hreads
  exact ⟨hvalid, rfl, hreads, hiff, hfits (sourceCalls_reads (by decide) (by decide))⟩

/-- With the longest of all intervals, the program ends at the first record.  In the integers
nothing would be reported, then or later. -/
theorem not_agreesOn_patientSettings :
    patientSettings.validate = .ok () ∧ (∀ call ∈ sourceCalls, call.Reads (0 ≤ ·)) ∧
      ((sourceScheduler patientSettings).run? (sourceCalls.take 2) = none ∧
        ((sourceScheduler patientSettings).unbounded.run?
          (sourceCalls.map Call.unbounded)).map (fun answer => answer.2.length) = some 0) ∧
      ¬ (sourceScheduler patientSettings).AgreesOn sourceCalls := by
  have hnone : ∀ n ∈ [2, 3],
      ((sourceScheduler patientSettings).run? (sourceCalls.take n)).isNone = true := by
    decide +kernel
  refine ⟨by decide +kernel, sourceCalls_reads (by decide) (by decide), ⟨?_, by decide +kernel⟩, ?_⟩
  · exact Option.isNone_iff_eq_none.mp (hnone 2 List.mem_cons_self)
  · rintro ⟨s', reports, hrun, -⟩
    have hall := Option.isNone_iff_eq_none.mp (hnone 3 (by decide))
    cases hall.symm.trans hrun

end Scheduler

end LatencyControl
