import Mathlib.Data.List.Chain
import Mathlib.Data.List.Perm.Basic
import LatencyControl.Proofs.Report.Accounting
import LatencyControl.Proofs.Report.Seconds

/-!
# Reports keep their distance

Between two reports of a reporter the interval of its scheduler passes, and so it does between its
registration and its first report, whatever the clock does (`Scheduler.reports_spaced`).  A report
is made only if it is due (`Scheduler.IsDue`): the interval has passed since the reporter started
counting, and all of its sides have seen an event since then.

The times of the reports of a run are collected in `Scheduler.reportTimes`.  That the last of them
is when the reporter started counting is what every call preserves, and it is all that the next
report has to be compared with.
-/

namespace LatencyControl

/-- **When a reporter reports.**  All of its sides have seen an event, the one it hears of included,
and the interval has passed. -/
theorem Reporter.hear_eq_some {τ : Type} [Millis τ] {r : Reporter τ} {interval : τ}
    {readings : Readings τ} {e : GateEvent} {p : Report τ}
    (h : (r.hear interval readings e).2 = some p) :
    (r.noted readings.counting e).hasTraffic = true ∧
      (r.noted readings.counting e).intervalPassed interval readings.checking = true ∧
      p = { timestamp := readings.checking, reporter := r.id,
            metrics := (r.noted readings.counting e).metrics readings.checking } := by
  rcases r.hear_cases interval readings e with ⟨n, hquiet⟩ | ⟨-, htraffic, hpassed, hreport⟩
  · rw [hquiet] at h
    cases h
  · rw [hreport] at h
    exact ⟨htraffic, hpassed, (Option.some.inj h).symm⟩

namespace Scheduler

variable {τ : Type} [Millis τ]

/-! ### The reports of a run -/

/-- The reports that some calls bring about, in their order. -/
def reports (s : Scheduler τ) : List (Call τ) → List (Report τ)
  | [] => []
  | call :: calls => (s.step call).2 ++ (s.step call).1.reports calls

/-- When a reporter reports in the course of some calls. -/
def reportTimes (s : Scheduler τ) (id : ReporterId) (calls : List (Call τ)) : List τ :=
  ((s.reports calls).filter (·.reporter = id)).map Report.timestamp

theorem reports_concat (s : Scheduler τ) (calls : List (Call τ)) (call : Call τ) :
    s.reports (calls ++ [call]) = s.reports calls ++ ((s.after calls).step call).2 := by
  induction calls generalizing s with
  | nil => exact List.append_nil _
  | cons first rest ih =>
    rw [List.cons_append, reports, ih, reports, List.append_assoc]
    rfl

/-- Only a reporter that is there has reported. -/
theorem exists_reporter_of_mem_reports {s : Scheduler τ} {calls : List (Call τ)} {p : Report τ}
    (hp : p ∈ s.reports calls) : ∃ r ∈ (s.after calls).reporters, r.id = p.reporter := by
  induction calls using List.reverseRecOn with
  | nil => exact (List.not_mem_nil hp).elim
  | append_singleton calls call ih =>
    rw [after_concat]
    rw [reports_concat, List.mem_append] at hp
    rcases hp with hp | hp
    · exact exists_reporter_step (ih hp) call
    · exact exists_reporter_step (exists_reporter_of_mem_step hp) call

/-- A call brings about no report twice. -/
theorem HasDistinctIds.nodup_step {s : Scheduler τ} (h : s.HasDistinctIds) (call : Call τ) :
    (s.step call).2.Nodup := by
  cases call with
  | register now input output id =>
    rw [(s.step_register now input output id).1]
    exact List.nodup_nil
  | event clock e =>
    have hkeys : s.reporters.Pairwise (fun r r' => r.id ≠ r'.id) := List.pairwise_map.mp h
    show List.Pairwise (· ≠ ·) (s.hear clock e).2
    simp only [hear, List.filterMap_map, List.pairwise_filterMap]
    refine hkeys.imp fun {r r'} hne p hp p' hp' hsame => hne ?_
    obtain ⟨-, -, rfl⟩ := Reporter.hear_eq_some hp
    obtain ⟨-, -, rfl⟩ := Reporter.hear_eq_some hp'
    exact congrArg Report.reporter hsame

section

variable {s : Scheduler τ} {calls : List (Call τ)} {call : Call τ} {id : ReporterId}

theorem reportTimes_concat_of_silent (h : ∀ p ∈ ((s.after calls).step call).2, p.reporter ≠ id) :
    s.reportTimes id (calls ++ [call]) = s.reportTimes id calls := by
  have hnone : ((s.after calls).step call).2.filter (·.reporter = id) = [] := by
    simpa [List.filter_eq_nil_iff] using h
  rw [reportTimes, reports_concat, List.filter_append, hnone, List.append_nil, reportTimes]

theorem reportTimes_concat_of_mem (hids : (s.after calls).HasDistinctIds) {p : Report τ}
    (hp : p ∈ ((s.after calls).step call).2) (hid : p.reporter = id) :
    s.reportTimes id (calls ++ [call]) = s.reportTimes id calls ++ [p.timestamp] := by
  have hsingle : ((s.after calls).step call).2.filter (·.reporter = id) = [p] := by
    have hnodup := (hids.nodup_step call).filter (·.reporter = id)
    refine List.perm_singleton.mp ((List.perm_ext_iff_of_nodup hnodup (List.nodup_singleton p)).mpr
      fun p' => ?_)
    rw [List.mem_filter, List.mem_singleton, decide_eq_true_eq]
    constructor
    · rintro ⟨hp', hid'⟩
      exact hids.eq_of_reporter_eq hp' hp (hid'.trans hid.symm)
    · rintro rfl
      exact ⟨hp, hid⟩
  rw [reportTimes, reports_concat, List.filter_append, hsingle, List.map_append, reportTimes]
  rfl

end

/-! ### When a report is due -/

/-- A report is due if the interval has passed since its reporter started counting, and the calls
that the reporter has counted tell of an event at each of its gates. -/
structure IsDue (interval : τ) (p : Report τ) (input output : Option ℕ) (start : τ)
    (calls : List (Call τ)) : Prop where
  waited : Millis.atMost (Millis.add start interval) p.timestamp = true
  received : input.isSome = true → 0 < calls.countP (Call.isReceipt input)
  emitted : output.isSome = true → 0 < calls.countP (Call.isEmission output)

/-- A reporter that has counted traffic on its sides and has waited long enough is due. -/
theorem HasCounted.isDue {r : Reporter τ} {calls : List (Call τ)} (h : HasCounted r calls)
    (htraffic : r.hasTraffic = true) {interval now : τ}
    (hpassed : r.intervalPassed interval now = true) (metrics : VertexMetrics Float) :
    IsDue interval { timestamp := now, reporter := r.id, metrics } r.input r.output r.lastReport
      calls := by
  simp only [Reporter.hasTraffic, Bool.and_eq_true, Bool.or_eq_true, Option.isNone_iff_eq_none,
    decide_eq_true_eq] at htraffic
  obtain ⟨⟨hinput, houtput⟩, -⟩ := htraffic
  constructor
  · exact hpassed
  · intro hsome
    rw [← h.received]
    exact hinput.resolve_left (Option.isSome_iff_ne_none.mp hsome)
  · intro hsome
    rw [← h.emitted]
    exact houtput.resolve_left (Option.isSome_iff_ne_none.mp hsome)

variable {s : Scheduler τ}

/-- Whatever a scheduler without reporters has been called for, the reports of a further call are
due, and they say what has happened since their reporters started counting. -/
theorem exists_isDue (hs : s.reporters = []) (calls : List (Call τ)) {call : Call τ} {p : Report τ}
    (hp : p ∈ ((s.after calls).step call).2) :
    ∃ input output start since, s.Registered calls p.reporter input output ∧
      s.Since p.reporter calls start since ∧
      AccountsFor p input output start (since ++ [call]) ∧
      IsDue s.interval p input output start (since ++ [call]) := by
  cases call with
  | register now input output id => exact absurd hp not_mem_step_register
  | event clock e =>
    obtain ⟨r, hr, hheard⟩ := mem_reports_hear.mp hp
    obtain ⟨htraffic, hpassed, rfl⟩ := Reporter.hear_eq_some hheard
    obtain ⟨hgates, since, hsince, hcounts⟩ := isAccounted_after hs calls r hr
    have hcounted := hcounts.noted clock e
    have haccounts := hcounted.accountsFor htraffic (clock r.id).checking
    have hdue := hcounted.isDue htraffic hpassed
      ((r.noted (clock r.id).counting e).metrics (clock r.id).checking)
    simp only [Reporter.noted_id, Reporter.noted_input, Reporter.noted_output,
      Reporter.noted_lastReport, interval_after] at haccounts hdue
    exact ⟨r.input, r.output, r.lastReport, since, hgates, hsince, haccounts, hdue⟩

/-! ### The distance between reports -/

/-- From each of the times to the next one, the interval has passed. -/
def IsSpaced (interval : τ) (times : List τ) : Prop :=
  times.IsChain fun t t' => Millis.atMost (Millis.add t interval) t' = true

/-- A reporter that is there counts. -/
theorem exists_since (hs : s.reporters = []) {calls : List (Call τ)} {id : ReporterId}
    (h : ∃ r ∈ (s.after calls).reporters, r.id = id) :
    ∃ start since, s.Since id calls start since := by
  obtain ⟨r, hr, rfl⟩ := h
  obtain ⟨-, since, hsince, -⟩ := isAccounted_after hs calls r hr
  exact ⟨_, since, hsince⟩

/-- A reporter that has been registered counts from then on. -/
theorem exists_since_of_register (hs : s.reporters = []) {before : List (Call τ)} {now : τ}
    {input output : Option ℕ} {id : ReporterId} {s' : Scheduler τ}
    (hregister : (s.after before).register now input output id = .ok (true, s'))
    (later : List (Call τ)) :
    ∃ start since, s.Since id (before ++ .register now input output id :: later) start since := by
  refine exists_since hs ?_
  induction later using List.reverseRecOn with
  | nil => exact (Since.registered hregister).exists_reporter
  | append_singleton later call ih =>
    rw [← List.cons_append, ← List.append_assoc, after_concat]
    exact exists_reporter_step ih call

/-- A reporter that is registered has not reported yet. -/
theorem reportTimes_of_register {before : List (Call τ)} {now : τ} {input output : Option ℕ}
    {id : ReporterId} {s' : Scheduler τ}
    (hregister : (s.after before).register now input output id = .ok (true, s')) :
    s.reportTimes id (before ++ [.register now input output id]) = [] := by
  rw [reportTimes_concat_of_silent fun p hp => absurd hp not_mem_step_register, reportTimes,
    List.map_eq_nil_iff, List.filter_eq_nil_iff]
  intro p hp hid
  obtain ⟨r, hr, hrid⟩ := exists_reporter_of_mem_reports hp
  rcases register_eq_ok hregister with ⟨hfalse, -⟩ | ⟨-, hnew, -⟩
  · cases hfalse
  · exact hnew r hr (hrid.trans (of_decide_eq_true hid))

/-- What a reporter has started counting at is its last report, or else its registration, and up to
then its reports have kept their distance. -/
theorem Since.isSpaced (hs : s.reporters = []) {before : List (Call τ)} {now : τ}
    {input output : Option ℕ} {id : ReporterId} {s' : Scheduler τ}
    (hregister : (s.after before).register now input output id = .ok (true, s'))
    (later : List (Call τ)) {start : τ} {since : List (Call τ)}
    (h : s.Since id (before ++ .register now input output id :: later) start since) :
    (now :: s.reportTimes id (before ++ .register now input output id :: later)).getLast?
        = some start ∧
      IsSpaced s.interval
        (now :: s.reportTimes id (before ++ .register now input output id :: later)) := by
  have hids := HasDistinctIds.of_reporters_eq_nil hs
  induction later using List.reverseRecOn generalizing start since with
  | nil =>
    obtain ⟨rfl, -⟩ := h.unique hids (.registered hregister)
    rw [reportTimes_of_register hregister]
    exact ⟨rfl, List.isChain_singleton start⟩
  | append_singleton later call ih =>
    obtain ⟨start₀, since₀, hsince₀⟩ := exists_since_of_register hs hregister later
    obtain ⟨hlast, hspaced⟩ := ih hsince₀
    rw [← List.cons_append, ← List.append_assoc] at h ⊢
    generalize before ++ .register now input output id :: later = calls at *
    rcases h.concat_cases with ⟨-, input', output', s'', -, hagain⟩ | ⟨-, p, hp, hid, rfl⟩ |
      ⟨since₁, -, hsince₁, hsilent⟩
    · exact absurd hagain hsince₀.not_register
    · -- the report is the next one after what the reporter has counted from
      have hdue : Millis.atMost (Millis.add start₀ s.interval) p.timestamp = true := by
        obtain ⟨_, _, start₁, _, -, hsince₁, -, hdue⟩ := exists_isDue hs calls hp
        rw [hid] at hsince₁
        obtain ⟨rfl, -⟩ := hsince₁.unique hids hsince₀
        exact hdue.waited
      rw [reportTimes_concat_of_mem (hids.after calls) hp hid, ← List.cons_append]
      refine ⟨List.getLast?_concat, List.isChain_append.mpr ⟨hspaced, List.isChain_singleton _, ?_⟩⟩
      intro t ht t' ht'
      obtain rfl := Option.some.inj (hlast.symm.trans ht)
      obtain rfl := Option.some.inj ht'
      exact hdue
    · obtain ⟨rfl, -⟩ := hsince₁.unique hids hsince₀
      rw [reportTimes_concat_of_silent hsilent]
      exact ⟨hlast, hspaced⟩

/-- **Reports keep their distance.**  Whatever a scheduler without reporters is called for, and
whatever the clock says, if the interval is positive then
- from the registration of a reporter to its first report, and from each of its reports to the next,
  the interval passes; so the times of its reports increase; and
- each report is due, and its rates are what has happened since its reporter started counting, by a
  positive number of seconds. -/
theorem reports_spaced {s : Scheduler ℤ} (hs : s.reporters = []) (hinterval : 0 < s.interval)
    (calls : List (Call ℤ)) :
    (∀ before now input output id s' later,
      calls = before ++ .register now input output id :: later →
      (s.after before).register now input output id = .ok (true, s') →
        (now :: s.reportTimes id calls).IsChain (fun t t' => t + s.interval ≤ t') ∧
          (now :: s.reportTimes id calls).Pairwise (· < ·)) ∧
      ∀ before call later, calls = before ++ call :: later →
        ∀ p ∈ ((s.after before).step call).2, ∃ input output start since,
          s.Registered before p.reporter input output ∧ s.Since p.reporter before start since ∧
            IsDue s.interval p input output start (since ++ [call]) ∧
            AccountsFor p input output start (since ++ [call]) ∧
            0 < Millis.toFloat (Millis.sub p.timestamp start) / 1000 := by
  constructor
  · rintro before now input output id s' later rfl hregister
    obtain ⟨start, since, hsince⟩ := exists_since_of_register hs hregister later
    obtain ⟨-, hspaced⟩ := hsince.isSpaced hs hregister later
    refine ⟨hspaced.imp fun t t' hle => of_decide_eq_true hle, ?_⟩
    refine List.isChain_iff_pairwise.mp (hspaced.imp fun t t' hle => ?_)
    have hle : t + s.interval ≤ t' := of_decide_eq_true hle
    omega
  · rintro before call later rfl p hp
    obtain ⟨input, output, start, since, hgates, hsince, haccounts, hdue⟩ :=
      exists_isDue hs before hp
    have hwaited : start + s.interval ≤ p.timestamp := of_decide_eq_true hdue.waited
    have hpassed : 0 < p.timestamp - start := by omega
    exact ⟨input, output, start, since, hgates, hsince, hdue, haccounts,
      Millis.seconds_pos hpassed⟩

/-- After the first report, the clock is set back. -/
def setBackCalls : List (Call ℤ) :=
  throughCalls ++ [throughCall,
    .event (fun _ => { counting := 500, checking := 500 }) (.received 0),
    .event (fun _ => { counting := 900, checking := 900 }) (.emitted 0),
    .event (fun _ => { counting := 3000, checking := 3000 }) (.emitted 0)]

theorem reports_spaced_setBackCalls :
    throughScheduler.reporters = [] ∧ 0 < throughScheduler.interval ∧
      throughScheduler.reportTimes throughReporter setBackCalls = [2000, 3000] ∧
      (0 :: throughScheduler.reportTimes throughReporter setBackCalls).IsChain
        (fun t t' => t + throughScheduler.interval ≤ t') ∧
      ∃ p ∈ ((throughScheduler.after throughCalls).step throughCall).2,
        ∃ input output start since,
          throughScheduler.Registered throughCalls p.reporter input output ∧
          throughScheduler.Since p.reporter throughCalls start since ∧
          IsDue throughScheduler.interval p input output start (since ++ [throughCall]) ∧
          AccountsFor p input output start (since ++ [throughCall]) ∧
          0 < Millis.toFloat (Millis.sub p.timestamp start) / 1000 := by
  have hpositive : 0 < throughScheduler.interval := by decide
  have hreports : ((throughScheduler.after throughCalls).step throughCall).2.length = 1 := by
    decide +kernel
  obtain ⟨hspaced, hdue⟩ := reports_spaced rfl hpositive setBackCalls
  obtain ⟨hchain, -⟩ := hspaced [] 0 (some 0) (some 0) throughReporter _ _ rfl rfl
  obtain ⟨p, hp⟩ := List.exists_mem_of_length_pos (hreports ▸ Nat.one_pos)
  exact ⟨rfl, hpositive, by decide +kernel, hchain, p, hp, hdue throughCalls throughCall _ rfl p hp⟩

end Scheduler

end LatencyControl
