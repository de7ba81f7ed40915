import Mathlib.Data.List.Nodup
import Mathlib.Tactic.MkIffOfInductiveProp
import LatencyControl.Proofs.Result
import LatencyControl.Report.Scheduler

/-!
# Runs of a scheduler

A scheduler is told of reporters and of events at the gates of its task, in any order and any
number (`Scheduler.Call`), with any readings of the clock.  What a reporter can do when it hears of
an event is said once, in `Reporter.hear_check_cases` with its countdown and in
`Reporter.hear_cases` without, and what a registration can do in `Scheduler.step_register`.
-/

namespace LatencyControl

namespace Reporter

variable {τ : Type}

/-- The reporter, with the event counted if it hears it. -/
def noted (r : Reporter τ) (now : τ) (e : GateEvent) : Reporter τ :=
  if r.hears e then r.count now e else r

section

variable (r : Reporter τ) (now : τ) (e : GateEvent)

/-- Noting an event changes nothing but the counts. -/
theorem exists_noted_eq : ∃ received emitted firstReceive,
    r.noted now e = { r with received, emitted, firstReceive } := by
  unfold noted
  split_ifs
  · cases e with
    | received gate => exact ⟨_, _, _, rfl⟩
    | emitted gate => exact ⟨_, _, _, rfl⟩
  · exact ⟨_, _, _, rfl⟩

@[simp] theorem noted_id : (r.noted now e).id = r.id := by
  obtain ⟨_, _, _, hnoted⟩ := r.exists_noted_eq now e
  rw [hnoted]

@[simp] theorem noted_input : (r.noted now e).input = r.input := by
  obtain ⟨_, _, _, hnoted⟩ := r.exists_noted_eq now e
  rw [hnoted]

@[simp] theorem noted_output : (r.noted now e).output = r.output := by
  obtain ⟨_, _, _, hnoted⟩ := r.exists_noted_eq now e
  rw [hnoted]

@[simp] theorem noted_lastReport : (r.noted now e).lastReport = r.lastReport := by
  obtain ⟨_, _, _, hnoted⟩ := r.exists_noted_eq now e
  rw [hnoted]

@[simp] theorem noted_probeInterval : (r.noted now e).probeInterval = r.probeInterval := by
  obtain ⟨_, _, _, hnoted⟩ := r.exists_noted_eq now e
  rw [hnoted]

end

variable [Millis τ]

/-- When a reporter checks.  It does nothing about an event that it does not hear.  One that it
hears brings the next check closer by one, or it is time for the check. -/
theorem hear_check_cases (r : Reporter τ) (interval : τ) (readings : Readings τ) (e : GateEvent) :
    (r.hears e = false ∧ r.hear interval readings e = (r, none)) ∨
      (r.hears e = true ∧ 1 < r.countdown ∧ r.hear interval readings e =
        ({ r.noted readings.counting e with countdown := r.countdown - 1 }, none)) ∨
      (r.hears e = true ∧ r.countdown ≤ 1 ∧ r.hear interval readings e =
        { r.noted readings.counting e with countdown := r.probeInterval }.check interval
          readings.checking) := by
  by_cases hhears : r.hears e = true
  · have hnoted : r.noted readings.counting e = r.count readings.counting e := if_pos hhears
    obtain ⟨received, emitted, firstReceive, hform⟩ := r.exists_noted_eq readings.counting e
    rw [hear, if_pos hhears, ← hnoted, tick, hform]
    by_cases hzero : r.countdown - 1 = 0
    · exact .inr (.inr ⟨hhears, by omega, if_pos hzero⟩)
    · exact .inr (.inl ⟨hhears, by omega, if_neg hzero⟩)
  · exact .inl ⟨Bool.eq_false_iff.mpr hhears, if_neg hhears⟩

/-- **What a reporter does about an event.**  Either it notes the event and nothing else changes but
the countdown, or it notes the event, reports and starts counting anew. -/
theorem hear_cases (r : Reporter τ) (interval : τ) (readings : Readings τ) (e : GateEvent) :
    (∃ n, r.hear interval readings e
        = ({ r.noted readings.counting e with countdown := n }, none)) ∨
      (r.hears e = true ∧ (r.noted readings.counting e).hasTraffic = true ∧
        (r.noted readings.counting e).intervalPassed interval readings.checking = true ∧
        r.hear interval readings e
          = ((r.noted readings.counting e).restart readings.checking,
              some { timestamp := readings.checking, reporter := r.id,
                     metrics := (r.noted readings.counting e).metrics readings.checking })) := by
  rcases r.hear_check_cases interval readings e with
    ⟨hnot, hsame⟩ | ⟨-, -, hnext⟩ | ⟨hhears, -, hcheck⟩
  · rw [hsame, noted, if_neg (Bool.eq_false_iff.mp hnot)]
    exact .inl ⟨r.countdown, rfl⟩
  · exact .inl ⟨_, hnext⟩
  · rw [hcheck, check]
    split_ifs with hdue
    · obtain ⟨htraffic, hpassed⟩ := Bool.and_eq_true_iff.mp hdue
      refine .inr ⟨hhears, htraffic, hpassed, ?_⟩
      rw [← r.noted_id readings.counting e]
      rfl
    · exact .inl ⟨_, rfl⟩

theorem hear_id (r : Reporter τ) (interval : τ) (readings : Readings τ) (e : GateEvent) :
    (r.hear interval readings e).1.id = r.id := by
  rcases r.hear_cases interval readings e with ⟨n, hquiet⟩ | ⟨-, -, -, hreport⟩
  · rw [hquiet]
    exact r.noted_id _ e
  · rw [hreport]
    exact r.noted_id _ e

end Reporter

namespace Scheduler

variable {τ : Type}

/-! ### Registration -/

/-- A task has the gates of a reporter, of which there is at least one. -/
@[mk_iff] structure HasGates (s : Scheduler τ) (input output : Option ℕ) : Prop where
  isSome : input.isSome = true ∨ output.isSome = true
  input_lt : ∀ i ∈ input, i < s.inputs
  output_lt : ∀ o ∈ output, o < s.outputs

instance (s : Scheduler τ) (input output : Option ℕ) : Decidable (s.HasGates input output) :=
  decidable_of_iff _ (hasGates_iff s input output).symm

theorem checkGates_eq_ok {s : Scheduler τ} {input output : Option ℕ} (id : ReporterId) :
    s.checkGates input output id = .ok () ↔ s.HasGates input output := by
  unfold checkGates
  rw [hasGates_iff]
  cases input <;> cases output <;> simp [check_eq_ok, lastCheck_eq_ok]

/-- The keys of the reporters of a task. -/
def ids (s : Scheduler τ) : List ReporterId := s.reporters.map Reporter.id

theorem find?_isSome_iff {s : Scheduler τ} {id : ReporterId} :
    (s.find? id).isSome = true ↔ id ∈ s.ids := by
  simp [find?, ids]

/-- **What a registration comes to.**  It is refused without the gates; else it adds the reporter
unless there is one with its key. -/
theorem register_cases (s : Scheduler τ) (now : τ) (input output : Option ℕ) (id : ReporterId) :
    (¬ s.HasGates input output ∧ ∃ e, s.register now input output id = .error e) ∨
      (id ∈ s.ids ∧ s.register now input output id = .ok (false, s)) ∨
      (s.HasGates input output ∧ id ∉ s.ids ∧ s.register now input output id = .ok (true,
        { s with reporters := s.reporters ++ [{ id, input, output, lastReport := now }] })) := by
  rw [← checkGates_eq_ok id, ← find?_isSome_iff, register]
  cases hcheck : s.checkGates input output id with
  | error e =>
    refine .inl ⟨fun h => ?_, e, rfl⟩
    cases h
  | ok _ =>
    by_cases hfound : (s.find? id).isSome = true
    · exact .inr (.inl ⟨hfound, if_pos hfound⟩)
    · exact .inr (.inr ⟨rfl, hfound, if_neg hfound⟩)

/-- Registering either changes nothing, or it adds a reporter that was not there. -/
theorem register_eq_ok {s s' : Scheduler τ} {now : τ} {input output : Option ℕ} {id : ReporterId}
    {isNew : Bool} (h : s.register now input output id = .ok (isNew, s')) :
    (isNew = false ∧ s' = s) ∨ (isNew = true ∧ (∀ r ∈ s.reporters, r.id ≠ id) ∧
      s' = { s with reporters := s.reporters ++ [{ id, input, output, lastReport := now }] }) := by
  rcases s.register_cases now input output id with ⟨-, e, he⟩ | ⟨-, hold⟩ | ⟨-, hnew, hadd⟩
  · cases he.symm.trans h
  · obtain ⟨rfl, rfl⟩ := Prod.mk.inj (Except.ok.inj (hold.symm.trans h))
    exact .inl ⟨rfl, rfl⟩
  · obtain ⟨rfl, rfl⟩ := Prod.mk.inj (Except.ok.inj (hadd.symm.trans h))
    exact .inr ⟨rfl, fun r hr hid => hnew (List.mem_map.mpr ⟨r, hr, hid⟩), rfl⟩

/-! ### Events -/

variable [Millis τ]

theorem mem_reporters_hear {s : Scheduler τ} {clock : ReporterId → Readings τ} {e : GateEvent}
    {r' : Reporter τ} : r' ∈ (s.hear clock e).1.reporters ↔
      ∃ r ∈ s.reporters, (r.hear s.interval (clock r.id) e).1 = r' := by
  simp only [hear, List.map_map, List.mem_map, Function.comp_apply]

theorem mem_reports_hear {s : Scheduler τ} {clock : ReporterId → Readings τ} {e : GateEvent}
    {p : Report τ} : p ∈ (s.hear clock e).2 ↔
      ∃ r ∈ s.reporters, (r.hear s.interval (clock r.id) e).2 = some p := by
  simp only [hear, List.filterMap_map, List.mem_filterMap, Function.comp_apply]

/-- An event leaves the reporters where they are. -/
theorem ids_hear (s : Scheduler τ) (clock : ReporterId → Readings τ) (e : GateEvent) :
    (s.hear clock e).1.reporters.map Reporter.id = s.reporters.map Reporter.id := by
  simp only [hear, List.map_map]
  refine List.map_congr_left fun r _ => ?_
  exact r.hear_id s.interval (clock r.id) e

/-- A report is one of a reporter that has heard of the event and has traffic to report. -/
theorem exists_reporter_of_mem_hear {s : Scheduler τ} {clock : ReporterId → Readings τ}
    {e : GateEvent} {p : Report τ} (hp : p ∈ (s.hear clock e).2) :
    ∃ r ∈ s.reporters, (r.hear s.interval (clock r.id) e).2 = some p ∧
      (r.noted (clock r.id).counting e).hasTraffic = true ∧
      p = { timestamp := (clock r.id).checking, reporter := r.id,
            metrics := (r.noted (clock r.id).counting e).metrics (clock r.id).checking } := by
  obtain ⟨r, hr, hheard⟩ := mem_reports_hear.mp hp
  refine ⟨r, hr, hheard, ?_⟩
  rcases r.hear_cases s.interval (clock r.id) e with ⟨n, hquiet⟩ | ⟨-, htraffic, -, hreport⟩
  · rw [hquiet] at hheard
    cases hheard
  · rw [hreport] at hheard
    exact ⟨htraffic, (Option.some.inj hheard).symm⟩

/-! ### Runs -/

/-- What a scheduler is called for: to register a reporter, or to tell of an event. -/
inductive Call (τ : Type)
  | register (now : τ) (input output : Option ℕ) (id : ReporterId)
  | event (clock : ReporterId → Readings τ) (e : GateEvent)

/-- The scheduler after a call, and the reports that the call brings about.  A registration that is
refused changes nothing. -/
def step (s : Scheduler τ) : Call τ → Scheduler τ × List (Report τ)
  | .register now input output id =>
    match s.register now input output id with
    | .ok (_, s') => (s', [])
    | .error _ => (s, [])
  | .event clock e => s.hear clock e

/-- The scheduler after some calls. -/
def after (s : Scheduler τ) (calls : List (Call τ)) : Scheduler τ :=
  calls.foldl (fun s call => (s.step call).1) s

theorem after_concat (s : Scheduler τ) (calls : List (Call τ)) (call : Call τ) :
    s.after (calls ++ [call]) = ((s.after calls).step call).1 := by
  rw [after, List.foldl_append]
  rfl

/-- **What a registration does.**  It brings about no report, and it leaves the reporters alone or
adds a new one. -/
theorem step_register (s : Scheduler τ) (now : τ) (input output : Option ℕ) (id : ReporterId) :
    (s.step (.register now input output id)).2 = [] ∧
      ((s.step (.register now input output id)).1 = s ∨
        ∃ s', s.register now input output id = .ok (true, s') ∧
          (s.step (.register now input output id)).1 = s' ∧ (∀ r ∈ s.reporters, r.id ≠ id) ∧
          s'.reporters = s.reporters ++ [{ id, input, output, lastReport := now }]) := by
  rw [step]
  cases hregister : s.register now input output id with
  | error e => exact ⟨rfl, .inl rfl⟩
  | ok answer =>
    obtain ⟨isNew, s'⟩ := answer
    refine ⟨rfl, ?_⟩
    rcases register_eq_ok hregister with ⟨-, rfl⟩ | ⟨rfl, hnew, hs'⟩
    · exact .inl rfl
    · exact .inr ⟨s', rfl, rfl, hnew, by rw [hs']⟩

theorem not_mem_step_register {s : Scheduler τ} {now : τ} {input output : Option ℕ}
    {id : ReporterId} {p : Report τ} : p ∉ (s.step (.register now input output id)).2 := by
  rw [(s.step_register now input output id).1]
  exact List.not_mem_nil

/-- A registration leaves the reporters that are there as they are. -/
theorem mem_reporters_register {s : Scheduler τ} {r : Reporter τ} (hr : r ∈ s.reporters) (now : τ)
    (input output : Option ℕ) (id : ReporterId) :
    r ∈ (s.step (.register now input output id)).1.reporters := by
  obtain ⟨-, hsame | ⟨s', -, hs', -, hreporters⟩⟩ := s.step_register now input output id
  · rw [hsame]
    exact hr
  · rw [hs', hreporters]
    exact List.mem_append_left _ hr

/-- Only a reporter that is there can report. -/
theorem exists_reporter_of_mem_step {s : Scheduler τ} {call : Call τ} {p : Report τ}
    (hp : p ∈ (s.step call).2) : ∃ r ∈ s.reporters, r.id = p.reporter := by
  cases call with
  | event clock e =>
    obtain ⟨r, hr, -, -, rfl⟩ := exists_reporter_of_mem_hear hp
    exact ⟨r, hr, rfl⟩
  | register now input output id => exact absurd hp not_mem_step_register

/-- A reporter that is there stays there. -/
theorem exists_reporter_step {s : Scheduler τ} {id : ReporterId} (h : ∃ r ∈ s.reporters, r.id = id)
    (call : Call τ) : ∃ r ∈ (s.step call).1.reporters, r.id = id := by
  obtain ⟨r, hr, rfl⟩ := h
  cases call with
  | event clock e => exact ⟨_, mem_reporters_hear.mpr ⟨r, hr, rfl⟩, r.hear_id _ _ e⟩
  | register now input output id => exact ⟨r, mem_reporters_register hr now input output id, rfl⟩

theorem interval_step (s : Scheduler τ) (call : Call τ) :
    (s.step call).1.interval = s.interval := by
  cases call with
  | event clock e => rfl
  | register now input output id =>
    rw [step]
    cases hregister : s.register now input output id with
    | error e => rfl
    | ok answer =>
      obtain ⟨isNew, s'⟩ := answer
      rcases register_eq_ok hregister with ⟨-, rfl⟩ | ⟨-, -, rfl⟩
      · rfl
      · rfl

theorem interval_after (s : Scheduler τ) (calls : List (Call τ)) :
    (s.after calls).interval = s.interval := by
  induction calls generalizing s with
  | nil => rfl
  | cons call rest ih => exact (ih _).trans (s.interval_step call)

/-- The reporters have different keys. -/
def HasDistinctIds (s : Scheduler τ) : Prop := (s.reporters.map Reporter.id).Nodup

omit [Millis τ] in
theorem HasDistinctIds.of_reporters_eq_nil {s : Scheduler τ} (h : s.reporters = []) :
    s.HasDistinctIds := by
  unfold HasDistinctIds
  rw [h]
  exact List.nodup_nil

omit [Millis τ] in
theorem HasDistinctIds.eq_of_id_eq {s : Scheduler τ} (h : s.HasDistinctIds) {r r' : Reporter τ}
    (hr : r ∈ s.reporters) (hr' : r' ∈ s.reporters) (hid : r.id = r'.id) : r = r' :=
  List.inj_on_of_nodup_map h hr hr' hid

/-- If the reporters have different keys, a call brings about at most one report of each. -/
theorem HasDistinctIds.eq_of_reporter_eq {s : Scheduler τ} (h : s.HasDistinctIds) {call : Call τ}
    {p p' : Report τ} (hp : p ∈ (s.step call).2) (hp' : p' ∈ (s.step call).2)
    (hid : p.reporter = p'.reporter) : p = p' := by
  cases call with
  | event clock e =>
    obtain ⟨r, hr, -, -, rfl⟩ := exists_reporter_of_mem_hear hp
    obtain ⟨r', hr', -, -, rfl⟩ := exists_reporter_of_mem_hear hp'
    obtain rfl : r = r' := h.eq_of_id_eq hr hr' hid
    rfl
  | register now input output id => exact absurd hp not_mem_step_register

theorem HasDistinctIds.step {s : Scheduler τ} (h : s.HasDistinctIds) (call : Call τ) :
    (s.step call).1.HasDistinctIds := by
  cases call with
  | event clock e =>
    unfold HasDistinctIds
    rw [Scheduler.step, ids_hear]
    exact h
  | register now input output id =>
    obtain ⟨-, hsame | ⟨s', -, hs', hnew, hreporters⟩⟩ := s.step_register now input output id
    · rw [hsame]
      exact h
    · unfold HasDistinctIds
      rw [hs', hreporters, List.map_append]
      refine List.nodup_append.mpr ⟨h, List.nodup_singleton id, fun a ha b hb hab => ?_⟩
      obtain ⟨r, hr, hid⟩ := List.mem_map.mp ha
      exact hnew r hr (hid.trans (hab.trans (List.mem_singleton.mp hb)))

/-- Whatever a scheduler is called for, its reporters keep different keys. -/
theorem HasDistinctIds.after {s : Scheduler τ} (h : s.HasDistinctIds) (calls : List (Call τ)) :
    (s.after calls).HasDistinctIds := by
  induction calls generalizing s with
  | nil => exact h
  | cons call rest ih => exact ih (h.step call)

end Scheduler

end LatencyControl
