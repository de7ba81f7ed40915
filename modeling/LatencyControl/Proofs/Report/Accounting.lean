import Mathlib.Data.List.Induction
import LatencyControl.Proofs.Report.Runs

/-!
# Reports account for all events

What a reporter reports is what has happened at its gates since its last report, or else since its
registration: all of it, and nothing else (`Scheduler.report_accounts`).  The calls of a run that
count are named by `Scheduler.Since`, which says of a reporter when it started counting and which
calls were made since then.

A reporter does not keep these calls, but a few numbers.  That the numbers are those of the calls is
what every call preserves (`Scheduler.IsAccounted.step`).
-/

namespace LatencyControl

namespace Scheduler

variable {τ : Type}

/-! ### Events that count -/

namespace Call

/-- Whether a call tells of a record that was received at the gate. -/
def isReceipt (gate : Option ℕ) : Call τ → Bool
  | .event _ (.received at_) => gate == some at_
  | _ => false

/-- Whether a call tells of a record that was emitted at the gate. -/
def isEmission (gate : Option ℕ) : Call τ → Bool
  | .event _ (.emitted at_) => gate == some at_
  | _ => false

/-- When the reporter counts a record that was received at the gate, if the call tells of one. -/
def receivedAt? (id : ReporterId) (gate : Option ℕ) : Call τ → Option τ
  | .event clock (.received at_) => if gate = some at_ then some (clock id).counting else none
  | _ => none

theorem isSome_receivedAt? (id : ReporterId) (gate : Option ℕ) (call : Call τ) :
    (call.receivedAt? id gate).isSome = call.isReceipt gate := by
  rcases call with _ | ⟨clock, at_ | at_⟩
  · rfl
  · simp only [receivedAt?, isReceipt]
    split_ifs with hgate <;> simp [hgate]
  · rfl

end Call

/-- There is a first receipt if there is any. -/
theorem isSome_firstReceipt (id : ReporterId) (gate : Option ℕ) (calls : List (Call τ)) :
    (calls.findSome? (Call.receivedAt? id gate)).isSome = true ↔
      0 < calls.countP (Call.isReceipt gate) := by
  rw [List.findSome?_isSome_iff, List.countP_pos_iff]
  simp only [Call.isSome_receivedAt?]

/-! ### What a reporter has counted -/

/-- The counts of a reporter are those of some calls. -/
structure HasCounted (r : Reporter τ) (calls : List (Call τ)) : Prop where
  received : r.received = calls.countP (Call.isReceipt r.input)
  emitted : r.emitted = calls.countP (Call.isEmission r.output)
  first : r.firstReceive = calls.findSome? (Call.receivedAt? r.id r.input)

/-- Calls that are not about the gates of a reporter leave its counts as they are. -/
theorem HasCounted.skip {r : Reporter τ} {calls : List (Call τ)} (h : HasCounted r calls)
    {call : Call τ} (hreceipt : call.isReceipt r.input = false)
    (hemission : call.isEmission r.output = false) : HasCounted r (calls ++ [call]) := by
  have hnone : call.receivedAt? r.id r.input = none := by
    rw [← Option.not_isSome_iff_eq_none, Call.isSome_receivedAt?, hreceipt]
    exact Bool.false_ne_true
  constructor
  · simp [hreceipt, h.received]
  · simp [hemission, h.emitted]
  · simp [hnone, h.first]

/-- A record that the reporter receives is one more, and the first if there was none before. -/
theorem HasCounted.count_received {r : Reporter τ} {calls : List (Call τ)} (h : HasCounted r calls)
    (clock : ReporterId → Readings τ) {gate : ℕ} (hgate : r.input = some gate) :
    HasCounted (r.count (clock r.id).counting (.received gate))
      (calls ++ [.event clock (.received gate)]) := by
  constructor
  · simp [Reporter.count, Call.isReceipt, hgate, h.received]
  · simp [Reporter.count, Call.isEmission, h.emitted]
  · have hlast : Call.receivedAt? r.id r.input (.event clock (.received gate))
        = some (clock r.id).counting := if_pos hgate
    have hbefore := isSome_firstReceipt r.id r.input calls
    rw [← h.received, ← h.first] at hbefore
    simp only [Reporter.count, List.findSome?_append, List.findSome?_singleton, hlast, ← h.first]
    split_ifs with hzero
    · have hnone : r.firstReceive = none := by
        rw [← Option.not_isSome_iff_eq_none, hbefore]
        omega
      rw [hnone, Option.none_or]
    · have hsome : r.firstReceive.isSome = true := hbefore.mpr (by omega)
      rw [Option.or_of_isSome hsome]

/-- A record that the reporter emits is one more. -/
theorem HasCounted.count_emitted {r : Reporter τ} {calls : List (Call τ)} (h : HasCounted r calls)
    (clock : ReporterId → Readings τ) (now : τ) {gate : ℕ} (hgate : r.output = some gate) :
    HasCounted (r.count now (.emitted gate)) (calls ++ [.event clock (.emitted gate)]) := by
  constructor
  · simp [Reporter.count, Call.isReceipt, h.received]
  · simp [Reporter.count, Call.isEmission, hgate, h.emitted]
  · simp [Reporter.count, Call.receivedAt?, h.first]

/-- A reporter that notes an event has counted one more call. -/
theorem HasCounted.noted {r : Reporter τ} {calls : List (Call τ)} (h : HasCounted r calls)
    (clock : ReporterId → Readings τ) (e : GateEvent) :
    HasCounted (r.noted (clock r.id).counting e) (calls ++ [.event clock e]) := by
  unfold Reporter.noted
  split_ifs with hhears
  · cases e with
    | received gate =>
      have hgate : r.input = some gate := beq_iff_eq.mp hhears
      exact h.count_received clock hgate
    | emitted gate =>
      have hgate : r.output = some gate := beq_iff_eq.mp hhears
      exact h.count_emitted clock _ hgate
  · rw [Bool.not_eq_true] at hhears
    cases e with
    | received gate => exact h.skip hhears rfl
    | emitted gate => exact h.skip rfl hhears

variable [Millis τ]

/-! ### Since the last report -/

/-- Of some calls, `since` are those that were made after the last report of a reporter, or else
after its registration; that was at `start`. -/
inductive Since (s : Scheduler τ) (id : ReporterId) : List (Call τ) → τ → List (Call τ) → Prop
  | registered {calls : List (Call τ)} {now : τ} {input output : Option ℕ} {s' : Scheduler τ} :
    (s.after calls).register now input output id = .ok (true, s') →
    Since s id (calls ++ [.register now input output id]) now []
  | reported {calls : List (Call τ)} {call : Call τ} {p : Report τ} :
    p ∈ ((s.after calls).step call).2 → p.reporter = id →
    Since s id (calls ++ [call]) p.timestamp []
  | later {calls : List (Call τ)} {call : Call τ} {start : τ} {since : List (Call τ)} :
    Since s id calls start since → (∀ p ∈ ((s.after calls).step call).2, p.reporter ≠ id) →
    Since s id (calls ++ [call]) start (since ++ [call])

/-- A reporter that counts is there. -/
theorem Since.exists_reporter {s : Scheduler τ} {id : ReporterId} {calls since : List (Call τ)}
    {start : τ} (h : s.Since id calls start since) :
    ∃ r ∈ (s.after calls).reporters, r.id = id := by
  induction h with
  | registered hregister =>
    rcases register_eq_ok hregister with ⟨hfalse, -⟩ | ⟨-, -, hs'⟩
    · cases hfalse
    · rw [after_concat, step, hregister, hs']
      exact ⟨_, List.mem_append_right _ List.mem_cons_self, rfl⟩
  | reported hp hid =>
    rw [after_concat]
    exact hid ▸ exists_reporter_step (exists_reporter_of_mem_step hp) _
  | later _ _ ih =>
    rw [after_concat]
    exact exists_reporter_step ih _

/-- A reporter that counts is not registered again. -/
theorem Since.not_register {s s' : Scheduler τ} {id : ReporterId} {calls since : List (Call τ)}
    {start now : τ} {input output : Option ℕ} (h : s.Since id calls start since) :
    (s.after calls).register now input output id ≠ .ok (true, s') := by
  intro hregister
  obtain ⟨r, hr, hid⟩ := h.exists_reporter
  rcases register_eq_ok hregister with ⟨hfalse, -⟩ | ⟨-, hnew, -⟩
  · cases hfalse
  · exact hnew r hr hid

theorem Since.ne_nil {s : Scheduler τ} {id : ReporterId} {calls since : List (Call τ)} {start : τ}
    (h : s.Since id calls start since) : calls ≠ [] := by
  cases h <;> simp

/-- What the last call means for a reporter: it registers the reporter, or brings about a report of
it, or is one more call that counts. -/
theorem Since.concat_cases {s : Scheduler τ} {id : ReporterId} {calls since : List (Call τ)}
    {call : Call τ} {start : τ} (h : s.Since id (calls ++ [call]) start since) :
    (since = [] ∧ ∃ input output s', call = .register start input output id ∧
        (s.after calls).register start input output id = .ok (true, s')) ∨
      (since = [] ∧ ∃ p ∈ ((s.after calls).step call).2, p.reporter = id ∧ p.timestamp = start) ∨
      ∃ since₀, since = since₀ ++ [call] ∧ s.Since id calls start since₀ ∧
        ∀ p ∈ ((s.after calls).step call).2, p.reporter ≠ id := by
  generalize hall : calls ++ [call] = all at h
  cases h with
  | registered hregister =>
    obtain ⟨rfl, hlast⟩ := List.append_inj' hall rfl
    exact .inl ⟨rfl, _, _, _, List.singleton_inj.mp hlast, hregister⟩
  | reported hp hid =>
    obtain ⟨rfl, hlast⟩ := List.append_inj' hall rfl
    obtain rfl := List.singleton_inj.mp hlast
    exact .inr (.inl ⟨rfl, _, hp, hid, rfl⟩)
  | later hsince hsilent =>
    obtain ⟨rfl, hlast⟩ := List.append_inj' hall rfl
    obtain rfl := List.singleton_inj.mp hlast
    exact .inr (.inr ⟨_, rfl, hsince, hsilent⟩)

/-- The calls tell in one way only what a reporter counts. -/
theorem Since.unique {s : Scheduler τ} (hids : s.HasDistinctIds) {id : ReporterId}
    {calls since since' : List (Call τ)} {start start' : τ} (h : s.Since id calls start since)
    (h' : s.Since id calls start' since') : start = start' ∧ since = since' := by
  induction calls using List.reverseRecOn generalizing start start' since since' with
  | nil => exact absurd rfl h.ne_nil
  | append_singleton calls call ih =>
    -- both say the same of the last call: it cannot register the reporter and bring about a report
    -- of it, and it does neither if the reporter goes on counting
    rcases h.concat_cases with ⟨rfl, i, o, u, rfl, hregister⟩ | ⟨rfl, p, hp, hid, rfl⟩ |
        ⟨since₀, rfl, hsince, hsilent⟩ <;>
      rcases h'.concat_cases with ⟨rfl, i', o', u', hcall, hregister'⟩ |
        ⟨rfl, p', hp', hid', rfl⟩ | ⟨since₀', rfl, hsince', hsilent'⟩
    · obtain ⟨rfl, -, -, -⟩ := Call.register.inj hcall
      exact ⟨rfl, rfl⟩
    · exact absurd hp' not_mem_step_register
    · exact absurd hregister hsince'.not_register
    · subst hcall
      exact absurd hp not_mem_step_register
    · obtain rfl := (hids.after calls).eq_of_reporter_eq hp hp' (hid.trans hid'.symm)
      exact ⟨rfl, rfl⟩
    · exact absurd hid (hsilent' p hp)
    · exact absurd hregister' hsince.not_register
    · exact absurd hid' (hsilent p' hp')
    · obtain ⟨rfl, rfl⟩ := ih hsince hsince'
      exact ⟨rfl, rfl⟩

/-- One of the calls registered the reporter with these gates. -/
def Registered (s : Scheduler τ) (calls : List (Call τ)) (id : ReporterId)
    (input output : Option ℕ) : Prop :=
  ∃ before now later s', calls = before ++ .register now input output id :: later ∧
    (s.after before).register now input output id = .ok (true, s')

theorem Registered.append {s : Scheduler τ} {calls : List (Call τ)} {id : ReporterId}
    {input output : Option ℕ} (h : s.Registered calls id input output) (call : Call τ) :
    s.Registered (calls ++ [call]) id input output := by
  obtain ⟨before, now, later, s', rfl, hregister⟩ := h
  refine ⟨before, now, later ++ [call], s', ?_, hregister⟩
  rw [List.append_assoc, List.cons_append]

/-- What a reporter knows is what it has to know after the calls of a run. -/
structure IsAccounted (s : Scheduler τ) (calls : List (Call τ)) (r : Reporter τ) : Prop where
  gates : s.Registered calls r.id r.input r.output
  counts : ∃ since, s.Since r.id calls r.lastReport since ∧ HasCounted r since

/-- What a report says is what the calls that it is about come to, if the reporter has the given
gates and has counted since `start`. -/
structure AccountsFor (p : Report τ) (input output : Option ℕ) (start : τ)
    (calls : List (Call τ)) : Prop where
  consumed : p.metrics.consumed = input.map fun _ =>
    Float.ofNat (calls.countP (Call.isReceipt input))
      / (Millis.toFloat (Millis.sub p.timestamp start) / 1000)
  emitted : p.metrics.emitted = output.map fun _ =>
    Float.ofNat (calls.countP (Call.isEmission output))
      / (Millis.toFloat (Millis.sub p.timestamp start) / 1000)
  /-- The latency is measured from the first receipt on. -/
  latency : input.isSome = true → output.isSome = true →
    ∃ first, calls.findSome? (Call.receivedAt? p.reporter input) = some first ∧
      p.metrics.latency = some (Millis.toFloat (Millis.sub p.timestamp first)
        / Float.ofNat (calls.countP (Call.isReceipt input)))
  noLatency : input = none ∨ output = none → p.metrics.latency = none

/-- A reporter with traffic reports what it has counted. -/
theorem HasCounted.accountsFor {r : Reporter τ} {calls : List (Call τ)} (h : HasCounted r calls)
    (htraffic : r.hasTraffic = true) (now : τ) :
    AccountsFor { timestamp := now, reporter := r.id, metrics := r.metrics now } r.input r.output
      r.lastReport calls := by
  constructor
  · simp only [Reporter.metrics, Reporter.rate, h.received]
  · simp only [Reporter.metrics, Reporter.rate, h.emitted]
  · intro hinput houtput
    obtain ⟨i, hi⟩ := Option.isSome_iff_exists.mp hinput
    obtain ⟨o, ho⟩ := Option.isSome_iff_exists.mp houtput
    have hpos : 0 < r.received := by
      simp only [Reporter.hasTraffic, hi, Option.isNone_some, Bool.false_or, Bool.and_eq_true,
        decide_eq_true_eq] at htraffic
      exact htraffic.1.1
    have hsome : (calls.findSome? (Call.receivedAt? r.id r.input)).isSome = true := by
      rw [isSome_firstReceipt, ← h.received]
      exact hpos
    obtain ⟨first, hfirst⟩ := Option.isSome_iff_exists.mp hsome
    refine ⟨first, hfirst, ?_⟩
    have hreceive : r.firstReceive = some first := h.first.trans hfirst
    simp only [Reporter.metrics, Reporter.meanLatency, hi, ho, hreceive, if_pos hpos]
    rw [h.received, hi]
  · intro hgates
    simp only [Reporter.metrics, Reporter.meanLatency]
    rcases hgates with hinput | houtput
    · rw [hinput]
    · rw [houtput]
      cases r.input <;> rfl

/-! ### What a call preserves -/

variable {s : Scheduler τ} {calls : List (Call τ)}

theorem IsAccounted.register {r : Reporter τ} (h : s.IsAccounted calls r) (now : τ)
    (input output : Option ℕ) (id : ReporterId) :
    s.IsAccounted (calls ++ [.register now input output id]) r := by
  obtain ⟨hgates, since, hsince, hcounts⟩ := h
  have hsilent : ∀ p ∈ ((s.after calls).step (.register now input output id)).2,
      p.reporter ≠ r.id := fun p hp => absurd hp not_mem_step_register
  exact ⟨hgates.append _, _, hsince.later hsilent, hcounts.skip rfl rfl⟩

/-- A reporter that has heard of an event is accounted for again, whether it has reported or not. -/
theorem IsAccounted.hear {r : Reporter τ} (h : s.IsAccounted calls r)
    (hids : (s.after calls).HasDistinctIds) (hr : r ∈ (s.after calls).reporters)
    (clock : ReporterId → Readings τ) (e : GateEvent) :
    s.IsAccounted (calls ++ [.event clock e])
      (r.hear (s.after calls).interval (clock r.id) e).1 := by
  obtain ⟨hgates, since, hsince, hcounts⟩ := h
  have hcounted := hcounts.noted clock e
  have hid := r.noted_id (clock r.id).counting e
  have hinput := r.noted_input (clock r.id).counting e
  have houtput := r.noted_output (clock r.id).counting e
  have hlast := r.noted_lastReport (clock r.id).counting e
  rcases r.hear_cases (s.after calls).interval (clock r.id) e with
    ⟨n, hquiet⟩ | ⟨-, -, -, hreport⟩
  · -- no other reporter has the same key, so that there is no report under it
    have hsilent : ∀ p ∈ ((s.after calls).step (.event clock e)).2, p.reporter ≠ r.id := by
      intro p hp hsame
      obtain ⟨r', hr', hheard, -, rfl⟩ := exists_reporter_of_mem_hear hp
      obtain rfl : r' = r := hids.eq_of_id_eq hr' hr hsame
      rw [hquiet] at hheard
      cases hheard
    rw [hquiet]
    generalize r.noted (clock r.id).counting e = noted at hcounted hid hinput houtput hlast
    constructor
    · show s.Registered (calls ++ [.event clock e]) noted.id noted.input noted.output
      rw [hid, hinput, houtput]
      exact hgates.append _
    · refine ⟨since ++ [.event clock e], ?_, hcounted.received, hcounted.emitted, hcounted.first⟩
      show s.Since noted.id (calls ++ [.event clock e]) noted.lastReport (since ++ [.event clock e])
      rw [hid, hlast]
      exact hsince.later hsilent
  · have hmem : _ ∈ ((s.after calls).step (.event clock e)).2 :=
      mem_reports_hear.mpr ⟨r, hr, congrArg Prod.snd hreport⟩
    have hstart := Since.reported hmem rfl
    rw [hreport]
    constructor
    · show s.Registered (calls ++ [.event clock e]) _ _ _
      rw [Reporter.restart, hid, hinput, houtput]
      exact hgates.append _
    · refine ⟨[], ?_, rfl, rfl, rfl⟩
      rw [Reporter.restart, hid]
      exact hstart

/-- **Every call keeps the accounts.** -/
theorem IsAccounted.step (h : ∀ r ∈ (s.after calls).reporters, s.IsAccounted calls r)
    (hids : (s.after calls).HasDistinctIds) (call : Call τ) :
    ∀ r ∈ ((s.after calls).step call).1.reporters, s.IsAccounted (calls ++ [call]) r := by
  intro r hr
  cases call with
  | event clock e =>
    obtain ⟨r₀, hr₀, rfl⟩ := mem_reporters_hear.mp hr
    exact (h r₀ hr₀).hear hids hr₀ clock e
  | register now input output id =>
    obtain ⟨-, hsame | ⟨s', hregister, hs', -, hreporters⟩⟩ :=
      (s.after calls).step_register now input output id
    · rw [hsame] at hr
      exact (h r hr).register now input output id
    · rw [hs', hreporters] at hr
      rcases List.mem_append.mp hr with hr | hr
      · exact (h r hr).register now input output id
      · obtain rfl := List.mem_singleton.mp hr
        exact ⟨⟨calls, now, [], s', rfl, hregister⟩, [], .registered hregister, rfl, rfl, rfl⟩

/-- All reporters are accounted for after any run of a scheduler that had none. -/
theorem isAccounted_after (hs : s.reporters = []) (calls : List (Call τ)) :
    ∀ r ∈ (s.after calls).reporters, s.IsAccounted calls r := by
  have hids := HasDistinctIds.of_reporters_eq_nil hs
  induction calls using List.reverseRecOn with
  | nil =>
    intro r hr
    have hr : r ∈ s.reporters := hr
    rw [hs] at hr
    exact (List.not_mem_nil hr).elim
  | append_singleton calls call ih =>
    rw [after_concat]
    exact IsAccounted.step ih (hids.after calls) call

/-- **Reports account for all events.**  Whatever a scheduler without reporters has been called for,
each report that a further call brings about says what has happened at the gates of its reporter:
in all calls since the reporter's last report, or else since its registration, up to and including
this one. -/
theorem report_accounts (hs : s.reporters = []) (calls : List (Call τ)) (call : Call τ) :
    ∀ p ∈ ((s.after calls).step call).2, ∃ clock e input output,
      call = .event clock e ∧ p.timestamp = (clock p.reporter).checking ∧
        s.Registered calls p.reporter input output ∧
        (∃ start since, s.Since p.reporter calls start since) ∧
        ∀ start since, s.Since p.reporter calls start since →
          AccountsFor p input output start (since ++ [call]) := by
  intro p hp
  cases call with
  | register now input output id =>
    exact absurd hp not_mem_step_register
  | event clock e =>
    obtain ⟨r, hr, -, htraffic, rfl⟩ := exists_reporter_of_mem_hear hp
    obtain ⟨hgates, since, hsince, hcounts⟩ := isAccounted_after hs calls r hr
    have haccounts := (hcounts.noted clock e).accountsFor htraffic (clock r.id).checking
    simp only [Reporter.noted_id, Reporter.noted_input, Reporter.noted_output,
      Reporter.noted_lastReport] at haccounts
    refine ⟨clock, e, r.input, r.output, rfl, rfl, hgates, ⟨_, since, hsince⟩, ?_⟩
    intro start since' hsince'
    obtain ⟨rfl, rfl⟩ := hsince.unique (HasDistinctIds.of_reporters_eq_nil hs) hsince'
    exact haccounts

/-- The scheduler of a task with one gate on either side. -/
def throughScheduler : Scheduler Int := { interval := 1000, inputs := 1, outputs := 1 }

/-- The reporter between the two gates. -/
def throughReporter : ReporterId := .vertex ⟨"v"⟩ (some ⟨"v/in0"⟩) (some ⟨"v/out0"⟩)

/-- The reporter is registered, and a record is received at once. -/
def throughCalls : List (Call Int) :=
  [.register 0 (some 0) (some 0) throughReporter,
    .event (fun _ => { counting := 0, checking := 0 }) (.received 0)]

/-- A record is emitted two seconds later. -/
def throughCall : Call Int := .event (fun _ => { counting := 2000, checking := 2000 }) (.emitted 0)

theorem report_accounts_throughCalls :
    throughScheduler.reporters = [] ∧
      ∃ p ∈ ((throughScheduler.after throughCalls).step throughCall).2, ∃ clock e input output,
        throughCall = .event clock e ∧ p.timestamp = (clock p.reporter).checking ∧
          throughScheduler.Registered throughCalls p.reporter input output ∧
          (∃ start since, throughScheduler.Since p.reporter throughCalls start since) ∧
          ∀ start since, throughScheduler.Since p.reporter throughCalls start since →
            AccountsFor p input output start (since ++ [throughCall]) := by
  have hreports : ((throughScheduler.after throughCalls).step throughCall).2.length = 1 := by
    decide +kernel
  obtain ⟨p, hp⟩ := List.exists_mem_of_length_pos (hreports ▸ Nat.one_pos)
  exact ⟨rfl, p, hp, report_accounts rfl throughCalls throughCall p hp⟩

end Scheduler

end LatencyControl
