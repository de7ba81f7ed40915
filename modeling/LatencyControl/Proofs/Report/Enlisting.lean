import Mathlib.Data.List.Nodup
import Mathlib.Data.List.Sigma
import LatencyControl.Proofs.Report.Runs
import LatencyControl.Report.Roster

/-!
# The lists of a roster

A roster keeps the same reporters in a registry and in a list for each gate, and an event is told to
the list of its gate only.  `lists_after` says of every run that the lists and the registry agree,
so that an event reaches just the reporters that it concerns, each of them once.

* `Enrolment` is what a registration says of a reporter: its key and its gates.
* `Roster.Reflects` is the invariant: the registry and all lists can be read off the enrolments, in
  their order (`placesFrom`).
* `Reflects.enlist` and `Reflects.hear` are its two steps, and `reflects_after` its run.
* `hear_eq` says what an event does, going through the reporters instead of the list.
* `toScheduler_after` says that the roster is told apart from a scheduler without lists by nothing
  that it does.
-/

namespace LatencyControl

variable {τ : Type}

/-! ### Enrolments -/

/-- What a registration says of a reporter. -/
@[ext] structure Enrolment where
  id : ReporterId
  input : Option ℕ
  output : Option ℕ
  deriving DecidableEq

/-- Whether an event concerns a reporter with these gates. -/
def Enrolment.hears (m : Enrolment) : GateEvent → Bool
  | .received gate => m.input == some gate
  | .emitted gate => m.output == some gate

namespace Reporter

/-- What the registration of the reporter said. -/
def enrolment (r : Reporter τ) : Enrolment := ⟨r.id, r.input, r.output⟩

theorem hears_enrolment (r : Reporter τ) (e : GateEvent) : r.enrolment.hears e = r.hears e := by
  cases e <;> rfl

/-- Whatever a reporter hears, its key and its gates stay. -/
theorem enrolment_hear [Millis τ] (r : Reporter τ) (interval : τ) (readings : Readings τ)
    (e : GateEvent) : (r.hear interval readings e).1.enrolment = r.enrolment := by
  have hnoted : (r.noted readings.counting e).enrolment = r.enrolment := by
    ext1
    · exact r.noted_id _ e
    · exact r.noted_input _ e
    · exact r.noted_output _ e
  rcases r.hear_cases interval readings e with ⟨n, hquiet⟩ | ⟨-, -, -, hreport⟩
  · rw [hquiet]
    exact hnoted
  · rw [hreport]
    exact hnoted

end Reporter

/-! ### Places -/

/-- The places in a list of enrolments that an event concerns, if the first place is `n`. -/
def placesFrom (n : ℕ) (members : List Enrolment) (e : GateEvent) : List ℕ :=
  ((members.zipIdx n).filter fun p => p.1.hears e).map Prod.snd

theorem placesFrom_cons (n : ℕ) (m : Enrolment) (rest : List Enrolment) (e : GateEvent) :
    placesFrom n (m :: rest) e = (if m.hears e then [n] else []) ++ placesFrom (n + 1) rest e := by
  unfold placesFrom
  rw [List.zipIdx_cons, List.filter_cons]
  split_ifs <;> rfl

theorem placesFrom_append (n : ℕ) (members rest : List Enrolment) (e : GateEvent) :
    placesFrom n (members ++ rest) e
      = placesFrom n members e ++ placesFrom (n + members.length) rest e := by
  unfold placesFrom
  rw [List.zipIdx_append, List.filter_append, List.map_append]

theorem mem_placesFrom_zero {members : List Enrolment} {e : GateEvent} {place : ℕ} :
    place ∈ placesFrom 0 members e ↔ ∃ m, members[place]? = some m ∧ m.hears e = true := by
  simp only [placesFrom, List.mem_map, List.mem_filter, List.mem_zipIdx_iff_getElem?, Prod.exists,
    exists_eq_right]

theorem nodup_placesFrom_zero (members : List Enrolment) (e : GateEvent) :
    (placesFrom 0 members e).Nodup :=
  (List.nodup_zipIdx_map_snd members).sublist (List.filter_sublist.map Prod.snd)

/-- A place occurs once if the event concerns the reporter there, and else it does not occur. -/
theorem count_placesFrom_zero {members : List Enrolment} {place : ℕ} {m : Enrolment}
    (hm : members[place]? = some m) (e : GateEvent) :
    (placesFrom 0 members e).count place = if m.hears e then 1 else 0 := by
  have hmem : place ∈ placesFrom 0 members e ↔ m.hears e = true := by
    rw [mem_placesFrom_zero, hm]
    simp
  rw [(nodup_placesFrom_zero members e).count]
  simp only [hmem]

namespace Roster

/-! ### The lists of the gates -/

theorem getD_putAt {lists : List (List ℕ)} {gate : Option ℕ} (hgate : ∀ g ∈ gate, g < lists.length)
    (place g : ℕ) : (putAt lists place gate).getD g []
      = lists.getD g [] ++ if gate == some g then [place] else [] := by
  cases gate with
  | none => simp [putAt]
  | some given =>
    rw [putAt, List.getD_eq_getElem?_getD, List.getD_eq_getElem?_getD, List.getElem?_modify]
    by_cases hsame : given = g
    · subst hsame
      have hlt : given < lists.length := hgate given rfl
      simp [List.getElem?_eq_getElem hlt]
    · simp [hsame]

theorem length_putAt (lists : List (List ℕ)) (place : ℕ) (gate : Option ℕ) :
    (putAt lists place gate).length = lists.length := by
  cases gate with
  | none => rfl
  | some g => exact List.length_modify ..

/-- A new reporter is put at the end of the lists of its gates, and into no other list. -/
theorem listed_enlist {s : Roster τ} {input output : Option ℕ}
    (hgates : s.toScheduler.HasGates input output) (now : τ) (id : ReporterId) (e : GateEvent) :
    (s.enlist now input output id).listed e
      = s.listed e ++ if Enrolment.hears ⟨id, input, output⟩ e then [s.made.length] else [] := by
  cases e with
  | received gate => exact getD_putAt hgates.input_lt s.made.length gate
  | emitted gate => exact getD_putAt hgates.output_lt s.made.length gate

/-! ### The invariant -/

/-- The registry and all lists of a roster are what some enrolments come to. -/
structure Reflects (s : Roster τ) (members : List Enrolment) : Prop where
  made : s.made.map Reporter.enrolment = members
  registry : s.registry = members.zipIdx.map fun p => (p.1.id, p.2)
  listed : ∀ e, s.listed e = placesFrom 0 members e
  distinct : (members.map Enrolment.id).Nodup

section

variable {s : Roster τ} {members : List Enrolment}

theorem Reflects.length_made (h : s.Reflects members) : s.made.length = members.length := by
  rw [← h.made, List.length_map]

/-- The registry has the keys of all enrolments and no others. -/
theorem Reflects.isSome_lookup_iff (h : s.Reflects members) (id : ReporterId) :
    (s.registry.lookup id).isSome = true ↔ id ∈ members.map Enrolment.id := by
  rw [List.lookup_isSome_iff, h.registry]
  constructor
  · rintro ⟨entry, hentry, hid⟩
    obtain ⟨⟨m, place⟩, hm, rfl⟩ := List.mem_map.mp hentry
    have hat : members[place]? = some m := List.mem_zipIdx_iff_getElem?.mp hm
    rw [beq_iff_eq.mp hid]
    exact List.mem_map_of_mem (List.mem_of_getElem? hat)
  · intro hmem
    obtain ⟨m, hm, rfl⟩ := List.mem_map.mp hmem
    obtain ⟨place, hat⟩ := List.getElem?_of_mem hm
    have hentry : (m, place) ∈ members.zipIdx := List.mem_zipIdx_iff_getElem?.mpr hat
    exact ⟨(m.id, place), List.mem_map.mpr ⟨_, hentry, rfl⟩, beq_self_eq_true m.id⟩

/-- The registry says where a reporter is. -/
theorem Reflects.lookup_eq (h : s.Reflects members) {place : ℕ} {m : Enrolment}
    (hm : members[place]? = some m) : s.registry.lookup m.id = some place := by
  have hmem : m.id ∈ members.map Enrolment.id := List.mem_map_of_mem (List.mem_of_getElem? hm)
  obtain ⟨found, hfound⟩ := Option.isSome_iff_exists.mp ((h.isSome_lookup_iff m.id).mpr hmem)
  obtain ⟨before, later, hsplit, -⟩ := List.lookup_eq_some_iff.mp hfound
  have hentry : (m.id, found) ∈ members.zipIdx.map fun p => (p.1.id, p.2) := by
    rw [← h.registry, hsplit]
    exact List.mem_append_right before List.mem_cons_self
  obtain ⟨⟨m', place'⟩, hm', hsame⟩ := List.mem_map.mp hentry
  obtain ⟨hid, rfl⟩ := Prod.mk.inj hsame
  have hat : members[place']? = some m' := List.mem_zipIdx_iff_getElem?.mp hm'
  -- two places with one key would be two enrolments with one key
  have hplaces : place' = place := by
    have hkey : (members.map Enrolment.id)[place']? = (members.map Enrolment.id)[place]? := by
      rw [List.getElem?_map, List.getElem?_map, hat, hm, Option.map_some, Option.map_some, hid]
    obtain ⟨hlt, -⟩ := List.getElem?_eq_some_iff.mp hat
    exact (List.getElem?_inj (by rwa [List.length_map]) h.distinct).mp hkey
  rw [hfound, hplaces]

/-! ### What a registration does -/

/-- **What a registration comes to.**  It is refused without the gates; else it enlists the reporter
unless there is one with its key. -/
theorem add_cases (s : Roster τ) (now : τ) (input output : Option ℕ) (id : ReporterId) :
    (¬ s.toScheduler.HasGates input output ∧ ∃ e, s.add now input output id = (.error e, s)) ∨
      ((s.registry.lookup id).isSome = true ∧ s.add now input output id = (.ok false, s)) ∨
      (s.toScheduler.HasGates input output ∧ ¬ (s.registry.lookup id).isSome = true ∧
        s.add now input output id = (.ok true, s.enlist now input output id)) := by
  rw [← Scheduler.checkGates_eq_ok id, add]
  cases hcheck : s.toScheduler.checkGates input output id with
  | error e =>
    refine .inl ⟨fun h => ?_, e, rfl⟩
    cases h
  | ok _ =>
    by_cases hfound : (s.registry.lookup id).isSome = true
    · exact .inr (.inl ⟨hfound, if_pos hfound⟩)
    · exact .inr (.inr ⟨rfl, hfound, if_neg hfound⟩)

/-- A registration that is refused, or that finds the reporter there, changes nothing. -/
theorem add_unchanged {s : Roster τ} {now : τ} {input output : Option ℕ} {id : ReporterId}
    (h : (s.add now input output id).1 ≠ .ok true) : (s.add now input output id).2 = s := by
  rcases s.add_cases now input output id with ⟨-, e, hrefused⟩ | ⟨-, hold⟩ | ⟨-, -, hnew⟩
  · rw [hrefused]
  · rw [hold]
  · rw [hnew] at h
    exact absurd rfl h

/-- **A new reporter keeps the lists and the registry in step.** -/
theorem Reflects.enlist (h : s.Reflects members) {input output : Option ℕ}
    (hgates : s.toScheduler.HasGates input output) {id : ReporterId}
    (hnew : id ∉ members.map Enrolment.id) (now : τ) :
    (s.enlist now input output id).Reflects (members ++ [⟨id, input, output⟩]) := by
  constructor
  · show (s.made ++ [_]).map Reporter.enrolment = _
    rw [List.map_append, h.made]
    rfl
  · show s.registry ++ [(id, s.made.length)] = _
    rw [List.zipIdx_append, List.map_append, ← h.registry, h.length_made, Nat.zero_add]
    rfl
  · intro e
    rw [listed_enlist hgates, placesFrom_append, h.listed, h.length_made, placesFrom_cons,
      Nat.zero_add]
    exact congrArg _ (List.append_nil _).symm
  · rw [List.map_append]
    refine List.nodup_append.mpr ⟨h.distinct, List.nodup_singleton id, fun a ha b hb hab => ?_⟩
    obtain rfl : b = id := List.mem_singleton.mp hb
    exact hnew (hab ▸ ha)

end

/-! ### What an event does -/

variable [Millis τ]

/-- Telling a listed reporter of an event that concerns it makes it hear of the event. -/
theorem tell_eq (s : Roster τ) (clock : ReporterId → Readings τ) {e : GateEvent}
    (before rest : List (Reporter τ)) {r : Reporter τ} (hhears : r.hears e = true) :
    ({ s with made := before ++ r :: rest } : Roster τ).tell clock e before.length
      = ({ s with made := before ++ (r.hear s.interval (clock r.id) e).1 :: rest },
          (r.hear s.interval (clock r.id) e).2.toList) := by
  have hat : (before ++ r :: rest)[before.length]? = some r := by simp
  rw [tell, hat, Reporter.hear, if_pos hhears]
  simp only [List.set_append_right _ _ (le_refl before.length), Nat.sub_self, List.set_cons_zero]

/-- Telling the listed reporters of an event is the same as telling all reporters, who hear of it
only if it concerns them.  The reporters `before` have been told already. -/
theorem tellAll_placesFrom (s : Roster τ) (clock : ReporterId → Readings τ) (e : GateEvent)
    (before behind : List (Reporter τ)) :
    ({ s with made := before ++ behind } : Roster τ).tellAll clock e
        (placesFrom before.length (behind.map Reporter.enrolment) e)
      = ({ s with made := before ++ behind.map fun r => (r.hear s.interval (clock r.id) e).1 },
          behind.filterMap fun r => (r.hear s.interval (clock r.id) e).2) := by
  induction behind generalizing before with
  | nil => rfl
  | cons r rest ih =>
    have hnext := ih (before ++ [(r.hear s.interval (clock r.id) e).1])
    rw [List.length_append, List.length_singleton, List.append_assoc, List.append_assoc,
      List.singleton_append, List.singleton_append] at hnext
    rw [List.map_cons, placesFrom_cons, r.hears_enrolment]
    by_cases hhears : r.hears e = true
    · rw [if_pos hhears, List.singleton_append, tellAll, tell_eq s clock before rest hhears]
      simp only [hnext]
      cases hreport : (r.hear s.interval (clock r.id) e).2 with
      | none => simp [hreport]
      | some p => simp [hreport]
    · have hsame : r.hear s.interval (clock r.id) e = (r, none) := if_neg hhears
      rw [if_neg hhears, List.nil_append]
      rw [hsame] at hnext
      simp [hnext, hsame]

variable {s : Roster τ} {members : List Enrolment}

/-- **What an event does.**  Every reporter hears of it, as if there were no lists; the registry and
the lists stay as they are. -/
theorem hear_eq (h : s.Reflects members) (clock : ReporterId → Readings τ) (e : GateEvent) :
    s.hear clock e
      = ({ s with made := s.made.map fun r => (r.hear s.interval (clock r.id) e).1 },
          s.made.filterMap fun r => (r.hear s.interval (clock r.id) e).2) := by
  rw [hear, h.listed, ← h.made]
  exact tellAll_placesFrom s clock e [] s.made

/-- **An event keeps the lists and the registry in step.** -/
theorem Reflects.hear (h : s.Reflects members) (clock : ReporterId → Readings τ) (e : GateEvent) :
    (s.hear clock e).1.Reflects members := by
  rw [hear_eq h]
  refine ⟨?_, h.registry, h.listed, h.distinct⟩
  rw [← h.made, List.map_map]
  exact List.map_congr_left fun r _ => r.enrolment_hear s.interval (clock r.id) e

/-! ### Runs -/

/-- The roster after a call, and the reports that the call brings about. -/
def step (s : Roster τ) : Scheduler.Call τ → Roster τ × List (Report τ)
  | .register now input output id => ((s.add now input output id).2, [])
  | .event clock e => s.hear clock e

/-- The roster after some calls. -/
def after (s : Roster τ) (calls : List (Scheduler.Call τ)) : Roster τ :=
  calls.foldl (fun s call => (s.step call).1) s

omit [Millis τ] in
/-- Whom a call registers: the reporter of a registration that is answered with yes. -/
def newcomers (s : Roster τ) : Scheduler.Call τ → List Enrolment
  | .register now input output id =>
    match (s.add now input output id).1 with
    | .ok true => [⟨id, input, output⟩]
    | _ => []
  | .event _ _ => []

/-- Whom some calls register, in the order of the calls. -/
def enrolled (s : Roster τ) : List (Scheduler.Call τ) → List Enrolment
  | [] => []
  | call :: rest => s.newcomers call ++ (s.step call).1.enrolled rest

/-- **Every call keeps the lists and the registry in step.** -/
theorem Reflects.step (h : s.Reflects members) (call : Scheduler.Call τ) :
    (s.step call).1.Reflects (members ++ s.newcomers call) := by
  cases call with
  | event clock e =>
    rw [newcomers, List.append_nil]
    exact h.hear clock e
  | register now input output id =>
    rw [Roster.step, newcomers]
    rcases s.add_cases now input output id with
      ⟨-, e, hrefused⟩ | ⟨-, hold⟩ | ⟨hgates, hfound, hnew⟩
    · rw [hrefused, List.append_nil]
      exact h
    · rw [hold, List.append_nil]
      exact h
    · rw [hnew]
      rw [h.isSome_lookup_iff] at hfound
      exact h.enlist hgates hfound now

theorem Reflects.after (h : s.Reflects members) (calls : List (Scheduler.Call τ)) :
    (s.after calls).Reflects (members ++ s.enrolled calls) := by
  induction calls generalizing s members with
  | nil =>
    rw [enrolled, List.append_nil]
    exact h
  | cons call rest ih =>
    rw [enrolled, ← List.append_assoc]
    exact ih (h.step call)

omit [Millis τ] in
theorem reflects_empty (interval : τ) (inputs outputs : ℕ) :
    (empty interval inputs outputs).Reflects [] := by
  refine ⟨rfl, rfl, fun e => ?_, List.nodup_nil⟩
  have hnone : ∀ n gate : ℕ, (List.replicate n ([] : List ℕ)).getD gate [] = [] := by
    intro n gate
    rw [List.getD_eq_getElem?_getD, List.getElem?_replicate]
    split_ifs <;> rfl
  cases e with
  | received gate => exact hnone inputs gate
  | emitted gate => exact hnone outputs gate

/-- After any run, the registry and the lists are what the registrations of the run come to. -/
theorem reflects_after (interval : τ) (inputs outputs : ℕ) (calls : List (Scheduler.Call τ)) :
    ((empty interval inputs outputs).after calls).Reflects
      ((empty interval inputs outputs).enrolled calls) :=
  (reflects_empty interval inputs outputs).after calls

/-! ### Without lists -/

omit [Millis τ] in
theorem toScheduler_enlist (s : Roster τ) (now : τ) (input output : Option ℕ) (id : ReporterId) :
    (s.enlist now input output id).toScheduler
      = { s.toScheduler with
            reporters := s.made ++ [{ id, input, output, lastReport := now }] } := by
  simp only [toScheduler, enlist, length_putAt]

omit [Millis τ] in
/-- A registration is answered in the same way without the lists, and adds the same reporter. -/
theorem register_toScheduler (h : s.Reflects members) (now : τ) (input output : Option ℕ)
    (id : ReporterId) : s.toScheduler.register now input output id
      = (s.add now input output id).1.map fun isNew =>
          (isNew, (s.add now input output id).2.toScheduler) := by
  have hknown : (s.toScheduler.find? id).isSome = (s.registry.lookup id).isSome := by
    rw [Bool.eq_iff_iff, Scheduler.find?_isSome_iff, h.isSome_lookup_iff, ← h.made, List.map_map]
    rfl
  rw [add, Scheduler.register]
  cases s.toScheduler.checkGates input output id with
  | error e => rfl
  | ok _ =>
    rw [hknown]
    cases hfound : (s.registry.lookup id).isSome with
    | true => rfl
    | false =>
      show _ = Except.ok (true, (s.enlist now input output id).toScheduler)
      rw [toScheduler_enlist]
      rfl

/-- **The lists make no difference.**  A call brings about the same reports with them and without
them, and leaves the same reporters. -/
theorem step_toScheduler (h : s.Reflects members) (call : Scheduler.Call τ) :
    s.toScheduler.step call = ((s.step call).1.toScheduler, (s.step call).2) := by
  cases call with
  | event clock e =>
    rw [Roster.step, hear_eq h, Scheduler.step, Scheduler.hear, List.filterMap_map, List.map_map]
    rfl
  | register now input output id =>
    rw [Scheduler.step, Roster.step, register_toScheduler h]
    rcases s.add_cases now input output id with ⟨-, e, hrefused⟩ | ⟨-, hold⟩ | ⟨-, -, hnew⟩
    · rw [hrefused]
      rfl
    · rw [hold]
      rfl
    · rw [hnew]
      rfl

theorem toScheduler_after (h : s.Reflects members) (calls : List (Scheduler.Call τ)) :
    (s.after calls).toScheduler = s.toScheduler.after calls := by
  induction calls generalizing s members with
  | nil => rfl
  | cons call rest ih =>
    show ((s.step call).1.after rest).toScheduler = (s.toScheduler.step call).1.after rest
    rw [ih (h.step call), step_toScheduler h]

/-! ### The lists after a run -/

/-- **The lists and the registry agree.**  Whatever a task with some gates has been told, in any
order and with any readings of the clock:

* no key is registered twice;
* a reporter is in the registry, once in the list of its input gate if it has one, once in the list
  of its output gate if it has one, and in no other list;
* nobody else is in a list or in the registry;
* a registration that does not register anybody changes nothing;
* a record at a gate is heard of once by each reporter that it concerns, and by nobody else;
* reporters and reports are those of the scheduler without lists. -/
theorem lists_after (interval : τ) (inputs outputs : ℕ) (calls : List (Scheduler.Call τ)) :
    let start := empty interval inputs outputs
    let s := start.after calls
    ((start.enrolled calls).map Enrolment.id).Nodup ∧
      (∀ m ∈ start.enrolled calls, ∃ place r, s.registry.lookup m.id = some place ∧
        s.made[place]? = some r ∧ r.id = m.id ∧ r.input = m.input ∧ r.output = m.output ∧
        (∀ gate, (s.atInputs.getD gate []).count place = if m.input = some gate then 1 else 0) ∧
        (∀ gate, (s.atOutputs.getD gate []).count place
          = if m.output = some gate then 1 else 0)) ∧
      (∀ e, ∀ place ∈ s.listed e, ∃ m ∈ start.enrolled calls,
        s.registry.lookup m.id = some place) ∧
      (∀ id place, s.registry.lookup id = some place →
        ∃ m ∈ start.enrolled calls, m.id = id) ∧
      (∀ now input output id, (s.add now input output id).1 ≠ .ok true →
        (s.add now input output id).2 = s) ∧
      (∀ clock e, s.hear clock e
        = ({ s with made := s.made.map fun r => (r.hear s.interval (clock r.id) e).1 },
            s.made.filterMap fun r => (r.hear s.interval (clock r.id) e).2)) ∧
      s.toScheduler = start.toScheduler.after calls := by
  intro start s
  have h : s.Reflects (start.enrolled calls) := reflects_after interval inputs outputs calls
  refine ⟨h.distinct, fun m hm => ?_, fun e place hplace => ?_, fun id place hid => ?_,
    fun now input output id => add_unchanged, hear_eq h,
    toScheduler_after (reflects_empty interval inputs outputs) calls⟩
  · obtain ⟨place, hat⟩ := List.getElem?_of_mem hm
    obtain ⟨r, hr, rfl⟩ : ∃ r, s.made[place]? = some r ∧ r.enrolment = m := by
      rw [← h.made, List.getElem?_map] at hat
      exact Option.map_eq_some_iff.mp hat
    have hcount : ∀ e, (s.listed e).count place = if r.enrolment.hears e then 1 else 0 := by
      intro e
      rw [h.listed]
      exact count_placesFrom_zero hat e
    refine ⟨place, r, h.lookup_eq hat, hr, rfl, rfl, rfl, fun gate => ?_, fun gate => ?_⟩
    · simpa only [listed, Enrolment.hears, beq_iff_eq] using hcount (.received gate)
    · simpa only [listed, Enrolment.hears, beq_iff_eq] using hcount (.emitted gate)
  · rw [h.listed] at hplace
    obtain ⟨m, hat, -⟩ := mem_placesFrom_zero.mp hplace
    exact ⟨m, List.mem_of_getElem? hat, h.lookup_eq hat⟩
  · have hmem : id ∈ (start.enrolled calls).map Enrolment.id :=
      (h.isSome_lookup_iff id).mp (Option.isSome_iff_exists.mpr ⟨place, hid⟩)
    exact List.mem_map.mp hmem

end Roster

end LatencyControl
