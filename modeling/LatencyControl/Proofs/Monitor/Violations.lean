import LatencyControl.Proofs.Monitor.Operating
import Mathlib.Data.List.ReduceOption

/-!
# What violations tell

A model tells which paths violate its constraint.  Its log says the same (`Model.violations_after`):
a path violates the constraint if every member on it was measured between the gates of its element,
if the latency and the buffer lifetime of every channel on it were last measured at times after the
last change of the buffer size, and if the last measured latencies do not add up to the bound at
most.

The summary of a path is the link between the two: what it reads of each step in the model
(`StepData.IsFresh`, `StepData.latency`) is what the log says of the step (`Attests`,
`loggedLatency`).
-/

namespace LatencyControl

/-! ### Summaries -/

namespace StepData

variable {α : Type}

/-- What is known of a step is of the kind of an element. -/
def IsOfKind : Element → StepData α → Prop
  | .vertex .., .vertex _ => True
  | .edge .., .edge _ => True
  | _, _ => False

/-- What is known of a step makes a summary no less fresh. -/
def IsFresh : Element → StepData α → Prop
  | .vertex _ input output _, .vertex data => (data.bind (·.latest? { input, output })).isSome
  | .edge .., .edge data => ∃ d, data = some d ∧ d.isFresh = true
  | _, _ => False

/-- The latency that a step adds to the latency of a path. -/
def latency [Latency α] : Element → StepData α → α
  | .vertex _ input output _, .vertex data =>
    Summary.orZero ((data.bind (·.latest? { input, output })).bind (·.value.latency))
  | _, .edge data => Summary.orZero (data.bind (·.latency.lastValue?))
  | _, _ => Latency.zero

end StepData

namespace Summary

variable {α : Type} [Latency α] {s : Sequence} {path : List (StepData α)} {e : Element}
  {data : StepData α}

/-- Adds a step of the kind of its element. -/
def addStep (summary : Summary α) : Element → StepData α → Summary α
  | .vertex _ input output _, .vertex data => summary.addVertex data { input, output }
  | .edge .., .edge data => summary.addEdge data
  | _, _ => summary

theorem addStep_isFresh (h : data.IsOfKind e) (summary : Summary α) :
    (summary.addStep e data).isFresh = true ↔ summary.isFresh = true ∧ data.IsFresh e := by
  cases e <;> cases data
  · next g input output sampling data =>
    simp only [addStep, addVertex, addUnknown, StepData.IsFresh]
    cases data.bind (·.latest? { input, output }) with
    | none => simp
    | some entry => simp
  · exact h.elim
  · exact h.elim
  · next l sampling data =>
    cases data with
    | none => simp [addStep, addEdge, addUnknown, StepData.IsFresh]
    | some d => simp [addStep, addEdge, StepData.IsFresh]

theorem addStep_latency (h : data.IsFresh e) (summary : Summary α) :
    (summary.addStep e data).latency = Latency.add summary.latency (data.latency e) := by
  cases e <;> cases data
  · next g input output sampling data =>
    simp only [addStep, addVertex, StepData.latency]
    obtain ⟨entry, hentry⟩ := Option.isSome_iff_exists.mp h
    rw [hentry]
    rfl
  · exact h.elim
  · exact h.elim
  · obtain ⟨d, rfl, -⟩ := h
    rfl

theorem addSteps_cons (h : data.IsOfKind e) (summary : Summary α) (s : Sequence)
    (path : List (StepData α)) :
    summary.addSteps (((e :: s).map gatesOf).zip (data :: path)) =
      (summary.addStep e data).addSteps ((s.map gatesOf).zip path) := by
  cases e <;> cases data
  · rfl
  · exact h.elim
  · exact h.elim
  · rfl

/-- Steps of the right kinds are all added.  The summary is fresh if every step is, and then its
latency is the sum of theirs. -/
theorem addSteps_of_isOfKind (h : List.Forall₂ StepData.IsOfKind s path) (summary : Summary α) :
    ∃ result, summary.addSteps ((s.map gatesOf).zip path) = (.ok (), result) ∧
      (result.isFresh = true ↔ summary.isFresh = true ∧ List.Forall₂ StepData.IsFresh s path) ∧
      (result.isFresh = true → result.latency =
        (s.zip path).foldl (fun total p => Latency.add total (p.2.latency p.1)) summary.latency) := by
  induction h generalizing summary with
  | nil => exact ⟨summary, rfl, by simp, fun _ => rfl⟩
  | @cons e data s path hkind _ ih =>
    obtain ⟨result, hresult, hfresh, hlatency⟩ := ih (summary.addStep e data)
    have hboth : result.isFresh = true ↔
        summary.isFresh = true ∧ List.Forall₂ StepData.IsFresh (e :: s) (data :: path) := by
      rw [hfresh, addStep_isFresh hkind, List.forall₂_cons, and_assoc]
    refine ⟨result, (addSteps_cons hkind summary s path).trans hresult, hboth, fun hall => ?_⟩
    have hfirst : data.IsFresh e := (List.forall₂_cons.mp (hboth.mp hall).2).1
    rw [hlatency hall, addStep_latency hfirst]
    rfl

theorem ofPath_of_isOfKind (h : List.Forall₂ StepData.IsOfKind s path) :
    ∃ summary, ofPath s path = .ok summary ∧
      (summary.isFresh = true ↔ List.Forall₂ StepData.IsFresh s path) ∧
      (summary.isFresh = true → summary.latency =
        (s.zip path).foldl (fun total p => Latency.add total (p.2.latency p.1)) Latency.zero) := by
  obtain ⟨result, hresult, hfresh, hlatency⟩ := addSteps_of_isOfKind h
    { gates := s.map gatesOf, latency := Latency.zero, bufferLatency := Latency.zero,
      isFresh := true }
  refine ⟨result, ?_, by simpa using hfresh, hlatency⟩
  have hlength : path.length = (s.map gatesOf).length := by rw [List.length_map, h.length_eq]
  simp only [ofPath, ofSequence, update, hlength, if_true, hresult]

end Summary

/-! ### What a log tells -/

section

variable (t : Topology) (deployed : Int) (log : List ModelOp)

/-- The time at which the buffer size of a channel was set last: when it was deployed, if never
since then. -/
def changedAt (channel : ChannelId) : Int :=
  ((latest (ModelOp.size? channel) log).map Stamped.timestamp).getD deployed

/-- A metric of a channel was last measured at a time after the last change of the buffer size. -/
def IsMeasured (channel : ChannelId) (k : EdgeMetric) : Prop :=
  ∃ entry ∈ latest (ModelOp.on? channel k) log, changedAt deployed log channel < entry.timestamp

instance (channel : ChannelId) (k : EdgeMetric) : Decidable (IsMeasured deployed log channel k) :=
  inferInstanceAs (Decidable (∃ entry ∈ latest (ModelOp.on? channel k) log,
    changedAt deployed log channel < entry.timestamp))

/-- A step of a path was measured as its element asks for: a member between the gates of the element
at any time, a channel after the last change of its buffer size. -/
def Attests : Element → PathStep → Prop
  | .vertex _ input output _, .member id =>
    ∃ o ∈ log, (o.between? t id { input, output }).isSome = true
  | .edge .., .wire w => IsMeasured deployed log w.sourceChannel .latency ∧
      IsMeasured deployed log w.sourceChannel .bufferLifetime
  | _, _ => False

instance : (e : Element) → (step : PathStep) → Decidable (Attests t deployed log e step)
  | .vertex _ input output _, .member id => inferInstanceAs (Decidable (∃ o ∈ log,
      (o.between? t id { input, output }).isSome = true))
  | .edge .., .wire w => inferInstanceAs (Decidable (IsMeasured deployed log w.sourceChannel
      .latency ∧ IsMeasured deployed log w.sourceChannel .bufferLifetime))
  | .vertex .., .wire _ => inferInstanceAs (Decidable False)
  | .edge .., .member _ => inferInstanceAs (Decidable False)

/-- The last measured latency of a step; zero, if the last measurement was without one. -/
def loggedLatency : Element → PathStep → Float
  | .vertex _ input output _, .member id =>
    ((latest (ModelOp.between? t id { input, output }) log).bind (·.value.latency)).getD 0
  | _, .wire w => ((latest (ModelOp.on? w.sourceChannel .latency) log).map Stamped.value).getD 0
  | _, _ => 0

/-- The sum of the last measured latencies along a path. -/
def loggedTotal (s : Sequence) (p : Path) : Float :=
  (s.zip p).foldl (fun total q => total + loggedLatency t log q.1 q.2) 0

/-- A path violates a constraint, as far as a log can tell. -/
structure Violates (c : Constraint) (p : Path) : Prop where
  attested : List.Forall₂ (Attests t deployed log) c.sequence p
  exceeded : ¬ loggedTotal t log c.sequence p ≤ c.bound

instance (c : Constraint) (p : Path) : Decidable (Violates t deployed log c p) :=
  decidable_of_iff (List.Forall₂ (Attests t deployed log) c.sequence p ∧
      ¬ loggedTotal t log c.sequence p ≤ c.bound)
    ⟨fun h => ⟨h.1, h.2⟩, fun h => ⟨h.attested, h.exceeded⟩⟩

end

theorem EdgeData.isNewer_iff {α : Type} {d : EdgeData α} {change : Stamped Int32}
    (h : d.bufferSizes.last? = some change) (metric : History α) :
    d.isNewer metric = true ↔ ∃ entry ∈ metric.last?, change.timestamp < entry.timestamp := by
  simp only [isNewer, History.lastTimestamp?, h, Option.map_some]
  cases metric.last? with
  | none => simp
  | some entry => simp

namespace Model

variable {role : ManagerRole} {settings : Settings} {deployed : Int} {m : Model}
  {assigned : List Assignment}

/-! ### Steps -/

theorem bind_latest?_eq_lastBetween? (m : Model) (id : MemberId) (gates : GatePair) :
    (m.members.find? id).bind (·.latest? gates) = m.lastBetween? id gates := by
  rw [lastBetween?, history?, Option.bind_assoc]
  rfl

theorem stepData_isOfKind {e : Element} {step : PathStep} (h : Topology.IsOfKind e step)
    (m : Model) : (m.stepData step).IsOfKind e := by
  cases e <;> cases step <;> exact h

/-- A channel is fresh if both of its latency metrics were measured after the last change of its
buffer size. -/
theorem IsNew.isFresh_iff (h : m.IsNew settings deployed assigned) (ops : List ModelOp)
    {channel : ChannelId} {d : EdgeData Float}
    (hd : (m.after ops).channels.find? channel = some d) : d.isFresh = true ↔
      IsMeasured deployed (m.log ops) channel .latency ∧
        IsMeasured deployed (m.log ops) channel .bufferLifetime := by
  have hsize := h.lastSize?_after ops (by rw [hd]; rfl)
  rw [Model.lastSize?, hd, Option.bind_some] at hsize
  obtain ⟨change, hchange, hstamp⟩ : ∃ change, d.bufferSizes.last? = some change ∧
      change.timestamp = changedAt deployed (m.log ops) channel := by
    rw [hsize, changedAt]
    cases latest (ModelOp.size? channel) (m.log ops) with
    | none => exact ⟨_, rfl, rfl⟩
    | some change => exact ⟨_, rfl, rfl⟩
  have hmetric : ∀ k, d.isNewer (d.history k) = true ↔
      IsMeasured deployed (m.log ops) channel k := fun k => by
    rw [EdgeData.isNewer_iff hchange, hstamp, IsMeasured, ← h.lastOn?_after ops,
      Model.lastOn?, hd, Option.bind_some]
  rw [← hmetric, ← hmetric, EdgeData.isFresh, Bool.and_eq_true]
  rfl

/-- A step is known well enough if the log attests to it. -/
theorem IsNew.stepData_isFresh_iff (h : m.IsNew settings deployed assigned) (ops : List ModelOp)
    {e : Element} {step : PathStep} : ((m.after ops).stepData step).IsFresh e ↔
      Attests m.role.topology deployed (m.log ops) e step := by
  cases e with
  | vertex g input output sampling =>
    cases step with
    | member id =>
      rw [stepData, StepData.IsFresh, bind_latest?_eq_lastBetween?, h.lastBetween?_after,
        isSome_latest, Attests]
    | wire w => exact Iff.rfl
  | edge l sampling =>
    cases step with
    | member id => exact Iff.rfl
    | wire w =>
      rw [stepData, StepData.IsFresh, Attests]
      constructor
      · rintro ⟨d, hd, hfresh⟩
        exact (h.isFresh_iff ops hd).mp hfresh
      · intro hmeasured
        -- a channel that was measured is known
        obtain ⟨entry, hentry, -⟩ := hmeasured.1
        rw [← h.lastOn?_after ops, Model.lastOn?] at hentry
        obtain ⟨d, hd, -⟩ := Option.bind_eq_some_iff.mp hentry
        exact ⟨d, hd, (h.isFresh_iff ops hd).mpr hmeasured⟩

theorem IsNew.stepData_latency (h : m.IsNew settings deployed assigned) (ops : List ModelOp)
    {e : Element} {step : PathStep} (hkind : Topology.IsOfKind e step) :
    ((m.after ops).stepData step).latency e =
      loggedLatency m.role.topology (m.log ops) e step := by
  cases e with
  | vertex g input output sampling =>
    cases step with
    | member id =>
      rw [stepData, StepData.latency, bind_latest?_eq_lastBetween?, h.lastBetween?_after]
      rfl
    | wire w => exact hkind.elim
  | edge l sampling =>
    cases step with
    | member id => exact hkind.elim
    | wire w =>
      rw [stepData, StepData.latency, loggedLatency, ← h.lastOn?_after ops,
        Model.lastOn?, Option.map_bind]
      rfl

/-! ### Paths -/

/-- The paths of a model that was created can be told, and have a step of the right kind for every
element. -/
theorem create_paths (hm : create role settings deployed = .ok m) :
    ∃ c paths, m.constraint = .ok c ∧ m.paths = .ok paths ∧
      ∀ p ∈ paths, List.Forall₂ Topology.IsOfKind c.sequence p := by
  obtain ⟨assigned, hassigned, -⟩ := create_eq_ok hm
  obtain ⟨c, w, visited, hc, hw, -, -⟩ := ManagerRole.assignments_eq_ok hassigned
  have hanchors : ∀ anchor ∈ role.members, ∃ x, role.topology.member? anchor = some x :=
    fun anchor hanchor => (ManagerRole.walk_covers hw hanchor).imp fun x hx => hx.1
  rw [← create_role hm] at hc hanchors
  obtain ⟨found, hfound⟩ := exists_mapM_eq_ok (f := m.role.topology.pathsThrough c.sequence)
    fun anchor hanchor => (hanchors anchor hanchor).imp' _ fun x hx =>
      Topology.pathsThrough_eq_ok hx
  have hall := mapM_eq_ok.mp hfound
  refine ⟨c, found.flatten, hc, (paths_eq_ok hc).mpr ⟨found, hall, rfl⟩, fun p hp => ?_⟩
  obtain ⟨paths, hpaths, hp⟩ := List.mem_flatten.mp hp
  obtain ⟨anchor, hanchor, hthrough⟩ := exists_item hall hpaths
  obtain ⟨x, hx⟩ := hanchors anchor hanchor
  rw [Topology.pathsThrough_eq_ok hx] at hthrough
  obtain rfl := Except.ok.inj hthrough
  exact Topology.forall₂_isOfKind_of_mem_pathsFrom hp

theorem constraint_after (m : Model) (ops : List ModelOp) :
    (m.after ops).constraint = m.constraint := by rw [constraint, constraint, after_role]

theorem paths_after (m : Model) (ops : List ModelOp) : (m.after ops).paths = m.paths := by
  rw [paths, paths, constraint_after, after_role]

/-- The summary of a path tells what the log tells of its steps. -/
theorem IsNew.exists_summarize (h : m.IsNew settings deployed assigned) (ops : List ModelOp)
    {c : Constraint} (hc : m.constraint = .ok c) {p : Path}
    (hp : List.Forall₂ Topology.IsOfKind c.sequence p) :
    ∃ summary, (m.after ops).summarize p = .ok summary ∧
      (summary.isFresh = true ↔
        List.Forall₂ (Attests m.role.topology deployed (m.log ops)) c.sequence p) ∧
      (summary.isFresh = true →
        summary.latency = loggedTotal m.role.topology (m.log ops) c.sequence p) := by
  have hkinds : List.Forall₂ StepData.IsOfKind c.sequence (p.map (m.after ops).stepData) :=
    List.forall₂_map_right_iff.mpr (hp.imp fun e step hkind => stepData_isOfKind hkind _)
  obtain ⟨summary, hsummary, hfresh, hlatency⟩ := Summary.ofPath_of_isOfKind hkinds
  refine ⟨summary, ?_, ?_, fun hall => (hlatency hall).trans ?_⟩
  · rw [summarize, constraint_after, hc]
    exact hsummary
  · rw [hfresh, List.forall₂_map_right_iff]
    exact ⟨List.Forall₂.imp fun e step => (h.stepData_isFresh_iff ops).mp,
      List.Forall₂.imp fun e step => (h.stepData_isFresh_iff ops).mpr⟩
  · rw [List.zip_map_right, List.foldl_map]
    refine List.foldl_ext _ _ _ fun total q hq => ?_
    have hkind : Topology.IsOfKind q.1 q.2 := (List.forall₂_iff_zip.mp hp).2 hq
    exact congrArg (total + ·) (h.stepData_latency ops hkind)

/-- Whatever is done to a model that was created, its paths can be told and summarized. -/
theorem summaries_after (hm : create role settings deployed = .ok m) (ops : List ModelOp) :
    ∃ c paths, m.constraint = .ok c ∧ (m.after ops).paths = .ok paths ∧ ∀ p ∈ paths,
      ∃ summary, (m.after ops).summarize p = .ok summary ∧
        (summary.isFresh = true ↔
          List.Forall₂ (Attests m.role.topology deployed (m.log ops)) c.sequence p) ∧
        (summary.isFresh = true →
          summary.latency = loggedTotal m.role.topology (m.log ops) c.sequence p) := by
  obtain ⟨assigned, hassigned, -⟩ := create_eq_ok hm
  obtain ⟨c, paths, hc, hpaths, hkinds⟩ := create_paths hm
  exact ⟨c, paths, hc, (paths_after m ops).trans hpaths, fun p hp =>
    (create_isNew hm hassigned).exists_summarize ops hc (hkinds p hp)⟩

/-! ### Violations -/

/-- A violation is the one that a model shows for a path. -/
structure Shows (m : Model) (c : Constraint) (p : Path) (v : Violation) : Prop where
  constraint : v.constraint = c.id
  path : v.path = p.map PathStep.name
  bound : v.bound = c.bound
  summary : m.summarize p = .ok v.summary

/-- A summary shows a violation if it is fresh and its latency is not within the bound. -/
theorem violation?_eq (c : Constraint) (path : Path) (summary : Summary Float) :
    violation? c path summary =
      if summary.isFresh = true ∧ ¬ summary.latency ≤ c.bound then
        some { constraint := c.id, path := path.map PathStep.name, bound := c.bound, summary }
      else none := by
  rw [violation?]
  cases summary.isFresh with
  | false => simp
  | true => simp

end Model

/-- What is found item by item, in those items that have a property, is found in all of these. -/
theorem forall₂_filter_reduceOption {α β : Type} {P : α → Prop} [DecidablePred P]
    {R : α → β → Prop} {xs : List α} {found : List (Option β)}
    (h : List.Forall₂ (fun x o => if P x then ∃ y ∈ o, R x y else o = none) xs found) :
    List.Forall₂ R (xs.filter P) found.reduceOption := by
  induction h with
  | nil => exact .nil
  | @cons x o xs found hfirst _ ih =>
    split_ifs at hfirst with hP
    · obtain ⟨y, rfl, hR⟩ := hfirst
      rw [List.filter_cons_of_pos (by simpa using hP), List.reduceOption_cons_of_some]
      exact .cons hR ih
    · obtain rfl := hfirst
      rwa [List.filter_cons_of_neg (by simpa using hP), List.reduceOption_cons_of_none]

namespace Model

variable {role : ManagerRole} {settings : Settings} {deployed : Int} {m : Model}

/-- A model reports the paths whose summaries show a violation. -/
theorem exists_violations {c : Constraint} {paths : List Path} {P : Path → Prop} [DecidablePred P]
    (hc : m.constraint = .ok c) (hpaths : m.paths = .ok paths)
    (h : ∀ p ∈ paths, ∃ summary, m.summarize p = .ok summary ∧
      (P p ↔ summary.isFresh = true ∧ ¬ summary.latency ≤ c.bound)) :
    ∃ found, m.violations = .ok found ∧ List.Forall₂ (m.Shows c) (paths.filter P) found := by
  obtain ⟨found, hfound⟩ := exists_mapM_eq_ok
    (f := fun path => do return violation? c path (← m.summarize path)) fun p hp => by
      obtain ⟨summary, hsummary, -⟩ := h p hp
      exact ⟨_, bind_eq_ok.mpr ⟨summary, hsummary, rfl⟩⟩
  refine ⟨found.reduceOption, ?_, ?_⟩
  · exact bind_eq_ok.mpr ⟨c, hc, bind_eq_ok.mpr ⟨paths, hpaths,
      bind_eq_ok.mpr ⟨found, hfound, rfl⟩⟩⟩
  · refine forall₂_filter_reduceOption (forall₂_imp_of_mem (mapM_eq_ok.mp hfound) ?_)
    intro p hp o ho
    obtain ⟨summary, hsummary, hP⟩ := h p hp
    obtain ⟨summary', hsummary', ho⟩ := bind_eq_ok.mp ho
    obtain rfl : summary = summary' := Except.ok.inj (hsummary.symm.trans hsummary')
    obtain rfl := (Except.ok.inj ho).symm
    simp only [hP, violation?_eq]
    split_ifs
    · exact ⟨_, rfl, rfl, rfl, rfl, hsummary⟩
    · rfl

/-- What a summary shows, a log tells. -/
theorem violates_iff {t : Topology} {log : List ModelOp} {c : Constraint} {p : Path}
    {summary : Summary Float}
    (hfresh : summary.isFresh = true ↔ List.Forall₂ (Attests t deployed log) c.sequence p)
    (hlatency : summary.isFresh = true → summary.latency = loggedTotal t log c.sequence p) :
    Violates t deployed log c p ↔ summary.isFresh = true ∧ ¬ summary.latency ≤ c.bound := by
  constructor
  · rintro ⟨hattested, hexceeded⟩
    have hall := hfresh.mpr hattested
    exact ⟨hall, hlatency hall ▸ hexceeded⟩
  · rintro ⟨hall, hexceeded⟩
    exact ⟨hfresh.mp hall, hlatency hall ▸ hexceeded⟩

/-- **Violations tell what was reported.**  Whatever is done to a model that was created, it then
reports just those of its paths that violate the constraint as far as its log can tell, each of them
as often as it is one of its paths, and with the summary of the path. -/
theorem violations_after (hm : create role settings deployed = .ok m) (ops : List ModelOp) :
    ∃ c paths found, m.constraint = .ok c ∧ (m.after ops).paths = .ok paths ∧
      (m.after ops).violations = .ok found ∧
      List.Forall₂ ((m.after ops).Shows c)
        (paths.filter (Violates m.role.topology deployed (m.log ops) c)) found := by
  obtain ⟨c, paths, hc, hpaths, hsummaries⟩ := summaries_after hm ops
  obtain ⟨found, hfound, hshown⟩ := exists_violations
    (P := Violates m.role.topology deployed (m.log ops) c) ((constraint_after m ops).trans hc)
    hpaths fun p hp => by
      obtain ⟨summary, hsummary, hfresh, hlatency⟩ := hsummaries p hp
      exact ⟨summary, hsummary, violates_iff hfresh hlatency⟩
  exact ⟨c, paths, found, hc, hpaths, hfound, hshown⟩

/-- One of the two paths of a funnel is measured, and takes too long. -/
def funnelOps : List ModelOp :=
  [.sample ⟨.vertex ⟨"a0"⟩ none (some ⟨"a0/out0"⟩), .vertex ⟨some 3, none, none⟩⟩ 10,
    .resize ⟨"a0[0]->b[0]"⟩ 4096 20,
    .sample ⟨.edge ⟨"a0[0]->b[0]"⟩, .edge ⟨some 20, some 8, none, none⟩⟩ 30,
    .sample ⟨.vertex ⟨"b"⟩ (some ⟨"b/in0"⟩) none, .vertex ⟨some 4, none, none⟩⟩ 15,
    .sample ⟨.vertex ⟨"a1"⟩ none (some ⟨"a1/out0"⟩), .vertex ⟨some 90, none, none⟩⟩ 30]

theorem violations_after_funnelRole :
    ∃ m, create funnelRole {} 0 = .ok m ∧ ∃ c paths found, m.constraint = .ok c ∧
      (m.after funnelOps).paths = .ok paths ∧ (m.after funnelOps).violations = .ok found ∧
      List.Forall₂ ((m.after funnelOps).Shows c)
        (paths.filter (Violates m.role.topology 0 (m.log funnelOps) c)) found := by
  obtain ⟨m, hm⟩ : ∃ m, create funnelRole {} 0 = .ok m := exists_eq_ok (by decide +kernel)
  exact ⟨m, hm, violations_after hm funnelOps⟩

example : ((create funnelRole {} 0).toOption.bind fun m => m.paths.toOption.map fun paths =>
    paths.filter (Violates m.role.topology 0 (m.log funnelOps) funnelConstraint)) =
      some [[.member ⟨"a0"⟩, .wire ⟨⟨"a0"⟩, 0, ⟨"b"⟩, 0⟩, .member ⟨"b"⟩]] := by decide +kernel

end Model

end LatencyControl
