import LatencyControl.Proofs.Monitor.Coverage
import LatencyControl.Proofs.Monitor.Samples

/-!
# Models at work

A model is handed samples, and buffer sizes are set on its channels, in any order and at any times
(`ModelOp`).  Some of this it refuses.  What it accepts is its log (`Model.log`), and all that a
summary of a path reads in the model can be read in the log: the last measurement between two gates
(`Model.lastBetween?_after`), the last value of a metric of a channel (`Model.lastOn?_after`) and
the last change of a buffer size (`Model.lastSize?_after`).

The room for reports is made when a model is created, and stays the same from then on.
-/

namespace LatencyControl

/-- Something that is done to a model. -/
inductive ModelOp
  /-- It is handed a sample with its timestamp. -/
  | sample (s : Sample Float) (timestamp : Int)
  /-- A buffer size is set on a channel, at a clock reading. -/
  | resize (channel : ChannelId) (size : Int32) (now : Int)

namespace ModelOp

/-- What something that is done to a model makes of it; what fails leaves it as it is. -/
def apply (m : Model) : ModelOp → Model
  | sample s timestamp => (m.process s timestamp).2
  | resize channel size now => (m.recordBufferSize channel size now).toOption.getD m

/-- Whether the model accepts what is done to it. -/
def succeeds (m : Model) : ModelOp → Bool
  | sample s timestamp => (m.process s timestamp).1
  | resize channel size now => (m.recordBufferSize channel size now).isOk

/-- What a model is like after it accepted something. -/
def Does (m m' : Model) : ModelOp → Prop
  | sample s timestamp => m.Takes m' timestamp s
  | resize channel size now =>
    m.ChangesOn m' channel fun d d' => d.Resizes d' { value := size, timestamp := now }

variable {m : Model} {o : ModelOp}

theorem does_of_succeeds (h : o.succeeds m = true) : o.Does m (apply m o) := by
  cases o with
  | sample s timestamp =>
    simp only [succeeds, apply] at h ⊢
    by_cases hexpects : m.Expects s
    · obtain ⟨m', hm', htakes⟩ := m.process_of_expects hexpects timestamp
      rw [hm']
      exact htakes
    · rw [m.process_of_not_expects hexpects] at h
      cases h
  | resize channel size now =>
    obtain ⟨m', hm'⟩ := exists_eq_ok h
    simp only [apply, hm']
    exact m.recordBufferSize_eq_ok hm'

theorem apply_of_not_succeeds (h : o.succeeds m = false) : apply m o = m := by
  cases o with
  | sample s timestamp =>
    simp only [succeeds, apply] at h ⊢
    by_cases hexpects : m.Expects s
    · obtain ⟨m', hm', -⟩ := m.process_of_expects hexpects timestamp
      rw [hm'] at h
      cases h
    · rw [m.process_of_not_expects hexpects]
  | resize channel size now =>
    cases hrecord : m.recordBufferSize channel size now with
    | ok m' => simp [succeeds, hrecord, Except.isOk, Except.toBool] at h
    | error e =>
      simp only [apply, hrecord]
      rfl

/-! ### What an operation says -/

/-- The measurement of a member between two gates that an operation hands over. -/
def between? (t : Topology) (id : MemberId) (gates : GatePair) :
    ModelOp → Option (Stamped (VertexMetrics Float))
  | sample ⟨.vertex id' input output, .vertex metrics⟩ timestamp =>
    if id' = id ∧ (t.member? id).map (Model.gatesOf · input output) = some gates then
      some { value := metrics, timestamp }
    else none
  | _ => none

/-- The value of a metric of a channel that an operation hands over. -/
def on? (channel : ChannelId) (k : EdgeMetric) : ModelOp → Option (Stamped Float)
  | sample ⟨.edge other, .edge metrics⟩ timestamp =>
    if other = channel then (metrics.value? k).map ({ value := ·, timestamp }) else none
  | _ => none

/-- The buffer size that an operation sets on a channel. -/
def size? (channel : ChannelId) : ModelOp → Option (Stamped Int32)
  | resize other size now => if other = channel then some { value := size, timestamp := now } else none
  | _ => none

end ModelOp

/-! ### Logs -/

/-- The last that a list of operations says of something. -/
def latest {α : Type} (f : ModelOp → Option α) (log : List ModelOp) : Option α :=
  (log.filterMap f).getLast?

theorem latest_append {α : Type} (f : ModelOp → Option α) (log log' : List ModelOp) :
    latest f (log ++ log') = (latest f log').or (latest f log) := by
  rw [latest, List.filterMap_append, List.getLast?_append]
  rfl

theorem latest_singleton {α : Type} (f : ModelOp → Option α) (o : ModelOp) :
    latest f [o] = f o := by
  rw [latest, List.filterMap_cons]
  cases f o <;> rfl

theorem latest_eq_none {α : Type} {f : ModelOp → Option α} {log : List ModelOp}
    (h : ∀ o ∈ log, f o = none) : latest f log = none := by
  rw [latest, List.filterMap_eq_nil_iff.mpr h]
  rfl

theorem isSome_latest {α : Type} {f : ModelOp → Option α} {log : List ModelOp} :
    (latest f log).isSome = true ↔ ∃ o ∈ log, (f o).isSome = true := by
  rw [latest, List.getLast?_isSome]
  constructor
  · intro hne
    obtain ⟨a, ha⟩ := List.exists_mem_of_ne_nil _ hne
    obtain ⟨o, ho, hf⟩ := List.mem_filterMap.mp ha
    exact ⟨o, ho, Option.isSome_iff_exists.mpr ⟨a, hf⟩⟩
  · rintro ⟨o, ho, hsome⟩
    obtain ⟨a, hf⟩ := Option.isSome_iff_exists.mp hsome
    exact List.ne_nil_of_mem (List.mem_filterMap.mpr ⟨o, ho, hf⟩)

namespace Model

/-- A model after what is done to it. -/
def after (m : Model) (ops : List ModelOp) : Model := ops.foldl ModelOp.apply m

/-- What a model accepts of what is done to it. -/
def log (m : Model) : List ModelOp → List ModelOp
  | [] => []
  | o :: rest =>
    if o.succeeds m then o :: (ModelOp.apply m o).log rest else (ModelOp.apply m o).log rest

theorem after_append (m : Model) (ops ops' : List ModelOp) :
    m.after (ops ++ ops') = (m.after ops).after ops' := List.foldl_append

theorem log_append (m : Model) (ops ops' : List ModelOp) :
    m.log (ops ++ ops') = m.log ops ++ (m.after ops).log ops' := by
  induction ops generalizing m with
  | nil => rfl
  | cons o rest ih =>
    simp only [List.cons_append, log]
    rw [ih]
    split_ifs
    · rfl
    · rfl

/-! ### What stays -/

variable {m m' : Model}

theorem Takes.role_eq {timestamp : Int} {s : Sample Float} (h : m.Takes m' timestamp s) :
    m'.role = m.role := by
  obtain ⟨_ | _, _ | _⟩ := s
  · obtain ⟨member, -, hgains⟩ := h
    exact hgains.role
  · exact h.elim
  · exact h.elim
  · exact ChangesOn.role h

theorem apply_role (m : Model) (o : ModelOp) : (ModelOp.apply m o).role = m.role := by
  cases hsucceeds : o.succeeds m with
  | false => rw [ModelOp.apply_of_not_succeeds hsucceeds]
  | true =>
    have hdoes := ModelOp.does_of_succeeds hsucceeds
    cases o with
    | sample s timestamp => exact Takes.role_eq hdoes
    | resize channel size now => exact ChangesOn.role hdoes

theorem after_role (m : Model) (ops : List ModelOp) : (m.after ops).role = m.role :=
  List.foldlRecOn (motive := fun m' : Model => m'.role = m.role) ops _ rfl
    fun m' hm' o _ => (apply_role m' o).trans hm'

/-! ### What a model says -/

/-- The last measurement of a member between two gates. -/
def lastBetween? (m : Model) (id : MemberId) (gates : GatePair) :
    Option (Stamped (VertexMetrics Float)) :=
  (m.history? id gates).bind History.last?

/-- The last value of a metric of a channel. -/
def lastOn? (m : Model) (channel : ChannelId) (k : EdgeMetric) : Option (Stamped Float) :=
  (m.channels.find? channel).bind fun d => (d.history k).last?

/-- The buffer size that was set last on a channel. -/
def lastSize? (m : Model) (channel : ChannelId) : Option (Stamped Int32) :=
  (m.channels.find? channel).bind fun d => d.bufferSizes.last?

section

variable {id : MemberId} {gates : GatePair} {channel : ChannelId}

theorem GainsBetween.lastBetween? {entry : Stamped (VertexMetrics Float)}
    (h : m.GainsBetween m' id gates entry) (id' : MemberId) (gates' : GatePair) :
    m'.lastBetween? id' gates' =
      if id' = id ∧ gates' = gates then some entry else m.lastBetween? id' gates' := by
  split_ifs with hsame
  · obtain ⟨rfl, rfl⟩ := hsame
    obtain ⟨hist, hist', -, hhist', hgains⟩ := h.history?_here
    rw [Model.lastBetween?, hhist', Option.bind_some, hgains.last]
  · rw [Model.lastBetween?, Model.lastBetween?, h.history?_elsewhere id' gates' hsame]

theorem ChangesOn.lastBetween? {change : EdgeData Float → EdgeData Float → Prop}
    (h : m.ChangesOn m' channel change) : m'.lastBetween? id gates = m.lastBetween? id gates := by
  rw [Model.lastBetween?, Model.lastBetween?, history?, history?, h.members]

theorem GainsOn.lastOn? {metrics : EdgeMetrics Float} {timestamp : Int}
    (h : m.GainsOn m' channel metrics timestamp) (other : ChannelId) (k : EdgeMetric) :
    m'.lastOn? other k = (if channel = other then
      (metrics.value? k).map ({ value := ·, timestamp }) else none).or (m.lastOn? other k) := by
  split_ifs with hsame
  · subst hsame
    obtain ⟨d, d', hd, hd', hgains⟩ := h.here
    rw [Model.lastOn?, hd', Option.bind_some, Model.lastOn?, hd, Option.bind_some]
    cases hvalue : metrics.value? k with
    | none => rw [hgains.absent k hvalue, Option.map_none, Option.none_or]
    | some value => rw [(hgains.measured k value hvalue).last, Option.map_some, Option.some_or]
  · rw [Option.none_or, Model.lastOn?, Model.lastOn?, h.elsewhere other (Ne.symm hsame)]

/-- What is known of a channel as far as a change of another kind leaves it alone. -/
theorem ChangesOn.bind_eq {change : EdgeData Float → EdgeData Float → Prop}
    (h : m.ChangesOn m' channel change) {α : Type} {f : EdgeData Float → Option α}
    (hf : ∀ d d', change d d' → f d' = f d) (other : ChannelId) :
    (m'.channels.find? other).bind f = (m.channels.find? other).bind f := by
  by_cases hsame : other = channel
  · subst hsame
    obtain ⟨d, d', hd, hd', hchange⟩ := h.here
    rw [hd, hd', Option.bind_some, Option.bind_some, hf d d' hchange]
  · rw [h.elsewhere other hsame]

end

/-- What an operation says of something is the last that is known of it, if the model accepts the
operation. -/
theorem lastBetween?_apply (m : Model) (o : ModelOp) (id : MemberId) (gates : GatePair) :
    (ModelOp.apply m o).lastBetween? id gates = if o.succeeds m then
      (o.between? m.role.topology id gates).or (m.lastBetween? id gates)
    else m.lastBetween? id gates := by
  split_ifs with hsucceeds
  · have hdoes := ModelOp.does_of_succeeds hsucceeds
    rcases o with ⟨⟨⟨id', input, output⟩ | channel, metrics | metrics⟩, timestamp⟩ |
      ⟨channel, size, now⟩
    · obtain ⟨member, hmember, hgains⟩ := hdoes
      rw [hgains.lastBetween?, ModelOp.between?]
      by_cases hid : id = id'
      · subst hid
        simp only [hmember, Option.map_some, Option.some.injEq, true_and, eq_comm (a := gates)]
        split_ifs
        · rfl
        · rfl
      · rw [if_neg fun h => hid h.1, if_neg fun h => hid h.1.symm, Option.none_or]
    · exact hdoes.elim
    · exact hdoes.elim
    · exact ChangesOn.lastBetween? hdoes
    · exact ChangesOn.lastBetween? hdoes
  · rw [ModelOp.apply_of_not_succeeds (Bool.eq_false_iff.mpr hsucceeds)]

theorem lastOn?_apply (m : Model) (o : ModelOp) (channel : ChannelId) (k : EdgeMetric) :
    (ModelOp.apply m o).lastOn? channel k =
      if o.succeeds m then (o.on? channel k).or (m.lastOn? channel k) else m.lastOn? channel k := by
  split_ifs with hsucceeds
  · have hdoes := ModelOp.does_of_succeeds hsucceeds
    rcases o with ⟨⟨⟨id', input, output⟩ | other, metrics | metrics⟩, timestamp⟩ |
      ⟨other, size, now⟩
    · obtain ⟨member, -, hgains⟩ := hdoes
      rw [lastOn?, hgains.channels]
      rfl
    · exact hdoes.elim
    · exact hdoes.elim
    · exact GainsOn.lastOn? hdoes channel k
    · exact ChangesOn.bind_eq hdoes (fun d d' hresizes => by rw [hresizes.history k]) channel
  · rw [ModelOp.apply_of_not_succeeds (Bool.eq_false_iff.mpr hsucceeds)]

theorem lastSize?_apply (m : Model) (o : ModelOp) (channel : ChannelId) :
    (ModelOp.apply m o).lastSize? channel =
      if o.succeeds m then (o.size? channel).or (m.lastSize? channel) else m.lastSize? channel := by
  split_ifs with hsucceeds
  · have hdoes := ModelOp.does_of_succeeds hsucceeds
    rcases o with ⟨⟨⟨id', input, output⟩ | other, metrics | metrics⟩, timestamp⟩ |
      ⟨other, size, now⟩
    · obtain ⟨member, -, hgains⟩ := hdoes
      rw [lastSize?, hgains.channels]
      rfl
    · exact hdoes.elim
    · exact hdoes.elim
    · exact ChangesOn.bind_eq hdoes (fun d d' hgains => by rw [hgains.bufferSizes]) channel
    · rw [ModelOp.size?]
      split_ifs with hsame
      · subst hsame
        obtain ⟨d, d', -, hd', hresizes⟩ := ChangesOn.here hdoes
        rw [lastSize?, hd', Option.bind_some, hresizes.bufferSizes.last, Option.some_or]
      · rw [lastSize?, ChangesOn.elsewhere hdoes channel (Ne.symm hsame)]
        rfl
  · rw [ModelOp.apply_of_not_succeeds (Bool.eq_false_iff.mpr hsucceeds)]

/-- If every operation that a model accepts is the last that is known of something, then the last
that its log says is. -/
theorem view_after {α : Type} {t : Topology} (view : Model → Option α) (f : ModelOp → Option α)
    (hview : ∀ m o, m.role.topology = t → view (ModelOp.apply m o) =
      if o.succeeds m then (f o).or (view m) else view m) (ops : List ModelOp) {m : Model}
    (hm : m.role.topology = t) : view (m.after ops) = (latest f (m.log ops)).or (view m) := by
  induction ops generalizing m with
  | nil => rfl
  | cons o rest ih =>
    have hrest := ih (m := ModelOp.apply m o) (by rw [apply_role, hm])
    rw [after, List.foldl_cons, ← after, hrest, hview m o hm, log]
    split_ifs
    · rw [← List.singleton_append, latest_append, latest_singleton, Option.or_assoc]
    · rfl

theorem lastBetween?_after (m : Model) (ops : List ModelOp) (id : MemberId) (gates : GatePair) :
    (m.after ops).lastBetween? id gates =
      (latest (ModelOp.between? m.role.topology id gates) (m.log ops)).or (m.lastBetween? id gates) :=
  view_after (lastBetween? · id gates) _ (fun m' o hm' => by rw [lastBetween?_apply, hm']) ops rfl

theorem lastOn?_after (m : Model) (ops : List ModelOp) (channel : ChannelId) (k : EdgeMetric) :
    (m.after ops).lastOn? channel k =
      (latest (ModelOp.on? channel k) (m.log ops)).or (m.lastOn? channel k) :=
  view_after (lastOn? · channel k) _ (fun m' o _ => lastOn?_apply m' o channel k) ops rfl

theorem lastSize?_after (m : Model) (ops : List ModelOp) (channel : ChannelId) :
    (m.after ops).lastSize? channel =
      (latest (ModelOp.size? channel) (m.log ops)).or (m.lastSize? channel) :=
  view_after (lastSize? · channel) _ (fun m' o _ => lastSize?_apply m' o channel) ops rfl

/-! ### Room for reports -/

theorem Takes.isSome_history?_eq {timestamp : Int} {s : Sample Float} (h : m.Takes m' timestamp s)
    (id : MemberId) (gates : GatePair) :
    (m'.history? id gates).isSome = (m.history? id gates).isSome := by
  obtain ⟨⟨id', input, output⟩ | channel, _ | _⟩ := s
  · obtain ⟨member, -, hgains⟩ := h
    by_cases hsame : id = id' ∧ gates = gatesOf member input output
    · obtain ⟨rfl, rfl⟩ := hsame
      obtain ⟨hist, hist', hhist, hhist', -⟩ := hgains.history?_here
      rw [hhist, hhist']
      rfl
    · rw [hgains.history?_elsewhere id gates hsame]
  · exact h.elim
  · exact h.elim
  · rw [history?, ChangesOn.members h]
    rfl

theorem ChangesOn.isSome_find?_eq {channel : ChannelId}
    {change : EdgeData Float → EdgeData Float → Prop} (h : m.ChangesOn m' channel change)
    (other : ChannelId) :
    (m'.channels.find? other).isSome = (m.channels.find? other).isSome := by
  by_cases hsame : other = channel
  · subst hsame
    obtain ⟨d, d', hd, hd', -⟩ := h.here
    rw [hd, hd']
    rfl
  · rw [h.elsewhere other hsame]

theorem isSome_apply (m : Model) (o : ModelOp) :
    (∀ id gates, ((ModelOp.apply m o).history? id gates).isSome = (m.history? id gates).isSome) ∧
      ∀ channel, ((ModelOp.apply m o).channels.find? channel).isSome =
        (m.channels.find? channel).isSome := by
  cases hsucceeds : o.succeeds m with
  | false =>
    rw [ModelOp.apply_of_not_succeeds hsucceeds]
    exact ⟨fun _ _ => rfl, fun _ => rfl⟩
  | true =>
    have hdoes := ModelOp.does_of_succeeds hsucceeds
    cases o with
    | resize channel size now =>
      refine ⟨fun id gates => ?_, ChangesOn.isSome_find?_eq hdoes⟩
      rw [history?, ChangesOn.members hdoes]
      rfl
    | sample s timestamp =>
      refine ⟨Takes.isSome_history?_eq hdoes, fun channel => ?_⟩
      obtain ⟨_ | _, _ | _⟩ := s
      · obtain ⟨member, -, hgains⟩ := hdoes
        rw [hgains.channels]
      · exact hdoes.elim
      · exact hdoes.elim
      · exact ChangesOn.isSome_find?_eq hdoes channel

/-- Whatever is done to a model, it expects the same reports. -/
theorem isSome_after (m : Model) (ops : List ModelOp) :
    (∀ id gates, ((m.after ops).history? id gates).isSome = (m.history? id gates).isSome) ∧
      ∀ channel, ((m.after ops).channels.find? channel).isSome =
        (m.channels.find? channel).isSome := by
  induction ops generalizing m with
  | nil => exact ⟨fun _ _ => rfl, fun _ => rfl⟩
  | cons o rest ih =>
    obtain ⟨hhistories, hchannels⟩ := ih (ModelOp.apply m o)
    obtain ⟨hhistories', hchannels'⟩ := isSome_apply m o
    exact ⟨fun id gates => (hhistories id gates).trans (hhistories' id gates),
      fun channel => (hchannels channel).trans (hchannels' channel)⟩

/-! ### New models -/

/-- A model in which there is room for the reports of some assigned reporters, and nothing has been
measured yet. -/
structure IsNew (m : Model) (settings : Settings) (deployed : Int) (assigned : List Assignment) :
    Prop where
  histories : ∀ id gates h, m.history? id gates = some h → h.last? = none ∧
    ∃ a ∈ assigned, a.2.gates = some gates ∧ a.2.step = .member id
  channels : ∀ channel d, m.channels.find? channel = some d →
    d = EdgeData.deployed channel settings.historyCapacity settings.initialBufferSize deployed ∧
      ∃ a ∈ assigned, ∃ w, a.2.step = .wire w ∧ w.sourceChannel = channel

variable {settings : Settings} {deployed : Int} {assigned : List Assignment}

theorem IsNew.expect (h : m.IsNew settings deployed assigned) {a : Assignment}
    (ha : a ∈ assigned) : (m.expect settings deployed a.2).IsNew settings deployed assigned := by
  obtain ⟨host, r | r⟩ := a
  · refine ⟨fun id gates hist hhist => ?_, h.channels⟩
    simp only [history?, Model.expect, Table.find?_upsert] at hhist
    split_ifs at hhist with hid
    · subst hid
      rw [Option.bind_some, VertexData.history?_expect, Option.or_eq_some_iff] at hhist
      rcases hhist with hold | ⟨-, hnew⟩
      · refine h.histories r.member gates hist ?_
        rw [history?]
        cases hfound : m.members.find? r.member with
        | none =>
          rw [hfound] at hold
          cases hold
        | some d =>
          rw [hfound] at hold
          exact hold
      · split_ifs at hnew with hgates
        obtain rfl := Option.some.inj hnew
        exact ⟨rfl, _, ha, congrArg some hgates.symm, rfl⟩
    · exact h.histories id gates hist hhist
  · refine ⟨h.histories, fun channel d hd => ?_⟩
    simp only [Model.expect, Table.find?_upsert] at hd
    split_ifs at hd with hchannel
    · subst hchannel
      obtain rfl := Option.some.inj hd
      cases hfound : m.channels.find? r.wire.sourceChannel with
      | none => exact ⟨rfl, _, ha, r.wire, rfl, rfl⟩
      | some d => exact h.channels _ d hfound
    · exact h.channels channel d hd

variable {role : ManagerRole}

theorem create_isNew (hm : create role settings deployed = .ok m)
    (hassigned : role.assignments = .ok assigned) : m.IsNew settings deployed assigned := by
  obtain ⟨assigned', hassigned', rfl⟩ := create_eq_ok hm
  obtain rfl := Except.ok.inj (hassigned.symm.trans hassigned')
  refine List.foldlRecOn (motive := fun m : Model => m.IsNew settings deployed assigned) _ _ ?_
    fun m hm a ha => hm.expect ha
  exact ⟨fun _ _ _ h => (Option.some_ne_none _ h.symm).elim,
    fun _ _ h => (Option.some_ne_none _ h.symm).elim⟩

/-- Nothing is known of a member before its reporters report. -/
theorem IsNew.lastBetween? (h : m.IsNew settings deployed assigned) (id : MemberId)
    (gates : GatePair) : m.lastBetween? id gates = none := by
  rw [Model.lastBetween?]
  cases hhist : m.history? id gates with
  | none => rfl
  | some hist => exact (h.histories id gates hist hhist).1

/-- Nothing is known of the metrics of a channel before its reporters report. -/
theorem IsNew.lastOn? (h : m.IsNew settings deployed assigned) (channel : ChannelId)
    (k : EdgeMetric) : m.lastOn? channel k = none := by
  rw [Model.lastOn?]
  cases hd : m.channels.find? channel with
  | none => rfl
  | some d =>
    obtain ⟨rfl, -⟩ := h.channels channel d hd
    cases k <;> rfl

/-- A channel starts with the buffer size that it was deployed with. -/
theorem IsNew.lastSize? (h : m.IsNew settings deployed assigned) {channel : ChannelId}
    (hchannel : (m.channels.find? channel).isSome) : m.lastSize? channel =
      some { value := settings.initialBufferSize, timestamp := deployed } := by
  obtain ⟨d, hd⟩ := Option.isSome_iff_exists.mp hchannel
  obtain ⟨rfl, -⟩ := h.channels channel d hd
  rw [Model.lastSize?, hd, Option.bind_some]
  exact (History.gains_add _ _ _).last

/-! What was new is known from its log alone. -/

section

variable (h : m.IsNew settings deployed assigned) (ops : List ModelOp)

include h

theorem IsNew.lastBetween?_after (id : MemberId) (gates : GatePair) :
    (m.after ops).lastBetween? id gates =
      latest (ModelOp.between? m.role.topology id gates) (m.log ops) := by
  rw [Model.lastBetween?_after, h.lastBetween?, Option.or_none]

theorem IsNew.lastOn?_after (channel : ChannelId) (k : EdgeMetric) :
    (m.after ops).lastOn? channel k = latest (ModelOp.on? channel k) (m.log ops) := by
  rw [Model.lastOn?_after, h.lastOn?, Option.or_none]

theorem IsNew.lastSize?_after {channel : ChannelId}
    (hchannel : ((m.after ops).channels.find? channel).isSome) :
    (m.after ops).lastSize? channel = (latest (ModelOp.size? channel) (m.log ops)).or
      (some { value := settings.initialBufferSize, timestamp := deployed }) := by
  rw [(m.isSome_after ops).2 channel] at hchannel
  rw [Model.lastSize?_after, h.lastSize? hchannel]

end

end Model

end LatencyControl
