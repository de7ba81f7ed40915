import LatencyControl.Proofs.Result
import LatencyControl.Monitor.Model
import Mathlib.Data.List.Infix

/-!
# What a sample changes

A history that gains a measurement has it as its last one, and loses its oldest one at most.  A
model that takes in a sample gains it in one place: between one pair of gates of one member
(`Model.GainsBetween`), or in the metrics of one channel (`Model.GainsOn`).

`Model.process_of_expects` and `Model.process_of_not_expects` say all that can happen to a sample: a
model takes in those that it expects, and no others change it.
-/

namespace LatencyControl

/-! ### Histories -/

namespace History

variable {α : Type}

/-- A history with one more measurement: it is the last one, and the ones before it were there
already, all of them if there was room. -/
structure Gains (h h' : History α) (entry : Stamped α) : Prop where
  capacity : h'.capacity = h.capacity
  last : h'.last? = some entry
  earlier : h'.entries.dropLast <:+ h.entries
  room : h.isFull = false → h'.entries.dropLast = h.entries

theorem gains_add (h : History α) (value : α) (timestamp : Int) :
    h.Gains (h.add value timestamp) { value, timestamp } := by
  refine ⟨rfl, List.getLast?_concat, ?_, fun hroom => ?_⟩
  · simp only [add, List.dropLast_concat]
    split_ifs
    · exact List.tail_suffix h.entries
    · exact List.suffix_refl h.entries
  · simp only [add, List.dropLast_concat, hroom, Bool.false_eq_true, if_false]

end History

/-! ### Members -/

namespace VertexData

variable {α : Type} {d : VertexData α} {gates : GatePair}

theorem history?_expect (gates' : GatePair) : (d.expect gates).history? gates' =
    (d.history? gates').or (if gates' = gates then some (History.ofCapacity d.capacity) else none) := by
  unfold expect
  split_ifs with hexpects hgates hgates
  · subst hgates
    obtain ⟨h, hh⟩ := Option.isSome_iff_exists.mp hexpects
    rw [hh, Option.some_or]
  · rw [Option.or_none]
  · simp only [history?, List.lookup_append, hgates, List.lookup_cons_self]
  · simp only [history?, List.lookup_append, List.lookup_cons, beq_eq_false_iff_ne.mpr hgates,
      List.lookup_nil]

/-- A measurement goes into one history, if reports are expected there. -/
theorem history?_add (h : d.expects gates = true) (metrics : VertexMetrics α) (timestamp : Int)
    (gates' : GatePair) : (d.add gates metrics timestamp).history? gates' =
      (d.history? gates').map fun h => if gates' = gates then h.add metrics timestamp else h := by
  have hsame : d.expect gates = d := by rw [expect, if_pos h]
  rw [add, hsame]
  simp only [history?]
  induction d.histories with
  | nil => rfl
  | cons first rest ih =>
    obtain ⟨g, h⟩ := first
    simp only [List.map_cons, List.lookup_cons]
    by_cases hg : gates' = g
    · simp [hg]
    · rw [beq_eq_false_iff_ne.mpr hg]
      exact ih

/-- A member with one more measurement between a pair of gates; all else is as it was. -/
structure Gains (d d' : VertexData α) (gates : GatePair) (entry : Stamped (VertexMetrics α)) :
    Prop where
  member : d'.member = d.member
  capacity : d'.capacity = d.capacity
  here : ∃ h h', d.history? gates = some h ∧ d'.history? gates = some h' ∧ h.Gains h' entry
  elsewhere : ∀ other, other ≠ gates → d'.history? other = d.history? other

theorem gains_add (h : d.expects gates = true) (metrics : VertexMetrics α) (timestamp : Int) :
    d.Gains (d.add gates metrics timestamp) gates { value := metrics, timestamp } := by
  obtain ⟨hist, hhist⟩ := Option.isSome_iff_exists.mp h
  have hadd := history?_add h metrics timestamp
  have hsame : d.expect gates = d := by rw [expect, if_pos h]
  refine ⟨?_, ?_, ⟨hist, hist.add metrics timestamp, hhist, ?_, hist.gains_add _ _⟩,
    fun other hother => ?_⟩
  · rw [add, hsame]
  · rw [add, hsame]
  · rw [hadd, hhist, Option.map_some, if_pos rfl]
  · simp only [hadd, hother, if_false, Option.map_id']

end VertexData

/-! ### Channels -/

/-- What is measured of a channel. -/
inductive EdgeMetric
  | latency | bufferLifetime | perBuffer | perSecond
  deriving DecidableEq

/-- The value of a metric, if it was measured. -/
def EdgeMetrics.value? {α : Type} (metrics : EdgeMetrics α) : EdgeMetric → Option α
  | .latency => metrics.latency
  | .bufferLifetime => metrics.bufferLifetime
  | .perBuffer => metrics.perBuffer
  | .perSecond => metrics.perSecond

namespace EdgeData

variable {α : Type}

/-- The measurements of a metric. -/
def history (d : EdgeData α) : EdgeMetric → History α
  | .latency => d.latency
  | .bufferLifetime => d.bufferLifetime
  | .perBuffer => d.perBuffer
  | .perSecond => d.perSecond

/-- A channel with one more measurement: each metric that was measured has gained it, and all else
is as it was. -/
structure Gains (d d' : EdgeData α) (metrics : EdgeMetrics α) (timestamp : Int) : Prop where
  channel : d'.channel = d.channel
  bufferSizes : d'.bufferSizes = d.bufferSizes
  measured : ∀ k value, metrics.value? k = some value →
    (d.history k).Gains (d'.history k) { value, timestamp }
  absent : ∀ k, metrics.value? k = none → d'.history k = d.history k

theorem history_add (d : EdgeData α) (metrics : EdgeMetrics α) (timestamp : Int) (k : EdgeMetric) :
    (d.add metrics timestamp).history k = (d.history k).addIfAny (metrics.value? k) timestamp := by
  cases k <;> rfl

theorem gains_add (d : EdgeData α) (metrics : EdgeMetrics α) (timestamp : Int) :
    d.Gains (d.add metrics timestamp) metrics timestamp := by
  refine ⟨rfl, rfl, fun k value hvalue => ?_, fun k hnone => ?_⟩
  · rw [history_add, hvalue]
    exact History.gains_add _ _ _
  · rw [history_add, hnone]
    rfl

/-- A channel whose buffer size was set once more. -/
structure Resizes (d d' : EdgeData α) (entry : Stamped Int32) : Prop where
  channel : d'.channel = d.channel
  bufferSizes : d.bufferSizes.Gains d'.bufferSizes entry
  history : ∀ k, d'.history k = d.history k

theorem resizes_recordBufferSize (d : EdgeData α) (size : Int32) (timestamp : Int) :
    d.Resizes (d.recordBufferSize size timestamp) { value := size, timestamp } :=
  ⟨rfl, History.gains_add _ _ _, fun k => by cases k <;> rfl⟩

end EdgeData

/-! ### Models -/

namespace Model

variable {m m' : Model}

/-- The measurements of a member between two gates, if reports are expected there. -/
def history? (m : Model) (id : MemberId) (gates : GatePair) :
    Option (History (VertexMetrics Float)) :=
  (m.members.find? id).bind (·.history? gates)

theorem isSome_history? {id : MemberId} {gates : GatePair} :
    (m.history? id gates).isSome = true ↔
      ∃ d, m.members.find? id = some d ∧ d.expects gates = true := by
  rw [history?]
  cases m.members.find? id with
  | none => simp
  | some d => simp [VertexData.expects]

/-- A model with one more measurement of a member between two gates; all else is as it was. -/
structure GainsBetween (m m' : Model) (id : MemberId) (gates : GatePair)
    (entry : Stamped (VertexMetrics Float)) : Prop where
  role : m'.role = m.role
  channels : m'.channels = m.channels
  here : ∃ d d', m.members.find? id = some d ∧ m'.members.find? id = some d' ∧
    d.Gains d' gates entry
  elsewhere : ∀ other, other ≠ id → m'.members.find? other = m.members.find? other

theorem GainsBetween.history?_here {id : MemberId} {gates : GatePair}
    {entry : Stamped (VertexMetrics Float)} (h : m.GainsBetween m' id gates entry) :
    ∃ hist hist', m.history? id gates = some hist ∧ m'.history? id gates = some hist' ∧
      hist.Gains hist' entry := by
  obtain ⟨d, d', hd, hd', hgains⟩ := h.here
  rw [history?, history?, hd, hd', Option.bind_some, Option.bind_some]
  exact hgains.here

theorem GainsBetween.history?_elsewhere {id : MemberId} {gates : GatePair}
    {entry : Stamped (VertexMetrics Float)} (h : m.GainsBetween m' id gates entry)
    (id' : MemberId) (gates' : GatePair) (hne : ¬(id' = id ∧ gates' = gates)) :
    m'.history? id' gates' = m.history? id' gates' := by
  by_cases hid : id' = id
  · subst hid
    obtain ⟨d, d', hd, hd', hgains⟩ := h.here
    rw [history?, history?, hd, hd', Option.bind_some, Option.bind_some,
      hgains.elsewhere gates' fun hgates => hne ⟨rfl, hgates⟩]
  · rw [history?, history?, h.elsewhere id' hid]

/-- A model in which what is known of one channel has changed in some way; all else is as it
was. -/
structure ChangesOn (m m' : Model) (channel : ChannelId)
    (change : EdgeData Float → EdgeData Float → Prop) : Prop where
  role : m'.role = m.role
  members : m'.members = m.members
  here : ∃ d d', m.channels.find? channel = some d ∧ m'.channels.find? channel = some d' ∧
    change d d'
  elsewhere : ∀ other, other ≠ channel → m'.channels.find? other = m.channels.find? other

/-- A model with one more measurement of a channel. -/
def GainsOn (m m' : Model) (channel : ChannelId) (metrics : EdgeMetrics Float) (timestamp : Int) :
    Prop :=
  m.ChangesOn m' channel fun d d' => d.Gains d' metrics timestamp

theorem changesOn_insert {channel : ChannelId} {d d' : EdgeData Float}
    {change : EdgeData Float → EdgeData Float → Prop}
    (hd : m.channels.find? channel = some d) (hchange : change d d') :
    m.ChangesOn { m with channels := m.channels.insert channel d' } channel change :=
  ⟨rfl, rfl, ⟨d, d', hd, Table.find?_insert_self _ _ _, hchange⟩,
    fun _ hother => Table.find?_insert_of_ne _ (Ne.symm hother) _⟩

theorem gainsBetween_insert {id : MemberId} {gates : GatePair} {d : VertexData Float}
    (hd : m.members.find? id = some d) (hgates : d.expects gates = true)
    (metrics : VertexMetrics Float) (timestamp : Int) :
    m.GainsBetween { m with members := m.members.insert id (d.add gates metrics timestamp) } id
      gates { value := metrics, timestamp } :=
  ⟨rfl, rfl, ⟨d, _, hd, Table.find?_insert_self _ _ _, VertexData.gains_add hgates _ _⟩,
    fun _ hother => Table.find?_insert_of_ne _ (Ne.symm hother) _⟩

/-! ### Samples -/

/-- The model makes room for a sample: between the gates that the reporter measures between, or for
the channel that it measures. -/
def Expects (m : Model) : Sample Float → Prop
  | ⟨.vertex id input output, .vertex _⟩ => ∃ member, m.role.topology.member? id = some member ∧
      (m.history? id (gatesOf member input output)).isSome
  | ⟨.edge channel, .edge _⟩ => (m.channels.find? channel).isSome
  | _ => False

/-- The model has taken in a sample, in just the place that it belongs to. -/
def Takes (m m' : Model) (timestamp : Int) : Sample Float → Prop
  | ⟨.vertex id input output, .vertex metrics⟩ => ∃ member,
      m.role.topology.member? id = some member ∧
        m.GainsBetween m' id (gatesOf member input output) { value := metrics, timestamp }
  | ⟨.edge channel, .edge metrics⟩ => m.GainsOn m' channel metrics timestamp
  | _ => False

variable {s : Sample Float}

/-- An expected sample is taken in. -/
theorem process_of_expects (h : m.Expects s) (timestamp : Int) :
    ∃ m', m.process s timestamp = (true, m') ∧ m.Takes m' timestamp s := by
  obtain ⟨⟨id, input, output⟩ | channel, metrics | metrics⟩ := s
  · obtain ⟨member, hmember, hexpects⟩ := h
    obtain ⟨d, hd, hgates⟩ := isSome_history?.mp hexpects
    refine ⟨_, ?_, member, hmember, gainsBetween_insert hd hgates metrics timestamp⟩
    simp only [process, addVertex, hmember, hd, if_pos hgates]
  · exact h.elim
  · exact h.elim
  · obtain ⟨d, hd⟩ := Option.isSome_iff_exists.mp h
    refine ⟨_, ?_, changesOn_insert hd (d.gains_add metrics timestamp)⟩
    simp only [process, addEdge, hd]

/-- A sample that is not expected is ignored. -/
theorem process_of_not_expects (h : ¬ m.Expects s) (timestamp : Int) :
    m.process s timestamp = (false, m) := by
  obtain ⟨⟨id, input, output⟩ | channel, metrics | metrics⟩ := s
  · simp only [process, addVertex]
    split
    · next member data hmember hdata =>
      exact if_neg fun hexpects => h ⟨member, hmember, isSome_history?.mpr ⟨data, hdata, hexpects⟩⟩
    · rfl
  · rfl
  · rfl
  · simp only [process, addEdge]
    split
    · next d hd => exact (h (Option.isSome_iff_exists.mpr ⟨d, hd⟩)).elim
    · rfl

/-! ### Buffer sizes -/

/-- A buffer size can be set on the channels that the model knows. -/
theorem recordBufferSize_eq_ok {channel : ChannelId} {size : Int32} {now : Int}
    (h : m.recordBufferSize channel size now = .ok m') :
    m.ChangesOn m' channel fun d d' => d.Resizes d' { value := size, timestamp := now } := by
  unfold recordBufferSize at h
  split at h
  · next d hd =>
    obtain rfl := Except.ok.inj h
    exact changesOn_insert hd (d.resizes_recordBufferSize size now)
  · cases h

end Model

end LatencyControl
