/-!
# Identifiers

Everything that the library talks about is named by a text: jobs, latency constraints, groups of
parallel tasks, the members of a group, the hosts that run them, channels, gates, managers and
chains.  `Ident e` is such a text marked with the kind of entity it names, so that a gate can never
be handed over where a channel is meant.

Identifiers are ordered as their texts are.  The order of texts is that of their code points, which
is also the order of their UTF-8 bytes.
-/

namespace LatencyControl

/-- The kinds of entities that carry an identifier. -/
inductive Entity
  | job | constraint | group | member | host | channel | gate | manager | chain
  deriving DecidableEq, Repr

/-- The word in front of an identifier where it is shown together with its kind. -/
def Entity.label : Entity → String
  | .job => "JobId"
  | .constraint => "LatencyConstraintId"
  | .group => "JobVertexId"
  | .member => "ExecutionVertexId"
  | .host => "InstanceId"
  | .channel => "ChannelId"
  | .gate => "GateId"
  | .manager => "QosManagerId"
  | .chain => "ChainId"

/-- The identifier of an entity of the given kind. -/
structure Ident (entity : Entity) where
  text : String
  deriving DecidableEq, Repr

namespace Ident

variable {e : Entity}

instance : ToString (Ident e) := ⟨Ident.text⟩

instance : LT (Ident e) := ⟨fun a b => a.text < b.text⟩

instance (a b : Ident e) : Decidable (a < b) := inferInstanceAs (Decidable (a.text < b.text))

instance : Inhabited (Ident e) := ⟨⟨""⟩⟩

/-- An identifier without text names nothing; most places refuse it. -/
def isEmpty (id : Ident e) : Bool := id.text.isEmpty

/-- Identifiers compare as their texts do. -/
def cmp (a b : Ident e) : Ordering :=
  if a < b then .lt else if b < a then .gt else .eq

theorem lt_def {a b : Ident e} : a < b ↔ a.text < b.text := Iff.rfl

theorem lt_irrefl (a : Ident e) : ¬ a < a := String.lt_irrefl a.text

theorem lt_trans {a b c : Ident e} (hab : a < b) (hbc : b < c) : a < c :=
  String.lt_trans hab hbc

theorem lt_trichotomy (a b : Ident e) : a < b ∨ a = b ∨ b < a := by
  by_cases h₁ : a < b
  · exact .inl h₁
  by_cases h₂ : b < a
  · exact .inr (.inr h₂)
  refine .inr (.inl ?_)
  have : a.text = b.text := String.le_antisymm (String.not_lt.1 h₂) (String.not_lt.1 h₁)
  cases a; cases b; simp_all

end Ident

/-- Identifies a job. -/
abbrev JobId := Ident .job
/-- Identifies a latency constraint. -/
abbrev ConstraintId := Ident .constraint
/-- Identifies a group, that is all parallel members of one vertex of the job. -/
abbrev GroupId := Ident .group
/-- Identifies one member of a group. -/
abbrev MemberId := Ident .member
/-- Identifies an instance of the cluster, the host of members, by its connection info. -/
abbrev HostId := Ident .host
/-- Identifies one end of a channel between two members. -/
abbrev ChannelId := Ident .channel
/-- Identifies an input or output gate of a member. -/
abbrev GateId := Ident .gate
/-- Identifies a manager. -/
abbrev ManagerId := Ident .manager
/-- Identifies a chain of tasks that run on one thread. -/
abbrev ChainId := Ident .chain

/-! ### Names made from names -/

/-- The name of the input gate of a member at an index. -/
def Ident.inputGate (m : MemberId) (index : Nat) : GateId := ⟨s!"{m}/in{index}"⟩

/-- The name of the output gate of a member at an index. -/
def Ident.outputGate (m : MemberId) (index : Nat) : GateId := ⟨s!"{m}/out{index}"⟩

/-- A host runs at most one manager, so the manager is named after its host. -/
def managerOf (host : HostId) : ManagerId := ⟨"qos-manager@" ++ host.text⟩

/-- Different hosts have different managers. -/
theorem managerOf_injective {a b : HostId} (h : managerOf a = managerOf b) : a = b := by
  have h' : "qos-manager@" ++ a.text = "qos-manager@" ++ b.text := congrArg Ident.text h
  have : a.text = b.text := by
    have hl := congrArg String.toList h'
    rw [String.toList_append, String.toList_append] at hl
    exact String.toList_injective (List.append_cancel_left hl)
  cases a; cases b; simp_all

end LatencyControl
