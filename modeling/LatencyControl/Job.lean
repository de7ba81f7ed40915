import LatencyControl.Json.Fields
import LatencyControl.Json.Reader
import LatencyControl.Settings
import LatencyControl.Topology

/-!
# Job descriptions

A job description lists the groups of a job with their members, the edges between groups and the
latency constraints.  `Job.ofJson?` reads one from a JSON document, and `Job.topology` declares
everything that it lists, groups and members first, then edges, then constraints, so that every
reference can be checked.
-/

namespace LatencyControl

/-- A member as a job description lists it. -/
structure MemberEntry where
  id : MemberId
  host : HostId
  deriving DecidableEq, Repr

/-- A group as a job description lists it. -/
structure GroupEntry where
  id : GroupId
  name : String
  members : List MemberEntry
  deriving DecidableEq, Repr

/-- The description of one job. -/
structure Job where
  id : JobId
  groups : List GroupEntry
  edges : List GroupEdge
  constraints : List Constraint

/-! ### Reading -/

namespace Json

/-- An identifier of the kind that is asked for. -/
def asId? {e : Entity} (value : Json) : Option (Ident e) := value.asText?.map Ident.mk

end Json

/-- The names of the ways of sampling. -/
def Sampling.choices : List (String × Sampling) :=
  [Sampling.readWrite, .readReadWrite].map (fun s => (s.label, s))

/-- Reads a way of sampling inside an element, where an empty object is as good as null. -/
def Sampling.ofElementJson? : Json → Option Sampling
  | .object [(some name, .object [])] => Sampling.choices.lookup name
  | value => value.asChoice? Sampling.choices

namespace Element

/-- The deepest nesting that an element may have: a document has at most 127 levels, and four of
them are above its elements. -/
def depthLimit : Nat := 123

/-- Takes the kind of an element off its description: the field `type`, or the first item. -/
def splitKind? : Json → Option (String × Json)
  | .object fields =>
    match fields.filter (fun field => field.1 == some "type") with
    | [(_, .string (some kind))] =>
      some (kind, .object (fields.filter (fun field => field.1 != some "type")))
    | _ => none
  | .array (.string (some kind) :: items) => some (kind, .array items)
  | _ => none

/-- Reads a vertex element whose kind has been taken off. -/
def vertexOfJson? (value : Json) : Option Element := do
  let fields ← value.fields? ["vertexId", "inputGateIndex", "outputGateIndex", "samplingStrategy"]
  return .vertex
    (← fields.required "vertexId" Json.asId?)
    (← fields.defaulted "inputGateIndex" none (Json.orNull? Json.asNat?))
    (← fields.defaulted "outputGateIndex" none (Json.orNull? Json.asNat?))
    (← fields.defaulted "samplingStrategy" .readWrite Sampling.ofElementJson?)

/-- Reads an edge element whose kind has been taken off. -/
def edgeOfJson? (value : Json) : Option Element := do
  let fields ← value.fields?
    ["sourceVertexId", "targetVertexId", "outputGateIndex", "inputGateIndex", "samplingStrategy"]
  let link : Link :=
    { source := ← fields.required "sourceVertexId" Json.asId?
      target := ← fields.required "targetVertexId" Json.asId?
      outputGate := ← fields.required "outputGateIndex" Json.asNat?
      inputGate := ← fields.required "inputGateIndex" Json.asNat? }
  return .edge link (← fields.defaulted "samplingStrategy" .readWrite Sampling.ofElementJson?)

/-- Reads an element.  Since its kind may come last, all of it has to be readable, even fields that
are skipped afterwards. -/
def ofJson? (value : Json) : Option Element := do
  guard (value.isReadable ∧ value.depth ≤ depthLimit)
  let (kind, content) ← splitKind? value
  match kind with
  | "vertex" => vertexOfJson? content
  | "edge" => edgeOfJson? content
  | _ => none

end Element

/-- Reads a sequence. -/
def Sequence.ofJson? (value : Json) : Option Sequence := value.asList? Element.ofJson?

/-- Reads a constraint. -/
def Constraint.ofJson? (value : Json) : Option Constraint := do
  let fields ← value.fields? ["id", "name", "maxLatencyMs", "sequence"]
  return {
    id := ← fields.required "id" Json.asId?
    name := ← fields.required "name" Json.asText?
    bound := ← fields.required "maxLatencyMs" Json.asFloat?
    sequence := ← fields.required "sequence" Sequence.ofJson? }

/-- Reads an edge between groups. -/
def GroupEdge.ofJson? (value : Json) : Option GroupEdge := do
  let fields ← value.fields?
    ["source", "target", "outputGateIndex", "inputGateIndex", "distributionPattern"]
  let link : Link :=
    { source := ← fields.required "source" Json.asId?
      target := ← fields.required "target" Json.asId?
      outputGate := ← fields.required "outputGateIndex" Json.asNat?
      inputGate := ← fields.required "inputGateIndex" Json.asNat? }
  let pattern ← fields.required "distributionPattern"
    (Json.asChoice? [("BIPARTITE", Pattern.bipartite), ("POINTWISE", .pointwise)])
  return { link, pattern }

/-- Reads a member. -/
def MemberEntry.ofJson? (value : Json) : Option MemberEntry := do
  let fields ← value.fields? ["id", "instance"]
  return {
    id := ← fields.required "id" Json.asId?
    host := ← fields.required "instance" Json.asId? }

/-- Reads a group with its members. -/
def GroupEntry.ofJson? (value : Json) : Option GroupEntry := do
  let fields ← value.fields? ["id", "name", "members"]
  return {
    id := ← fields.required "id" Json.asId?
    name := ← fields.required "name" Json.asText?
    members := ← fields.required "members" (Json.asList? MemberEntry.ofJson?) }

namespace Job

/-- Reads a job description; edges and constraints may be left out. -/
def ofJson? (document : Json) : Option Job := do
  let fields ← document.fields? ["jobId", "groupVertices", "groupEdges", "constraints"]
  return {
    id := ← fields.required "jobId" Json.asId?
    groups := ← fields.required "groupVertices" (Json.asList? GroupEntry.ofJson?)
    edges := ← fields.defaulted "groupEdges" [] (Json.asList? GroupEdge.ofJson?)
    constraints := ← fields.defaulted "constraints" [] (Json.asList? Constraint.ofJson?) }

/-! ### Declaring what a description lists -/

/-- Declares a group and then its members. -/
def declareGroup (t : Topology) (g : GroupEntry) : Except Error Topology := do
  let t ← t.addGroup g.id g.name
  g.members.foldlM (fun t m => t.addMember g.id m.id m.host) t

/-- The topology of a job. -/
def topology (job : Job) : Except Error Topology := do
  let t ← job.groups.foldlM declareGroup {}
  let t ← job.edges.foldlM Topology.connect t
  job.constraints.foldlM Topology.addConstraint t

end Job

/-! ### Documents -/

/-- Reads a document of a given kind from its text. -/
def readDocument {α : Type} (read : Json → Option α) (text : String) : Except Error α :=
  match (Json.parse? text).bind read with
  | some value => .ok value
  | none => .error .malformedDocument

/-- Reads a document of a given kind from the bytes of a file; `none` stands for a file that is not
there.  The file has to hold UTF-8. -/
def readDocumentFile {α : Type} (read : Json → Option α) (content : Option ByteArray) :
    Except Error α :=
  match content with
  | none => .error (.io .notFound)
  | some bytes =>
    match String.fromUTF8? bytes with
    | none => .error (.io .invalidData)
    | some text => readDocument read text

/-- Reads a job description from its text. -/
def Job.ofText (text : String) : Except Error Job := readDocument Job.ofJson? text

/-- Reads settings from their text. -/
def Settings.ofText (text : String) : Except Error Settings := readDocument Settings.ofJson? text

end LatencyControl
