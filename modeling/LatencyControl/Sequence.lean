import LatencyControl.Table

/-!
# Constrained sequences

A latency constraint bounds the time that records take along a path through the groups of a job.
The path is given as a sequence of elements.  A vertex element stands for the work done in a group,
between one of its input gates and one of its output gates; an edge element stands for the transfer
from an output gate of one group to an input gate of another.  Vertex and edge elements are meant to
alternate, but nothing here depends on it.
-/

namespace LatencyControl

/-- How a reporter samples the latency of a vertex. -/
inductive Sampling
  /-- From the reading of a record to the next writing of one. -/
  | readWrite
  /-- Along records that were marked when they were read. -/
  | readReadWrite
  deriving DecidableEq, Repr

/-- The word for a way of sampling in documents. -/
def Sampling.label : Sampling → String
  | .readWrite => "READ_WRITE"
  | .readReadWrite => "READ_READ_WRITE"

/-- A connection from an output gate of one group to an input gate of another.  Gates are numbered
within their group, starting at zero. -/
structure Link where
  source : GroupId
  outputGate : Nat
  target : GroupId
  inputGate : Nat
  deriving DecidableEq, Repr

/-- One element of a sequence.  A vertex without input gate starts the path, one without output gate
ends it. -/
inductive Element
  | vertex (group : GroupId) (input output : Option Nat) (sampling : Sampling)
  | edge (link : Link) (sampling : Sampling)
  deriving DecidableEq, Repr

namespace Element

/-- The groups that an element refers to. -/
def touched : Element → List GroupId
  | .vertex g .. => [g]
  | .edge l _ => [l.source, l.target]

/-- How the element is sampled. -/
def sampling : Element → Sampling
  | .vertex _ _ _ s => s
  | .edge _ s => s

/-- The input gate of the element. -/
def input : Element → Option Nat
  | .vertex _ i _ _ => i
  | .edge l _ => some l.inputGate

/-- The output gate of the element. -/
def output : Element → Option Nat
  | .vertex _ _ o _ => o
  | .edge l _ => some l.outputGate

/-- Whether the element is a vertex. -/
def isVertex : Element → Bool
  | .vertex .. => true
  | .edge .. => false

/-- Whether the element is the vertex of a group. -/
def isVertexOf (g : GroupId) : Element → Bool
  | .vertex g' .. => g' = g
  | .edge .. => false

end Element

/-- The elements of a path, from its start to its end. -/
abbrev Sequence := List Element

namespace Sequence

/-- The position of the first vertex element of a group. -/
def vertexIndex? (s : Sequence) (g : GroupId) : Option Nat := List.findIdx? (Element.isVertexOf g) s

/-- The groups that a sequence refers to, in the order of their identifiers. -/
def touched (s : Sequence) : KeySet GroupId := KeySet.ofList (List.flatMap Element.touched s)

/-- The first element, if it is an edge that leaves the group. -/
def startsLeaving (s : Sequence) (g : GroupId) : Bool :=
  match List.head? s with
  | some (.edge l _) => l.source = g
  | _ => false

/-- The last element, if it is an edge that enters the group. -/
def endsEntering (s : Sequence) (g : GroupId) : Bool :=
  match List.getLast? s with
  | some (.edge l _) => l.target = g
  | _ => false

end Sequence

/-- An upper bound, in milliseconds, for the latency along a sequence. -/
structure Constraint where
  id : ConstraintId
  name : String
  sequence : Sequence
  bound : Float

end LatencyControl
