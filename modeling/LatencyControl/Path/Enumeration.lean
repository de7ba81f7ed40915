import LatencyControl.Topology

/-!
# The paths through a member

A path has one member or wire for each element of a sequence.  `Topology.pathsThrough` lists the
paths along a sequence that go through an anchor: every way from a start of the sequence to the
anchor, combined with every way from the anchor to an end.
-/

namespace LatencyControl

/-- One step of a path. -/
inductive PathStep
  | member (id : MemberId)
  | wire (w : Wire)
  deriving DecidableEq, Repr

/-- The name of a step: that of the member, or that of the wire at its source. -/
def PathStep.name : PathStep → String
  | .member m => m.text
  | .wire w => w.sourceChannel.text

/-- A path, step by step from its start to its end. -/
abbrev Path := List PathStep

namespace Topology

/-- The ways on from a member along the elements ahead. -/
def waysOn (t : Topology) : Sequence → Member → List Path
  | [], _ => [[]]
  | .vertex .. :: rest, m => (t.waysOn rest m).map (.member m.id :: ·)
  | .edge l _ :: rest, m =>
    (t.outgoing m.id l.outputGate).flatMap fun w =>
      match t.member? w.target with
      | some target =>
        if target.group = l.target then (t.waysOn rest target).map (.wire w :: ·) else []
      | none => []

/-- The ways back from a member along the elements behind; the element next to the member comes
first, here and in the ways. -/
def waysBack (t : Topology) : Sequence → Member → List Path
  | [], _ => [[]]
  | .vertex .. :: rest, m => (t.waysBack rest m).map (.member m.id :: ·)
  | .edge l _ :: rest, m =>
    (t.incoming m.id l.inputGate).flatMap fun w =>
      match t.member? w.source with
      | some source =>
        if source.group = l.source then (t.waysBack rest source).map (.wire w :: ·) else []
      | none => []

/-- The number of elements behind a member of the group: those before the vertex element of the
group; none if the sequence starts by leaving the group; all if it ends by entering it. -/
def splitAt? (s : Sequence) (g : GroupId) : Option Nat :=
  match s.vertexIndex? g with
  | some i => some i
  | none =>
    if s.startsLeaving g then some 0
    else if s.endsEntering g then some s.length
    else none

/-- The paths along a sequence through an anchor. -/
def pathsThrough (t : Topology) (s : Sequence) (anchor : MemberId) : Except Error (List Path) := do
  let m ← t.member anchor
  match splitAt? s m.group with
  | none => return []
  | some i =>
    return (t.waysBack (s.take i).reverse m).flatMap fun back =>
      (t.waysOn (s.drop i) m).map (fun on => back.reverse ++ on)

end Topology

end LatencyControl
