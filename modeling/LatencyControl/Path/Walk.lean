import LatencyControl.Topology

/-!
# Walks along a sequence

A walk follows a sequence through the members of a topology, starting at one member.  It goes
forward or backward from the place of that member's group on the sequence and visits every member
and wire that it meets, each together with the element of the sequence that it stands for.

One `Walk` can be continued from several starts.  It remembers which members it has visited at
which position, in either direction, so that parts of the way that several starts share are not
visited again.
-/

namespace LatencyControl

/-- What a walk meets: a member at a vertex element, a wire at an edge element. -/
inductive Place
  | member (m : Member)
  | wire (w : Wire)
  deriving DecidableEq, Repr

/-- A place, together with the element that it was met at and the position of that element. -/
structure Visit where
  place : Place
  position : Nat
  element : Element
  deriving DecidableEq, Repr

/-- The course of a walk so far. -/
structure Walk where
  /-- Members visited on the way forward, with their positions. -/
  expanded : List (MemberId × Nat) := []
  /-- Members visited on the way back, or started from, with their positions. -/
  covered : List (MemberId × Nat) := []
  /-- All visits, in order. -/
  visits : List Visit := []
  deriving DecidableEq, Repr

-- Marks are compared by member and position.
instance Walk.lawfulBEqMark : LawfulBEq (MemberId × Nat) := inferInstance

/-- The elements of a sequence with their positions. -/
abbrev Positions := List (Element × Nat)

namespace Walk

/-- Adds a visit. -/
def visit (w : Walk) (place : Place) (position : Nat) (element : Element) : Walk :=
  { w with visits := w.visits ++ [{ place, position, element }] }

/-- Marks a member as visited on the way forward. -/
def expand (w : Walk) (m : MemberId) (position : Nat) : Walk :=
  { w with expanded := (m, position) :: w.expanded }

/-- Marks a member as visited on the way back, unless it is marked already. -/
def cover (w : Walk) (m : MemberId) (position : Nat) : Walk :=
  if (m, position) ∈ w.covered then w else { w with covered := (m, position) :: w.covered }

/-- Walks forward from a member; the elements are those ahead, the next one first.  A member that
was visited at this position before ends the way, and so does one of another group. -/
def followForward (t : Topology) : Positions → Member → Walk → Walk
  | [], _, w => w
  | (e, i) :: rest, m, w =>
    match e with
    | .vertex g .. =>
      if g ≠ m.group ∨ (m.id, i) ∈ w.expanded then w
      else followForward t rest m ((w.expand m.id i).visit (.member m) i e)
    | .edge l _ =>
      (t.outgoing m.id l.outputGate).foldl
        (fun w wire =>
          match t.member? wire.target with
          | some target =>
            if target.group = l.target then followForward t rest target (w.visit (.wire wire) i e)
            else w
          | none => w)
        w

/-- Walks backward from a member; the elements are those behind, the next one first.  With
`stopAtCovered` a member that was visited at this position before ends the way; the wire that leads
to it has been visited by then. -/
def followBackward (t : Topology) (stopAtCovered : Bool) : Positions → Member → Walk → Walk
  | [], _, w => w
  | (e, i) :: rest, m, w =>
    match e with
    | .vertex g .. =>
      if g ≠ m.group ∨ ((m.id, i) ∈ w.covered ∧ stopAtCovered) then w
      else followBackward t stopAtCovered rest m ((w.cover m.id i).visit (.member m) i e)
    | .edge l _ =>
      (t.incoming m.id l.inputGate).foldl
        (fun w wire =>
          match t.member? wire.source with
          | some source =>
            if source.group = l.source then
              followBackward t stopAtCovered rest source (w.visit (.wire wire) i e)
            else w
          | none => w)
        w

/-- Continues a walk forward from a member.  It starts at the vertex element of the member's
group, or else at the first edge of the sequence if that leaves the group. -/
def forward (w : Walk) (t : Topology) (s : Sequence) (start : MemberId) : Except Error Walk := do
  let m ← t.member start
  match s.vertexIndex? m.group with
  | some i => return followForward t (s.zipIdx.drop i) m w
  | none => return if s.startsLeaving m.group then followForward t s.zipIdx m w else w

/-- Continues a walk backward from a member.  It starts at the vertex element of the member's group,
or right behind it, or else at the last edge of the sequence if that enters the group. -/
def backward (w : Walk) (t : Topology) (s : Sequence) (start : MemberId)
    (includeStart stopAtCovered : Bool) : Except Error Walk := do
  let m ← t.member start
  match s.vertexIndex? m.group with
  | some i =>
    if includeStart then
      return followBackward t stopAtCovered (s.zipIdx.take (i + 1)).reverse m w
    else
      return followBackward t stopAtCovered (s.zipIdx.take i).reverse m (w.cover m.id i)
  | none =>
    return if s.endsEntering m.group then followBackward t stopAtCovered s.zipIdx.reverse m w else w

end Walk

end LatencyControl
