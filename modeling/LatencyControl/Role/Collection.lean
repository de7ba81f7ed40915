import LatencyControl.Path.Walk
import LatencyControl.Role.Basic

/-!
# Collecting the reporters of a manager

The reporters of a manager role measure everything that a walk along the sequence of its constraint
meets, forward and backward from its anchor members.  Each reporter comes with the host that it has
to be deployed on; a channel is measured by the hosts at both of its ends.  If the sequence starts
or ends with an edge, the member at the outer end of that edge gets a dummy reporter, so that the
manager sees whole paths.
-/

namespace LatencyControl

/-- A reporter role and the host that takes it. -/
abbrev Assignment := HostId × ReporterRole

/-- The reporter of a member, assigned to its host. -/
def assignVertex (m : Member) (input output : Option Nat) (sampling : Sampling) (isDummy : Bool)
    (manager : ManagerRef) : Except Error Assignment := do
  return (m.host, .vertex (← VertexRole.create m input output sampling isDummy manager))

/-- The reporters that a visited member needs. -/
def assignMemberVisit (manager : ManagerRef) (m : Member) (e : Element) :
    Except Error (List Assignment) := do
  return [← assignVertex m e.input e.output e.sampling false manager]

/-- The reporters that a visited wire needs: its own, and dummies at the ends of a sequence. -/
def assignWireVisit (t : Topology) (s : Sequence) (manager : ManagerRef) (w : Wire) (position : Nat)
    (e : Element) : Except Error (List Assignment) := do
  let source ← t.member w.source
  let target ← t.member w.target
  let role ← EdgeRole.create w source target e.sampling manager
  let first ← if position = 0 then
      pure [← assignVertex source none (some w.outputGate) e.sampling true manager]
    else pure []
  let last ← if position + 1 = s.length then
      pure [← assignVertex target (some w.inputGate) none e.sampling true manager]
    else pure []
  return [(source.host, .edge role), (target.host, .edge role)] ++ first ++ last

/-- The reporters that a visit needs. -/
def assignVisit (t : Topology) (s : Sequence) (manager : ManagerRef) (v : Visit) :
    Except Error (List Assignment) :=
  match v.place with
  | .member m => assignMemberVisit manager m v.element
  | .wire w => assignWireVisit t s manager w v.position v.element

namespace ManagerRole

/-- Walks forward and backward from one anchor member. -/
def walkFrom (t : Topology) (s : Sequence) (w : Walk) (anchor : MemberId) : Except Error Walk := do
  let w ← w.forward t s anchor
  w.backward t s anchor false true

/-- The one walk from all anchor members. -/
def walk (r : ManagerRole) (s : Sequence) : Except Error Walk :=
  r.members.foldlM (walkFrom r.topology s) {}

/-- All reporters of a manager role, in the order of the visits. -/
def assignments (r : ManagerRole) : Except Error (List Assignment) := do
  let c ← r.topology.constraint r.constraint
  let w ← r.walk c.sequence
  return (← w.visits.mapM (assignVisit r.topology c.sequence r.ref)).flatten

end ManagerRole

end LatencyControl
