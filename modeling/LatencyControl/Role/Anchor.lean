import LatencyControl.Topology

/-!
# Choosing the anchor of a constraint

The managers of a constraint sit where the members of one group of its sequence run, the anchor.
The work is spread best over many hosts, so the candidates are the groups that run on the most
hosts, and among these the ones that the fewest channels meet.  Of the candidates that are left, the
first one that is not the anchor of another constraint is taken.
-/

namespace LatencyControl

/-- How many channels a pattern makes between groups of the given sizes. -/
def Pattern.channelCount (pattern : Pattern) (sources targets : Nat) : Nat :=
  match pattern with
  | .bipartite => sources * targets
  | .pointwise => max sources targets

namespace Topology

/-- The candidates that run on the most hosts. -/
def onMostHosts (t : Topology) (candidates : List GroupId) : Except Error (List GroupId) := do
  let counts ← candidates.mapM (fun g => do return (g, ← t.hostCount g))
  let most := (counts.map Prod.snd).foldl max 0
  return (counts.filter (fun c => c.2 = most)).map Prod.fst

/-- The channels of each edge element of a sequence, with the groups at its ends. -/
def channelCounts (t : Topology) (s : Sequence) : Except Error (List (Link × Nat)) := do
  let links := s.filterMap fun
    | .edge l _ => some l
    | .vertex .. => none
  links.mapM fun l => do
    let sources ← t.membersOfGroup l.source
    let targets ← t.membersOfGroup l.target
    match (t.forward l.source).find? l.outputGate with
    | some e => return (l, e.pattern.channelCount sources.length targets.length)
    | none => throw (.unknownGroupOutput l.outputGate l.source)

/-- The least number of channels of an edge element at a group, if there is such an element. -/
def fewestChannels? (counts : List (Link × Nat)) (g : GroupId) : Option Nat :=
  ((counts.filter (fun c => c.1.source = g ∨ c.1.target = g)).map Prod.snd).min?

/-- The candidates at which an edge element has the fewest channels.  Candidates without any edge
element are kept only if no candidate has one. -/
def atFewestChannels (t : Topology) (s : Sequence) (candidates : List GroupId) :
    Except Error (List GroupId) := do
  let counts ← t.channelCounts s
  match (candidates.filterMap (fewestChannels? counts)).min? with
  | none => return candidates
  | some least => return candidates.filter (fun g => fewestChannels? counts g = some least)

/-- The first candidate that is not in use as an anchor, or else the first candidate; it is in use
from then on. -/
def pickAnchor (candidates : List GroupId) (used : KeySet GroupId) :
    Option (GroupId × KeySet GroupId) :=
  match (candidates.find? (fun g => !used.contains g)).or candidates.head? with
  | some g => some (g, used.add g)
  | none => none

/-- The anchor of the only constraint of a topology, and the anchors in use from then on. -/
def selectAnchor (t : Topology) (used : KeySet GroupId) :
    Except Error (GroupId × KeySet GroupId) := do
  let c ← t.singleConstraint
  let candidates ← t.onMostHosts c.sequence.touched.toList
  let candidates ← t.atFewestChannels c.sequence candidates
  match pickAnchor candidates used with
  | some found => return found
  | none => throw (.emptySequence c.id)

end Topology

end LatencyControl
