import LatencyControl.Error

/-!
# Chains

A chain runs tasks on the thread of its head: what the head writes is passed from link to link, and
what the last link makes of it goes to that link's output gate.
-/

namespace LatencyControl

/-- A gate of a task, by the indices of both. -/
structure GateRef where
  task : Nat
  gate : Nat
  deriving DecidableEq, Repr

/-- A task that takes part in a chain behind its head, with the gates that it is chained by. -/
structure ChainLink where
  member : MemberId
  task : Nat
  input : Nat
  output : Nat
  deriving DecidableEq, Repr

namespace ChainLink

/-- The gate that the task reads from when it is not chained. -/
def inputRef (l : ChainLink) : GateRef := { task := l.task, gate := l.input }

/-- The gate that the task writes to. -/
def outputRef (l : ChainLink) : GateRef := { task := l.task, gate := l.output }

end ChainLink

/-- A chain.  The number tells it from all other chains of an instance. -/
structure Chain where
  number : Nat
  id : ChainId
  head : MemberId
  links : List ChainLink
  deriving DecidableEq, Repr

namespace Chain

/-- A chain with at least one link, none of which is the head. -/
def create (number : Nat) (id : ChainId) (head : MemberId) (links : List ChainLink) :
    Except Error Chain := do
  if links.isEmpty then throw (.chainWithoutLinks head)
  if links.any (fun l => l.member = head) then throw (.chainRepeatsHead head)
  return { number, id, head, links }

/-- The members of a chain, its head first. -/
def members (c : Chain) : List MemberId := c.head :: c.links.map ChainLink.member

/-- Whether a member is a link. -/
def hasLink (c : Chain) (member : MemberId) : Bool := c.links.any (fun l => l.member = member)

/-- The links that another chain does not have. -/
def linksNotIn (c other : Chain) : List ChainLink :=
  c.links.filter (fun l => !other.hasLink l.member)

/-- A chain as people read it. -/
def describe (c : Chain) : String :=
  let path := " -> ".intercalate (c.members.map Ident.text)
  s!"RuntimeChain({c.id}: {path})"

end Chain

end LatencyControl
