import LatencyControl.Reporter

/-!
# Roles

Every constraint of a job is watched by managers.  A manager role says that a host aggregates the
measurements for one constraint, as far as its own members of the constraint's anchor group are
concerned.  A reporter role says that a host measures a member or a channel for such a manager.

`RoleSet` collects the roles of one host.
-/

namespace LatencyControl

/-- The manager that a reporter reports to, and the constraint that it reports for. -/
structure ManagerRef where
  manager : ManagerId
  host : HostId
  constraint : ConstraintId
  deriving DecidableEq, Repr

/-- A host watches a constraint, by way of its members of the anchor group. -/
structure ManagerRole where
  host : HostId
  constraint : ConstraintId
  topology : Topology
  anchor : GroupId
  members : List MemberId

namespace ManagerRole

/-- Checks that a member belongs to the anchor group and runs on the host. -/
def checkMember (t : Topology) (anchor : GroupId) (host : HostId) (id : MemberId) :
    Except Error Unit := do
  let m ← t.member id
  if m.group ≠ anchor ∨ m.host ≠ host then throw (.notAnAnchorMember id anchor host)

/-- A manager role, if the topology has the constraint and there are members, all of the anchor
group and on the host. -/
def create (host : HostId) (constraint : ConstraintId) (t : Topology) (anchor : GroupId)
    (members : List MemberId) : Except Error ManagerRole := do
  host.require "instance"
  constraint.require "constraintID"
  if members.isEmpty then throw (.noAnchorMembers constraint host)
  if (t.constraint? constraint).isNone then throw (.constraintNotHeld constraint)
  members.forM (checkMember t anchor host)
  return { host, constraint, topology := t, anchor, members }

/-- The manager of the role. -/
def manager (r : ManagerRole) : ManagerId := managerOf r.host

/-- The address that reporters for this role report to. -/
def ref (r : ManagerRole) : ManagerRef :=
  { manager := r.manager, host := r.host, constraint := r.constraint }

end ManagerRole

/-- A host measures a member between two of its gates. -/
structure VertexRole where
  reporter : ReporterId
  member : MemberId
  group : GroupId
  host : HostId
  input : Option Nat
  output : Option Nat
  sampling : Sampling
  /-- Stands in for the outer end of an edge at the border of a sequence, and measures nothing. -/
  isDummy : Bool
  manager : ManagerRef
  deriving DecidableEq, Repr

/-- The role for a member and a combination of its gates. -/
def VertexRole.create (m : Member) (input output : Option Nat) (sampling : Sampling)
    (isDummy : Bool) (manager : ManagerRef) : Except Error VertexRole := do
  let reporter ← ReporterId.ofMember m input output
  return { reporter, member := m.id, group := m.group, host := m.host, input, output, sampling,
           isDummy, manager }

/-- The hosts at the ends of a wire measure it. -/
structure EdgeRole where
  reporter : ReporterId
  wire : Wire
  sourceHost : HostId
  targetHost : HostId
  sampling : Sampling
  manager : ManagerRef
  deriving DecidableEq, Repr

/-- The role for a wire and the members at its ends. -/
def EdgeRole.create (w : Wire) (source target : Member) (sampling : Sampling)
    (manager : ManagerRef) : Except Error EdgeRole := do
  if source.id ≠ w.source ∨ target.id ≠ w.target then
    throw (.endpointsMismatch source.id target.id w.sourceChannel)
  let reporter ← ReporterId.ofWire w
  return { reporter, wire := w, sourceHost := source.host, targetHost := target.host, sampling,
           manager }

/-- A role of measuring something. -/
inductive ReporterRole
  | vertex (role : VertexRole)
  | edge (role : EdgeRole)
  deriving DecidableEq, Repr

namespace ReporterRole

/-- The key of the reporter. -/
def reporter : ReporterRole → ReporterId
  | .vertex r => r.reporter
  | .edge r => r.reporter

/-- Where the reporter reports to. -/
def manager : ReporterRole → ManagerRef
  | .vertex r => r.manager
  | .edge r => r.manager

/-- What makes two roles the same to a host: the reporter and the manager. -/
def key (r : ReporterRole) : ReporterId × ManagerId := (r.reporter, r.manager.manager)

end ReporterRole

/-! ### The roles of one host -/

/-- All roles of one host. -/
structure RoleSet where
  host : HostId
  managers : List ManagerRole := []
  /-- Reporter roles with different keys, in the order in which they were added. -/
  reporters : List ReporterRole := []
  /-- Chains of members of this host that may be run on one thread. -/
  chains : List (List MemberId) := []

namespace RoleSet

/-- The manager that the host runs if it has to. -/
def manager (s : RoleSet) : ManagerId := managerOf s.host

/-- Whether the host manages anything. -/
def isManager (s : RoleSet) : Bool := !s.managers.isEmpty

/-- Adds a manager role. -/
def addManager (s : RoleSet) (r : ManagerRole) : RoleSet := { s with managers := s.managers ++ [r] }

/-- Adds a reporter role, unless the same reporter reports to the same manager already. -/
def addReporter (s : RoleSet) (r : ReporterRole) : RoleSet :=
  if r.key ∈ s.reporters.map ReporterRole.key then s else { s with reporters := s.reporters ++ [r] }

/-- Adds a chain, unless it is empty or there already. -/
def addChain (s : RoleSet) (chain : List MemberId) : RoleSet :=
  if chain.isEmpty ∨ chain ∈ s.chains then s else { s with chains := s.chains ++ [chain] }

/-- The roles of measuring members. -/
def vertexRoles (s : RoleSet) : List VertexRole :=
  s.reporters.filterMap fun
    | .vertex r => some r
    | .edge _ => none

/-- The roles of measuring channels. -/
def edgeRoles (s : RoleSet) : List EdgeRole :=
  s.reporters.filterMap fun
    | .vertex _ => none
    | .edge r => some r

/-! ### Overview -/

/-- An overview of the roles of one host. -/
structure Summary where
  host : HostId
  /-- The members by way of which the host watches each constraint. -/
  managedConstraints : Table ConstraintId (List MemberId)
  vertexReporters : Nat
  dummyVertexReporters : Nat
  edgeReporters : Nat
  /-- The managers that the host reports to. -/
  reportsTo : KeySet ManagerId
  candidateChains : Nat

/-- The overview of a role set. -/
def summary (s : RoleSet) : Summary :=
  { host := s.host
    managedConstraints := Table.ofList (s.managers.map (fun r => (r.constraint, r.members)))
    vertexReporters := s.vertexRoles.length
    dummyVertexReporters := (s.vertexRoles.filter VertexRole.isDummy).length
    edgeReporters := s.edgeRoles.length
    reportsTo := KeySet.ofList (s.reporters.map (fun r => r.manager.manager))
    candidateChains := s.chains.length }

/-- Writes an overview. -/
def Summary.toJson (s : Summary) : Json :=
  .record
    [("instance", .text s.host.text),
      ("managedConstraints", .record (s.managedConstraints.entries.map fun (c, members) =>
        (c.text, Json.list (fun m => .text m.text) members))),
      ("vertexReporters", .nat s.vertexReporters),
      ("dummyVertexReporters", .nat s.dummyVertexReporters),
      ("edgeReporters", .nat s.edgeReporters),
      ("reportsTo", Json.list (fun m => .text m.text) s.reportsTo.toList),
      ("candidateChains", .nat s.candidateChains)]

end RoleSet

end LatencyControl
