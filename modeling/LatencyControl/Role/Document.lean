import LatencyControl.Role.Basic
import LatencyControl.Topology.Document

/-!
# Role sets as documents

The roles of a host in full, written for people to look at.
-/

namespace LatencyControl

/-- Writes where a reporter reports to. -/
def ManagerRef.toJson (r : ManagerRef) : Json :=
  .record
    [("manager_id", r.manager.toJson), ("instance", r.host.toJson),
      ("constraint_id", r.constraint.toJson)]

/-- Writes a role of measuring something. -/
def ReporterRole.toJson : ReporterRole → Json
  | .vertex r => .record
    [("id", .text r.reporter.display), ("manager", r.manager.toJson), ("vertex", r.member.toJson),
      ("group", r.group.toJson), ("instance", r.host.toJson), ("in", Json.option Json.nat r.input),
      ("out", Json.option Json.nat r.output), ("strategy", .text r.sampling.label),
      ("dummy", .bool r.isDummy)]
  | .edge r => .record
    [("id", .text r.reporter.display), ("manager", r.manager.toJson),
      ("source", r.wire.source.toJson), ("target", r.wire.target.toJson),
      ("out", .nat r.wire.outputGate), ("in", .nat r.wire.inputGate),
      ("sourceInstance", r.sourceHost.toJson), ("targetInstance", r.targetHost.toJson),
      ("strategy", .text r.sampling.label), ("targetChannel", r.wire.targetChannel.toJson)]

/-- Writes a role of watching a constraint. -/
def ManagerRole.toJson (r : ManagerRole) : Json :=
  .record
    [("manager", r.manager.toJson), ("constraint", r.constraint.toJson),
      ("anchor", r.anchor.toJson), ("members", Ident.listToJson r.members)]

/-- Writes all roles of a host, their overview last. -/
def RoleSet.toJson (s : RoleSet) : Json :=
  .record
    [("instance", s.host.toJson), ("managerId", s.manager.toJson), ("isManager", .bool s.isManager),
      ("managers", Json.list ManagerRole.toJson s.managers),
      ("reporters", Json.list ReporterRole.toJson s.reporters),
      ("chains", Json.list Ident.listToJson s.chains), ("summary", s.summary.toJson)]

end LatencyControl
