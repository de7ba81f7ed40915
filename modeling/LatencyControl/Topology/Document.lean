import LatencyControl.Json.Basic
import LatencyControl.Topology

/-!
# Topologies as documents

What was declared and what it brought about, written for people to look at.
-/

namespace LatencyControl

/-- Writes an identifier as its text. -/
def Ident.toJson {e : Entity} (i : Ident e) : Json := .text i.text

/-- Writes identifiers as their texts. -/
def Ident.listToJson {e : Entity} (is : List (Ident e)) : Json := Json.list Ident.toJson is

/-- Writes a wire with its names at both ends. -/
def Wire.toJson (w : Wire) : Json :=
  .record
    [("source", w.source.toJson), ("out", .nat w.outputGate), ("target", w.target.toJson),
      ("in", .nat w.inputGate), ("sourceChannel", w.sourceChannel.toJson),
      ("targetChannel", w.targetChannel.toJson)]

/-- Writes a member with its gates. -/
def Member.toJson (m : Member) : Json :=
  .record
    [("id", m.id.toJson), ("name", .text m.name), ("group", m.group.toJson),
      ("index", .nat m.index), ("instance", m.host.toJson),
      ("inputs", Ident.listToJson m.inputGates), ("outputs", Ident.listToJson m.outputGates)]

/-- An edge as people read it. -/
def GroupEdge.display (e : GroupEdge) : String :=
  s!"{e.link.source}[{e.link.outputGate}]->{e.link.target}[{e.link.inputGate}] {e.pattern.label}"

namespace Topology

/-- Writes edges with the gates that they are found at. -/
def edgesToJson (edges : Table Nat GroupEdge) : Json :=
  Json.list (fun (gate, e) => .array [.nat gate, .text e.display]) edges.entries

/-- Writes a group with its members and its edges. -/
def groupToJson (t : Topology) (g : Group) : Json :=
  let members := t.membersOf g.id
  .record
    [("id", g.id.toJson), ("name", .text g.name),
      ("members", Ident.listToJson (members.map Member.id)), ("count", .nat members.length),
      ("forward", edgesToJson (t.forward g.id)), ("backward", edgesToJson (t.backward g.id))]

end Topology

end LatencyControl
