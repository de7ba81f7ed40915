import LatencyControl.Role.Anchor
import LatencyControl.Proofs.Topology.Stemming
import LatencyControl.Proofs.Topology.Shares

/-!
# Counted channels and wires

The choice of an anchor counts the channels of an edge by a formula (`Pattern.channelCount`), whereas
connecting two groups goes through the pairs of a pattern.  The formula counts the pairs if both
groups have members (`Pattern.length_pairs`).  If a group has none, there is nothing to wire; the
formula notices this in a bipartite pattern, but in a pointwise pattern it still counts a channel for
every member of the other group.

The main statement is `Topology.countsWires_iff`: this is the only case in which the count is not
that of the wires.
-/

namespace LatencyControl

namespace Pattern

/-- Exactly one of two groups has members. -/
def IsOneSided (sources targets : ℕ) : Prop :=
  (sources = 0 ∧ 0 < targets) ∨ (0 < sources ∧ targets = 0)

instance (sources targets : ℕ) : Decidable (IsOneSided sources targets) :=
  inferInstanceAs (Decidable (_ ∨ _))

/-- How many members a pattern pairs. -/
theorem length_pairs (pattern : Pattern) (sources targets : ℕ) :
    (pattern.pairs sources targets).length
      = if sources = 0 ∨ targets = 0 then 0 else pattern.channelCount sources targets := by
  split_ifs with hempty
  · unfold pairs
    rw [if_pos hempty, List.length_nil]
  · cases pattern with
    | bipartite =>
      unfold pairs channelCount
      rw [if_neg hempty]
      exact (List.length_product _ _).trans (by rw [List.length_range, List.length_range])
    | pointwise =>
      have hsources : 0 < sources := by omega
      have htargets : 0 < targets := by omega
      exact length_pairs_pointwise hsources htargets

/-- The formula counts the pairs unless the pattern is pointwise and one side has nobody to share
the wires with. -/
theorem length_pairs_eq_channelCount_iff (pattern : Pattern) (sources targets : ℕ) :
    (pattern.pairs sources targets).length = pattern.channelCount sources targets ↔
      ¬ (pattern = .pointwise ∧ IsOneSided sources targets) := by
  rw [length_pairs]
  unfold IsOneSided
  cases pattern with
  | bipartite =>
    have hcount : sources = 0 ∨ targets = 0 → sources * targets = 0 := Nat.mul_eq_zero.mpr
    refine iff_of_true ?_ (by simp)
    split_ifs with hempty
    · exact (hcount hempty).symm
    · rfl
  | pointwise =>
    have hcount : pointwise.channelCount sources targets = max sources targets := rfl
    rw [hcount]
    simp only [true_and]
    split_ifs <;> omega

end Pattern

namespace Topology

variable {t t' : Topology} {e : GroupEdge}

/-- An edge brings about one wire for each pair of its pattern, since a pattern pairs only members
that are there. -/
theorem length_wiring (e : GroupEdge) (sources targets : List Member) :
    (wiring e sources targets).length
      = (e.pattern.pairs sources.length targets.length).length := by
  unfold wiring
  rw [List.filterMap_length_eq_length]
  rintro ⟨i, j⟩ hpair
  obtain ⟨hi, hj, -⟩ := Pattern.mem_pairs_iff.mp hpair
  dsimp only
  rw [List.getElem?_eq_getElem hi, List.getElem?_eq_getElem hj]
  rfl

/-- Between two topologies, as many wires were added as are counted for an edge between groups with
the members that they have in the first. -/
def CountsWires (t t' : Topology) (e : GroupEdge) : Prop :=
  t'.wires.length = t.wires.length +
    e.pattern.channelCount (t.membersOf e.link.source).length (t.membersOf e.link.target).length

instance (t t' : Topology) (e : GroupEdge) : Decidable (CountsWires t t' e) :=
  inferInstanceAs (Decidable (_ = _))

/-- **Counted channels are wires, except next to a group without members.**  Connecting two groups
makes the wires that are counted for the edge if both groups have members, and none otherwise.  So
the count is that of the wires unless the pattern is pointwise and exactly one of the groups has
members. -/
theorem countsWires_iff (h : t.connect e = .ok t') :
    t'.wires.length = t.wires.length +
        (if t.membersOf e.link.source = [] ∨ t.membersOf e.link.target = [] then 0
          else e.pattern.channelCount (t.membersOf e.link.source).length
            (t.membersOf e.link.target).length) ∧
      (t.CountsWires t' e ↔ ¬ (e.pattern = .pointwise ∧
        Pattern.IsOneSided (t.membersOf e.link.source).length
          (t.membersOf e.link.target).length)) := by
  obtain ⟨-, -, hwires, -, -⟩ := connect_eq_ok h
  have hlength : t'.wires.length = t.wires.length +
      (e.pattern.pairs (t.membersOf e.link.source).length
        (t.membersOf e.link.target).length).length := by
    rw [hwires, List.length_append, length_wiring]
  constructor
  · rw [hlength, Pattern.length_pairs]
    simp only [List.length_eq_zero_iff]
  · rw [CountsWires, hlength, Nat.add_left_cancel_iff, Pattern.length_pairs_eq_channelCount_iff]

/-- Two groups with members and one without. -/
def deserted : Topology :=
  declared [.group ⟨"A"⟩ "A", .member ⟨"A"⟩ ⟨"a0"⟩ ⟨"h"⟩, .member ⟨"A"⟩ ⟨"a1"⟩ ⟨"k"⟩,
    .group ⟨"B"⟩ "B", .member ⟨"B"⟩ ⟨"b"⟩ ⟨"h"⟩, .group ⟨"C"⟩ "C"]

/-- A pointwise edge from the group with two members to another group. -/
def desertedEdge (target : GroupId) : GroupEdge where
  link := { source := ⟨"A"⟩, outputGate := 0, target, inputGate := 0 }
  pattern := .pointwise

theorem countsWires_iff_deserted :
    ∃ t', deserted.connect (desertedEdge ⟨"B"⟩) = .ok t' ∧ t'.wires.length = 2 ∧
      deserted.CountsWires t' (desertedEdge ⟨"B"⟩) := by
  obtain ⟨t', ht'⟩ : ∃ t', deserted.connect (desertedEdge ⟨"B"⟩) = .ok t' :=
    exists_eq_ok (by decide +kernel)
  obtain ⟨hlength, hcounts⟩ := countsWires_iff ht'
  exact ⟨t', ht', hlength.trans (by decide +kernel), hcounts.mpr (by decide +kernel)⟩

/-- Two channels are counted for an edge to the group without members, and no wire is made. -/
theorem not_countsWires_deserted :
    ∃ t', deserted.connect (desertedEdge ⟨"C"⟩) = .ok t' ∧ t'.wires = [] ∧
      ¬ deserted.CountsWires t' (desertedEdge ⟨"C"⟩) :=
  exists_ok_of_check (by decide +kernel)

end Topology

end LatencyControl
