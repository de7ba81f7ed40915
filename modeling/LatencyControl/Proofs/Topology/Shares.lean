import Mathlib.Algebra.Order.Floor.Div
import Mathlib.Order.Interval.Finset.Nat
import LatencyControl.Proofs.Topology.Declared

/-!
# How a pointwise pattern shares out its wires

A pointwise pattern makes as many wires as the larger of two groups has members, and wire number `k`
of `c` runs from source `k * n / c` to target `k * m / c`.  Said of one side alone: `c` wires are
dealt to `n` members by rounding `k * n / c` down.  The wires that member `i` gets are those from
number `⌈i * c / n⌉` up to number `⌈(i + 1) * c / n⌉` (`mul_div_eq_iff`), so there are
`⌊c / n⌋` or `⌈c / n⌉` of them, wherever the rounding falls (`sharesOut_dealt`).

The main statement is `Pattern.pointwise_sharesOut`: both sides are dealt the wires in this way.
-/

namespace LatencyControl

/-! ### Rounded quotients -/

section

variable {a b c i k n : ℕ}

/-- Two quotients that are rounded up are together at least the rounded quotient of the sum. -/
theorem add_ceilDiv_le (hn : 0 < n) : (a + b) ⌈/⌉ n ≤ a ⌈/⌉ n + b ⌈/⌉ n := by
  have ha : a ≤ n * (a ⌈/⌉ n) := (ceilDiv_le_iff_le_mul hn).mp le_rfl
  have hb : b ≤ n * (b ⌈/⌉ n) := (ceilDiv_le_iff_le_mul hn).mp le_rfl
  rw [ceilDiv_le_iff_le_mul hn, Nat.mul_add]
  exact Nat.add_le_add ha hb

/-- If one of two quotients is rounded down, they are together at most the rounded quotient of the
sum. -/
theorem ceilDiv_add_div_le (hn : 0 < n) : a ⌈/⌉ n + b / n ≤ (a + b) ⌈/⌉ n := by
  have hsum : a + b ≤ n * ((a + b) ⌈/⌉ n) := (ceilDiv_le_iff_le_mul hn).mp le_rfl
  have hb : n * (b / n) ≤ b := Nat.mul_div_le b n
  have hle : b / n ≤ (a + b) ⌈/⌉ n := by
    refine Nat.le_of_mul_le_mul_left ?_ hn
    omega
  have ha : a ⌈/⌉ n ≤ (a + b) ⌈/⌉ n - b / n := by
    rw [ceilDiv_le_iff_le_mul hn, Nat.mul_sub]
    omega
  omega

/-- The numbers for which a quotient is rounded down to `i` lie between two quotients that are
rounded up. -/
theorem mul_div_eq_iff (hn : 0 < n) (hc : 0 < c) :
    k * n / c = i ↔ i * c ⌈/⌉ n ≤ k ∧ k < (i + 1) * c ⌈/⌉ n := by
  have hlower : i ≤ k * n / c ↔ i * c ≤ k * n := Nat.le_div_iff_mul_le hc
  have hupper : k * n / c < i + 1 ↔ k * n < (i + 1) * c := Nat.div_lt_iff_lt_mul hc
  rw [← Nat.not_le, ceilDiv_le_iff_le_mul hn, ceilDiv_le_iff_le_mul hn, Nat.mul_comm n]
  omega

end

/-! ### Dealing -/

/-- A list deals `c` wires to the members at the first `n` positions: one after the other in the
order of the positions, leaving nobody out, and to all of them the same number of wires as far as
this is possible. -/
structure SharesOut (c n : ℕ) (is : List ℕ) : Prop where
  length : is.length = c
  bounds : ∀ i ∈ is, i < n
  ascending : is.Pairwise (· ≤ ·)
  served : ∀ i < n, i ∈ is
  at_least : ∀ i < n, c / n ≤ is.count i
  at_most : ∀ i < n, is.count i ≤ c ⌈/⌉ n
  even : ∀ i < n, ∀ j < n, is.count i ≤ is.count j + 1

/-- The positions that wires are dealt to, wire by wire. -/
def dealt (c n : ℕ) : List ℕ := (List.range c).map fun k => k * n / c

section

variable {c i n : ℕ}

/-- How many wires are dealt to a member. -/
theorem count_dealt (hc : 0 < c) (hi : i < n) :
    (dealt c n).count i = (i + 1) * c ⌈/⌉ n - i * c ⌈/⌉ n := by
  have hn : 0 < n := Nat.zero_lt_of_lt hi
  have hlast : (i + 1) * c ⌈/⌉ n ≤ c := by
    rw [ceilDiv_le_iff_le_mul hn]
    exact Nat.mul_le_mul_right c hi
  set wires := (List.range c).filter fun k => k * n / c = i
  have hwires : wires.toFinset = Finset.Ico (i * c ⌈/⌉ n) ((i + 1) * c ⌈/⌉ n) := by
    ext k
    simp only [wires, List.mem_toFinset, List.mem_filter, List.mem_range, decide_eq_true_eq,
      Finset.mem_Ico, mul_div_eq_iff hn hc]
    omega
  calc (dealt c n).count i
      = wires.length := by
        rw [List.count_eq_countP, dealt, List.countP_map, List.countP_eq_length_filter]
        rfl
    _ = wires.toFinset.card := (List.toFinset_card_of_nodup (List.nodup_range.filter _)).symm
    _ = (i + 1) * c ⌈/⌉ n - i * c ⌈/⌉ n := by rw [hwires, Nat.card_Ico]

theorem div_le_count_dealt (hc : 0 < c) (hi : i < n) : c / n ≤ (dealt c n).count i := by
  have hgap : i * c ⌈/⌉ n + c / n ≤ (i * c + c) ⌈/⌉ n := ceilDiv_add_div_le (Nat.zero_lt_of_lt hi)
  rw [count_dealt hc hi, Nat.succ_mul]
  omega

theorem count_dealt_le (hc : 0 < c) (hi : i < n) : (dealt c n).count i ≤ c ⌈/⌉ n := by
  have hgap : (i * c + c) ⌈/⌉ n ≤ i * c ⌈/⌉ n + c ⌈/⌉ n := add_ceilDiv_le (Nat.zero_lt_of_lt hi)
  rw [count_dealt hc hi, Nat.succ_mul]
  omega

/-- Wires are dealt evenly if there are enough of them for all members. -/
theorem sharesOut_dealt (hn : 0 < n) (hnc : n ≤ c) : SharesOut c n (dealt c n) := by
  have hc : 0 < c := hn.trans_le hnc
  constructor
  · rw [dealt, List.length_map, List.length_range]
  · intro i hi
    obtain ⟨k, hk, rfl⟩ := List.mem_map.mp hi
    rw [Nat.div_lt_iff_lt_mul hc, Nat.mul_comm n]
    exact Nat.mul_lt_mul_of_pos_right (List.mem_range.mp hk) hn
  · refine List.pairwise_map.mpr (List.pairwise_lt_range.imp fun hlt => ?_)
    exact Nat.div_le_div_right (Nat.mul_le_mul_right n hlt.le)
  · intro i hi
    have hshare : 1 ≤ c / n := Nat.div_pos hnc hn
    exact List.count_pos_iff.mp (hshare.trans (div_le_count_dealt hc hi))
  · exact fun i hi => div_le_count_dealt hc hi
  · exact fun i hi => count_dealt_le hc hi
  · intro i hi j hj
    -- a quotient that is rounded up exceeds the one that is rounded down by one at most
    have hround : c ⌈/⌉ n ≤ c / n + 1 := by
      rw [ceilDiv_le_iff_le_mul hn]
      exact (Nat.lt_mul_div_succ c hn).le
    have hupper := count_dealt_le hc hi
    have hlower := div_le_count_dealt hc hj
    omega

end

/-! ### Pointwise patterns -/

namespace Pattern

variable {sources targets : ℕ}

/-- The sources of a pointwise pattern are dealt the wires. -/
theorem sharesOut_sources (hsources : 0 < sources) (htargets : 0 < targets) :
    SharesOut (max sources targets) sources ((pointwise.pairs sources targets).map Prod.fst) := by
  have hempty : ¬ (sources = 0 ∨ targets = 0) := by omega
  unfold pairs
  rw [if_neg hempty, List.map_map]
  exact sharesOut_dealt hsources (Nat.le_max_left sources targets)

/-- The targets of a pointwise pattern are dealt the wires. -/
theorem sharesOut_targets (hsources : 0 < sources) (htargets : 0 < targets) :
    SharesOut (max sources targets) targets ((pointwise.pairs sources targets).map Prod.snd) := by
  have hempty : ¬ (sources = 0 ∨ targets = 0) := by omega
  unfold pairs
  rw [if_neg hempty, List.map_map]
  exact sharesOut_dealt htargets (Nat.le_max_right sources targets)

theorem length_pairs_pointwise (hsources : 0 < sources) (htargets : 0 < targets) :
    (pointwise.pairs sources targets).length = max sources targets := by
  rw [← List.length_map Prod.fst]
  exact (sharesOut_sources hsources htargets).length

/-- **A pointwise pattern shares out its wires evenly.**  Between two groups with members it makes
as many wires as the larger one has members, no two of them between the same members, and deals them
to the sources and to the targets in order and evenly, so that nobody is left out. -/
theorem pointwise_sharesOut (hsources : 0 < sources) (htargets : 0 < targets) :
    (pointwise.pairs sources targets).length = max sources targets ∧
      (pointwise.pairs sources targets).Nodup ∧
      SharesOut (max sources targets) sources
        ((pointwise.pairs sources targets).map Prod.fst) ∧
      SharesOut (max sources targets) targets
        ((pointwise.pairs sources targets).map Prod.snd) :=
  ⟨length_pairs_pointwise hsources htargets, pointwise.nodup_pairs sources targets,
    sharesOut_sources hsources htargets, sharesOut_targets hsources htargets⟩

/-- Three sources and seven targets: the first source gets a wire more than the others. -/
theorem pointwise_sharesOut_three_seven :
    0 < 3 ∧ 0 < 7 ∧ ((pointwise.pairs 3 7).map Prod.fst).count 0 = 3 ∧
      ((pointwise.pairs 3 7).map Prod.fst).count 2 = 2 ∧
      (pointwise.pairs 3 7).length = 7 ∧ (pointwise.pairs 3 7).Nodup ∧
      SharesOut 7 3 ((pointwise.pairs 3 7).map Prod.fst) ∧
      SharesOut 7 7 ((pointwise.pairs 3 7).map Prod.snd) :=
  ⟨by decide, by decide, by decide, by decide,
    pointwise_sharesOut (show 0 < 3 by decide) (show 0 < 7 by decide)⟩

end Pattern

end LatencyControl
