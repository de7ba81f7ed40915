import Mathlib.Order.Interval.Finset.Nat
import LatencyControl.Flow.Selector

/-!
# Selections of a gate

Whatever a selector selects for a record are different channels that are there.
`Selector.selectAll` is what it selects for several records, one after the other.  A round robin
selector goes round the channels, whatever the records are (`Selector.selectAll_roundRobin`), so
among as many selections as there are channels, without a gap between them, each channel has its
turn (`Selector.perm_of_window`).
-/

namespace LatencyControl.Selector

variable {ρ : Type}

/-! ### One record -/

theorem nodup_select (s : Selector ρ) (record : ρ) (n : ℕ) : (s.select record n).1.Nodup := by
  cases s with
  | roundRobin next =>
    unfold select
    split_ifs
    · exact List.nodup_nil
    · exact List.nodup_singleton _
  | broadcast => exact List.nodup_range
  | byKey key =>
    unfold select
    split_ifs
    · exact List.nodup_nil
    · exact List.nodup_singleton _

theorem lt_of_mem_select {s : Selector ρ} {record : ρ} {n i : ℕ}
    (hi : i ∈ (s.select record n).1) : i < n := by
  cases s with
  | roundRobin next =>
    unfold select at hi
    split_ifs at hi with hn
    · cases hi
    · rw [List.mem_singleton.mp hi]
      exact Nat.mod_lt _ (Nat.pos_of_ne_zero hn)
  | broadcast => exact List.mem_range.mp hi
  | byKey key =>
    unfold select at hi
    split_ifs at hi with hn
    · cases hi
    · rw [List.mem_singleton.mp hi]
      exact Nat.mod_lt _ (Nat.pos_of_ne_zero hn)

/-! ### One record after the other -/

/-- The channels for each of some records, one after the other, and the selector for the next
one. -/
def selectAll (s : Selector ρ) (channels : ℕ) : List ρ → List (List ℕ) × Selector ρ
  | [] => ([], s)
  | record :: rest =>
    let (first, s) := s.select record channels
    let (later, s) := s.selectAll channels rest
    (first :: later, s)

theorem selectAll_concat (s : Selector ρ) (n : ℕ) (records : List ρ) (record : ρ) :
    s.selectAll n (records ++ [record]) =
      ((s.selectAll n records).1 ++ [((s.selectAll n records).2.select record n).1],
        ((s.selectAll n records).2.select record n).2) := by
  induction records generalizing s with
  | nil => rfl
  | cons first rest ih => simp only [List.cons_append, selectAll, ih]

/-- A round robin selector goes on from one channel to the next. -/
theorem selectAll_roundRobin (next : ℕ) {n : ℕ} (hn : 0 < n) (records : List ρ) :
    ((roundRobin next).selectAll n records).1 =
      (List.range' next records.length).map fun k => [k % n] := by
  rw [List.range'_eq_map_range, List.map_map]
  induction records generalizing next with
  | nil => rfl
  | cons record rest ih =>
    have hselect : (roundRobin next).select record n =
        ([next % n], roundRobin ((next % n + 1) % n)) := if_neg hn.ne'
    simp only [selectAll, hselect, ih, List.length_cons, List.range_succ_eq_map, List.map_cons,
      List.map_map]
    congr 1
    refine List.map_congr_left fun k _ => ?_
    simp only [Function.comp_apply, Nat.mod_add_mod, Nat.succ_eq_add_one]
    rw [Nat.add_assoc, Nat.add_comm 1 k]

/-- Of a round robin selector, as many selections in a row as there are channels select each channel
once. -/
theorem perm_of_window {next n : ℕ} (hn : 0 < n) {records : List ρ} {window : List (List ℕ)}
    (hwindow : window <:+: ((roundRobin next).selectAll n records).1)
    (hlength : window.length = n) : window.Perm ((List.range n).map fun i => [i]) := by
  obtain ⟨before, after, hsplit⟩ := hwindow
  rw [selectAll_roundRobin next hn, eq_comm, List.map_eq_append_iff] at hsplit
  obtain ⟨front, back, hturns, hfront, -⟩ := hsplit
  obtain ⟨first, middle, rfl, -, rfl⟩ := List.map_eq_append_iff.mp hfront
  -- consecutive numbers leave all the remainders
  obtain ⟨start, rfl⟩ : ∃ start, middle = List.range' start n := by
    obtain ⟨k, -, hleft, -⟩ := List.range'_eq_append_iff.mp hturns
    obtain ⟨j, -, -, hmiddle⟩ := List.range'_eq_append_iff.mp hleft.symm
    rw [List.length_map, hmiddle, List.length_range'] at hlength
    exact ⟨_, hlength ▸ hmiddle⟩
  have hremainders : ((List.range' start n).map (· % n)).Perm (List.range n) := by
    have hturn := Nat.multiset_Ico_map_mod start n
    rw [Multiset.Ico, Nat.Ico_eq_range', Nat.add_sub_cancel_left] at hturn
    exact Multiset.coe_eq_coe.mp hturn
  have hsingles := hremainders.map fun i => [i]
  rwa [List.map_map] at hsingles

end LatencyControl.Selector
