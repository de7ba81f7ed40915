import Mathlib.Data.Int.Notation
import LatencyControl.Proofs.Report.Spacing

/-!
# Runs that may end

A scheduler calculates with readings of a clock of 64 bits, and where something overflows the
program ends.  `Scheduler.run?` is a run that ends there.  As long as nothing overflows, it is the
run of which everything else here speaks (`Scheduler.run?_eq_some_iff`).
-/

namespace LatencyControl

/-! ### Sums of readings -/

namespace Millis

variable {a b : Int64}

theorem fits_int64_iff {n : ℤ} :
    fits Int64 n = true ↔ -2 ^ 63 ≤ n ∧ n ≤ Int64.maxValue.toInt := by
  rw [← Int64.toInt_minValue]
  exact decide_eq_true_iff

/-- The clock can read the sum of two times that are not before zero unless it is too late. -/
theorem sumFits_iff (ha : 0 ≤ a) (hb : 0 ≤ b) :
    sumFits a b = true ↔ a.toInt + b.toInt ≤ Int64.maxValue.toInt := by
  rw [Int64.le_iff_toInt_le, Int64.toInt_zero] at ha hb
  show fits Int64 (a.toInt + b.toInt) = true ↔ _
  rw [fits_int64_iff]
  omega

/-- The clock can read the difference of two times that are not before zero. -/
theorem differenceFits_of_nonneg (ha : 0 ≤ a) (hb : 0 ≤ b) : differenceFits a b = true := by
  rw [Int64.le_iff_toInt_le, Int64.toInt_zero] at ha hb
  have hfirst := Int64.toInt_lt b
  have hlast := Int64.toInt_le a
  show fits Int64 (a.toInt - b.toInt) = true
  rw [fits_int64_iff]
  omega

end Millis

/-! ### Runs that may end -/

namespace Scheduler

variable {τ : Type} [Millis τ]

/-- Something overflows at the call. -/
def overflowsOn (s : Scheduler τ) : Call τ → Bool
  | .register .. => false
  | .event clock e => s.overflowsAt clock e

/-- The scheduler after a call, and the reports that the call brings about, unless something
overflows. -/
def step? (s : Scheduler τ) : Call τ → Option (Scheduler τ × List (Report τ))
  | .register now input output id => some (s.step (.register now input output id))
  | .event clock e => s.hear? clock e

/-- The scheduler after some calls, and the reports that they bring about, unless something
overflows. -/
def run? (s : Scheduler τ) : List (Call τ) → Option (Scheduler τ × List (Report τ))
  | [] => some (s, [])
  | call :: rest => do
    let (s, reports) ← s.step? call
    let (s, later) ← s.run? rest
    return (s, reports ++ later)

/-- Several events at the same time are such a run. -/
theorem run?_events (s : Scheduler τ) (now : τ) (es : List GateEvent) :
    s.run? (es.map (.event fun _ => { counting := now, checking := now })) =
      s.observeAll? now es := by
  induction es generalizing s with
  | nil => rfl
  | cons e rest ih =>
    rw [List.map_cons, run?, observeAll?]
    show (s.hear? _ e).bind _ = (s.hear? _ e).bind _
    refine Option.bind_congr fun answer _ => ?_
    show (answer.1.run? _).bind _ = (answer.1.observeAll? now rest).bind _
    rw [ih]

theorem step?_eq (s : Scheduler τ) (call : Call τ) :
    s.step? call = if s.overflowsOn call then none else some (s.step call) := by
  cases call with
  | register now input output id => rfl
  | event clock e => rfl

theorem hear?_eq_none_iff {s : Scheduler τ} {clock : ReporterId → Readings τ} {e : GateEvent} :
    s.hear? clock e = none ↔ s.overflowsAt clock e = true := by
  unfold hear?
  split_ifs with hoverflows <;> simp [hoverflows]

/-- Nothing overflows at any of the calls. -/
def GetsThrough (s : Scheduler τ) : List (Call τ) → Prop
  | [] => True
  | call :: rest => s.overflowsOn call = false ∧ (s.step call).1.GetsThrough rest

theorem run?_eq_some (s : Scheduler τ) {calls : List (Call τ)} (h : s.GetsThrough calls) :
    s.run? calls = some (s.after calls, s.reports calls) := by
  induction calls generalizing s with
  | nil => rfl
  | cons call rest ih =>
    obtain ⟨hfits, hrest⟩ := h
    rw [run?, step?_eq, if_neg (Bool.eq_false_iff.mp hfits)]
    show ((s.step call).1.run? rest).bind _ = _
    rw [ih _ hrest]
    rfl

theorem run?_eq_none (s : Scheduler τ) {calls : List (Call τ)} (h : ¬ s.GetsThrough calls) :
    s.run? calls = none := by
  induction calls generalizing s with
  | nil => exact absurd trivial h
  | cons call rest ih =>
    rw [run?, step?_eq]
    by_cases hoverflows : s.overflowsOn call = true
    · rw [if_pos hoverflows]
      rfl
    · have hrest : ¬ (s.step call).1.GetsThrough rest := fun hrest =>
        h ⟨Bool.eq_false_iff.mpr hoverflows, hrest⟩
      rw [if_neg hoverflows]
      show ((s.step call).1.run? rest).bind _ = none
      rw [ih _ hrest]
      rfl

/-- **What a run comes to.**  If it gets through, it is as if nothing could overflow. -/
theorem run?_eq_some_iff {s s' : Scheduler τ} {calls : List (Call τ)} {reports : List (Report τ)} :
    s.run? calls = some (s', reports) ↔
      s.GetsThrough calls ∧ s' = s.after calls ∧ reports = s.reports calls := by
  by_cases h : s.GetsThrough calls
  · rw [s.run?_eq_some h, Option.some_inj, Prod.mk.injEq]
    constructor
    · rintro ⟨rfl, rfl⟩
      exact ⟨h, rfl, rfl⟩
    · rintro ⟨-, rfl, rfl⟩
      exact ⟨rfl, rfl⟩
  · rw [s.run?_eq_none h]
    simp [h]

end Scheduler

end LatencyControl
