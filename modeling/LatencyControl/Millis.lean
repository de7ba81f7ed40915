/-!
# Clock readings

Times and the differences between them are whole milliseconds.  What keeps times is written for any
type of `Millis`, so that one definition serves two purposes: over `Int64` it is what runs on a
clock of 64 bits, and over `Int` it says what is meant.

Not every time is one that a clock of 64 bits can read.  The laws say that a calculation comes out
as in the integers as long as the outcome fits; what it comes to otherwise is left open, and
whoever runs it has to ask first (`Millis.sumFits`, `Millis.differenceFits`).
-/

namespace LatencyControl

/-- Readings of a clock, in milliseconds. -/
class Millis (τ : Type) where
  add : τ → τ → τ
  sub : τ → τ → τ
  atMost : τ → τ → Bool
  ofInt : Int → τ
  toInt : τ → Int
  toFloat : τ → Float
  /-- Whether the clock can read a number of milliseconds. -/
  fits : Int → Bool
  fits_toInt : ∀ a, fits (toInt a) = true
  fits_int32 : ∀ n : Int32, fits n.toInt = true
  toInt_ofInt : ∀ n, fits n = true → toInt (ofInt n) = n
  toInt_add : ∀ a b, fits (toInt a + toInt b) = true → toInt (add a b) = toInt a + toInt b
  toInt_sub : ∀ a b, fits (toInt a - toInt b) = true → toInt (sub a b) = toInt a - toInt b
  atMost_iff : ∀ a b, atMost a b = true ↔ toInt a ≤ toInt b

instance : Millis Int64 where
  add := (· + ·)
  sub := (· - ·)
  atMost a b := decide (a ≤ b)
  ofInt := Int64.ofInt
  toInt := Int64.toInt
  toFloat := Int64.toFloat
  fits n := decide (Int64.minValue.toInt ≤ n ∧ n ≤ Int64.maxValue.toInt)
  fits_toInt a := decide_eq_true ⟨a.minValue_le_toInt, a.toInt_le⟩
  fits_int32 n := by
    have hlow := n.le_toInt
    have hhigh := n.toInt_lt
    rw [Int64.toInt_minValue, Int64.toInt_maxValue]
    exact decide_eq_true (by omega)
  toInt_ofInt n h := by
    obtain ⟨hlow, hhigh⟩ := of_decide_eq_true h
    rw [Int64.toInt_minValue] at hlow
    rw [Int64.toInt_maxValue] at hhigh
    exact Int64.toInt_ofInt_of_le hlow (by omega)
  toInt_add a b h := by
    obtain ⟨hlow, hhigh⟩ := of_decide_eq_true h
    rw [Int64.toInt_minValue] at hlow
    rw [Int64.toInt_maxValue] at hhigh
    rw [Int64.toInt_add]
    exact Int.bmod_eq_of_le (by omega) (by omega)
  toInt_sub a b h := by
    obtain ⟨hlow, hhigh⟩ := of_decide_eq_true h
    rw [Int64.toInt_minValue] at hlow
    rw [Int64.toInt_maxValue] at hhigh
    rw [Int64.toInt_sub]
    exact Int.bmod_eq_of_le (by omega) (by omega)
  atMost_iff a b := by rw [decide_eq_true_iff, Int64.le_iff_toInt_le]

instance : Millis Int where
  add := (· + ·)
  sub := (· - ·)
  atMost a b := decide (a ≤ b)
  ofInt := id
  toInt := id
  toFloat := Float.ofInt
  fits _ := true
  fits_toInt _ := rfl
  fits_int32 _ := rfl
  toInt_ofInt _ _ := rfl
  toInt_add _ _ _ := rfl
  toInt_sub _ _ _ := rfl
  atMost_iff _ _ := decide_eq_true_iff

namespace Millis

variable {τ : Type} [Millis τ]

/-- Whether the clock can read the sum of two times. -/
def sumFits (a b : τ) : Bool := fits τ (toInt a + toInt b)

/-- Whether the clock can read the difference of two times. -/
def differenceFits (a b : τ) : Bool := fits τ (toInt a - toInt b)

end Millis

end LatencyControl
