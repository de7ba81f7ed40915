import Mathlib
import LatencyControl.Millis

/-!
# Milliseconds as seconds

Rates are per second, and so they are divided by a number of milliseconds over a thousand, in
floating point.  If the number of milliseconds is positive, then so is that divisor
(`Millis.seconds_pos`): neither is it rounded to zero, nor does it overflow to what is no number.

A number of 64 bits is followed through its operations by the least power of two that it is known to
reach (`Binary64.Reaches`).  Rounding loses nothing of that, and neither does storing the number,
even where it becomes infinite.
-/

namespace LatencyControl

namespace Binary64

open Float.Model

/-- A positive number that is at least the given power of two, or positive infinity. -/
def Reaches (k : ℤ) : UnpackedFloat → Prop
  | .infinity s => s = .positive
  | .finite s m e _ => s = .positive ∧ k ≤ m.log2 + e
  | _ => False

theorem Reaches.mono {k l : ℤ} {x : UnpackedFloat} (h : Reaches k x) (hle : l ≤ k) :
    Reaches l x := by
  cases x with
  | infinity s => exact h
  | finite s m e hm => exact ⟨h.1, hle.trans h.2⟩
  | zero s => exact h
  | notANumber => exact h

theorem log2_shiftLeft {m : ℕ} (hm : 0 < m) (k : ℕ) : (m <<< k).log2 = m.log2 + k := by
  have hlower := Nat.log2_self_le (n := m) (by omega)
  have hupper : m < 2 ^ (m.log2 + 1) := Nat.lt_log2_self
  rw [Nat.shiftLeft_eq, Nat.log2_eq_iff (by positivity), Nat.add_right_comm, Nat.pow_add,
    Nat.pow_add 2 _ k]
  exact ⟨Nat.mul_le_mul_right _ hlower, Nat.mul_lt_mul_of_pos_right hupper (Nat.two_pow_pos k)⟩

theorem log2_eq_of_bounds {m : ℕ} (hlower : 2 ^ 52 ≤ m) (hupper : m < 2 ^ 53) : m.log2 = 52 := by
  rw [Nat.log2_eq_iff (by omega)]
  exact ⟨hlower, hupper⟩

/-! ### Rounding -/

theorem mantissa_shiftRight (em : UnpackedFloat.ExtendedMantissa) (n : ℕ) :
    (em >>> n).mantissa = em.mantissa / 2 ^ n := by
  show (n.repeat UnpackedFloat.ExtendedMantissa.shiftRightOne em).mantissa = _
  induction n with
  | zero => exact (Nat.div_one _).symm
  | succ n ih =>
    rw [Nat.repeat, UnpackedFloat.ExtendedMantissa.shiftRightOne, ih, Nat.div_div_eq_div_mul,
      Nat.pow_succ]

theorem mantissa_ofMantissaAndAccuracy (m : ℕ) (a : UnpackedFloat.Accuracy) :
    (UnpackedFloat.ExtendedMantissa.ofMantissaAndAccuracy m a).mantissa = m := by
  rcases a with _ | (_ | _ | _) <;> rfl

theorem roundedMantissa_bounds (em : UnpackedFloat.ExtendedMantissa) :
    em.mantissa ≤ em.roundedMantissa ∧ em.roundedMantissa ≤ em.mantissa + 1 := by
  unfold UnpackedFloat.ExtendedMantissa.roundedMantissa
  generalize em.accuracy = a
  rcases a with _ | (_ | _ | _) <;>
    simp only [UnpackedFloat.Accuracy.roundToNearestEven] <;> omega

theorem targetExponent_of_le {x : ℤ} (h : -1021 ≤ x) :
    Format.binary64.targetExponent x = x - 53 := by
  simp only [Format.targetExponent, Format.mantissaBits, Format.minExponent]
  omega

/-- Shifting a mantissa of at least 53 bits to its target exponent leaves 53 bits. -/
theorem shiftToTargetExponent_bounds {m : ℕ} {e : ℤ} (hm : 52 ≤ m.log2)
    (he : -1022 ≤ m.log2 + e) (a : UnpackedFloat.Accuracy) :
    let shifted := UnpackedFloat.shiftToTargetExponent Format.binary64 m e a
    2 ^ 52 ≤ shifted.1.mantissa ∧ shifted.1.mantissa < 2 ^ 53 ∧
      shifted.2 = m.log2 + e - 52 := by
  intro shifted
  have htarget : Format.binary64.targetExponent (totalExponent m e) = m.log2 + e - 52 := by
    rw [targetExponent_of_le (by unfold totalExponent; omega), totalExponent]
    omega
  have hshift : (m.log2 + e - 52 - e).toNat = m.log2 - 52 := by omega
  have hm0 : m ≠ 0 := by
    rintro rfl
    simp at hm
  have hpow : 2 ^ m.log2 = 2 ^ 52 * 2 ^ (m.log2 - 52) := by
    rw [← Nat.pow_add, Nat.add_sub_cancel' hm]
  have hshifted : shifted = (UnpackedFloat.ExtendedMantissa.ofMantissaAndAccuracy m a
      >>> (m.log2 - 52), e + (m.log2 - 52 : ℕ)) := by
    simp only [shifted, UnpackedFloat.shiftToTargetExponent, UnpackedFloat.shiftToExponent,
      htarget, hshift]
  rw [hshifted, mantissa_shiftRight, mantissa_ofMantissaAndAccuracy]
  refine ⟨?_, ?_, ?_⟩
  · rw [Nat.le_div_iff_mul_le (Nat.two_pow_pos _), ← hpow]
    exact Nat.log2_self_le hm0
  · rw [Nat.div_lt_iff_lt_mul (Nat.two_pow_pos _)]
    have hlt : m < 2 ^ (m.log2 + 1) := Nat.lt_log2_self
    rw [Nat.pow_succ, hpow] at hlt
    omega
  · simp only
    omega

/-- Rounding gives a mantissa of 53 bits, and a number that reaches as far. -/
theorem roundWithAccuracy_eq_finite {m : ℕ} {e : ℤ} (hm : 52 ≤ m.log2)
    (he : -1022 ≤ m.log2 + e) (a : UnpackedFloat.Accuracy) :
    ∃ (m' : ℕ) (e' : ℤ) (h : 0 < m'),
      UnpackedFloat.roundWithAccuracy Format.binary64 .positive m e a = .finite .positive m' e' h ∧
        m'.log2 = 52 ∧ m.log2 + e ≤ 52 + e' := by
  obtain ⟨hlower, hupper, hexponent⟩ := shiftToTargetExponent_bounds hm he a
  unfold UnpackedFloat.roundWithAccuracy
  generalize UnpackedFloat.shiftToTargetExponent Format.binary64 m e a = first at *
  obtain ⟨em, e₁⟩ := first
  obtain ⟨hmin, hmax⟩ := roundedMantissa_bounds em
  simp only at hlower hupper hexponent ⊢
  -- rounding up may have given one bit too many, so there is a second shift
  have hlog : 52 ≤ em.roundedMantissa.log2 := (Nat.le_log2 (by omega)).mpr (by omega)
  obtain ⟨hlower', hupper', hexponent'⟩ :=
    shiftToTargetExponent_bounds (e := e₁) hlog (by omega) .exact
  generalize UnpackedFloat.shiftToTargetExponent Format.binary64 em.roundedMantissa e₁ .exact
    = second at *
  obtain ⟨em', e₂⟩ := second
  simp only at hlower' hupper' hexponent' ⊢
  rw [dif_neg (by omega)]
  exact ⟨em'.mantissa, e₂, by omega, rfl, log2_eq_of_bounds hlower' hupper', by omega⟩

/-! ### Storing -/

theorem toNat_one_append (v : BitVec 52) : (1#1 ++ v).toNat = 2 ^ 52 + v.toNat := by
  rw [BitVec.toNat_append, ← Nat.shiftLeft_add_eq_or_of_lt v.isLt]
  rfl

theorem reaches_pack_infinity (k : ℤ) : Reaches k (pack (.infinity .positive)).unpack := by
  have hinfinity : (pack (.infinity .positive)).unpack = .infinity .positive := by rfl
  rw [hinfinity]
  rfl

/-- A number of 53 bits reaches as far once it is stored; it may have become infinite. -/
theorem reaches_unpack_pack {m : ℕ} {e : ℤ} (hpos : 0 < m) (hm : m.log2 = 52) (he : -1074 ≤ e) :
    Reaches (52 + e) (pack (.finite .positive m e hpos)).unpack := by
  have hbits : (pack (.finite .positive m e hpos)).unpack = UnpackedFloat.unpack Format.binary64
      (UnpackedFloat.pack Format.binary64 (.finite .positive m e hpos)) := rfl
  rw [hbits, UnpackedFloat.pack]
  simp only [hm, Format.exponentBias, Format.mantissaBits]
  split_ifs with hover
  · exact reaches_pack_infinity _
  · set biased := (e + (2 ^ (11 - 1) - 1 : ℕ) + (52 : ℕ)).toNat with hbiased
    have hexponent : (BitVec.ofNat 11 biased).toNat = biased := by
      rw [BitVec.toNat_ofNat, Nat.mod_eq_of_lt (by omega)]
    have hones : BitVec.ofNat 11 biased ≠ -1#11 := by
      have hnat : (-1#11).toNat = 2047 := by decide
      rw [ne_eq, BitVec.toNat_eq, hexponent]
      omega
    have hzero : BitVec.ofNat 11 biased ≠ 0#11 := by
      have hnat : (0#11).toNat = 0 := by decide
      rw [ne_eq, BitVec.toNat_eq, hexponent]
      omega
    have hlog : (2 ^ 52 + (BitVec.ofNat 52 m).toNat).log2 = 52 :=
      log2_eq_of_bounds (Nat.le_add_right _ _) (by have := (BitVec.ofNat 52 m).isLt; omega)
    unfold UnpackedFloat.unpack
    simp only [UnpackedFloat.unpackMantissa_packComponents,
      UnpackedFloat.unpackExponent_packComponents, UnpackedFloat.unpackSign_packComponents,
      hones, hzero, if_false, Reaches, toNat_one_append, hlog, hexponent]
    refine ⟨rfl, ?_⟩
    simp only [Format.exponentBias]
    omega

/-- What is rounded and stored reaches as far as before. -/
theorem reaches_pack_round {m : ℕ} {e : ℤ} (hm : 52 ≤ m.log2) (he : -1022 ≤ m.log2 + e)
    (a : UnpackedFloat.Accuracy) :
    Reaches (m.log2 + e)
      (pack (UnpackedFloat.roundWithAccuracy Format.binary64 .positive m e a)).unpack := by
  obtain ⟨m', e', hpos, hround, hlog, hle⟩ := roundWithAccuracy_eq_finite hm he a
  rw [hround]
  exact (reaches_unpack_pack hpos hlog (by omega)).mono hle

/-! ### Operations -/

theorem unpack_one :
    (1.0 : Float).toModel.unpack = .finite .positive (2 ^ 52) (-52) (by decide) := by
  rfl

theorem unpack_thousand :
    (1000 : Float).toModel.unpack = .finite .positive (1000 * 2 ^ 43) (-43) (by decide) := by
  rfl

/-- A product reaches as far as its factors do together. -/
theorem reaches_mul_finite {m m' : ℕ} {e e' : ℤ} (hpos : 0 < m) (hpos' : 0 < m')
    (hm : 52 ≤ m.log2 + m'.log2) {k : ℤ} (hk : -1022 ≤ k)
    (hle : k ≤ m.log2 + e + (m'.log2 + e')) :
    Reaches k (pack (UnpackedFloat.mul Format.binary64 (.finite .positive m e hpos)
      (.finite .positive m' e' hpos'))).unpack := by
  have hlog : m.log2 + m'.log2 ≤ (m * m').log2 := by
    rw [Nat.le_log2 (by positivity), Nat.pow_add]
    exact Nat.mul_le_mul (Nat.log2_self_le (by omega)) (Nat.log2_self_le (by omega))
  exact (reaches_pack_round (by omega) (by omega) .exact).mono (by omega)

theorem reaches_mul_one {k : ℤ} {x : UnpackedFloat} (hx : Reaches k x) (hk : -1022 ≤ k) :
    Reaches k (pack (UnpackedFloat.mul Format.binary64 x (1.0 : Float).toModel.unpack)).unpack := by
  rw [unpack_one]
  cases x with
  | infinity s =>
    obtain rfl : s = .positive := hx
    exact reaches_pack_infinity k
  | finite s m e hpos =>
    obtain ⟨rfl, hle⟩ := hx
    have hone : (2 ^ 52).log2 = 52 := by decide +kernel
    exact reaches_mul_finite hpos (by decide) (by omega) hk (by omega)
  | zero s => exact hx.elim
  | notANumber => exact hx.elim

/-- Dividing by a thousand takes away a factor of at most two to the tenth. -/
theorem reaches_div_thousand {x : UnpackedFloat} (hx : Reaches 0 x) :
    Reaches (-10)
      (pack (UnpackedFloat.div Format.binary64 x (1000 : Float).toModel.unpack)).unpack := by
  rw [unpack_thousand]
  cases x with
  | infinity s =>
    obtain rfl : s = .positive := hx
    exact reaches_pack_infinity (-10)
  | finite s m e hpos =>
    obtain ⟨rfl, hle⟩ := hx
    have hthousand : (1000 * 2 ^ 43).log2 = 52 := by decide +kernel
    have htarget : Format.binary64.targetExponent
        (totalExponent m e - totalExponent (1000 * 2 ^ 43) (-43)) = m.log2 + e - 62 := by
      rw [targetExponent_of_le (by unfold totalExponent; omega), totalExponent, totalExponent]
      omega
    rw [UnpackedFloat.div, UnpackedFloat.divCore, htarget]
    simp only
    generalize hs : (e - -43 - min (e - -43) (m.log2 + e - 62)).toNat = shift
    have hshift : 105 ≤ m.log2 + shift := by omega
    have hmin : min (e - -43) (m.log2 + e - 62) = e + 43 - shift := by omega
    have hlog := log2_shiftLeft hpos shift
    -- the shift leaves the quotient with 53 bits at least
    have hquotient : 2 ^ (m.log2 + shift - 53) ≤ m <<< shift / (1000 * 2 ^ 43) := by
      rw [Nat.le_div_iff_mul_le (by decide)]
      calc 2 ^ (m.log2 + shift - 53) * (1000 * 2 ^ 43)
          ≤ 2 ^ (m.log2 + shift - 53) * 2 ^ 53 := Nat.mul_le_mul_left _ (by decide)
        _ = 2 ^ (m <<< shift).log2 := by rw [← Nat.pow_add, hlog, Nat.sub_add_cancel (by omega)]
        _ ≤ m <<< shift := Nat.log2_self_le (by rw [Nat.shiftLeft_eq]; positivity)
    have hbits := (Nat.le_log2 ((Nat.two_pow_pos _).trans_le hquotient).ne').mpr hquotient
    exact (reaches_pack_round (by omega) (by omega) _).mono (by omega)
  | zero s => exact hx.elim
  | notANumber => exact hx.elim

/-! ### Whole numbers -/

theorem reaches_ofNat {n : ℕ} (hn : 0 < n) : Reaches 0 (Float.Model.ofNat n).unpack := by
  have hround : Float.Model.ofNat n = pack (UnpackedFloat.round Format.binary64 .positive n 0) := by
    have hgt : compare (n : ℤ) 0 = .gt := Int.compare_eq_gt.mpr (by omega)
    rw [Float.Model.ofNat, UnpackedFloat.ofNat, UnpackedFloat.ofInt, UnpackedFloat.normalize, hgt]
    rfl
  have hlog := log2_shiftLeft hn (52 - n.log2)
  have hshift : (0 - (↑n.log2 + 1 + 0 - 53 : ℤ)).toNat = 52 - n.log2 := by omega
  rw [hround, UnpackedFloat.round, UnpackedFloat.decreaseExponent, totalExponent,
    targetExponent_of_le (by omega)]
  simp only [hshift]
  exact (reaches_pack_round (by omega) (by omega) .exact).mono (by omega)

/-- A positive whole number reaches one: a small one is converted as a machine word, and a large one
is read as a decimal numeral. -/
theorem reaches_toFloat {n : ℕ} (hn : 0 < n) : Reaches 0 (Float.ofNat n).toModel.unpack := by
  have hdef : Float.ofNat n = Float.ofScientific n false 0 := rfl
  rw [hdef, Float.ofScientific]
  simp only [Bool.false_eq_true, if_false]
  split_ifs with hsmall
  · have hmul : (n.toUInt64.toFloat * Float.exactlyRepresentablePowersOfTen[0]).toModel
        = pack (UnpackedFloat.mul Format.binary64 (Float.Model.ofNat n.toUInt64.toNat).unpack
            (1.0 : Float).toModel.unpack) := rfl
    have hsize : UInt64.size = 2 ^ 64 := rfl
    have hsame : n.toUInt64.toNat = n := UInt64.toNat_ofNat_of_lt' (by omega)
    rw [hmul, hsame]
    exact reaches_mul_one (reaches_ofNat hn) (by decide)
  · have hlog := log2_shiftLeft hn Format.binary64.mantissaBits
    have hbits : Format.binary64.mantissaBits = 53 := rfl
    show Reaches 0 (Float.Model.ofScientific n (Int.ofNat 0)).unpack
    rw [Float.Model.ofScientific, UnpackedFloat.ofScientific, dif_neg hn.ne', if_neg (by simp),
      if_neg (by simp only [Int.ofNat_eq_natCast]; omega), if_pos (by simp)]
    have hone : (10 ^ (Int.ofNat 0).toNat).log2 = 0 := by decide
    refine reaches_mul_finite _ _ (by omega) (by decide) ?_
    rw [hlog, hone]
    omega

/-- What reaches anywhere is greater than zero. -/
theorem Reaches.pos {k : ℤ} {x : Float} (h : Reaches k x.toModel.unpack) : 0 < x := by
  have hzero : (0 : Float).toModel.unpack = .zero .positive := by rfl
  refine decide_eq_true (?_ : UnpackedFloat.lt (0 : Float).toModel.unpack x.toModel.unpack = true)
  rw [hzero]
  generalize x.toModel.unpack = y at *
  cases y with
  | infinity s =>
    obtain rfl : s = .positive := h
    rfl
  | finite s m e hpos =>
    obtain ⟨rfl, -⟩ := h
    rfl
  | zero s => exact h.elim
  | notANumber => exact h.elim

end Binary64

/-- **No time is rounded to none.**  If some milliseconds have passed, then the seconds that have
passed are a positive number in floating point. -/
theorem Millis.seconds_pos {n : ℤ} (hn : 0 < n) : 0 < Millis.toFloat n / 1000 := by
  obtain ⟨k, rfl⟩ := Int.eq_ofNat_of_zero_le hn.le
  exact (Binary64.reaches_div_thousand (Binary64.reaches_toFloat (by omega))).pos

end LatencyControl
