import Constitutive.Decimal.Binary
import Mathlib

/-!
# The double nearest to a quotient

A double stands for all numbers that are nearer to it than to any other double, and for those in the
middle between two doubles if its mantissa is even.  `nearestDouble` gives it for each of them
(`nearestDouble_of_near`).

## Strategy

All values are rational numbers.  A quotient near a double has the exponent of the double, except
just below a power of two, where it has the next smaller one: there the mantissa is rounded up to
the power of two, and the bits are the same (`bits_eq_of_exponent`).
-/

namespace Constitutive.Decimal

/-! ## Powers and quotients -/

theorem powerRatio_pos {base : ℕ} (hbase : 0 < base) (e : ℤ) :
    0 < (powerRatio base e).1 ∧ 0 < (powerRatio base e).2 := by
  unfold powerRatio
  split
  · exact ⟨Nat.pow_pos hbase, Nat.one_pos⟩
  · exact ⟨Nat.one_pos, Nat.pow_pos hbase⟩

theorem powerRatio_div (base : ℕ) (e : ℤ) :
    ((powerRatio base e).1 : ℚ) / (powerRatio base e).2 = (base : ℚ) ^ e := by
  unfold powerRatio
  split
  · rename_i he
    obtain ⟨k, rfl⟩ := Int.eq_ofNat_of_zero_le he
    simp
  · rename_i he
    obtain ⟨k, hk⟩ := Int.eq_ofNat_of_zero_le (show 0 ≤ -e by omega)
    obtain rfl : e = -k := by omega
    simp

/-- The numbers that are rounded to a natural number. -/
def RoundsTo (q : ℚ) (k : ℕ) : Prop :=
  if k % 2 = 0 then k - 1 / 2 ≤ q ∧ q ≤ k + 1 / 2 else k - 1 / 2 < q ∧ q < k + 1 / 2

theorem RoundsTo.bounds {q : ℚ} {k : ℕ} (h : RoundsTo q k) : k - 1 / 2 ≤ q ∧ q ≤ k + 1 / 2 := by
  unfold RoundsTo at h
  split at h
  · exact h
  · exact ⟨h.1.le, h.2.le⟩

/-- The same in terms of whole numbers.  In the middle between two, the even one is taken. -/
theorem RoundsTo.whole {numerator denominator k : ℕ} (hdenominator : 0 < denominator)
    (h : RoundsTo (numerator / denominator) k) :
    2 * (k * denominator) ≤ 2 * numerator + denominator ∧ 2 * numerator ≤ 2 * (k * denominator) +
      denominator ∧
      (2 * (k * denominator) = 2 * numerator + denominator ∨ 2 * numerator = 2 * (k * denominator) +
        denominator →
        k % 2 = 0) := by
  have hpos : (0 : ℚ) < denominator := Nat.cast_pos.mpr hdenominator
  obtain ⟨hlow, hhigh⟩ := h.bounds
  rw [le_div_iff₀ hpos] at hlow
  rw [div_le_iff₀ hpos] at hhigh
  refine ⟨?_, ?_, fun htie => ?_⟩
  · have hlow : (2 * (k * denominator) : ℚ) ≤ 2 * numerator + denominator := by linarith
    exact_mod_cast hlow
  · have hhigh : (2 * numerator : ℚ) ≤ 2 * (k * denominator) + denominator := by linarith
    exact_mod_cast hhigh
  · by_contra hodd
    rw [RoundsTo, if_neg hodd, lt_div_iff₀ hpos, div_lt_iff₀ hpos] at h
    rcases htie with htie | htie
    · have htie : (2 * (k * denominator) : ℚ) = 2 * numerator + denominator := by
        exact_mod_cast htie
      linarith
    · have htie : (2 * numerator : ℚ) = 2 * (k * denominator) + denominator := by
        exact_mod_cast htie
      linarith

/-- A quotient is rounded to the natural number that it is near to. -/
theorem roundQuotient_eq {numerator denominator k : ℕ} (hdenominator : 0 < denominator)
    (h : RoundsTo (numerator / denominator) k) : roundQuotient numerator denominator = k := by
  obtain ⟨hlow, hhigh, htie⟩ := h.whole hdenominator
  have hdivision := Nat.div_add_mod numerator denominator
  have hrest := Nat.mod_lt numerator hdenominator
  unfold roundQuotient
  dsimp only
  generalize numerator / denominator = whole at hdivision ⊢
  generalize numerator % denominator = rest at hdivision hrest ⊢
  have hwhole : whole ≤ k := by
    by_contra hlt
    have : (k + 1) * denominator ≤ whole * denominator := Nat.mul_le_mul_right _ (by omega)
    nlinarith
  have hnext : k ≤ whole + 1 := by
    by_contra hlt
    have : (whole + 2) * denominator ≤ k * denominator := Nat.mul_le_mul_right _ (by omega)
    nlinarith
  obtain rfl | rfl : k = whole ∨ k = whole + 1 := by omega
  · rw [Nat.mul_comm k denominator] at hlow hhigh htie
    split_ifs
    · rfl
    · omega
    · have := htie (by omega)
      omega
  · rw [Nat.add_one_mul whole, Nat.mul_comm whole denominator] at hlow hhigh htie
    split_ifs
    · omega
    · rfl
    · have := htie (by omega)
      omega

/-- A power of two is compared with a quotient without fractions. -/
theorem powerRatio_le_iff {numerator denominator : ℕ} (hdenominator : 0 < denominator) (e : ℤ) :
    denominator * (powerRatio 2 e).1 ≤ numerator * (powerRatio 2 e).2 ↔ (2 : ℚ) ^ e ≤ numerator /
      denominator := by
  have hpos : (0 : ℚ) < denominator := Nat.cast_pos.mpr hdenominator
  have hdown : (0 : ℚ) < (powerRatio 2 e).2 := Nat.cast_pos.mpr (powerRatio_pos two_pos e).2
  have hratio := powerRatio_div 2 e
  rw [Nat.cast_ofNat] at hratio
  rw [← hratio, div_le_div_iff₀ hdown hpos, mul_comm denominator]
  exact_mod_cast Iff.rfl

/-- The place of the leading bit. -/
theorem binaryPlace_bounds {numerator denominator : ℕ} (hnumerator : 0 < numerator)
    (hdenominator : 0 < denominator) :
    (2 : ℚ) ^ binaryPlace numerator denominator ≤ numerator / denominator ∧
      (numerator / denominator : ℚ) < 2 ^ (binaryPlace numerator denominator + 1) := by
  have hpos : (0 : ℚ) < denominator := Nat.cast_pos.mpr hdenominator
  have htwo : (2 : ℚ) ≠ 0 := two_ne_zero
  have hnumeratorLow : (2 : ℚ) ^ (numerator.log2 : ℤ) ≤ numerator := by
    exact_mod_cast Nat.log2_self_le hnumerator.ne'
  have hnumeratorHigh : (numerator : ℚ) < 2 ^ ((numerator.log2 : ℤ) + 1) := by
    exact_mod_cast Nat.lt_log2_self
  have hdenominatorLow : (2 : ℚ) ^ (denominator.log2 : ℤ) ≤ denominator := by
    exact_mod_cast Nat.log2_self_le hdenominator.ne'
  have hdenominatorHigh : (denominator : ℚ) < 2 ^ ((denominator.log2 : ℤ) + 1) := by
    exact_mod_cast Nat.lt_log2_self
  unfold binaryPlace
  dsimp only
  generalize (numerator.log2 : ℤ) = a at *
  generalize (denominator.log2 : ℤ) = b at *
  -- the guess is right or one too large
  have hlow : (2 : ℚ) ^ (a - b - 1) ≤ numerator / denominator := by
    rw [le_div_iff₀ hpos]
    calc (2 : ℚ) ^ (a - b - 1) * denominator ≤ 2 ^ (a - b - 1) * 2 ^ (b + 1) := by gcongr
      _ = 2 ^ a := by rw [← zpow_add₀ htwo]; congr 1; omega
      _ ≤ numerator := hnumeratorLow
  have hhigh : (numerator / denominator : ℚ) < 2 ^ (a - b + 1) := by
    rw [div_lt_iff₀ hpos]
    calc (numerator : ℚ) < 2 ^ (a + 1) := hnumeratorHigh
      _ = 2 ^ (a - b + 1) * 2 ^ b := by rw [← zpow_add₀ htwo]; congr 1; omega
      _ ≤ 2 ^ (a - b + 1) * denominator := by gcongr
  split_ifs with hguess
  · exact ⟨(powerRatio_le_iff hdenominator _).mp hguess, hhigh⟩
  · refine ⟨hlow, ?_⟩
    rw [sub_add_cancel]
    exact not_le.mp (mt (powerRatio_le_iff hdenominator _).mpr hguess)

theorem le_binaryPlace {numerator denominator : ℕ} {e : ℤ} (hnumerator : 0 < numerator)
    (hdenominator : 0 < denominator)
    (h : (2 : ℚ) ^ e ≤ numerator / denominator) : e ≤ binaryPlace numerator denominator := by
  have hplace := (binaryPlace_bounds hnumerator hdenominator).2
  have hlt := (zpow_lt_zpow_iff_right₀ one_lt_two).mp (h.trans_lt hplace)
  omega

theorem binaryPlace_lt {numerator denominator : ℕ} {e : ℤ} (hnumerator : 0 < numerator)
    (hdenominator : 0 < denominator)
    (h : (numerator / denominator : ℚ) < 2 ^ e) : binaryPlace numerator denominator < e :=
  (zpow_lt_zpow_iff_right₀ one_lt_two).mp
    ((binaryPlace_bounds hnumerator hdenominator).1.trans_lt h)

/-! ## Doubles and the numbers near them -/

namespace Binary

/-- The absolute value of a double other than zero, as it is taken apart. -/
structure Regular (b : Binary) : Prop where
  mantissa_pos : 0 < b.mantissa
  mantissa_lt : b.mantissa < 2 ^ 53
  exponent_ge : -1074 ≤ b.exponent
  exponent_le : b.exponent ≤ 971
  leading : b.exponent = -1074 ∨ 2 ^ 52 ≤ b.mantissa
  narrow_iff : b.narrow = true ↔ b.mantissa = 2 ^ 52 ∧ -1074 < b.exponent

/-- The value. -/
def value (b : Binary) : ℚ :=
  b.mantissa * 2 ^ b.exponent

/-- The bits of the double. -/
def bits (b : Binary) : ℕ :=
  (b.exponent + 1074).toNat * 2 ^ 52 + b.mantissa

/-- The distance to the smallest number that is rounded to the value, in units of the mantissa. -/
def below (b : Binary) : ℚ :=
  if b.narrow then 1 / 4 else 1 / 2

/-- The numbers that are rounded to the value. -/
def Near (b : Binary) (q : ℚ) : Prop :=
  if b.mantissa % 2 = 0 then (b.mantissa - b.below) * 2 ^ b.exponent ≤ q ∧
    q ≤ (b.mantissa + 1 / 2) * 2 ^ b.exponent
  else (b.mantissa - b.below) * 2 ^ b.exponent < q ∧ q < (b.mantissa + 1 / 2) * 2 ^ b.exponent

variable {b : Binary} {q : ℚ}

theorem below_le : b.below ≤ 1 / 2 := by
  unfold below
  split
  · norm_num
  · exact le_refl _

theorem Near.bounds (h : b.Near q) :
    (b.mantissa - b.below) * 2 ^ b.exponent ≤ q ∧ q ≤ (b.mantissa + 1 / 2) * 2 ^ b.exponent := by
  unfold Near at h
  split at h
  · exact h
  · exact ⟨h.1.le, h.2.le⟩

theorem Near.roundsTo (h : b.Near q) : RoundsTo (q / 2 ^ b.exponent) b.mantissa := by
  have hunit : (0 : ℚ) < 2 ^ b.exponent := zpow_pos two_pos _
  have hbelow := b.below_le
  have hlow : (b.mantissa - 1 / 2) * (2 : ℚ) ^ b.exponent ≤ (b.mantissa - b.below) * 2 ^
    b.exponent := by gcongr
  unfold Near at h
  unfold RoundsTo
  rw [le_div_iff₀ hunit, div_le_iff₀ hunit, lt_div_iff₀ hunit, div_lt_iff₀ hunit]
  split at h
  · rename_i heven
    rw [if_pos heven]
    exact ⟨hlow.trans h.1, h.2⟩
  · rename_i hodd
    rw [if_neg hodd]
    exact ⟨hlow.trans_lt h.1, h.2⟩

theorem Near.pos (hregular : b.Regular) (h : b.Near q) : 0 < q := by
  have hmantissa : (1 : ℚ) ≤ b.mantissa := by exact_mod_cast hregular.mantissa_pos
  have hbelow := b.below_le
  have hunit : (0 : ℚ) < 2 ^ b.exponent := zpow_pos two_pos _
  calc (0 : ℚ) < (b.mantissa - b.below) * 2 ^ b.exponent := mul_pos (by linarith) hunit
    _ ≤ q := h.bounds.1

theorem Near.lt (hregular : b.Regular) (h : b.Near q) : q < 2 ^ (b.exponent + 53) := by
  have hmantissa : (b.mantissa : ℚ) + 1 ≤ 2 ^ 53 := by exact_mod_cast hregular.mantissa_lt
  have hunit : (0 : ℚ) < 2 ^ b.exponent := zpow_pos two_pos _
  calc q ≤ (b.mantissa + 1 / 2) * 2 ^ b.exponent := h.bounds.2
    _ < 2 ^ 53 * 2 ^ b.exponent := by gcongr; linarith
    _ = 2 ^ (b.exponent + 53) := by rw [zpow_add₀ two_ne_zero, mul_comm]; norm_cast

end Binary

theorem fractionSize_eq : fractionSize = 2 ^ 52 :=
  rfl

/-- The bits of the nearest double, for an exponent that may be smaller than that of the double. -/
theorem nearestDouble_eq {numerator denominator mantissa : ℕ} {exponent : ℤ}
    (hnumerator : 0 < numerator)
    (hdenominator : 0 < denominator)
    (hexponent : max (binaryPlace numerator denominator - 52) (-1074) = exponent)
    (hmantissa : RoundsTo (numerator / denominator / 2 ^ exponent) mantissa) :
    nearestDouble numerator denominator =
      Float.ofBits
        (min ((exponent + 1074).toNat * 2 ^ 52 + mantissa) (2047 * 2 ^ 52)).toUInt64 := by
  have hpos := powerRatio_pos two_pos exponent
  have hratio := powerRatio_div 2 exponent
  have hquotient : roundQuotient (numerator * (powerRatio 2 exponent).2)
      (denominator * (powerRatio 2 exponent).1) = mantissa := by
    refine roundQuotient_eq (Nat.mul_pos hdenominator hpos.1) ?_
    rw [Nat.cast_ofNat] at hratio
    rw [← hratio] at hmantissa
    push_cast
    rwa [div_div_div_eq] at hmantissa
  unfold nearestDouble
  rw [if_neg hnumerator.ne']
  dsimp only
  rw [hexponent, hquotient, fractionSize_eq]
  have hbits : (exponent + 1075).toNat * 2 ^ 52 + mantissa - 2 ^ 52 = (exponent + 1074).toNat * 2 ^
      52 + mantissa := by
    have hnext : (exponent + 1075).toNat = (exponent + 1074).toNat + 1 := by omega
    rw [hnext]
    omega
  rw [hbits]

/-- A number near a double, but below its power of two. -/
theorem Binary.Near.narrow {b : Binary} {q : ℚ} (hregular : b.Regular) (h : b.Near q)
    (hleast : b.exponent ≠ -1074)
    (hlow : q < 2 ^ 52 * 2 ^ b.exponent) :
    b.mantissa = 2 ^ 52 ∧ (2 ^ 52 - 1 / 4) * 2 ^ b.exponent ≤ q := by
  have hunit : (0 : ℚ) < 2 ^ b.exponent := zpow_pos two_pos _
  have hbelow := b.below_le
  have hmantissa : b.mantissa = 2 ^ 52 := by
    have hlt := lt_of_mul_lt_mul_right (h.bounds.1.trans_lt hlow) hunit.le
    have hlt : (b.mantissa : ℚ) < (2 ^ 52 + 1 : ℕ) := by push_cast; linarith
    have hlt : b.mantissa < 2 ^ 52 + 1 := Nat.cast_lt.mp hlt
    have hleading := hregular.leading.resolve_left hleast
    omega
  have hexponent := hregular.exponent_ge
  have hnarrow : b.below = 1 / 4 := if_pos (hregular.narrow_iff.mpr ⟨hmantissa, by omega⟩)
  refine ⟨hmantissa, ?_⟩
  have hnear := h.bounds.1
  rw [hnarrow, hmantissa] at hnear
  exact_mod_cast hnear

/-- Just below a power of two the exponent is one less, and the mantissa is rounded up. -/
theorem nearestDouble_of_narrow {numerator denominator : ℕ} {exponent : ℤ}
    (hnumerator : 0 < numerator) (hdenominator : 0 < denominator) (hexponent : -1074 < exponent)
    (hlow : (2 ^ 52 - 1 / 4) * (2 : ℚ) ^ exponent ≤ numerator / denominator)
    (hhigh : (numerator / denominator : ℚ) < 2 ^ 52 * 2 ^ exponent) :
    nearestDouble numerator denominator =
      Float.ofBits (min ((exponent + 1074).toNat * 2 ^ 52 + 2 ^ 52) (2047 * 2 ^ 52)).toUInt64 := by
  have hplaceHigh : binaryPlace numerator denominator < exponent + 52 := by
    refine binaryPlace_lt hnumerator hdenominator ?_
    rw [zpow_add₀ two_ne_zero, mul_comm]
    exact_mod_cast hhigh
  have hplaceLow : exponent + 51 ≤ binaryPlace numerator denominator := by
    refine le_binaryPlace hnumerator hdenominator (le_trans ?_ hlow)
    rw [zpow_add₀ two_ne_zero, mul_comm]
    gcongr
    norm_num
  have hplace : max (binaryPlace numerator denominator - 52) (-1074) = exponent - 1 := by omega
  have hrounds : RoundsTo (numerator / denominator / 2 ^ (exponent - 1)) (2 ^ 53) := by
    have hhalf : (2 : ℚ) ^ exponent = 2 ^ (exponent - 1) * 2 := by
      rw [← zpow_add_one₀ two_ne_zero, sub_add_cancel]
    have hunit : (0 : ℚ) < 2 ^ (exponent - 1) := zpow_pos two_pos _
    rw [hhalf] at hlow hhigh
    rw [RoundsTo, if_pos (by decide), le_div_iff₀ hunit, div_le_iff₀ hunit]
    push_cast
    constructor
    · linarith
    · linarith
  have hsame : (exponent - 1 + 1074).toNat * 2 ^ 52 + 2 ^ 53 = (exponent + 1074).toNat * 2 ^ 52 +
    2 ^ 52 := by omega
  rw [nearestDouble_eq hnumerator hdenominator hplace hrounds, hsame]

/-- A quotient near a double gives the double. -/
theorem nearestDouble_of_near {b : Binary} (hregular : b.Regular) {numerator denominator : ℕ}
    (hdenominator : 0 < denominator)
    (h : b.Near (numerator / denominator)) :
    nearestDouble numerator denominator = Float.ofBits b.bits.toUInt64 := by
  have hnumerator : 0 < numerator := by
    have hpos := h.pos hregular
    by_contra hzero
    rw [Nat.eq_zero_of_not_pos hzero] at hpos
    simp at hpos
  have hbits : min ((b.exponent + 1074).toNat * 2 ^ 52 + b.mantissa) (2047 * 2 ^ 52) = b.bits := by
    have hmantissa := hregular.mantissa_lt
    have hlarge := hregular.exponent_le
    unfold Binary.bits
    omega
  have hsmall := hregular.exponent_ge
  by_cases hlow : b.exponent = -1074 ∨ (2 : ℚ) ^ 52 * 2 ^ b.exponent ≤ numerator / denominator
  · have hexponent : max (binaryPlace numerator denominator - 52) (-1074) = b.exponent := by
      have hplaceHigh := binaryPlace_lt hnumerator hdenominator (h.lt hregular)
      rcases hlow with hleast | hlow
      · omega
      · have hplaceLow : b.exponent + 52 ≤ binaryPlace numerator denominator := by
          refine le_binaryPlace hnumerator hdenominator ?_
          rw [zpow_add₀ two_ne_zero, mul_comm]
          exact_mod_cast hlow
        omega
    rw [nearestDouble_eq hnumerator hdenominator hexponent h.roundsTo, hbits]
  · obtain ⟨hleast, hlow⟩ := not_or.mp hlow
    obtain ⟨hmantissa, hnear⟩ := h.narrow hregular hleast (not_le.mp hlow)
    rw [hmantissa] at hbits
    rw [nearestDouble_of_narrow hnumerator hdenominator (by omega) hnear (not_le.mp hlow), hbits]

/-! ## Doubles taken apart -/

open Float.Model Float.Model.UnpackedFloat

theorem toNat_unpackMantissa (bits : BitVec Format.binary64.numBits) :
    (unpackMantissa bits).toNat = bits.toNat % 2 ^ 52 := by
  simp [unpackMantissa, Format.binary64]

theorem toNat_unpackExponent (bits : BitVec Format.binary64.numBits) :
    (unpackExponent bits).toNat = bits.toNat / 2 ^ 52 % 2 ^ 11 := by
  simp [unpackExponent, Format.binary64, Nat.shiftRight_eq_div_pow]

theorem toNat_unpackSign (bits : BitVec Format.binary64.numBits) :
    (unpackSign bits).toNat = bits.toNat / 2 ^ 63 % 2 := by
  simp [unpackSign, Format.binary64, Nat.shiftRight_eq_div_pow]

/-- The bits of a positive finite double are below those of infinity. -/
theorem toNat_of_unpack_positive {bits : BitVec Format.binary64.numBits} {m : ℕ} {e : ℤ}
    {hm : 0 < m} (h : UnpackedFloat.unpack Format.binary64 bits = .finite .positive m e hm) :
    0 < bits.toNat ∧ bits.toNat < 2047 * 2 ^ 52 := by
  have hexponent := toNat_unpackExponent bits
  have hmantissa := toNat_unpackMantissa bits
  have hsign := toNat_unpackSign bits
  have hlt : bits.toNat < 2 ^ 64 := bits.isLt
  have hpositive : Sign.ofBitVec (unpackSign bits) = .positive → (unpackSign bits).toNat = 0 := by
    unfold Sign.ofBitVec
    split
    · rename_i hzero
      exact fun _ => congrArg BitVec.toNat hzero
    · exact nofun
  unfold UnpackedFloat.unpack at h
  dsimp only at h
  split at h
  · split at h
    · cases h
    · cases h
  · rename_i hnotOnes
    have hfinite : (unpackExponent bits).toNat ≠ 2047 :=
      fun hones => hnotOnes (BitVec.eq_of_toNat_eq hones)
    split at h
    · split at h
      · cases h
      · rename_i hnotZero
        have hnotZero : (unpackMantissa bits).toNat ≠ 0 :=
          fun hzero => hnotZero (BitVec.eq_of_toNat_eq hzero)
        have := hpositive (UnpackedFloat.finite.inj h).1
        omega
    · rename_i hnotZero
      have hnotZero : (unpackExponent bits).toNat ≠ 0 :=
        fun hzero => hnotZero (BitVec.eq_of_toNat_eq hzero)
      have := hpositive (UnpackedFloat.finite.inj h).1
      omega

theorem toNat_toBits_of_pos {x : Float} (hpos : 0 < x) (hfinite : x.isFinite = true) :
    0 < x.toBits.toNat ∧ x.toBits.toNat < 2047 * 2 ^ 52 := by
  have hzero : (0 : Float).toModel.unpack = .zero .positive := rfl
  have hlt : UnpackedFloat.lt (0 : Float).toModel.unpack x.toModel.unpack = true :=
    of_decide_eq_true hpos
  rw [hzero] at hlt
  have hfinite : x.toModel.unpack.isFinite = true := hfinite
  cases hunpack : x.toModel.unpack with
  | infinity s => rw [hunpack] at hfinite; cases hfinite
  | notANumber => rw [hunpack] at hfinite; cases hfinite
  | zero s => rw [hunpack] at hlt; cases hlt
  | finite s m e hm =>
      cases s with
      | negative => rw [hunpack] at hlt; cases hlt
      | positive => exact toNat_of_unpack_positive hunpack

theorem ofBits_toBits (x : Float) : Float.ofBits x.toBits = x := by
  have hbits : UnpackedFloat.pack Format.binary64 x.toModel.unpack = x.toModel.toBits.toBitVec :=
    pack_unpack_of_valid x.toModel.valid
  show Float.ofModel (Float.Model.pack x.toModel.unpack) = x
  rw [Float.Model.pack]
  simp only [hbits]

theorem regular_small {fraction : ℕ} (hpos : 0 < fraction) (hlt : fraction < 2 ^ 52) :
    Binary.Regular ⟨fraction, -1074, false⟩ where
  mantissa_pos := hpos
  mantissa_lt := by show fraction < 2 ^ 53; omega
  exponent_ge := le_refl _
  exponent_le := by show (-1074 : ℤ) ≤ 971; decide
  leading := Or.inl rfl
  narrow_iff := by simp

theorem regular_large {fraction exponent : ℕ} (hfraction : fraction < 2 ^ 52) (hpos : 0 < exponent)
    (hlt : exponent < 2047) :
    Binary.Regular ⟨2 ^ 52 + fraction, (exponent : ℤ) - 1075, fraction == 0 && 1 < exponent⟩ where
  mantissa_pos := by show 0 < 2 ^ 52 + fraction; omega
  mantissa_lt := by show 2 ^ 52 + fraction < 2 ^ 53; omega
  exponent_ge := by show -1074 ≤ (exponent : ℤ) - 1075; omega
  exponent_le := by show (exponent : ℤ) - 1075 ≤ 971; omega
  leading := Or.inr (Nat.le_add_right _ _)
  narrow_iff := by
    show (fraction == 0 && decide (1 < exponent)) = true ↔ 2 ^ 52 + fraction = 2 ^ 52 ∧
      -1074 < (exponent : ℤ) - 1075
    rw [Bool.and_eq_true, beq_iff_eq, decide_eq_true_eq]
    omega

/-- A positive finite double is a mantissa and an exponent, from which its bits can be had back. -/
theorem exists_regular_of_pos {x : Float} (hpos : 0 < x) (hfinite : x.isFinite = true) :
    ∃ b : Binary, Magnitude.ofFloat x = .finite b ∧ b.Regular ∧ b.bits = x.toBits.toNat := by
  obtain ⟨hnotZero, hlt⟩ := toNat_toBits_of_pos hpos hfinite
  unfold Magnitude.ofFloat
  dsimp only
  rw [fractionSize_eq]
  generalize x.toBits.toNat = bits at hnotZero hlt ⊢
  have hexponent : bits / 2 ^ 52 % 2048 < 2047 := by omega
  have hparts : bits / 2 ^ 52 % 2048 * 2 ^ 52 + bits % 2 ^ 52 = bits := by omega
  have hfraction : bits % 2 ^ 52 < 2 ^ 52 := Nat.mod_lt _ (by decide)
  generalize bits / 2 ^ 52 % 2048 = exponent at hexponent hparts ⊢
  generalize bits % 2 ^ 52 = fraction at hfraction hparts ⊢
  rw [if_neg hexponent.ne]
  by_cases hzero : exponent = 0
  · rw [if_pos hzero]
    refine ⟨_, rfl, regular_small (by omega) hfraction, ?_⟩
    show 0 * 2 ^ 52 + fraction = bits
    rwa [hzero] at hparts
  · rw [if_neg hzero]
    refine ⟨_, rfl, regular_large hfraction (by omega) hexponent, ?_⟩
    have hbelow : ((exponent : ℤ) - 1075 + 1074).toNat = exponent - 1 := by omega
    rw [Binary.bits, hbelow, ← hparts]
    show (exponent - 1) * 2 ^ 52 + (2 ^ 52 + fraction) = exponent * 2 ^ 52 + fraction
    rw [← Nat.add_assoc, ← Nat.succ_mul, Nat.succ_eq_add_one,
      Nat.sub_add_cancel (Nat.pos_of_ne_zero hzero)]

theorem isNegative_of_pos {x : Float} (hpos : 0 < x) (hfinite : x.isFinite = true) :
    isNegative x = false := by
  have hlt := (toNat_toBits_of_pos hpos hfinite).2
  unfold isNegative
  rw [fractionSize_eq, decide_eq_false_iff_not]
  omega

theorem beq_zero_of_pos {x : Float} (hpos : 0 < x) : (x == 0) = false := by
  have hzero : (0 : Float).toModel.unpack = .zero .positive := rfl
  have hlt : UnpackedFloat.lt (0 : Float).toModel.unpack x.toModel.unpack = true :=
    of_decide_eq_true hpos
  show UnpackedFloat.beq x.toModel.unpack (0 : Float).toModel.unpack = false
  rw [hzero] at hlt ⊢
  cases hunpack : x.toModel.unpack with
  | notANumber => rfl
  | infinity s => cases s <;> rfl
  | zero s => rw [hunpack] at hlt; cases hlt
  | finite s m e hm => cases s <;> rfl

end Constitutive.Decimal
