import Mathlib

/-!
# Dividing a double by one

A factor that is not given counts as one, so the quotient of two factors is that of two doubles one
of which may be one.  Here it is shown that dividing by one changes no double, infinities, zeros and
the value that is no number included (`div_one_double`).

## Strategy

A finite double is a mantissa and an exponent, and the exponent is the one that the format asks for
(`Canonical`).  One is `2 ^ 52` at exponent `-52`.  The quotient is computed at an exponent that is
not larger, where it is exact (`exists_divCore_one`); rounding then only takes the shift back
(`roundWithAccuracy_shifted`).
-/

namespace Constitutive.Numeric

open Float.Model Float.Model.UnpackedFloat

/-! ## The exponent of the format -/

theorem targetExponent_binary64 (t : Int) :
    Format.binary64.targetExponent t = max (t - 53) (-1074) :=
  rfl

/-- The exponent is the one that the format asks for. -/
def Canonical (m : Nat) (e : Int) : Prop :=
  Format.binary64.targetExponent (totalExponent m e) = e

theorem canonical_iff {m : Nat} {e : Int} :
    Canonical m e ↔ -1074 ≤ e ∧ (m.log2 = 52 ∨ m.log2 < 52 ∧ e = -1074) := by
  unfold Canonical totalExponent
  rw [targetExponent_binary64]
  omega

/-- Finite doubles are canonical. -/
theorem canonical_of_unpack {bits : BitVec Format.binary64.numBits} {s : Sign} {m : Nat} {e : Int}
    {hm : 0 < m}
    (h : UnpackedFloat.unpack Format.binary64 bits = .finite s m e hm) : Canonical m e := by
  have hbound : (unpackMantissa bits).toNat < 2 ^ 52 := (unpackMantissa bits).isLt
  rw [canonical_iff]
  unfold UnpackedFloat.unpack at h
  dsimp only at h
  split at h
  · split at h
    · cases h
    · cases h
  · split at h
    · rename_i hexponent
      split at h
      · cases h
      · -- below the smallest normal double the exponent is the least one
        obtain ⟨-, rfl, rfl⟩ := UnpackedFloat.finite.inj h
        have hleast : ((unpackExponent bits).toNat : Int) -
            (Format.binary64.exponentBias + Format.binary64.mantissaBitsWithoutImplicit) +
            1 = -1074 := by
          rw [hexponent]
          rfl
        rw [hleast]
        exact ⟨le_refl _, Or.inr ⟨(Nat.log2_lt hm.ne').mpr hbound, rfl⟩⟩
    · -- the mantissa of a normal double has its leading bit
      rename_i hexponent
      obtain ⟨-, rfl, rfl⟩ := UnpackedFloat.finite.inj h
      have hbias : ((Format.binary64.exponentBias +
          Format.binary64.mantissaBitsWithoutImplicit : Nat) : Int) = 1075 :=
        rfl
      have hpositive : 0 < (unpackExponent bits).toNat :=
        Nat.pos_of_ne_zero fun hzero => hexponent (BitVec.eq_of_toNat_eq hzero)
      have hleading :
          (1#1 ++ unpackMantissa bits).toNat = 2 ^ 52 + (unpackMantissa bits).toNat := by
        rw [BitVec.toNat_append]
        exact (Nat.shiftLeft_add_eq_or_of_lt hbound 1).symm
      refine ⟨by push_cast at hbias ⊢; omega, Or.inl ?_⟩
      rw [hleading, Nat.log2_eq_iff (by omega)]
      constructor
      · omega
      · omega

/-! ## Shifting a mantissa and taking the shift back -/

theorem log2_shiftLeft {m : Nat} (hm : 0 < m) (k : Nat) : (m <<< k).log2 = m.log2 + k := by
  rw [Nat.shiftLeft_eq, Nat.log2_eq_iff (Nat.mul_ne_zero hm.ne' (Nat.two_pow_pos k).ne')]
  have hlow : 2 ^ m.log2 ≤ m := Nat.log2_self_le hm.ne'
  have hhigh : m < 2 ^ (m.log2 + 1) := Nat.lt_log2_self
  constructor
  · rw [Nat.pow_add]
    exact Nat.mul_le_mul_right _ hlow
  · rw [show m.log2 + k + 1 = (m.log2 + 1) + k by omega, Nat.pow_add]
    exact Nat.mul_lt_mul_of_pos_right hhigh (Nat.two_pow_pos k)

theorem shiftRight_shiftLeft (m j k : Nat) :
    (⟨m <<< (j + k), false, false⟩ : ExtendedMantissa) >>> k = ⟨m <<< j, false, false⟩ := by
  induction k generalizing j with
  | zero => rfl
  | succ k ih =>
      have hstep : ExtendedMantissa.shiftRightOne ⟨m <<< (j + 1), false, false⟩ =
          ⟨m <<< j, false, false⟩ := by
        have hdouble : m <<< (j + 1) = 2 * m <<< j := by
          rw [Nat.shiftLeft_eq, Nat.shiftLeft_eq, Nat.pow_succ]
          ring
        simp [ExtendedMantissa.shiftRightOne, hdouble]
      calc (⟨m <<< (j + (k + 1)), false, false⟩ : ExtendedMantissa) >>> (k + 1)
          = ExtendedMantissa.shiftRightOne
              ((⟨m <<< (j + 1 + k), false, false⟩ : ExtendedMantissa) >>> k) := by
            rw [show j + (k + 1) = j + 1 + k by omega]
            rfl
        _ = ⟨m <<< j, false, false⟩ := by rw [ih, hstep]

theorem shiftToTargetExponent_shifted {m : Nat} {e : Int} (hm : 0 < m)
    (hcanonical : Canonical m e) (k : Nat) :
    shiftToTargetExponent Format.binary64 (m <<< k) (e - k) .exact = (⟨m, false, false⟩, e) := by
  have htotal : totalExponent (m <<< k) (e - k) = totalExponent m e := by
    unfold totalExponent
    rw [log2_shiftLeft hm]
    omega
  have hshift : (e - (e - (k : Int))).toNat = k := by omega
  have hback := shiftRight_shiftLeft m 0 k
  rw [Nat.zero_add, Nat.shiftLeft_zero] at hback
  unfold shiftToTargetExponent shiftToExponent
  rw [htotal, hcanonical]
  dsimp only
  rw [hshift]
  exact Prod.ext hback (by omega)

/-- Rounding takes back a shift of a canonical mantissa. -/
theorem roundWithAccuracy_shifted (s : Sign) {m : Nat} {e : Int} (hm : 0 < m)
    (hcanonical : Canonical m e) (k : Nat) :
    roundWithAccuracy Format.binary64 s (m <<< k) (e - k) .exact = .finite s m e hm := by
  have hfirst := shiftToTargetExponent_shifted hm hcanonical k
  have hrounded : (⟨m, false, false⟩ : ExtendedMantissa).roundedMantissa = m := rfl
  have hsecond : shiftToTargetExponent Format.binary64 m e .exact = (⟨m, false, false⟩, e) := by
    simpa using shiftToTargetExponent_shifted hm hcanonical 0
  unfold roundWithAccuracy
  simp only [hfirst, hrounded, hsecond]
  exact dif_neg hm.ne'

/-! ## The quotient -/

/-- The quotient by one is exact, at an exponent that is not larger. -/
theorem exists_divCore_one {m : Nat} {e : Int} (hcanonical : Canonical m e) :
    ∃ k : Nat, divCore Format.binary64 m e (2 ^ 52) (-52) = (m <<< k, e - k, .exact) := by
  have hone : totalExponent (2 ^ 52) (-52) = 1 := by
    unfold totalExponent
    rw [Nat.log2_two_pow]
    rfl
  -- the exponent of the quotient, below that of the dividend by some `k`
  have hlow : Format.binary64.targetExponent (totalExponent m e - 1) ≤ e := by
    rw [canonical_iff] at hcanonical
    rw [targetExponent_binary64]
    unfold totalExponent
    omega
  obtain ⟨k, hk⟩ : ∃ k : Nat, Format.binary64.targetExponent (totalExponent m e - 1) = e - k :=
    ⟨(e - Format.binary64.targetExponent (totalExponent m e - 1)).toNat, by omega⟩
  have htarget : min (e - -52) (e - (k : Int)) = e - k := by omega
  have hshift : (e - -52 - (e - (k : Int))).toNat = k + 52 := by omega
  have hmantissa : m <<< (k + 52) = m <<< k * 2 ^ 52 := by
    rw [Nat.shiftLeft_add, Nat.shiftLeft_eq (m <<< k)]
  refine ⟨k, ?_⟩
  unfold divCore
  rw [hone, hk]
  dsimp only
  rw [htarget, hshift, hmantissa, Nat.mul_div_cancel _ (Nat.two_pow_pos 52), Nat.mul_mod_left]
  rfl

theorem div_one_unpacked {u : UnpackedFloat}
    (hcanonical : ∀ s m e hm, u = .finite s m e hm → Canonical m e) :
    UnpackedFloat.div Format.binary64 u (.finite .positive (2 ^ 52) (-52) (by decide)) = u := by
  cases u with
  | infinity s => cases s <;> rfl
  | notANumber => rfl
  | zero s => cases s <;> rfl
  | finite s m e hm =>
      obtain ⟨k, hk⟩ := exists_divCore_one (hcanonical s m e hm rfl)
      have hsign : s / .positive = s := by cases s <;> rfl
      unfold UnpackedFloat.div
      dsimp only
      rw [hk, hsign]
      exact roundWithAccuracy_shifted s hm (hcanonical s m e hm rfl) k

/-- **Division by one.** -/
theorem div_one_double (x : Float) : x / 1 = x := by
  have hone : (1 : Float).toModel.unpack = .finite .positive (2 ^ 52) (-52) (by decide) := rfl
  have hquotient : UnpackedFloat.div Format.binary64 x.toModel.unpack (1 : Float).toModel.unpack =
      x.toModel.unpack := by
    rw [hone]
    exact div_one_unpacked fun s m e hm h => canonical_of_unpack h
  have hbits : UnpackedFloat.pack Format.binary64 x.toModel.unpack = x.toModel.toBits.toBitVec :=
    pack_unpack_of_valid x.toModel.valid
  show Float.ofModel (Float.Model.pack
    (UnpackedFloat.div Format.binary64 x.toModel.unpack (1 : Float).toModel.unpack)) = x
  rw [hquotient, Float.Model.pack]
  simp only [hbits]

end Constitutive.Numeric
