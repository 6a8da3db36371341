import Constitutive.Decimal.Shortest
import Constitutive.Proofs.Decimal.Nearest

/-!
# Decimals that read back

The decimal with the fewest digits is looked for among the multiples of a power of ten that stand
next to the double.  It is near the double (`near_value_shortest`), so it reads back.

## Strategy

Whether a multiple is near the double is decided on natural numbers, in quarters of the unit of the
mantissa (`covers_iff`).  With seventeen digits the power of ten is so small that one of the two
multiples is near: it is less than the unit of the mantissa, and less than half of it just above a
power of two, where there is less room below (`exists_covers`).
-/

namespace Constitutive.Decimal

/-! ## Digits and places -/

theorem lt_pow_length_digits (n : ℕ) : n < 10 ^ (digits n).length :=
  (Nat.length_toDigits_le_iff (by decide) Nat.length_toDigits_pos).mp (le_refl _)

theorem pow_length_digits_le {n : ℕ} (h : 0 < n) : 10 ^ ((digits n).length - 1) ≤ n := by
  by_contra hlt
  have hpos : 0 < (digits n).length := Nat.length_toDigits_pos
  have hlength : 0 < (digits n).length - 1 := by
    by_contra hzero
    rw [Nat.eq_zero_of_not_pos hzero] at hlt
    omega
  have hle : (digits n).length ≤ (digits n).length - 1 :=
    (Nat.length_toDigits_le_iff (by decide) hlength).mpr (not_le.mp hlt)
  omega

/-- The value. -/
def Scaled.value (d : Scaled) : ℚ :=
  d.coefficient * 10 ^ d.exponent

theorem Scaled.place_bounds {d : Scaled} (h : 0 < d.coefficient) :
    (10 : ℚ) ^ d.place ≤ d.value ∧ d.value < 10 ^ (d.place + 1) := by
  have hpos : 0 < (digits d.coefficient).length := Nat.length_toDigits_pos
  have hlow : (10 : ℚ) ^ ((digits d.coefficient).length - 1) ≤ d.coefficient := by
    exact_mod_cast pow_length_digits_le h
  have hhigh : (d.coefficient : ℚ) < 10 ^ (digits d.coefficient).length := by
    exact_mod_cast lt_pow_length_digits d.coefficient
  have hpower : (0 : ℚ) < 10 ^ d.exponent := zpow_pos (by norm_num) _
  have hten : (10 : ℚ) ≠ 0 := by norm_num
  have hplace : d.place = ((digits d.coefficient).length - 1 : ℕ) + d.exponent := by
    unfold place
    omega
  constructor
  · rw [hplace, zpow_add₀ hten, zpow_natCast]
    exact mul_le_mul_of_nonneg_right hlow hpower.le
  · have hnext : d.place + 1 = ((digits d.coefficient).length : ℕ) + d.exponent := by omega
    rw [hnext, zpow_add₀ hten, zpow_natCast]
    exact mul_lt_mul_of_pos_right hhigh hpower

theorem Scaled.value_stripZeros (fuel : ℕ) (d : Scaled) : (stripZeros fuel d).value = d.value := by
  induction fuel generalizing d with
  | zero => rfl
  | succ fuel ih =>
      unfold stripZeros
      split
      · rename_i hzero
        have htenth : (d.coefficient : ℚ) = (d.coefficient / 10 : ℕ) * 10 := by
          exact_mod_cast (Nat.div_mul_cancel (Nat.dvd_of_mod_eq_zero hzero.2)).symm
        rw [ih]
        unfold value
        dsimp only
        rw [zpow_add_one₀ (by norm_num), htenth]
        ring
      · rfl

/-- The place of the leading digit of a quotient is not too large. -/
theorem pow_decimalPlace_le {numerator denominator : ℕ} (hnumerator : 0 < numerator)
    (hdenominator : 0 < denominator) :
    (10 : ℚ) ^ decimalPlace numerator denominator ≤ numerator / denominator := by
  have hpos : (0 : ℚ) < denominator := Nat.cast_pos.mpr hdenominator
  unfold decimalPlace
  split
  · rename_i hle
    have hwhole : 0 < numerator / denominator := Nat.div_pos hle hdenominator
    have hlength : 0 < (digits (numerator / denominator)).length := Nat.length_toDigits_pos
    have hplace : ((digits (numerator / denominator)).length : ℤ) - 1 =
        ((digits (numerator / denominator)).length - 1 : ℕ) := by omega
    calc (10 : ℚ) ^ (((digits (numerator / denominator)).length : ℤ) - 1)
        = (10 ^ ((digits (numerator / denominator)).length - 1) : ℕ) := by
          rw [hplace, zpow_natCast]; norm_cast
      _ ≤ (numerator / denominator : ℕ) := by exact_mod_cast pow_length_digits_le hwhole
      _ ≤ numerator / denominator := Nat.cast_div_le
  · -- the inverse quotient, rounded up, is at most the power
    generalize hceil : (denominator + numerator - 1) / numerator - 1 = ceil
    have hlt := lt_pow_length_digits ceil
    generalize (digits ceil).length = places at hlt ⊢
    have hinverse : denominator ≤ 10 ^ places * numerator := by
      have hround := Nat.lt_div_mul_add hnumerator (a := denominator + numerator - 1)
      have hsucc : (denominator + numerator - 1) / numerator ≤ 10 ^ places := by omega
      have hle := Nat.mul_le_mul_right numerator hsucc
      omega
    rw [zpow_neg, zpow_natCast, le_div_iff₀ hpos, inv_mul_le_iff₀ (by positivity)]
    exact_mod_cast hinverse

namespace Binary

variable {b : Binary} {exponent : ℤ} {n : ℕ}

/-! ## Multiples next to a double -/

/-- Whether a multiple of `10 ^ exponent` is near the value, decided on natural numbers. -/
def covers (b : Binary) (exponent : ℤ) (n : ℕ) : Bool :=
  let (tenUp, tenDown) := powerRatio 10 exponent
  let (twoUp, twoDown) := powerRatio 2 (2 - b.exponent)
  let unit := tenUp * twoUp
  let scale := tenDown * twoDown
  let low := (4 * b.mantissa - if b.narrow then 1 else 2) * scale
  let high := (4 * b.mantissa + 2) * scale
  if b.mantissa % 2 = 0 then low ≤ n * unit && n * unit ≤ high
    else low < n * unit && n * unit < high

/-- The multiple of `10 ^ exponent` that is not larger than the value. -/
def floorAt (b : Binary) (exponent : ℤ) : ℕ :=
  4 * b.mantissa * ((powerRatio 10 exponent).2 * (powerRatio 2 (2 - b.exponent)).2) /
    ((powerRatio 10 exponent).1 * (powerRatio 2 (2 - b.exponent)).1)

theorem exists_neighbour?_eq (b : Binary) (exponent : ℤ) : ∃ above : Bool, b.neighbour? exponent =
    if b.covers exponent (b.floorAt exponent + 1) &&
      (above || !b.covers exponent (b.floorAt exponent)) then
      some ⟨b.floorAt exponent + 1, exponent⟩
    else if b.covers exponent (b.floorAt exponent) then some ⟨b.floorAt exponent, exponent⟩
    else none :=
  ⟨_, rfl⟩

/-- The power of ten, in the unit of the comparisons. -/
def tenUnit (b : Binary) (exponent : ℤ) : ℕ :=
  (powerRatio 10 exponent).1 * (powerRatio 2 (2 - b.exponent)).1

/-- A quarter of the unit of the mantissa, in the unit of the comparisons. -/
def quarter (b : Binary) (exponent : ℤ) : ℕ :=
  (powerRatio 10 exponent).2 * (powerRatio 2 (2 - b.exponent)).2

theorem quarter_pos (b : Binary) (exponent : ℤ) : 0 < b.quarter exponent :=
  Nat.mul_pos (powerRatio_pos (by decide) _).2 (powerRatio_pos two_pos _).2

theorem tenUnit_pos (b : Binary) (exponent : ℤ) : 0 < b.tenUnit exponent :=
  Nat.mul_pos (powerRatio_pos (by decide) _).1 (powerRatio_pos two_pos _).1

theorem tenUnit_eq (b : Binary) (exponent : ℤ) :
    (b.tenUnit exponent : ℚ) * 2 ^ b.exponent = 4 * b.quarter exponent * 10 ^ exponent := by
  have hten := powerRatio_div 10 exponent
  have htwo := powerRatio_div 2 (2 - b.exponent)
  have htenDown : (0 : ℚ) < (powerRatio 10 exponent).2 :=
    Nat.cast_pos.mpr (powerRatio_pos (by decide) _).2
  have htwoDown : (0 : ℚ) < (powerRatio 2 (2 - b.exponent)).2 :=
    Nat.cast_pos.mpr (powerRatio_pos two_pos _).2
  have hfour : (2 : ℚ) ^ (2 - b.exponent) * 2 ^ b.exponent = 4 := by
    rw [← zpow_add₀ two_ne_zero, sub_add_cancel]
    norm_num
  rw [div_eq_iff htenDown.ne', Nat.cast_ofNat] at hten
  rw [div_eq_iff htwoDown.ne', Nat.cast_ofNat] at htwo
  unfold tenUnit quarter
  push_cast
  rw [hten, htwo]
  linear_combination ((powerRatio 10 exponent).2 : ℚ) * (powerRatio 2 (2 - b.exponent)).2 * 10 ^
    exponent * hfour

/-- Comparing natural numbers compares a multiple of a power of ten with a multiple of a quarter of
the unit. -/
theorem compare_quarters (b : Binary) (exponent : ℤ) (n : ℕ) {k : ℕ} {x : ℚ}
    (hk : (k : ℚ) = 4 * x) :
    (k * b.quarter exponent < n * b.tenUnit exponent ↔ x * 2 ^ b.exponent < n * 10 ^ exponent) ∧
      (n * b.tenUnit exponent < k * b.quarter exponent ↔ n * 10 ^ exponent < x * 2 ^
        b.exponent) := by
  have hpower : (0 : ℚ) < 2 ^ b.exponent := zpow_pos two_pos _
  have hquarter : (0 : ℚ) < b.quarter exponent := Nat.cast_pos.mpr (b.quarter_pos exponent)
  have hfactor : (0 : ℚ) < 4 * b.quarter exponent := by linarith
  have hleft : ((k * b.quarter exponent : ℕ) : ℚ) * 2 ^ b.exponent = 4 * b.quarter exponent *
      (x * 2 ^ b.exponent) := by
    push_cast
    rw [hk]
    ring
  have hright : ((n * b.tenUnit exponent : ℕ) : ℚ) * 2 ^ b.exponent = 4 * b.quarter exponent *
      (n * 10 ^ exponent) := by
    push_cast
    rw [mul_assoc, tenUnit_eq]
    ring
  constructor
  · rw [← Nat.cast_lt (α := ℚ), ← mul_lt_mul_iff_left₀ hpower, hleft, hright,
      mul_lt_mul_iff_right₀ hfactor]
  · rw [← Nat.cast_lt (α := ℚ), ← mul_lt_mul_iff_left₀ hpower, hleft, hright,
      mul_lt_mul_iff_right₀ hfactor]

theorem covers_iff (hpos : 0 < b.mantissa) :
    b.covers exponent n = true ↔ b.Near (n * 10 ^ exponent) := by
  have hlow : ((4 * b.mantissa - (if b.narrow then 1 else 2) : ℕ) : ℚ) = 4 *
      (b.mantissa - b.below) := by
    unfold below
    split
    · rw [Nat.cast_sub (by omega)]
      push_cast
      ring
    · rw [Nat.cast_sub (by omega)]
      push_cast
      ring
  have hhigh : ((4 * b.mantissa + 2 : ℕ) : ℚ) = 4 * (b.mantissa + 1 / 2) := by
    push_cast
    ring
  have hlow := b.compare_quarters exponent n hlow
  have hhigh := b.compare_quarters exponent n hhigh
  unfold covers Near
  dsimp only
  rw [← tenUnit, ← quarter]
  split
  · rw [Bool.and_eq_true, decide_eq_true_eq, decide_eq_true_eq, ← not_lt, ← not_lt, hlow.2, hhigh.1,
      not_lt, not_lt]
  · rw [Bool.and_eq_true, decide_eq_true_eq, decide_eq_true_eq, hlow.1, hhigh.2]

/-- The value stands between two multiples of a power of ten. -/
theorem floorAt_bounds (b : Binary) (exponent : ℤ) :
    (b.floorAt exponent : ℚ) * 10 ^ exponent ≤ b.value ∧ b.value < (b.floorAt exponent + 1 : ℕ) *
      10 ^ exponent := by
  have hvalue : ((4 * b.mantissa : ℕ) : ℚ) = 4 * b.mantissa := by push_cast; rfl
  have hfloor : b.floorAt exponent = 4 * b.mantissa * b.quarter exponent / b.tenUnit exponent := rfl
  have hlow : b.floorAt exponent * b.tenUnit exponent ≤ 4 * b.mantissa * b.quarter exponent := by
    rw [hfloor]
    exact Nat.div_mul_le_self _ _
  have hhigh : 4 * b.mantissa * b.quarter exponent < (b.floorAt exponent + 1) *
      b.tenUnit exponent := by
    rw [← Nat.div_lt_iff_lt_mul (b.tenUnit_pos exponent), ← hfloor]
    exact Nat.lt_succ_self _
  unfold value
  constructor
  · rw [← not_lt, ← (b.compare_quarters exponent _ hvalue).1, not_lt]
    exact hlow
  · exact (b.compare_quarters exponent _ hvalue).1.mp hhigh

theorem near_of_neighbour? (hpos : 0 < b.mantissa) {d : Scaled}
    (h : b.neighbour? exponent = some d) : b.Near d.value := by
  obtain ⟨above, heq⟩ := exists_neighbour?_eq b exponent
  rw [heq] at h
  split at h
  · rename_i hnext
    rw [Bool.and_eq_true] at hnext
    obtain rfl := Option.some.inj h
    exact (covers_iff hpos).mp hnext.1
  · split at h
    · rename_i hthis
      obtain rfl := Option.some.inj h
      exact (covers_iff hpos).mp hthis
    · cases h

theorem isSome_neighbour? (h : b.covers exponent (b.floorAt exponent) = true ∨
    b.covers exponent (b.floorAt exponent + 1) = true) : (b.neighbour? exponent).isSome = true := by
  obtain ⟨above, heq⟩ := exists_neighbour?_eq b exponent
  rw [heq]
  cases hthis : b.covers exponent (b.floorAt exponent) with
  | true => split <;> simp
  | false =>
      rw [h.resolve_left (by simp [hthis])]
      simp

/-! ## Seventeen digits -/

theorem pow_place_le (hpos : 0 < b.mantissa) : (10 : ℚ) ^ b.place ≤ b.value := by
  have hpower := powerRatio_pos two_pos b.exponent
  have hratio := powerRatio_div 2 b.exponent
  have hvalue : b.value = (b.ratio.1 : ℚ) / b.ratio.2 := by
    unfold value ratio
    dsimp only
    rw [Nat.cast_ofNat] at hratio
    rw [← hratio]
    push_cast
    ring
  rw [hvalue]
  exact pow_decimalPlace_le (Nat.mul_pos hpos hpower.1) hpower.2

theorem near_of_lt {q : ℚ} (hlow : (b.mantissa - b.below) * 2 ^ b.exponent < q)
    (hhigh : q < (b.mantissa + 1 / 2) * 2 ^ b.exponent) : b.Near q := by
  unfold Near
  split
  · exact ⟨hlow.le, hhigh.le⟩
  · exact ⟨hlow, hhigh⟩

/-- With seventeen digits one of the two multiples next to the value is near it. -/
theorem exists_covers (hregular : b.Regular) :
    b.covers (b.place - 16) (b.floorAt (b.place - 16)) = true ∨
      b.covers (b.place - 16) (b.floorAt (b.place - 16) + 1) = true := by
  have hpower : (0 : ℚ) < 2 ^ b.exponent := zpow_pos two_pos _
  have hmantissa : (b.mantissa : ℚ) ≤ 2 ^ 53 := by exact_mod_cast hregular.mantissa_lt.le
  obtain ⟨hfloor, hnext⟩ := b.floorAt_bounds (b.place - 16)
  have hgrid : (10 : ℚ) ^ (b.place - 16) * 10 ^ 16 ≤ b.mantissa * 2 ^ b.exponent := by
    have hplace := pow_place_le hregular.mantissa_pos
    have hsplit : (10 : ℚ) ^ b.place = 10 ^ (b.place - 16) * 10 ^ 16 := by
      rw [← zpow_natCast, ← zpow_add₀ (by norm_num)]
      simp
    rwa [hsplit] at hplace
  rw [covers_iff hregular.mantissa_pos, covers_iff hregular.mantissa_pos]
  unfold value at hfloor hnext
  push_cast at hnext ⊢
  generalize (10 : ℚ) ^ (b.place - 16) = ten at *
  by_cases hnarrow : b.narrow = true
  · -- there is less room below, so the multiple above is taken
    have hbelow : b.below = 1 / 4 := if_pos hnarrow
    have hleading : (b.mantissa : ℚ) = 2 ^ 52 := by
      exact_mod_cast (hregular.narrow_iff.mp hnarrow).1
    rw [hleading] at hfloor hnext hgrid
    refine Or.inr (near_of_lt ?_ ?_)
    · rw [hbelow, hleading]
      linarith
    · rw [hleading]
      linarith
  · -- the nearer of the two multiples is taken
    have hbelow : b.below = 1 / 2 := if_neg hnarrow
    have hsmall : ten * 10 ^ 16 ≤ 2 ^ 53 * 2 ^ b.exponent := hgrid.trans (by gcongr)
    by_cases hnearer : b.mantissa * 2 ^ b.exponent - b.floorAt (b.place - 16) * ten ≤ ten / 2
    · refine Or.inl (near_of_lt ?_ ?_)
      · rw [hbelow]
        linarith
      · linarith
    · refine Or.inr (near_of_lt ?_ ?_)
      · rw [hbelow]
        linarith
      · linarith

/-- The decimal with the fewest digits is near the value. -/
theorem near_value_shortest (hregular : b.Regular) : b.Near b.shortest.value := by
  unfold shortest
  dsimp only
  rw [Scaled.value_stripZeros]
  have hlast : (b.neighbour? (b.place - (16 : ℕ))).isSome = true :=
    isSome_neighbour? (exists_covers hregular)
  have hfound :
      ((List.range 17).findSome? fun (more : ℕ) => b.neighbour? (b.place - more)).isSome = true :=
    List.findSome?_isSome_iff.mpr ⟨16, by simp, hlast⟩
  obtain ⟨d, hd⟩ := Option.isSome_iff_exists.mp hfound
  obtain ⟨more, -, hmore⟩ := List.exists_of_findSome?_eq_some hd
  rw [hd]
  exact near_of_neighbour? hregular.mantissa_pos hmore

end Binary

end Constitutive.Decimal
