import Constitutive.Numeric.Step
import Constitutive.Proofs.Numeric.Elimination

/-!
# Sums, norms and products over an ordered field

Sums of doubles depend on their order, so `dot` adds in eight lanes and `Mat.mulVec` from the first
product to the last.  With exact arithmetic the order does not matter: both are sums over all
indices (`dot_eq`, `Mat.entry_mulVec`), and the products of the program are those of matrices.

`FieldScalars` says which functions on scalars are those of an ordered field, and `ExactRoots` that
each scalar that is not negative has its square root besides.  Real numbers have all of this.
-/

namespace Constitutive.Numeric

open Matrix

/-! ## Scalars -/

/-- The functions on scalars are those of an ordered field.  Of square roots only that of zero is
known. -/
class FieldScalars (K : Type) [Field K] [LinearOrder K] [ScalarFunctions K] :
    Prop extends ExactScalars K where
  sqrt_zero : ScalarFunctions.sqrt (0 : K) = 0
  larger_eq : ∀ x y : K, ScalarFunctions.larger x y = max x y
  ofNat_eq : ∀ n : ℕ, ScalarFunctions.ofNat n = (n : K)
  epsilon_nonneg : 0 ≤ (ScalarFunctions.epsilon : K)

instance : FieldScalars ℚ where
  sqrt_zero := by decide +kernel
  larger_eq := fun _ _ => rfl
  ofNat_eq := fun _ => rfl
  epsilon_nonneg := le_refl 0

/-- Scalars that are not negative have square roots. -/
class ExactRoots (K : Type) [Field K] [LinearOrder K] [ScalarFunctions K] :
    Prop extends FieldScalars K where
  sqrt_nonneg : ∀ x : K, 0 ≤ x → 0 ≤ ScalarFunctions.sqrt x
  sqrt_mul_self : ∀ x : K, 0 ≤ x → ScalarFunctions.sqrt x * ScalarFunctions.sqrt x = x

/-- Real numbers as scalars, with the epsilon of doubles. -/
noncomputable instance : ScalarFunctions ℝ where
  abs := fun x => |x|
  sqrt := Real.sqrt
  larger := max
  withSign := fun size sign => if sign < 0 then -|size| else |size|
  ofNat := fun n => n
  epsilon := 1 / 2 ^ 52

instance : ExactRoots ℝ where
  abs_eq := fun _ => rfl
  sqrt_zero := Real.sqrt_zero
  larger_eq := fun _ _ => rfl
  ofNat_eq := fun _ => rfl
  epsilon_nonneg := by
    change (0 : ℝ) ≤ 1 / 2 ^ 52
    positivity
  sqrt_nonneg := fun x _ => Real.sqrt_nonneg x
  sqrt_mul_self := fun _ hx => Real.mul_self_sqrt hx

section Roots

variable {K : Type} [Field K] [LinearOrder K] [IsStrictOrderedRing K] [ScalarFunctions K]
  [ExactRoots K]

theorem sqrt_lt_iff {x r : K} (hx : 0 ≤ x) (hr : 0 < r) :
    ScalarFunctions.sqrt x < r ↔ x < r * r := by
  rw [mul_self_lt_mul_self_iff (ExactRoots.sqrt_nonneg x hx) hr.le, ExactRoots.sqrt_mul_self x hx]

theorem le_sqrt_iff {x r : K} (hx : 0 ≤ x) (hr : 0 < r) :
    r ≤ ScalarFunctions.sqrt x ↔ r * r ≤ x := by
  rw [← not_lt, sqrt_lt_iff hx hr, not_lt]

theorem sqrt_mul_self_eq {r : K} (hr : 0 < r) : ScalarFunctions.sqrt (r * r) = r := by
  have hsquare := mul_self_nonneg r
  exact (mul_self_inj (ExactRoots.sqrt_nonneg _ hsquare) hr.le).mp
    (ExactRoots.sqrt_mul_self _ hsquare)

end Roots

/-! ## Sums -/

section Sums

variable {K : Type} [Field K] {m n : ℕ}

theorem foldl_add_eq (xs : List K) (a : K) : xs.foldl (· + ·) a = a + xs.sum := by
  induction xs generalizing a with
  | nil => simp
  | cons x xs ih => rw [List.foldl_cons, ih, List.sum_cons, add_assoc]

/-- What has been added up in the lanes, and what is left, stay the same together. -/
theorem laneSum_eq (xs : List K) (a₀ a₁ a₂ a₃ a₄ a₅ a₆ a₇ : K) :
    laneSum a₀ a₁ a₂ a₃ a₄ a₅ a₆ a₇ xs = a₀ + a₁ + a₂ + a₃ + a₄ + a₅ + a₆ + a₇ + xs.sum := by
  fun_induction laneSum a₀ a₁ a₂ a₃ a₄ a₅ a₆ a₇ xs with
  | case1 a₀ a₁ a₂ a₃ a₄ a₅ a₆ a₇ p₀ p₁ p₂ p₃ p₄ p₅ p₆ p₇ rest ih =>
      rw [ih]
      simp only [List.sum_cons]
      ring
  | case2 a₀ a₁ a₂ a₃ a₄ a₅ a₆ a₇ rest _ =>
      rw [foldl_add_eq]
      ring

theorem sumInOrder_eq (xs : List K) : sumInOrder xs = xs.sum := by
  cases xs with
  | nil => rfl
  | cons x xs => rw [sumInOrder, foldl_add_eq, List.sum_cons]

theorem sum_toList_zipWith (x y : Vec K n) :
    (Vector.zipWith (· * ·) x y).toList.sum = x.entry ⬝ᵥ y.entry := by
  have hproducts : (Vector.zipWith (· * ·) x y).toList = List.ofFn fun i =>
    x.entry i * y.entry i := by
    refine List.ext_getElem (by simp) ?_
    intro i hi _
    simp [Vec.entry]
  rw [hproducts, List.sum_ofFn, dotProduct]

theorem dot_eq (x y : Vec K n) : dot x y = x.entry ⬝ᵥ y.entry := by
  rw [dot, laneSum_eq, sum_toList_zipWith]
  ring

theorem norm_eq [ScalarFunctions K] (x : Vec K n) :
    norm x = ScalarFunctions.sqrt (x.entry ⬝ᵥ x.entry) := by
  rw [norm, dot_eq]

namespace Mat

theorem entry_mulVec (a : Mat K m n) (x : Vec K n) :
    Vec.entry (a.mulVec x) = a.toMatrix *ᵥ x.entry := by
  funext i
  have hrow :
      Vec.entry (a.mulVec x) i = sumInOrder (Vector.zipWith (· * ·) (a.row i) x).toList := by
    simp [Vec.entry, mulVec, row]
  rw [hrow, sumInOrder_eq, sum_toList_zipWith]
  rfl

theorem entry_transposeMulVec (a : Mat K m n) (x : Vec K m) :
    Vec.entry (a.transposeMulVec x) = a.toMatrixᵀ *ᵥ x.entry := by
  funext j
  rw [transposeMulVec, Vec.entry_ofFn, dot_eq, column, Vec.entry_ofFn_eq]
  rfl

end Mat

end Sums

/-! ## Products of a vector with itself -/

section Products

variable {K : Type} [Field K] [LinearOrder K] [IsStrictOrderedRing K] {n : ℕ}

theorem dotProduct_self_nonneg (x : Fin n → K) : 0 ≤ x ⬝ᵥ x :=
  Finset.sum_nonneg fun i _ => mul_self_nonneg (x i)

theorem dotProduct_self_pos {x : Fin n → K} (hx : x ≠ 0) : 0 < x ⬝ᵥ x :=
  (dotProduct_self_nonneg x).lt_of_ne fun h => hx (dotProduct_self_eq_zero.mp h.symm)

end Products

end Constitutive.Numeric
