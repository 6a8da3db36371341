import Constitutive.Proofs.Numeric.Sums

/-!
# The secant update changes a matrix as little as possible

An update is made for a step `dz` that is long enough, and adds `(df - J dz) dzᵀ / (dz·dz)` to the
matrix `J`.  So the new matrix takes a vector `w` where the old one does, up to the multiple
`dz·w / dz·dz` of the defect `df - J dz` (`mulVec_updated`).  Two laws follow: the step is mapped to
the observed change `df`, and vectors orthogonal to it are mapped as before.

Every matrix that maps the step to `df` differs from `J` by rows whose products with `dz` are the
entries of the defect.  By the Cauchy–Schwarz inequality none of them is shorter than the row of the
update, which is a multiple of `dz` (`row_change_le`).
-/

namespace Constitutive.Numeric

open Matrix

variable {K : Type} [Field K] {m n : ℕ}

/-- The matrix after an update. -/
def updatedMatrix (j : Matrix (Fin m) (Fin n) K) (dz : Fin n → K) (df : Fin m → K) :
    Matrix (Fin m) (Fin n) K :=
  j + (1 / (dz ⬝ᵥ dz)) • vecMulVec (df - j *ᵥ dz) dz

theorem updatedMatrix_apply (j : Matrix (Fin m) (Fin n) K) (dz : Fin n → K) (df : Fin m → K)
    (i : Fin m) (k : Fin n) :
    updatedMatrix j dz df i k = j i k + (df - j *ᵥ dz) i / (dz ⬝ᵥ dz) * dz k := by
  rw [updatedMatrix, Matrix.add_apply, Matrix.smul_apply, vecMulVec_apply, smul_eq_mul]
  ring

theorem mulVec_updated (j : Matrix (Fin m) (Fin n) K) (dz : Fin n → K) (df : Fin m → K)
    (w : Fin n → K) :
    updatedMatrix j dz df *ᵥ w = j *ᵥ w + (dz ⬝ᵥ w / (dz ⬝ᵥ dz)) • (df - j *ᵥ dz) := by
  rw [updatedMatrix, add_mulVec, smul_mulVec, vecMulVec_mulVec, op_smul_eq_smul, smul_smul, one_div,
    inv_mul_eq_div]

variable [LinearOrder K] [IsStrictOrderedRing K]

/-- No row that gives the defect is shorter than that of the update. -/
theorem row_change_le {dz : Fin n → K} (hdz : 0 < dz ⬝ᵥ dz) {row : Fin n → K} {defect : K}
    (hrow : row ⬝ᵥ dz = defect) :
    ∑ k, (defect / (dz ⬝ᵥ dz) * dz k) ^ 2 ≤ ∑ k, row k ^ 2 := by
  have hsquares : ∑ k, dz k ^ 2 = dz ⬝ᵥ dz := by simp only [dotProduct, pow_two]
  have hschwarz : defect ^ 2 ≤ (∑ k, row k ^ 2) * (dz ⬝ᵥ dz) := by
    rw [← hrow, ← hsquares]
    exact Finset.sum_mul_sq_le_sq_mul_sq Finset.univ row dz
  calc ∑ k, (defect / (dz ⬝ᵥ dz) * dz k) ^ 2 = (defect / (dz ⬝ᵥ dz)) ^ 2 * (dz ⬝ᵥ dz) := by
        simp only [mul_pow, ← Finset.mul_sum, hsquares]
    _ = defect ^ 2 / (dz ⬝ᵥ dz) := by field_simp
    _ ≤ ∑ k, row k ^ 2 := (div_le_iff₀ hdz).mpr hschwarz

theorem updatedMatrix_changes_least {dz : Fin n → K} (hdz : 0 < dz ⬝ᵥ dz)
    (j : Matrix (Fin m) (Fin n) K) {df : Fin m → K}
    {b : Matrix (Fin m) (Fin n) K} (hb : b *ᵥ dz = df) :
    ∑ i, ∑ k, (updatedMatrix j dz df i k - j i k) ^ 2 ≤ ∑ i, ∑ k, (b i k - j i k) ^ 2 := by
  refine Finset.sum_le_sum fun i _ => ?_
  have hrow : (fun k => b i k - j i k) ⬝ᵥ dz = (df - j *ᵥ dz) i := by
    rw [← hb, ← sub_mulVec]
    rfl
  simp only [updatedMatrix_apply, add_sub_cancel_left]
  exact row_change_le hdz hrow

variable [ScalarFunctions K] [FieldScalars K]

omit [IsStrictOrderedRing K] in
theorem isNegligible_iff (dz : Vec K n) :
    isNegligible dz = true ↔ dz.entry ⬝ᵥ dz.entry ≤ 100 * ScalarFunctions.epsilon := by
  rw [isNegligible, decide_eq_true_eq, dot_eq, FieldScalars.ofNat_eq, Nat.cast_ofNat]

theorem dotProduct_pos_of_not_negligible {dz : Vec K n} (h : isNegligible dz = false) :
    0 < dz.entry ⬝ᵥ dz.entry := by
  rw [← Bool.not_eq_true, isNegligible_iff, not_le] at h
  have hepsilon : (0 : K) ≤ ScalarFunctions.epsilon := FieldScalars.epsilon_nonneg
  linarith

omit [IsStrictOrderedRing K] [FieldScalars K] in
theorem isSome_secantUpdate (j : Mat K m n) (dz : Vec K n) (df : Vec K m) :
    (secantUpdate j dz df).isSome = !isNegligible dz := by
  cases h : isNegligible dz with
  | true => simp [secantUpdate, h]
  | false => simp [secantUpdate, h]

omit [IsStrictOrderedRing K] [FieldScalars K] in
theorem toMatrix_getD_secantUpdate {dz : Vec K n} (h : isNegligible dz = false) (j : Mat K m n)
    (df : Vec K m) :
    Mat.toMatrix ((secantUpdate j dz df).getD j) = updatedMatrix j.toMatrix dz.entry df.entry := by
  ext i k
  rw [secantUpdate, if_neg (by rw [h]; exact Bool.false_ne_true), Option.getD_some,
    Mat.toMatrix_apply, Mat.entry_ofFn, Vec.entry_zipWith, Mat.entry_mulVec, dot_eq,
    updatedMatrix_apply, Pi.sub_apply, Mat.toMatrix_apply]
  ring

/-- A matrix is left alone if the step is too short.  Otherwise it maps the step to the observed
change and vectors orthogonal to the step as before, and no matrix that maps the step so is closer
to the old one. -/
theorem secant_update_changes_least (j : Mat K m n) (dz : Vec K n) (df : Vec K m) :
    let updated := (secantUpdate j dz df).isSome
    let after := (secantUpdate j dz df).getD j
    (updated = false ↔ dz.entry ⬝ᵥ dz.entry ≤ 100 * ScalarFunctions.epsilon) ∧
    (updated = false → after = j) ∧
      (updated = true → after.toMatrix *ᵥ dz.entry = df.entry ∧
        (∀ w, dz.entry ⬝ᵥ w = 0 → after.toMatrix *ᵥ w = j.toMatrix *ᵥ w) ∧
        ∀ b : Matrix (Fin m) (Fin n) K, b *ᵥ dz.entry = df.entry →
          ∑ i, ∑ k, (after.entry i k - j.entry i k) ^ 2 ≤ ∑ i, ∑ k, (b i k - j.entry i k) ^ 2) := by
  intro updated after
  have hupdated : updated = !isNegligible dz := isSome_secantUpdate j dz df
  refine ⟨?_, ?_, ?_⟩
  · rw [← isNegligible_iff, hupdated, Bool.not_eq_false']
  · intro hfalse
    rw [Option.isSome_eq_false_iff, Option.isNone_iff_eq_none] at hfalse
    simp only [after, hfalse, Option.getD_none]
  · intro htrue
    rw [hupdated, Bool.not_eq_true'] at htrue
    have hdz := dotProduct_pos_of_not_negligible htrue
    have hafter : after.toMatrix = updatedMatrix j.toMatrix dz.entry df.entry :=
      toMatrix_getD_secantUpdate htrue j df
    refine ⟨?_, ?_, ?_⟩
    · rw [hafter, mulVec_updated, div_self hdz.ne', one_smul, add_sub_cancel]
    · intro w hw
      rw [hafter, mulVec_updated, hw, zero_div, zero_smul, add_zero]
    · intro b hb
      have hleast := updatedMatrix_changes_least hdz j.toMatrix hb
      rwa [← hafter] at hleast

/-- With the epsilon of doubles, a step of `10⁻⁸` is too short, and one of about a third is not. -/
theorem secant_update_changes_least_oblique :
    let unit : Mat ℝ 2 2 := Mat.ofFn ![![1, 0], ![0, 1]]
    let change : Vec ℝ 2 := Vector.ofFn ![1, 1 / 2]
    let short : Vec ℝ 2 := Vector.ofFn ![1 / 10 ^ 8, 0]
    let oblique : Vec ℝ 2 := Vector.ofFn ![3 / 10, -1 / 5]
    (secantUpdate unit short change).isSome = false ∧
    (secantUpdate unit oblique change).isSome = true ∧
      Mat.toMatrix ((secantUpdate unit oblique change).getD unit) *ᵥ oblique.entry =
      change.entry := by
  intro unit change short oblique
  have hepsilon : (100 * ScalarFunctions.epsilon : ℝ) = 100 * (1 / 2 ^ 52) := rfl
  obtain ⟨hshort, -, -⟩ := secant_update_changes_least unit short change
  obtain ⟨hoblique, -, hlaws⟩ := secant_update_changes_least unit oblique change
  rw [hepsilon, Vec.entry_ofFn_eq] at hshort hoblique
  have hlong : (secantUpdate unit oblique change).isSome = true := by
    rw [← Bool.not_eq_false, hoblique]
    norm_num
  exact ⟨hshort.mpr (by norm_num), hlong, (hlaws hlong).1⟩

end Constitutive.Numeric
