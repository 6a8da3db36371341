import Constitutive.Proofs.Numeric.Sums

/-!
# The dog-leg step ends on the boundary of the trust region

Here scalars have exact square roots.  A Newton step that is not shorter than the radius is replaced
by a step that is exactly as long as the radius.

If the Cauchy point lies outside, it is pulled back.  If it lies inside, the step is a point between
it and the Newton step.  With the squared lengths `p²` of the Newton step, `c²` of the Cauchy point
and `r²` of the radius, and the product `p·c`, the part `α` of the way is the positive solution of

  `(p² - 2 p·c + c²) α² + 2 (p·c - c²) α = r² - c²`,

which is computed as `(r² - c²) / ((p·c - c²) + √d)` with `d = (p·c - r²)² + (p² - r²) (r² - c²)`
(`partOfWay`).  The root is not below `r² - p·c`, so the denominator is not below the numerator,
which is positive (`Crossing.numerator_le_denominator`).

In a field every quotient has a value.  That no division by zero occurs means that other values of
such quotients would not change the step (`AgreesOffZero`).
-/

namespace Constitutive.Numeric

open Matrix

variable {K : Type} [Field K] {n : ℕ}

/-- Quotients are those of the field wherever the divisor is not zero. -/
def AgreesOffZero (quotient : K → K → K) : Prop :=
  ∀ a b : K, b ≠ 0 → quotient a b = a / b

/-! ## The Cauchy point -/

section Cauchy

theorem entry_cauchyPoint (j : Mat K n n) (f : Vec K n) :
    (cauchyPoint j f).entry =
      let g := j.toMatrixᵀ *ᵥ f.entry
      (g ⬝ᵥ g / (j.toMatrix *ᵥ g ⬝ᵥ j.toMatrix *ᵥ g)) • g := by
  funext i
  rw [cauchyPoint, Vec.entry_map, dot_eq, dot_eq, Mat.entry_mulVec,
    Mat.entry_transposeMulVec, mul_comm]
  rfl

theorem cauchyPoint_of_agrees {quotient : K → K → K} (h : AgreesOffZero quotient) {j : Mat K n n}
    {f : Vec K n} {g : Fin n → K}
    (hg : g = j.toMatrixᵀ *ᵥ f.entry) (himage : j.toMatrix *ᵥ g ⬝ᵥ j.toMatrix *ᵥ g ≠ 0) :
    @cauchyPoint K n n _ _ _ ⟨quotient⟩ j f = cauchyPoint j f := by
  rw [hg, ← Mat.entry_transposeMulVec, ← Mat.entry_mulVec, ← dot_eq] at himage
  exact congrArg (fun scale => (j.transposeMulVec f).map (· * scale)) (h _ _ himage)

/-- The direction of steepest descent of an invertible system is not zero, and neither is its
image. -/
theorem image_pos [LinearOrder K] [IsStrictOrderedRing K] {j : Matrix (Fin n) (Fin n) K}
    (hj : j.det ≠ 0) {f g : Fin n → K}
    (hf : f ≠ 0) (hg : g = jᵀ *ᵥ f) : 0 < g ⬝ᵥ g ∧ 0 < j *ᵥ g ⬝ᵥ j *ᵥ g := by
  have hdirection : g ≠ 0 := by
    intro hzero
    have hdet := exists_mulVec_eq_zero_iff.mp ⟨f, hf, hg.symm.trans hzero⟩
    rw [det_transpose] at hdet
    exact hj hdet
  have himage : j *ᵥ g ≠ 0 := fun hzero => hj (exists_mulVec_eq_zero_iff.mp ⟨g, hdirection, hzero⟩)
  exact ⟨dotProduct_self_pos hdirection, dotProduct_self_pos himage⟩

end Cauchy

/-! ## The way to the Newton step -/

/-- The number under the square root of a step between a Cauchy point `c` and a Newton step `p`. -/
def discriminant (p c : Fin n → K) (radius : K) : K :=
  (p ⬝ᵥ c - radius * radius) * (p ⬝ᵥ c - radius * radius) + (p ⬝ᵥ p - radius * radius) *
    (radius * radius - c ⬝ᵥ c)

/-- How far a step goes from a Cauchy point `c` to a Newton step `p`. -/
def partOfWay [ScalarFunctions K] (p c : Fin n → K) (radius : K) : K :=
  (radius * radius - c ⬝ᵥ c) / ((p ⬝ᵥ c - c ⬝ᵥ c) + ScalarFunctions.sqrt (discriminant p c radius))

variable [LinearOrder K]

/-- The way from a Cauchy point `c` to a Newton step `p` crosses the boundary of the trust
region. -/
structure Crossing (p c : Fin n → K) (radius : K) : Prop where
  outside : radius * radius ≤ p ⬝ᵥ p
  inside : c ⬝ᵥ c < radius * radius

variable [IsStrictOrderedRing K]

namespace Crossing

variable {p c : Fin n → K} {radius : K}

theorem product_nonneg (h : Crossing p c radius) :
    0 ≤ (p ⬝ᵥ p - radius * radius) * (radius * radius - c ⬝ᵥ c) :=
  mul_nonneg (sub_nonneg.mpr h.outside) (sub_nonneg.mpr h.inside.le)

theorem discriminant_nonneg (h : Crossing p c radius) : 0 ≤ discriminant p c radius :=
  add_nonneg (mul_self_nonneg _) h.product_nonneg

variable [ScalarFunctions K] [ExactRoots K]

theorem root_mul_self (h : Crossing p c radius) :
    ScalarFunctions.sqrt (discriminant p c radius) *
      ScalarFunctions.sqrt (discriminant p c radius) =
      (p ⬝ᵥ c - radius * radius) * (p ⬝ᵥ c - radius * radius) + (p ⬝ᵥ p - radius * radius) *
        (radius * radius - c ⬝ᵥ c) :=
  ExactRoots.sqrt_mul_self _ h.discriminant_nonneg

theorem numerator_le_denominator (h : Crossing p c radius) :
    radius * radius - c ⬝ᵥ c ≤ (p ⬝ᵥ c - c ⬝ᵥ c) +
      ScalarFunctions.sqrt (discriminant p c radius) := by
  have hsquare : (radius * radius - p ⬝ᵥ c) * (radius * radius - p ⬝ᵥ c) ≤
      ScalarFunctions.sqrt (discriminant p c radius) *
      ScalarFunctions.sqrt (discriminant p c radius) := by
    have hproduct := h.product_nonneg
    rw [h.root_mul_self]
    linarith
  have hroot :=
    nonneg_le_nonneg_of_sq_le_sq (ExactRoots.sqrt_nonneg _ h.discriminant_nonneg) hsquare
  linarith

theorem denominator_pos (h : Crossing p c radius) :
    0 < (p ⬝ᵥ c - c ⬝ᵥ c) + ScalarFunctions.sqrt (discriminant p c radius) :=
  (sub_pos.mpr h.inside).trans_le h.numerator_le_denominator

theorem partOfWay_pos (h : Crossing p c radius) : 0 < partOfWay p c radius :=
  div_pos (sub_pos.mpr h.inside) h.denominator_pos

theorem partOfWay_le_one (h : Crossing p c radius) : partOfWay p c radius ≤ 1 :=
  (div_le_one h.denominator_pos).mpr h.numerator_le_denominator

/-- The part of the way leads to the boundary. -/
theorem partOfWay_reaches (h : Crossing p c radius) {part : K}
    (hpart : part = partOfWay p c radius) :
    (part • p + (1 - part) • c) ⬝ᵥ (part • p + (1 - part) • c) = radius * radius := by
  have hdenominator := h.denominator_pos.ne'
  have hequation : part * ((p ⬝ᵥ c - c ⬝ᵥ c) + ScalarFunctions.sqrt (discriminant p c radius)) =
      radius * radius - c ⬝ᵥ c := by
    rw [hpart, partOfWay, div_mul_cancel₀ _ hdenominator]
  have hroot := h.root_mul_self
  generalize ScalarFunctions.sqrt (discriminant p c radius) = root at hdenominator hequation hroot
  simp only [add_dotProduct, dotProduct_add, smul_dotProduct, dotProduct_smul, smul_eq_mul,
    dotProduct_comm c p]
  -- times the denominator twice, this is the equation of the part and that of the root
  refine mul_right_cancel₀ hdenominator (mul_right_cancel₀ hdenominator ?_)
  linear_combination ((p ⬝ᵥ p - 2 * (p ⬝ᵥ c) + c ⬝ᵥ c) *
    (part * ((p ⬝ᵥ c - c ⬝ᵥ c) + root) + (radius * radius - c ⬝ᵥ c)) +
    2 * (p ⬝ᵥ c - c ⬝ᵥ c) * ((p ⬝ᵥ c - c ⬝ᵥ c) + root)) * hequation - (radius * radius -
    c ⬝ᵥ c) * hroot

end Crossing

/-! ## Steps -/

section Steps

variable [ScalarFunctions K] [ExactRoots K] {radius : K} {newton cauchy : Vec K n}

theorem norm_eq_of_dotProduct_self (hradius : 0 < radius) {x : Vec K n}
    (hx : x.entry ⬝ᵥ x.entry = radius * radius) :
    norm x = radius := by
  rw [norm_eq, hx, sqrt_mul_self_eq hradius]

theorem crossing_of_norm (hradius : 0 < radius) (houtside : radius ≤ norm newton)
    (hinside : norm cauchy < radius) :
    Crossing newton.entry cauchy.entry radius where
  outside := by rwa [norm_eq, le_sqrt_iff (dotProduct_self_nonneg _) hradius] at houtside
  inside := by rwa [norm_eq, sqrt_lt_iff (dotProduct_self_nonneg _) hradius] at hinside

/-- What is divided by on the way to the Newton step. -/
theorem denominator_eq (h : Crossing newton.entry cauchy.entry radius) :
    (dot newton cauchy - dot cauchy cauchy) + ScalarFunctions.sqrt (ScalarFunctions.larger
        ((dot newton cauchy - radius * radius) * (dot newton cauchy - radius * radius) +
          (dot newton newton - radius * radius) * (radius * radius - dot cauchy cauchy)) 0) =
      (newton.entry ⬝ᵥ cauchy.entry - cauchy.entry ⬝ᵥ cauchy.entry) +
        ScalarFunctions.sqrt (discriminant newton.entry cauchy.entry radius) := by
  rw [dot_eq, dot_eq, dot_eq, FieldScalars.larger_eq]
  exact congrArg (_ + ScalarFunctions.sqrt ·) (max_eq_left h.discriminant_nonneg)

theorem entry_alongDogLeg (h : Crossing newton.entry cauchy.entry radius) :
    (alongDogLeg radius newton cauchy).entry =
      partOfWay newton.entry cauchy.entry radius • newton.entry +
        (1 - partOfWay newton.entry cauchy.entry radius) • cauchy.entry := by
  funext i
  rw [alongDogLeg, Vec.entry_zipWith, denominator_eq h, dot_eq, mul_comm, mul_comm (cauchy.entry i)]
  rfl

theorem alongDogLeg_of_agrees {quotient : K → K → K} (hquotient : AgreesOffZero quotient)
    (h : Crossing newton.entry cauchy.entry radius) :
    @alongDogLeg K n _ _ _ ⟨quotient⟩ _ _ _ radius newton cauchy =
      alongDogLeg radius newton cauchy := by
  have hdenominator := h.denominator_pos.ne'
  rw [← denominator_eq h] at hdenominator
  exact congrArg (fun part => Vector.zipWith (fun p c => p * part + c * (1 - part)) newton cauchy)
    (hquotient _ _ hdenominator)

omit [LinearOrder K] [IsStrictOrderedRing K] [ExactRoots K] in
theorem entry_toBoundary (radius : K) (cauchy : Vec K n) :
    (toBoundary radius cauchy).entry = (radius / norm cauchy) • cauchy.entry := by
  funext i
  rw [toBoundary, Vec.entry_map, mul_comm]
  rfl

theorem norm_toBoundary (hradius : 0 < radius) (houtside : radius ≤ norm cauchy) :
    norm (toBoundary radius cauchy) = radius := by
  have hpos := hradius.trans_le houtside
  have hsquare : norm cauchy * norm cauchy = cauchy.entry ⬝ᵥ cauchy.entry := by
    rw [norm_eq, ExactRoots.sqrt_mul_self _ (dotProduct_self_nonneg _)]
  refine norm_eq_of_dotProduct_self hradius ?_
  rw [entry_toBoundary, smul_dotProduct, dotProduct_smul, smul_eq_mul, smul_eq_mul, ← hsquare]
  field_simp

omit [LinearOrder K] [IsStrictOrderedRing K] [ExactRoots K] in
theorem toBoundary_of_agrees {quotient : K → K → K} (hquotient : AgreesOffZero quotient)
    (hne : norm cauchy ≠ 0) :
    @toBoundary K n _ _ _ ⟨quotient⟩ _ radius cauchy = toBoundary radius cauchy :=
  congrArg (fun scale => cauchy.map (· * scale)) (hquotient _ _ hne)

/-- No division by zero occurs in a dog-leg step. -/
theorem dogLegStep_of_agrees {quotient : K → K → K} (hquotient : AgreesOffZero quotient)
    {j : Mat K n n} {f : Vec K n}
    {g : Fin n → K} (hg : g = j.toMatrixᵀ *ᵥ f.entry)
    (himage : j.toMatrix *ᵥ g ⬝ᵥ j.toMatrix *ᵥ g ≠ 0)
    (hradius : 0 < radius) :
    @dogLegStep K n n _ _ _ ⟨quotient⟩ _ _ _ _ _ j f newton radius =
      dogLegStep j f newton radius := by
  unfold dogLegStep
  rw [cauchyPoint_of_agrees hquotient hg himage]
  split
  · rfl
  · rename_i houtside
    dsimp only
    split
    · rename_i hinside
      exact alongDogLeg_of_agrees hquotient (crossing_of_norm hradius (not_lt.mp houtside) hinside)
    · rename_i hcauchy
      exact toBoundary_of_agrees hquotient (hradius.trans_le (not_lt.mp hcauchy)).ne'

/-- Inside the trust region the dog-leg step is the Newton step.  Otherwise it ends on the boundary,
between the Cauchy point and the Newton step or in the direction of steepest descent.  It does not
matter whether the Newton step solves the system. -/
theorem dog_leg_step_ends_on_boundary (j : Mat K n n) (hj : j.toMatrix.det ≠ 0) (f : Vec K n)
    (hf : f.entry ≠ 0) (newton : Vec K n) (radius : K) (hradius : 0 < radius) :
    let length (x : Fin n → K) : K := ScalarFunctions.sqrt (x ⬝ᵥ x)
    let p := newton.entry
    let g := j.toMatrixᵀ *ᵥ f.entry
    let image := j.toMatrix *ᵥ g
    let c := (g ⬝ᵥ g / (image ⬝ᵥ image)) • g
    let step := dogLegStep j f newton radius
    (∀ quotient : K → K → K, AgreesOffZero quotient →
        @dogLegStep K n n _ _ _ ⟨quotient⟩ _ _ _ _ _ j f newton radius = step) ∧
      (length p < radius → step = newton) ∧
      (radius ≤ length p → image ⬝ᵥ image ≠ 0 ∧ length step.entry = radius ∧
        (length c < radius →
          0 ≤ discriminant p c radius ∧
          (p ⬝ᵥ c - c ⬝ᵥ c) + ScalarFunctions.sqrt (discriminant p c radius) ≠ 0 ∧
            ∃ part : K, 0 < part ∧ part ≤ 1 ∧ step.entry = part • p + (1 - part) • c) ∧
        (radius ≤ length c → length c ≠ 0 ∧ ∃ scale : K, 0 < scale ∧ step.entry = scale • g)) := by
  intro length p g image c step
  obtain ⟨hdirection, himage⟩ := image_pos hj hf (g := g) rfl
  have hcauchy : (cauchyPoint j f).entry = c := entry_cauchyPoint j f
  have hnorm : ∀ x : Vec K n, norm x = length x.entry := norm_eq
  refine ⟨fun quotient hquotient => dogLegStep_of_agrees hquotient rfl himage.ne' hradius, ?_, ?_⟩
  · intro hshort
    rw [← hnorm] at hshort
    exact if_pos hshort
  · intro hlong
    rw [← hnorm] at hlong
    have hstep : step = if norm (cauchyPoint j f) < radius
        then alongDogLeg radius newton (cauchyPoint j f)
        else toBoundary radius (cauchyPoint j f) := if_neg hlong.not_gt
    have hlength : norm (cauchyPoint j f) = length c := by rw [hnorm, hcauchy]
    refine ⟨himage.ne', ?_⟩
    by_cases hinside : norm (cauchyPoint j f) < radius
    · have hcrossing := crossing_of_norm hradius hlong hinside
      have hentry := entry_alongDogLeg hcrossing
      rw [if_pos hinside] at hstep
      rw [← hstep, hcauchy] at hentry
      rw [hcauchy] at hcrossing
      refine ⟨?_, fun _ => ?_, fun hfar => absurd (hlength ▸ hinside) hfar.not_gt⟩
      · simp only [length]
        rw [hentry, hcrossing.partOfWay_reaches rfl, sqrt_mul_self_eq hradius]
      · exact ⟨hcrossing.discriminant_nonneg, hcrossing.denominator_pos.ne', _,
          hcrossing.partOfWay_pos, hcrossing.partOfWay_le_one, hentry⟩
    · have hfar := not_lt.mp hinside
      have hpos := hradius.trans_le hfar
      rw [if_neg hinside] at hstep
      refine ⟨?_, fun hnear => absurd (hlength ▸ hnear) hinside, fun _ => ⟨hlength ▸ hpos.ne', ?_⟩⟩
      · rw [← hnorm, hstep, norm_toBoundary hradius hfar]
      · refine ⟨radius / norm (cauchyPoint j f) * (g ⬝ᵥ g / (image ⬝ᵥ image)), ?_, ?_⟩
        · exact mul_pos (div_pos hradius hpos) (div_pos hdirection himage)
        · rw [hstep, entry_toBoundary, hcauchy, smul_smul]

end Steps

noncomputable def stiffJacobian : Mat ℝ 2 2 := Mat.ofFn ![![1, 0], ![0, 10]]

noncomputable def stiffResidual : Vec ℝ 2 := Vector.ofFn ![1, 1]

noncomputable def stiffNewton : Vec ℝ 2 := Vector.ofFn ![1, 1 / 10]

/-- The Newton step is longer than the radius and the Cauchy point is not, so that the step ends
between them. -/
theorem dog_leg_step_ends_on_boundary_stiff :
    let g : Fin 2 → ℝ := stiffJacobian.toMatrixᵀ *ᵥ stiffResidual.entry
    let image := stiffJacobian.toMatrix *ᵥ g
    let step := (dogLegStep stiffJacobian stiffResidual stiffNewton (1 / 2)).entry
    stiffJacobian.toMatrix *ᵥ stiffNewton.entry = stiffResidual.entry ∧ √(step ⬝ᵥ step) = 1 / 2 ∧
      ∃ part : ℝ, 0 < part ∧ part ≤ 1 ∧
        step = part • stiffNewton.entry + (1 - part) • (g ⬝ᵥ g / (image ⬝ᵥ image)) • g := by
  intro g image step
  have hmatrix : stiffJacobian.toMatrix = !![1, 0; 0, 10] := by
    ext i k
    rw [stiffJacobian, Mat.toMatrix_apply, Mat.entry_ofFn]
    rfl
  have hresidual : stiffResidual.entry = ![1, 1] := Vec.entry_ofFn_eq _
  have hnewton : stiffNewton.entry = ![1, 1 / 10] := Vec.entry_ofFn_eq _
  have hdirection : g = ![1, 10] := by simp [g, hmatrix, hresidual]
  have hproduct : ∀ x y : ℝ, stiffJacobian.toMatrix *ᵥ ![x, y] = ![x, 10 * y] := by
    intro x y
    rw [hmatrix, cons_mulVec, cons_mulVec, empty_mulVec]
    simp
  have himage : image = ![1, 10 * 10] := by rw [← hproduct, ← hdirection]
  have hdet : stiffJacobian.toMatrix.det ≠ 0 := by simp [hmatrix]
  have hnonzero : stiffResidual.entry ≠ 0 := by simp [hresidual]
  have hlong : 1 / 2 ≤ √(stiffNewton.entry ⬝ᵥ stiffNewton.entry) := by
    rw [Real.le_sqrt' (by norm_num), hnewton]
    norm_num
  have hshort : √((g ⬝ᵥ g / (image ⬝ᵥ image)) • g ⬝ᵥ (g ⬝ᵥ g / (image ⬝ᵥ image)) • g) < 1 / 2 := by
    rw [Real.sqrt_lt' (by norm_num), hdirection, himage]
    norm_num
  obtain ⟨-, -, houtside⟩ :=
    dog_leg_step_ends_on_boundary stiffJacobian hdet stiffResidual hnonzero stiffNewton (1 / 2)
    one_half_pos
  obtain ⟨-, hlength, hbetween, -⟩ := houtside hlong
  refine ⟨?_, hlength, (hbetween hshort).2.2⟩
  rw [hnewton, hproduct, hresidual]
  norm_num

end Constitutive.Numeric
