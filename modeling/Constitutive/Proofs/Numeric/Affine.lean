import Constitutive.Proofs.Numeric.Evaluations
import Constitutive.Proofs.Numeric.Newton
import Constitutive.Proofs.Numeric.Sums

/-!
# Newton's method on affine systems

The linearisation of the equations `A x = b` is the system itself.  So with exact arithmetic one
correction leads to the solution from wherever a run starts (`newtonStep_affine`), the residual
there is zero, and the next evaluation ends the run.  Scale factors decide whether the start is good
enough, and nothing else.

A run is put together from its evaluations: one that is accepted ends it (`newtonLoop_of_accepted`),
and one that is refused takes the scaled unknowns a step of the method without scaling further
(`newtonLoop_of_refused`).
-/

namespace Constitutive.Numeric

open Matrix

variable {K : Type} [Field K] {n : ℕ}

/-! ## The equations -/

/-- The residual of the equations `A x = b`. -/
def affineResidual (a : Mat K n n) (b x : Vec K n) : Vec K n :=
  Vector.ofFn (a.toMatrix *ᵥ x.entry - b.entry)

/-- The solution of the equations `A x = b`. -/
noncomputable def affineSolution (a : Mat K n n) (b : Vec K n) : Vec K n :=
  Vector.ofFn (a.toMatrix⁻¹ *ᵥ b.entry)

section Equations

variable {a : Mat K n n}

theorem affineResidual_affineSolution (ha : a.toMatrix.det ≠ 0) (b : Vec K n) (i : Fin n) :
    (affineResidual a b (affineSolution a b)).entry i = 0 := by
  have hinverse : a.toMatrix * a.toMatrix⁻¹ = 1 := mul_nonsing_inv _ (isUnit_iff_ne_zero.mpr ha)
  rw [affineResidual, affineSolution, Vec.entry_ofFn, Vec.entry_ofFn_eq, mulVec_mulVec, hinverse,
    one_mulVec, sub_self, Pi.zero_apply]

/-- One step leads to the solution. -/
theorem newtonStep_affine (ha : a.toMatrix.det ≠ 0) (b x : Vec K n) :
    newtonStep (affineResidual a b) (fun _ => a) x = affineSolution a b := by
  have hinverse : a.toMatrix⁻¹ * a.toMatrix = 1 := nonsing_inv_mul _ (isUnit_iff_ne_zero.mpr ha)
  rw [newtonStep, affineSolution, affineResidual, Vec.entry_ofFn_eq, mulVec_sub, mulVec_mulVec,
    hinverse, one_mulVec, sub_sub_cancel]

end Equations

/-! ## One evaluation -/

theorem Scaling.normalized_physical {scaling : Scaling K n} (h : scaling.Regular) (y : Vec K n) :
    scaling.normalized (scaling.physical y) = y := by
  refine Vec.ext_entry fun i => ?_
  rw [normalized, Vec.entry_zipWith, entry_physical, mul_div_cancel_right₀ _ (h.unknown i)]

/-- The Euclidean norm of a residual divided by its scale factors, over the number of equations. -/
def scaledError [ScalarFunctions K] (scaling : Scaling K n) (f : Vec K n) : K :=
  ScalarFunctions.sqrt (∑ i, (f.entry i / scaling.residual.entry i) ^ 2) / n

variable [LinearOrder K] [ScalarFunctions K]

section Errors

variable [FieldScalars K]

theorem Evaluation.error_eq (scaling : Scaling K n) (e : Evaluation K n) :
    e.error scaling = scaledError scaling e.residual := by
  have hentry : ∀ i, (scaling.scaleResidual e.residual).entry i = e.residual.entry i /
      scaling.residual.entry i :=
    fun i => Vec.entry_zipWith _ _ _ i
  simp only [Evaluation.error, scaledError, norm_eq, FieldScalars.ofNat_eq, dotProduct,
    hentry, pow_two]

theorem scaledError_of_zero (scaling : Scaling K n) {f : Vec K n} (hf : ∀ i, f.entry i = 0) :
    scaledError scaling f = 0 := by
  simp only [scaledError, hf, zero_div, ne_eq, OfNat.ofNat_ne_zero, not_false_eq_true, zero_pow,
    Finset.sum_const_zero, FieldScalars.sqrt_zero]

end Errors

variable [BEq K] {F : Vec K n → Vec K n} {J : Vec K n → Mat K n n} {scaling : Scaling K n}
  {settings : NewtonSettings K}

/-- A system without effects is evaluated once in an iteration. -/
theorem newtonLoop_succ (remaining done : ℕ) (error : K) (y : Vec K n) :
    newtonLoop (M := Id) ⟨F, J⟩ scaling settings (remaining + 1) done error y =
      afterEvaluation (M := Id) ⟨F, J⟩ scaling settings remaining done
        ⟨y, F (scaling.physical y), J (scaling.physical y)⟩ := rfl

variable [FieldScalars K]

theorem newtonLoop_of_accepted {y : Vec K n}
    (hsmall : scaledError scaling (F (scaling.physical y)) < settings.epsilon)
    (remaining done : ℕ) (error : K) :
    newtonLoop (M := Id) ⟨F, J⟩ scaling settings (remaining + 1) done error y =
      ⟨.converged (scaling.physical y), done + 1,
          scaledError scaling (F (scaling.physical y)), y⟩ := by
  rw [newtonLoop_succ, afterEvaluation_of_small (by rwa [Evaluation.error_eq]), Evaluation.error_eq]
  rfl

variable [IsStrictOrderedRing K] [LawfulBEq K]

theorem newtonLoop_of_refused (h : scaling.Regular) (hfree : settings.maximumIncrement = none)
    {y : Vec K n} (hlarge : ¬ scaledError scaling (F (scaling.physical y)) < settings.epsilon)
    (hdet : (J (scaling.physical y)).toMatrix.det ≠ 0) (remaining done : ℕ) (error : K) :
    newtonLoop (M := Id) ⟨F, J⟩ scaling settings (remaining + 1) done error y =
      newtonLoop (M := Id) ⟨F, J⟩ scaling settings remaining (done + 1)
        (scaledError scaling (F (scaling.physical y)))
        (scaling.normalized (newtonStep F J (scaling.physical y))) := by
  set e : Evaluation K n := ⟨y, F (scaling.physical y), J (scaling.physical y)⟩ with he
  have hsome : e.solution? scaling ≠ none :=
    mt (Scaling.solve?_scaled_eq_none_iff h e.jacobian e.residual).mp hdet
  obtain ⟨correction, hcorrection⟩ := Option.ne_none_iff_exists'.mp hsome
  have herror : e.error scaling = scaledError scaling (F (scaling.physical y)) := e.error_eq scaling
  have hunbounded : settings.bounded correction = correction := by
    rw [NewtonSettings.bounded, hfree]
  have hstep : scaling.normalized (newtonStep F J (scaling.physical y)) =
      Vector.zipWith (· - ·) y correction := by
    rw [← physical_sub_correction h hcorrection, Scaling.normalized_physical h]
  rw [newtonLoop_succ, ← he, afterEvaluation_of_some (herror ▸ hlarge) hcorrection, herror,
    hunbounded, hstep]

/-! ## Runs -/

/-- A run on the equations `A x = b` ends with its first evaluation if the start is good enough.
Otherwise it ends with the second one, exactly at the solution, or without convergence if a second
one is not allowed. -/
theorem newton_affine_ends_at_second_evaluation (a : Mat K n n) (ha : a.toMatrix.det ≠ 0)
    (b : Vec K n) (scaling : Scaling K n)
    (hscaling : scaling.Regular) (settings : NewtonSettings K) (hepsilon : 0 < settings.epsilon)
    (hfree : settings.maximumIncrement = none) (y : Vec K n) :
    let outcome := newton (M := Id) ⟨affineResidual a b, fun _ => a⟩ scaling settings y
    let error := scaledError scaling (affineResidual a b (scaling.physical y))
    let solution := affineSolution a b
    (error < settings.epsilon → 1 ≤ settings.iterMax →
        outcome = ⟨.converged (scaling.physical y), 1, error, y⟩) ∧
      (¬ error < settings.epsilon →
        (2 ≤ settings.iterMax →
          outcome = ⟨.converged solution, 2, 0, scaling.normalized solution⟩) ∧
        (settings.iterMax = 1 → outcome = ⟨.diverged, 1, error, scaling.normalized solution⟩)) := by
  intro outcome error solution
  -- a start that is refused is followed by the solution, whatever it was
  have hrefused (remaining : ℕ) (hlarge : ¬ error < settings.epsilon) :
      newtonLoop (M := Id) ⟨affineResidual a b, fun _ => a⟩ scaling settings (remaining + 1) 0 0 y =
        newtonLoop (M := Id) ⟨affineResidual a b, fun _ => a⟩ scaling settings remaining 1 error
          (scaling.normalized solution) := by
    rw [newtonLoop_of_refused (F := affineResidual a b) (J := fun _ => a) hscaling hfree hlarge ha,
      newtonStep_affine ha]
  refine ⟨?_, fun hlarge => ⟨?_, ?_⟩⟩
  · intro hsmall hallowed
    obtain ⟨remaining, hbudget⟩ := Nat.exists_eq_add_of_le' hallowed
    simp only [outcome, newton, hbudget]
    exact newtonLoop_of_accepted hsmall remaining 0 0
  · intro hallowed
    obtain ⟨remaining, hbudget⟩ := Nat.exists_eq_add_of_le' hallowed
    have hphysical : scaling.physical (scaling.normalized solution) = solution :=
      Scaling.physical_normalized hscaling solution
    have hzero : scaledError scaling
        (affineResidual a b (scaling.physical (scaling.normalized solution))) = 0 := by
      rw [hphysical]
      exact scaledError_of_zero scaling (affineResidual_affineSolution ha b)
    simp only [outcome, newton, hbudget]
    refine (hrefused (remaining + 1) hlarge).trans ?_
    rw [newtonLoop_of_accepted (by rwa [hzero]), hzero, hphysical]
  · intro hbudget
    simp only [outcome, newton, hbudget]
    exact hrefused 0 hlarge

/-- Two equations with the solution `(-1, 3)`. -/
def skewEquations : Mat ℚ 2 2 := #v[#v[2, 1], #v[1, 1]]

def skewScaling : Scaling ℚ 2 where
  unknown := #v[2, -1]
  residual := #v[1 / 2, 3]

/-- A run on `skewEquations` with a limited number of evaluations, from a point with the scaled
residual `(3, 4)`. -/
def skewRun (iterMax : ℕ) : NewtonOutcome ℚ 2 :=
  newton (M := Id) ⟨affineResidual skewEquations #v[1, 2], fun _ => skewEquations⟩ skewScaling
    { iterMax := iterMax, epsilon := 1 } #v[-23 / 4, -51 / 2]

/-- The start is not good enough, and the second of seven evaluations is made at the solution. -/
theorem newton_affine_ends_at_second_evaluation_skew :
    skewEquations.toMatrix.det ≠ 0 ∧ skewScaling.Regular ∧
      scaledError skewScaling (affineResidual skewEquations #v[1, 2]
        (skewScaling.physical #v[-23 / 4, -51 / 2])) = 5 / 2 ∧
      skewRun 7 = ⟨.converged #v[-1, 3], 2, 0, #v[-1 / 2, -3]⟩ ∧
      skewRun 1 = ⟨.diverged, 1, 5 / 2, #v[-1 / 2, -3]⟩ := by
  have hdet : skewEquations.toMatrix.det ≠ 0 := by
    rw [det_fin_two]
    decide +kernel
  have hregular : skewScaling.Regular := ⟨by decide +kernel, by decide +kernel⟩
  have herror : scaledError skewScaling
      (affineResidual skewEquations #v[1, 2] (skewScaling.physical #v[-23 / 4, -51 / 2])) = 5 /
      2 := by decide +kernel
  have hsolution : affineSolution skewEquations #v[1, 2] = #v[-1, 3] := by
    have hsolves : Vec.entry #v[1, 2] = skewEquations.toMatrix *ᵥ Vec.entry #v[-1, 3] := by
      decide +kernel
    have hinverse := nonsing_inv_mul _ (isUnit_iff_ne_zero.mpr hdet)
    rw [affineSolution, hsolves, mulVec_mulVec, hinverse, one_mulVec]
    exact Vec.ext_entry (Vec.entry_ofFn _)
  have hscaled : skewScaling.normalized #v[-1, 3] = #v[-1 / 2, -3] := by decide +kernel
  have hruns (iterMax : ℕ) :=
    newton_affine_ends_at_second_evaluation skewEquations hdet #v[1, 2] skewScaling hregular
    { iterMax := iterMax, epsilon := 1 } one_pos rfl #v[-23 / 4, -51 / 2]
  simp only [herror, hsolution, hscaled] at hruns
  refine ⟨hdet, hregular, herror, ?_, ?_⟩
  · exact ((hruns 7).2 (by norm_num)).1 (by norm_num)
  · exact ((hruns 1).2 (by norm_num)).2 rfl

end Constitutive.Numeric
