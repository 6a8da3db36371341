import Constitutive.Numeric.Newton
import Constitutive.Proofs.Numeric.Elimination

/-!
# Newton's method does not see the scaling

With exact arithmetic, the unknowns that a run on a scaled system visits are those of Newton's
method on the system itself, `x ↦ x - J(x)⁻¹ F(x)`, whatever the scale factors are
(`newtonLoop_follows`).  Scaling divides row `i` of the linearised system by the factor of residual
`i`, on both sides, and multiplies column `k` by the factor of unknown `k`; undoing the scaling of
the solution takes that factor out again (`physical_correction`).

Scale factors do decide when a run stops, because it is the scaled residual whose norm is compared
with the threshold.  So two runs with different factors visit the same points, as far as both of
them go, but one may stop earlier than the other.
-/

namespace Constitutive.Numeric

open Matrix

variable {K : Type} {n : ℕ}

/-! ## Scaled linear systems -/

namespace Scaling

variable [Field K]

/-- No scale factor is zero. -/
structure Regular (scaling : Scaling K n) : Prop where
  unknown : ∀ i, scaling.unknown.entry i ≠ 0
  residual : ∀ i, scaling.residual.entry i ≠ 0

variable {scaling : Scaling K n}

theorem physical_normalized (h : scaling.Regular) (x : Vec K n) :
    scaling.physical (scaling.normalized x) = x := by
  refine Vec.ext_entry fun i => ?_
  rw [physical, normalized, Vec.entry_zipWith, Vec.entry_zipWith, div_mul_cancel₀ _ (h.unknown i)]

theorem entry_physical (y : Vec K n) (i : Fin n) :
    (scaling.physical y).entry i = y.entry i * scaling.unknown.entry i := by
  rw [physical, Vec.entry_zipWith]

/-- Scaling multiplies the columns of a matrix and divides its rows. -/
theorem toMatrix_scaleJacobian (j : Mat K n n) :
    (scaling.scaleJacobian j).toMatrix =
      diagonal (fun i => (scaling.residual.entry i)⁻¹) * j.toMatrix *
        diagonal scaling.unknown.entry := by
  ext i k
  rw [mul_diagonal, diagonal_mul, Mat.toMatrix_apply, Mat.toMatrix_apply, scaleJacobian,
    Mat.entry_ofFn]
  ring

/-- A scaled matrix has an inverse just when the matrix itself has one. -/
theorem det_scaleJacobian_eq_zero_iff (h : scaling.Regular) (j : Mat K n n) :
    (scaling.scaleJacobian j).toMatrix.det = 0 ↔ j.toMatrix.det = 0 := by
  have hunknown : ∏ i, scaling.unknown.entry i ≠ 0 :=
    Finset.prod_ne_zero_iff.mpr fun i _ => h.unknown i
  have hresidual : ∏ i, (scaling.residual.entry i)⁻¹ ≠ 0 :=
    Finset.prod_ne_zero_iff.mpr fun i _ => inv_ne_zero (h.residual i)
  rw [toMatrix_scaleJacobian, det_mul, det_mul, det_diagonal, det_diagonal]
  simp only [mul_eq_zero, hunknown, hresidual, or_false, false_or]

/-- A solution of the scaled system, with its scaling undone, solves the system itself. -/
theorem mulVec_physical (h : scaling.Regular) {j : Mat K n n} {f y : Vec K n}
    (hy : (scaling.scaleJacobian j).toMatrix *ᵥ y.entry = (scaling.scaleResidual f).entry) :
    j.toMatrix *ᵥ (scaling.physical y).entry = f.entry := by
  have hphysical : (scaling.physical y).entry = diagonal scaling.unknown.entry *ᵥ y.entry := by
    funext i
    rw [entry_physical, mulVec_diagonal, mul_comm]
  rw [toMatrix_scaleJacobian, ← mulVec_mulVec, ← mulVec_mulVec, ← hphysical] at hy
  funext i
  have hi := congrFun hy i
  rw [mulVec_diagonal, scaleResidual, Vec.entry_zipWith, div_eq_inv_mul] at hi
  exact mul_left_cancel₀ (inv_ne_zero (h.residual i)) hi

variable [LinearOrder K] [IsStrictOrderedRing K] [BEq K] [LawfulBEq K] [ScalarFunctions K]
  [ExactScalars K]

theorem solve?_scaled_eq_none_iff (h : scaling.Regular) (j : Mat K n n) (f : Vec K n) :
    solve? (scaling.scaleJacobian j) (scaling.scaleResidual f) = none ↔ j.toMatrix.det = 0 := by
  rw [solve?_eq_none_iff, det_scaleJacobian_eq_zero_iff h]

/-- The correction, with its scaling undone, is that of the system itself. -/
theorem physical_correction (h : scaling.Regular) {j : Mat K n n} {f correction : Vec K n}
    (hsolve : solve? (scaling.scaleJacobian j) (scaling.scaleResidual f) = some correction) :
    j.toMatrix.det ≠ 0 ∧ (scaling.physical correction).entry = j.toMatrix⁻¹ *ᵥ f.entry := by
  obtain ⟨hdet, hsystem⟩ := (solve?_eq_some_iff _ _ _).mp hsolve
  rw [Ne, det_scaleJacobian_eq_zero_iff h] at hdet
  refine ⟨hdet, ?_⟩
  rw [← mulVec_physical h hsystem, mulVec_mulVec,
    nonsing_inv_mul _ (isUnit_iff_ne_zero.mpr hdet), one_mulVec]

end Scaling

/-! ## Runs -/

section Runs

namespace NewtonOutcome

/-- The number of corrections that a run made.  An evaluation that shows convergence or a singular
Jacobian is not followed by one. -/
def corrections (outcome : NewtonOutcome K n) : ℕ :=
  match outcome.ending with
  | .converged _ => outcome.iterations - 1
  | .diverged => outcome.iterations
  | .singular => outcome.iterations - 1

variable {outcome : NewtonOutcome K n}

theorem corrections_of_converged {x : Vec K n} (h : outcome.ending = .converged x) :
    outcome.corrections = outcome.iterations - 1 := by
  rw [corrections, h]

theorem corrections_of_diverged (h : outcome.ending = .diverged) :
    outcome.corrections = outcome.iterations := by
  rw [corrections, h]

theorem corrections_of_singular (h : outcome.ending = .singular) :
    outcome.corrections = outcome.iterations - 1 := by
  rw [corrections, h]

end NewtonOutcome

variable [Field K]

/-- One step of Newton's method on a system without scaling. -/
noncomputable def newtonStep (F : Vec K n → Vec K n) (J : Vec K n → Mat K n n) (x : Vec K n) :
    Vec K n :=
  Vector.ofFn (x.entry - (J x).toMatrix⁻¹ *ᵥ (F x).entry)

/-- What Newton's method without scaling has reached after `k` steps from `x₀`. -/
noncomputable def newtonIterate (F : Vec K n → Vec K n) (J : Vec K n → Mat K n n) (x₀ : Vec K n)
    (k : ℕ) : Vec K n :=
  (newtonStep F J)^[k] x₀

/-- A system that writes down where it is evaluated. -/
def recording (F : Vec K n → Vec K n) (J : Vec K n → Mat K n n) :
    DifferentiableSystem (StateM (List (Vec K n))) K n where
  residual x := do
    modify (· ++ [x])
    pure (F x)
  jacobian x := pure (J x)

theorem newtonIterate_succ (F : Vec K n → Vec K n) (J : Vec K n → Mat K n n)
    (x₀ : Vec K n) (k : ℕ) :
    newtonIterate F J x₀ (k + 1) = newtonStep F J (newtonIterate F J x₀ k) :=
  Function.iterate_succ_apply' _ _ _

variable [LinearOrder K] [ScalarFunctions K]

/-- A residual is so small, with its scaling, that iteration stops. -/
def NewtonSettings.Accepts (settings : NewtonSettings K) (scaling : Scaling K n) (f : Vec K n) :
    Prop :=
  norm (scaling.scaleResidual f) / ScalarFunctions.ofNat n < settings.epsilon

/-- A run that ended with some outcome and was evaluated at some points went the way of Newton's
method without scaling. -/
structure FollowsNewton (F : Vec K n → Vec K n) (J : Vec K n → Mat K n n) (x₀ : Vec K n)
    (scaling : Scaling K n)
    (settings : NewtonSettings K) (outcome : NewtonOutcome K n) (points : List (Vec K n)) :
    Prop where
  points_eq : points = (List.range outcome.iterations).map (newtonIterate F J x₀)
  unknowns_eq : scaling.physical outcome.unknowns = newtonIterate F J x₀ outcome.corrections
  /-- Corrections are made where the residual is too large, with Jacobians that have an inverse. -/
  corrected : ∀ k < outcome.corrections, ¬ settings.Accepts scaling (F (newtonIterate F J x₀ k)) ∧
    (J (newtonIterate F J x₀ k)).toMatrix.det ≠ 0
  iterations_le : outcome.iterations ≤ settings.iterMax
  ending : match outcome.ending with
    | .converged x => 0 < outcome.iterations ∧ x = newtonIterate F J x₀ (outcome.iterations - 1) ∧
        settings.Accepts scaling (F x)
    | .diverged => outcome.iterations = settings.iterMax
    | .singular => 0 < outcome.iterations ∧
        ¬ settings.Accepts scaling (F (newtonIterate F J x₀ (outcome.iterations - 1))) ∧
        (J (newtonIterate F J x₀ (outcome.iterations - 1))).toMatrix.det = 0

variable {F : Vec K n → Vec K n} {J : Vec K n → Mat K n n} {x₀ : Vec K n} {scaling : Scaling K n}
  {settings : NewtonSettings K}

namespace FollowsNewton

variable {first second : Scaling K n} {outcome₁ outcome₂ : NewtonOutcome K n}
  {points₁ points₂ : List (Vec K n)}

theorem getElem?_points (h : FollowsNewton F J x₀ first settings outcome₁ points₁) {k : ℕ}
    (hk : k < outcome₁.iterations) :
    points₁[k]? = some (newtonIterate F J x₀ k) := by
  rw [h.points_eq, List.getElem?_map, List.getElem?_range hk, Option.map_some]

theorem iterations_eq_of_diverged (h : FollowsNewton F J x₀ first settings outcome₁ points₁)
    (hdiverged : outcome₁.ending = .diverged) : outcome₁.iterations = settings.iterMax := by
  have hending := h.ending
  rw [hdiverged] at hending
  exact hending

theorem det_eq_zero_of_singular (h : FollowsNewton F J x₀ first settings outcome₁ points₁)
    (hsingular : outcome₁.ending = .singular) :
    0 < outcome₁.iterations ∧
      (J (newtonIterate F J x₀ (outcome₁.iterations - 1))).toMatrix.det = 0 := by
  have hending := h.ending
  rw [hsingular] at hending
  exact ⟨hending.1, hending.2.2⟩

/-- No run makes a correction where another finds a singular Jacobian. -/
theorem corrections_le_of_singular (h₁ : FollowsNewton F J x₀ first settings outcome₁ points₁)
    (h₂ : FollowsNewton F J x₀ second settings outcome₂ points₂)
    (hsingular : outcome₁.ending = .singular) :
    outcome₂.corrections ≤ outcome₁.iterations - 1 := by
  by_contra hbeyond
  exact (h₂.corrected _ (not_le.mp hbeyond)).2 (h₁.det_eq_zero_of_singular hsingular).2

/-- If one run finds a singular Jacobian, the other finds it too or has converged by then. -/
theorem of_singular (h₁ : FollowsNewton F J x₀ first settings outcome₁ points₁)
    (h₂ : FollowsNewton F J x₀ second settings outcome₂ points₂)
    (hsingular : outcome₁.ending = .singular) :
    outcome₂.corrections < outcome₁.iterations ∧
      (outcome₂.ending = .singular ∧ outcome₂.iterations = outcome₁.iterations ∨
        ∃ x, outcome₂.ending = .converged x ∧ outcome₂.iterations ≤ outcome₁.iterations) := by
  have hpos := (h₁.det_eq_zero_of_singular hsingular).1
  have hbefore := h₁.corrections_le_of_singular h₂ hsingular
  refine ⟨by omega, ?_⟩
  cases hcase : outcome₂.ending with
  | converged x =>
      have hcorrections := NewtonOutcome.corrections_of_converged hcase
      exact .inr ⟨x, rfl, by omega⟩
  | diverged =>
      -- all evaluations allowed were followed by a correction, so the first run made fewer
      have hcorrections := NewtonOutcome.corrections_of_diverged hcase
      have hall := h₂.iterations_eq_of_diverged hcase
      have hlimit := h₁.iterations_le
      omega
  | singular =>
      have hpos₂ := (h₂.det_eq_zero_of_singular hcase).1
      have hafter := h₂.corrections_le_of_singular h₁ hcase
      have hcorrections₁ := NewtonOutcome.corrections_of_singular hsingular
      have hcorrections₂ := NewtonOutcome.corrections_of_singular hcase
      exact .inl ⟨rfl, by omega⟩

theorem increment_eq (h : FollowsNewton F J x₀ first settings outcome₁ points₁) {x : Vec K n}
    (hconverged : outcome₁.ending = .converged x) :
    x = newtonIterate F J x₀ (outcome₁.iterations - 1) := by
  have hending := h.ending
  rw [hconverged] at hending
  exact hending.2.1

end FollowsNewton

variable [BEq K]

/-- One evaluation of a recorded run without a bound on corrections. -/
theorem run_newtonLoop_succ (hfree : settings.maximumIncrement = none) (remaining done : ℕ)
    (error : K) (y : Vec K n) (seen : List (Vec K n)) :
    let x := scaling.physical y
    let g := scaling.scaleResidual (F x)
    let latest := norm g / ScalarFunctions.ofNat n
    (newtonLoop (recording F J) scaling settings (remaining + 1) done error y).run seen =
      if latest < settings.epsilon then (⟨.converged x, done + 1, latest, y⟩, seen ++ [x])
      else match solve? (scaling.scaleJacobian (J x)) g with
        | none => (⟨.singular, done + 1, latest, y⟩, seen ++ [x])
        | some correction =>
          (newtonLoop (recording F J) scaling settings remaining (done + 1) latest
            (Vector.zipWith (· - ·) y correction)).run (seen ++ [x]) := by
  intro x g latest
  rw [newtonLoop]
  simp only [hfree]
  change StateT.run (if latest < settings.epsilon then _ else _) (seen ++ [x]) = _
  split
  · rfl
  · change StateT.run (match solve? (scaling.scaleJacobian (J x)) g with | none => _ | some _ => _)
      (seen ++ [x]) = _
    split
    · rfl
    · rfl

/-- Writing down the points changes nothing else. -/
theorem fst_run_newtonLoop (hfree : settings.maximumIncrement = none) (remaining : ℕ) :
    ∀ (done : ℕ) (error : K) (y : Vec K n) (seen : List (Vec K n)),
      ((newtonLoop (recording F J) scaling settings remaining done error y).run seen).1 =
        newtonLoop (M := Id) ⟨F, J⟩ scaling settings remaining done error y := by
  induction remaining with
  | zero =>
      intro done error y seen
      rfl
  | succ remaining ih =>
      intro done error y seen
      rw [run_newtonLoop_succ hfree, newtonLoop]
      simp only [hfree]
      change _ = if _ < settings.epsilon then _ else _
      split
      · rfl
      · change _ = match solve? (scaling.scaleJacobian (J (scaling.physical y))) _ with
          | none => _
          | some _ => _
        split
        · rfl
        · exact ih _ _ _ _

variable [IsStrictOrderedRing K] [LawfulBEq K] [ExactScalars K]

/-- A correction of the scaled unknowns is a step of the method without scaling. -/
theorem physical_sub_correction (h : scaling.Regular) {y correction : Vec K n}
    (hsolve : solve? (scaling.scaleJacobian (J (scaling.physical y)))
      (scaling.scaleResidual (F (scaling.physical y))) =
      some correction) :
    scaling.physical (Vector.zipWith (· - ·) y correction) =
      newtonStep F J (scaling.physical y) := by
  obtain ⟨-, hcorrection⟩ := Scaling.physical_correction h hsolve
  refine Vec.ext_entry fun i => ?_
  have hi := congrFun hcorrection i
  rw [newtonStep, Vec.entry_ofFn, Pi.sub_apply, ← hi]
  simp only [Scaling.entry_physical, Vec.entry_zipWith]
  ring

/-- What a loop does that has `done` evaluations behind it. -/
theorem newtonLoop_follows (h : scaling.Regular) (hfree : settings.maximumIncrement = none)
    (remaining : ℕ) :
    ∀ (done : ℕ) (error : K) (y : Vec K n), done + remaining = settings.iterMax →
      scaling.physical y = newtonIterate F J x₀ done →
      (∀ k < done, ¬ settings.Accepts scaling (F (newtonIterate F J x₀ k)) ∧
        (J (newtonIterate F J x₀ k)).toMatrix.det ≠ 0) →
      let run := (newtonLoop (recording F J) scaling settings remaining done error y).run
        ((List.range done).map (newtonIterate F J x₀))
      FollowsNewton F J x₀ scaling settings run.1 run.2 := by
  induction remaining with
  | zero =>
      intro done error y hbudget hy hcorrected
      exact ⟨rfl, hy, hcorrected, hbudget.le, hbudget⟩
  | succ remaining ih =>
      intro done error y hbudget hy hcorrected
      have hseen : (List.range done).map (newtonIterate F J x₀) ++ [scaling.physical y] =
          (List.range (done + 1)).map (newtonIterate F J x₀) := by
        rw [List.range_succ, List.map_append, List.map_singleton, hy]
      have hlimit : done + 1 ≤ settings.iterMax := by omega
      simp only [run_newtonLoop_succ hfree, hseen]
      split
      · rename_i hsmall
        exact ⟨rfl, hy, hcorrected, hlimit, Nat.succ_pos _, hy, hsmall⟩
      · rename_i hlarge
        split
        · rename_i hnone
          rw [Scaling.solve?_scaled_eq_none_iff h, hy] at hnone
          rw [hy] at hlarge
          exact ⟨rfl, hy, hcorrected, hlimit, Nat.succ_pos _, hlarge, hnone⟩
        · rename_i correction hsome
          refine ih (done + 1) _ _ (by omega) ?_ ?_
          · rw [physical_sub_correction h hsome, hy, newtonIterate_succ]
          · intro k hk
            rcases Nat.lt_succ_iff_lt_or_eq.mp hk with hlt | rfl
            · exact hcorrected k hlt
            · rw [← hy]
              exact ⟨hlarge, (Scaling.physical_correction h hsome).1⟩

/-- A whole run goes the way of Newton's method without scaling. -/
theorem newton_follows (h : scaling.Regular) (hfree : settings.maximumIncrement = none)
    (x₀ : Vec K n) :
    FollowsNewton F J x₀ scaling settings
      (newton (M := Id) ⟨F, J⟩ scaling settings (scaling.normalized x₀))
      ((newton (recording F J) scaling settings (scaling.normalized x₀)).run []).2 := by
  have hrun := newtonLoop_follows h hfree settings.iterMax 0 0 (scaling.normalized x₀) (F := F)
    (J := J) (Nat.zero_add _)
    (Scaling.physical_normalized h x₀) (fun k hk => absurd hk (Nat.not_lt_zero k))
  rw [newton, ← fst_run_newtonLoop hfree settings.iterMax 0 0 (scaling.normalized x₀) []]
  exact hrun

/-- Newton's method from a given start visits the same points with any non-zero scale factors,
namely those of the method without scaling.  A run that has not stopped makes no correction where
another finds a singular Jacobian. -/
theorem newton_independent_of_scaling (F : Vec K n → Vec K n) (J : Vec K n → Mat K n n)
    (x₀ : Vec K n)
    (settings : NewtonSettings K) (hfree : settings.maximumIncrement = none)
    (first second : Scaling K n)
    (hfirst : first.Regular) (hsecond : second.Regular) :
    let outcome (scaling : Scaling K n) :=
  newton (M := Id) ⟨F, J⟩ scaling settings (scaling.normalized x₀)
    let points (scaling : Scaling K n) :=
      ((newton (recording F J) scaling settings (scaling.normalized x₀)).run []).2
    FollowsNewton F J x₀ first settings (outcome first) (points first) ∧
      FollowsNewton F J x₀ second settings (outcome second) (points second) ∧
      (∀ k < (outcome first).iterations, k < (outcome second).iterations →
        (points first)[k]? = some (newtonIterate F J x₀ k) ∧
        (points second)[k]? = some (newtonIterate F J x₀ k)) ∧
      ((outcome first).ending = .singular →
        (outcome second).corrections < (outcome first).iterations ∧
          ((outcome second).ending = .singular ∧
            (outcome second).iterations = (outcome first).iterations ∨
            ∃ x, (outcome second).ending = .converged x ∧
            (outcome second).iterations ≤ (outcome first).iterations)) ∧
      ∀ x₁ x₂, (outcome first).ending = .converged x₁ → (outcome second).ending = .converged x₂ →
        (outcome first).iterations = (outcome second).iterations → x₁ = x₂ := by
  intro outcome points
  have h₁ : FollowsNewton F J x₀ first settings (outcome first) (points first) :=
    newton_follows hfirst hfree x₀
  have h₂ : FollowsNewton F J x₀ second settings (outcome second) (points second) :=
    newton_follows hsecond hfree x₀
  refine ⟨h₁, h₂, ?_, h₁.of_singular h₂, ?_⟩
  · intro k hk₁ hk₂
    exact ⟨h₁.getElem?_points hk₁, h₂.getElem?_points hk₂⟩
  · intro x₁ x₂ hx₁ hx₂ hsame
    rw [h₁.increment_eq hx₁, h₂.increment_eq hx₂, hsame]

end Runs

deriving instance DecidableEq for NewtonEnding

/-- The equation `x * x + 1 = 0`. -/
def parabola : Vec ℚ 1 → Vec ℚ 1 :=
  fun x => #v[x.entry 0 * x.entry 0 + 1]

/-- The derivative of `parabola`, which is zero at zero. -/
def parabolaSlope : Vec ℚ 1 → Mat ℚ 1 1 :=
  fun x => #v[#v[2 * x.entry 0]]

def parabolaSettings : NewtonSettings ℚ where
  iterMax := 5
  epsilon := 1 / 2

/-- A scaling with which the residual of `parabola` at zero is below the threshold. -/
def stretched : Scaling ℚ 1 where
  unknown := #v[2]
  residual := #v[-3]

/-- A run on `parabola` that starts at one. -/
def parabolaRun (scaling : Scaling ℚ 1) : NewtonOutcome ℚ 1 :=
  newton (M := Id) ⟨parabola, parabolaSlope⟩ scaling parabolaSettings (scaling.normalized #v[1])

/-- From one the method goes to zero, where a run without scaling finds a singular Jacobian and the
other has converged. -/
theorem newton_independent_of_scaling_parabola :
    (Scaling.identity 1 : Scaling ℚ 1).Regular ∧ stretched.Regular ∧
      (parabolaRun (.identity 1)).ending = .singular ∧
      (parabolaRun stretched).ending = .converged #v[0] ∧
      (parabolaRun stretched).corrections < (parabolaRun (.identity 1)).iterations ∧
      newtonIterate parabola parabolaSlope #v[1] 1 = #v[0] := by
  have hidentity : (Scaling.identity 1 : Scaling ℚ 1).Regular := ⟨by decide, by decide⟩
  have hstretched : stretched.Regular := ⟨by decide, by decide⟩
  have hsingular : (parabolaRun (.identity 1)).ending = .singular := by decide +kernel
  have hconverged : (parabolaRun stretched).ending = .converged #v[0] := by decide +kernel
  have hiterations : (parabolaRun stretched).iterations = 2 := by decide +kernel
  obtain ⟨-, hfollows, -, hstop, -⟩ :=
    newton_independent_of_scaling parabola parabolaSlope #v[1] parabolaSettings rfl
    (.identity 1) stretched hidentity hstretched
  have hincrement := hfollows.increment_eq hconverged
  rw [parabolaRun] at hiterations
  rw [hiterations] at hincrement
  exact ⟨hidentity, hstretched, hsingular, hconverged, (hstop hsingular).1, hincrement.symm⟩

end Constitutive.Numeric
