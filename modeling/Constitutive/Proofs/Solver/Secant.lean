import Constitutive.Proofs.Code.Execution
import Constitutive.Section.Loop
import Mathlib.Algebra.Field.Rat
import Mathlib.Algebra.Module.Torsion.Field
import Mathlib.Algebra.Module.Torsion.Pi
import Mathlib.Tactic.Abel
import Mathlib.Tactic.Ring

/-!
# The step that secant methods remember

The methods of Broyden update a matrix from the last change of the unknowns.  After the correction
has been subtracted, they remember its negative as the step.  Limits act on the correction before,
so the step is what was subtracted.  Relaxation acts on the unknowns afterwards: it takes a part of
the change back, and the step is not told (`relaxed_broyden_step_not_applied`).

## Strategy

The branch is split at the memory in which the correction is computed.  What comes before, the code
of the strategy and the limits, may leave anything in the members it works in
(`Secant.mem_workspace`), but does not touch the unknowns.  What comes after is executed exactly
(`runsAll_update`).
-/

namespace Constitutive

open Stmt

variable {K : Type*} [Field K] {n : ℕ}

namespace Strategy

/-- Strategies that update a matrix from the last step: the methods of Broyden, alone or under a
dog-leg. -/
inductive Secant : Strategy → Prop
  | broyden : Secant broyden
  | broyden2 : Secant broyden2
  | dogLeg (name : String) {inner : Strategy} (hinner : Secant inner) :
      Secant (powellDogLeg name inner)

/-- The members that secant methods work in. -/
def workspace : List Member := [.fzeros, .fzeros2, .jacobian, .jacobian2]

namespace Secant

variable {solver : Strategy}

theorem requiresNumericalJacobian (h : solver.Secant) :
    solver.capabilities.requiresNumericalJacobian = false := by
  induction h with
  | broyden => rfl
  | broyden2 => rfl
  | dogLeg name _ ih => exact ih

theorem afterUpdate (h : solver.Secant) (ctx : SolverContext) :
    solver.afterUpdate ctx = [rememberStep] := by
  induction h with
  | broyden => rfl
  | broyden2 => rfl
  | dogLeg name _ ih => exact ih

theorem factorised (h : solver.Secant) {matrix : Piece}
    (hmatrix : solver.factorised = some matrix) :
    matrix = Member.jacobian := by
  induction h with
  | broyden => exact (Option.some.inj hmatrix).symm
  | broyden2 => cases hmatrix
  | dogLeg name _ ih => exact ih hmatrix

end Secant

/-! ## What a correction writes -/

section Writes

variable {solver : Strategy} {m : Member}

@[simp] theorem onlyReads_singularJacobian :
    Line.onlyReads "std::cout << \"integrate() : singular jacobian at iteration \" << " = true := by
  decide

theorem mem_workspace_of_solveLinear {ctx : SolverContext} {matrix : Member}
    (hmatrix : matrix ∈ workspace) (h : WritesIn (solveLinear ctx matrix) m) : m ∈ workspace := by
  have hwrites : m = matrix ∨ m = .fzeros := by
    simp [solveLinear, fail] at h
    exact h.2
  rcases hwrites with rfl | rfl
  · exact hmatrix
  · decide

theorem mem_workspace_of_dogLegCorrection {ctx : SolverContext} {matrix : Piece} {residual : String}
    (hmatrix : matrix = Member.jacobian ∨ matrix = "pdl_jacobian")
    (h : WritesIn (dogLegCorrection ctx matrix residual) m) : m ∈ workspace := by
  have hwrites : m = .jacobian ∨ m = .fzeros := by
    rcases hmatrix with rfl | rfl
    · simp [dogLegCorrection, localValue, Line.concat, vectorType, accumulate, forAllUnknowns,
        Line.forBelow, Line.forIndex] at h
      tauto
    · simp [dogLegCorrection, localValue, Line.concat, vectorType, accumulate, forAllUnknowns,
        Line.forBelow, Line.forIndex] at h
      tauto
  rcases hwrites with rfl | rfl
  · decide
  · decide

/-- A secant method only writes the members it works in when it computes a correction. -/
theorem Secant.mem_workspace (h : solver.Secant) {ctx : SolverContext}
    (hm : WritesIn (solver.correction ctx) m) :
    m ∈ workspace := by
  induction h with
  | broyden =>
      have hwrites : m = .jacobian ∨ m = .fzeros2 ∨ m = .jacobian2 ∨
          WritesIn (solveLinear ctx Member.jacobian2) m := by
        simpa [Constitutive.broyden, afterFirstIteration, residualChange, localValue,
          Line.concat, vectorType, rememberResidual] using hm
      rcases hwrites with rfl | rfl | rfl | hsolve
      · decide
      · decide
      · decide
      · exact mem_workspace_of_solveLinear (by decide) hsolve
  | broyden2 =>
      have hwrites : m = .jacobian ∨ m = .fzeros2 ∨ m = .fzeros := by
        simpa [Constitutive.broyden2, afterFirstIteration, residualChange, localValue,
          Line.concat, vectorType, rememberResidual] using hm
      rcases hwrites with rfl | rfl | rfl
      · decide
      · decide
      · decide
  | dogLeg name hinner ih =>
      rename_i inner
      unfold powellDogLeg at hm
      cases hfactorised : inner.factorised with
      | some matrix =>
          have hwrites : WritesIn (inner.correction ctx) m ∨
              WritesIn (dogLegCorrection ctx matrix "pdl_fzeros") m := by
            simpa [hfactorised, localCopy, vectorType, Line.concat] using hm
          rcases hwrites with hcorrection | hdogLeg
          · exact ih hcorrection
          · exact mem_workspace_of_dogLegCorrection (.inl (hinner.factorised hfactorised)) hdogLeg
      | none =>
          have hwrites : WritesIn (inner.correction ctx) m ∨
              WritesIn (dogLegCorrection ctx "pdl_jacobian" "pdl_fzeros") m := by
            simpa [hfactorised, localCopy, vectorType, matrixType, Line.concat] using hm
          rcases hwrites with hcorrection | hdogLeg
          · exact ih hcorrection
          · exact mem_workspace_of_dogLegCorrection (.inr rfl) hdogLeg

end Writes

/-! ## What a correction can be -/

section Runs

variable {solver : Strategy} {s : Memory K n}

theorem runs_local {rest : Line} : Runs (.line (.text "const " :: rest)) s s :=
  runs_line.mpr (Line.step_self rfl (by simp [Line.Leaves]) s)

/-- Nothing is known about the solution of a linear system. -/
theorem runsAll_solveLinear (ctx : SolverContext) (matrix : Member) (c : Fin n → K) :
    RunsAll (solveLinear ctx matrix) s (s.setVector .fzeros c) := by
  refine runsAll_cons.mpr ⟨s.setVector .fzeros c, runs_block.mpr (Line.guards_of_pass rfl ?_), ?_⟩
  · rw [runsAll_singleton, runs_line]
    exact Line.step_setVector rfl (by simp [Line.Leaves]) (by simp; decide) s c
  · exact runsAll_singleton.mpr (runs_block_self rfl)

/-- The dog-leg does not change a correction inside the trust region. -/
theorem runsAll_dogLegCorrection (ctx : SolverContext) (matrix : Piece) (residual : String) :
    RunsAll (dogLegCorrection ctx matrix residual) s s := by
  refine runsAll_self fun stmt hstmt => ?_
  simp only [dogLegCorrection, List.mem_cons, List.not_mem_nil, or_false] at hstmt
  rcases hstmt with rfl | rfl
  · exact runs_local
  · exact runs_block_self rfl

/-- The update from the last step may be left out. -/
theorem runsAll_rememberResidual {update rest : List Stmt} {t : Memory K n}
    (h : RunsAll rest ((Assignment.copy .fzeros2 .fzeros).run s) t) :
    RunsAll (afterFirstIteration update :: rememberResidual :: rest) s t :=
  runsAll_cons.mpr ⟨s, runs_block_self rfl, runsAll_cons.mpr ⟨_, runs_line.mpr rfl, h⟩⟩

/-- Nothing is known about the correction that a secant method computes: executions may leave any
vector. -/
theorem Secant.exists_runsAll (h : solver.Secant) (ctx : SolverContext) (s : Memory K n)
    (c : Fin n → K) :
    ∃ t, RunsAll (solver.correction ctx) s t ∧ (t .fzeros).vector = c := by
  induction h with
  | broyden =>
      let kept : Memory K n := (Assignment.copy .fzeros2 .fzeros).run s
      let copied : Memory K n := (Assignment.copy .jacobian2 .jacobian).run kept
      have hsolve :
          RunsAll (solveLinear ctx Member.jacobian2) copied (copied.setVector .fzeros c) :=
        runsAll_solveLinear ctx .jacobian2 c
      exact ⟨copied.setVector .fzeros c,
        runsAll_rememberResidual (runsAll_cons.mpr ⟨copied, runs_line.mpr rfl, hsolve⟩),
        Memory.vector_setVector_self⟩
  | broyden2 =>
      let kept : Memory K n := (Assignment.copy .fzeros2 .fzeros).run s
      have hproduct :
          Runs (.line [Member.fzeros, " = (", Member.jacobian, ") * (", Member.fzeros, ");"]) kept
          (kept.setVector .fzeros c) :=
        runs_line.mpr (Line.step_setVector rfl (by simp [Line.Leaves]) (by simp) kept c)
      exact ⟨kept.setVector .fzeros c, runsAll_rememberResidual (runsAll_singleton.mpr hproduct),
        Memory.vector_setVector_self⟩
  | dogLeg name hinner ih =>
      rename_i inner
      obtain ⟨t, hcorrection, hvector⟩ := ih
      refine ⟨t, runsAll_cons.mpr ⟨s, runs_local, ?_⟩, hvector⟩
      cases inner.factorised with
      | some matrix => exact runsAll_append.mpr ⟨t, hcorrection, runsAll_dogLegCorrection ..⟩
      | none =>
          refine runsAll_cons.mpr ⟨s, runs_local, ?_⟩
          exact runsAll_append.mpr ⟨t, hcorrection, runsAll_dogLegCorrection ..⟩

end Runs

end Strategy

/-! ## Limits -/

namespace Limits

variable {limits : Limits} {layout : Layout} {factors : Factors}

theorem eq_fzeros_of_clampComponent {head bound : Line} {m : Member} (hhead : ¬ head.Calls)
    (hbound : ¬ bound.Calls)
    (h : WritesIn [.block head [clampComponent bound]] m) : m = .fzeros := by
  simpa [clampComponent, Line.concat, hhead, hbound] using h

/-- Limits only act on the correction. -/
theorem eq_fzeros_of_clamp {m : Member} (h : WritesIn (limits.clamp layout factors) m) :
    m = .fzeros := by
  rw [clamp, writesIn_append, writesIn_flatMap] at h
  rcases h with ⟨slot, -, hslot⟩ | hoverall
  · unfold clampSlot at hslot
    split at hslot
    · exact absurd hslot not_writesIn_nil
    · refine eq_fzeros_of_clampComponent ?_ ?_ hslot
      · simp [Line.forIndex, Line.concat]
      · split <;> simp
  · split at hoverall
    · exact absurd hoverall not_writesIn_nil
    · exact eq_fzeros_of_clampComponent (by simp [Line.forBelow, Line.forIndex, Line.concat])
        (by simp) hoverall

/-- A correction within its limits is not changed. -/
theorem runsAll_clamp (limits : Limits) (layout : Layout) (factors : Factors) (s : Memory K n) :
    RunsAll (limits.clamp layout factors) s s := by
  refine runsAll_self fun stmt hstmt => ?_
  rw [clamp, List.mem_append, List.mem_flatMap] at hstmt
  rcases hstmt with ⟨slot, -, hslot⟩ | hoverall
  · unfold clampSlot at hslot
    split at hslot
    · cases hslot
    · rw [List.mem_singleton.mp hslot]
      exact runs_block_self rfl
  · split at hoverall
    · cases hoverall
    · rw [List.mem_singleton.mp hoverall]
      exact runs_block_self rfl

end Limits

/-! ## The update of the unknowns -/

namespace Loop

/-- What is done with a correction. -/
def update (loop : Loop) : List Stmt :=
  [.line [Member.zeros, " -= ", Member.fzeros, ";"], rememberStep] ++ onlyIf loop.relaxation [relax]

theorem correct_eq {loop : Loop} (hsolver : loop.solver.Secant) :
    loop.correct =
      loop.solver.correction loop.context ++ loop.limits.clamp loop.layout loop.factors ++
        loop.update := by
  simp [correct, update, hsolver.requiresNumericalJacobian, hsolver.afterUpdate, onlyIf]

/-- The unknowns are relaxed. -/
def Relaxes (loop : Loop) (s : Memory K n) : Prop :=
  loop.relaxation = true ∧ (s .relaxationTrigger).count ≤ (s .iter).count

instance (loop : Loop) (s : Memory K n) : Decidable (loop.Relaxes s) :=
  inferInstanceAs (Decidable (_ ∧ _))

/-- The part of a correction that is kept. -/
def kept (loop : Loop) (s : Memory K n) : K :=
  if loop.Relaxes s then (s .relaxationCoefficient).number else 1

/-- The memory after the correction has been subtracted and remembered as the step. -/
def moved (s : Memory K n) : Memory K n :=
  (Assignment.negate .step .fzeros).run ((Assignment.subtract .zeros .fzeros).run s)

/-- The memory after the update. -/
def updated (loop : Loop) (s : Memory K n) : Memory K n :=
  if loop.Relaxes s then (Assignment.retract .zeros .relaxationCoefficient .zeros .zeros1).run
    (moved s) else moved s

theorem runs_relax {s t : Memory K n} :
    Runs relax s t ↔ t = if (s .relaxationTrigger).count ≤ (s .iter).count then
      (Assignment.retract .zeros .relaxationCoefficient .zeros .zeros1).run s else s := by
  have hcalls : ¬ Line.Calls ["if(", Member.iter, " >= ", Member.relaxationTrigger, ")"] := by simp
  have hguards : Runs relax s t ↔ if (s .relaxationTrigger).count ≤ (s .iter).count then
      RunsAll [.line [Member.zeros, " -= (1 - ", Member.relaxationCoefficient, ") * (",
        Member.zeros, " - ", Member.zeros1, ");"]] s t else t = s :=
    runs_block.trans (imp_iff_right hcalls)
  rw [hguards]
  split
  · rw [runsAll_singleton, runs_line]
    rfl
  · rfl

/-- The update is executed exactly. -/
theorem runsAll_update {loop : Loop} {s t : Memory K n} :
    RunsAll loop.update s t ↔ t = loop.updated s := by
  have hmoved : RunsAll loop.update s t ↔ RunsAll (onlyIf loop.relaxation [relax]) (moved s) t := by
    rw [update, runsAll_append]
    constructor
    · rintro ⟨u, hu, hrest⟩
      obtain ⟨v, hsubtract, hremember⟩ := runsAll_cons.mp hu
      obtain rfl : v = (Assignment.subtract .zeros .fzeros).run s := runs_line.mp hsubtract
      obtain rfl : u = moved s := runs_line.mp (runsAll_singleton.mp hremember)
      exact hrest
    · intro hrest
      exact ⟨moved s,
        runsAll_cons.mpr ⟨_, runs_line.mpr rfl, runsAll_singleton.mpr (runs_line.mpr rfl)⟩, hrest⟩
  rw [hmoved, updated]
  cases hrelaxation : loop.relaxation with
  | false => simp [onlyIf, Relaxes, hrelaxation]
  | true =>
      -- the counts that are compared are still those from before
      have htrigger : moved s .relaxationTrigger = s .relaxationTrigger := by
        simp [moved, Assignment.run]
      have hiter : moved s .iter = s .iter := by simp [moved, Assignment.run]
      rw [onlyIf, if_pos rfl, runsAll_singleton, runs_relax, htrigger, hiter]
      simp only [Relaxes, hrelaxation, true_and]

section Updated

variable {loop : Loop} {s : Memory K n}

theorem updated_zeros1 : loop.updated s .zeros1 = s .zeros1 := by
  unfold updated
  split <;> simp [moved, Assignment.run]

theorem updated_fzeros : loop.updated s .fzeros = s .fzeros := by
  unfold updated
  split <;> simp [moved, Assignment.run]

theorem updated_step : (loop.updated s .step).vector = -(s .fzeros).vector := by
  unfold updated
  split <;> simp [moved, Assignment.run]

/-- The unknowns have changed by the part of the correction that is kept. -/
theorem updated_zeros (hstart : (s .zeros).vector = (s .zeros1).vector) :
    (loop.updated s .zeros).vector = (s .zeros1).vector - loop.kept s • (s .fzeros).vector := by
  unfold updated kept
  split
  · ext i
    simp [moved, Assignment.run, hstart]
    ring
  · simp [moved, Assignment.run, hstart]

end Updated

/-- A run of the correction computes one, and then updates the unknowns with it. -/
theorem exists_of_runsAll_correct {loop : Loop} (hsolver : loop.solver.Secant) {s t : Memory K n}
    (h : RunsAll loop.correct s t) :
    ∃ u, (∀ m ∉ Strategy.workspace, u m = s m) ∧ t = loop.updated u := by
  rw [correct_eq hsolver, runsAll_append] at h
  obtain ⟨u, hcorrection, hupdate⟩ := h
  refine ⟨u, fun m hm => eq_of_runsAll _ hcorrection ?_, runsAll_update.mp hupdate⟩
  rw [writesIn_append]
  rintro (hwrites | hwrites)
  · exact hm (hsolver.mem_workspace hwrites)
  · obtain rfl := Limits.eq_fzeros_of_clamp hwrites
    exact hm (by decide)

/-- Nothing is known about the correction. -/
theorem exists_runsAll_correct {loop : Loop} (hsolver : loop.solver.Secant) (s : Memory K n)
    (c : Fin n → K) :
    ∃ t, RunsAll loop.correct s t ∧ (t .fzeros).vector = c := by
  obtain ⟨u, hcorrection, hvector⟩ := hsolver.exists_runsAll loop.context s c
  refine ⟨loop.updated u, ?_, by rw [updated_fzeros, hvector]⟩
  rw [correct_eq hsolver, runsAll_append]
  exact ⟨u, runsAll_append.mpr ⟨u, hcorrection, Limits.runsAll_clamp ..⟩, runsAll_update.mpr rfl⟩

/-- The change of the unknowns is the part of the step that is kept. -/
theorem change_of_runsAll_correct {loop : Loop} (hsolver : loop.solver.Secant) {s t : Memory K n}
    (h : RunsAll loop.correct s t) (hstart : (s .zeros).vector = (s .zeros1).vector) :
    t .zeros1 = s .zeros1 ∧ (t .step).vector = -(t .fzeros).vector ∧
      (t .zeros).vector - (t .zeros1).vector = loop.kept s • (t .step).vector := by
  obtain ⟨u, hkeeps, rfl⟩ := exists_of_runsAll_correct hsolver h
  have hzeros : u .zeros = s .zeros := hkeeps _ (by decide)
  have hzeros1 : u .zeros1 = s .zeros1 := hkeeps _ (by decide)
  have hrelaxes : loop.Relaxes u ↔ loop.Relaxes s := by
    unfold Relaxes
    rw [hkeeps .relaxationTrigger (by decide), hkeeps .iter (by decide)]
  have hkept : loop.kept u = loop.kept s := by
    simp only [kept, hrelaxes, hkeeps .relaxationCoefficient (by decide)]
  refine ⟨updated_zeros1.trans hzeros1, by rw [updated_step, updated_fzeros], ?_⟩
  rw [updated_zeros (by rw [hzeros, hzeros1, hstart]), updated_zeros1, updated_step,
    hkept, smul_neg]
  abel

/-- Whether the step is the change of the unknowns depends on the part that is kept. -/
theorem step_eq_change_iff {loop : Loop} (hsolver : loop.solver.Secant) {s t : Memory K n}
    (h : RunsAll loop.correct s t) (hstart : (s .zeros).vector = (s .zeros1).vector) :
    (t .step).vector = (t .zeros).vector - (t .zeros1).vector ↔ loop.kept s = 1 ∨
      (t .fzeros).vector = 0 := by
  obtain ⟨-, hstep, hchange⟩ := change_of_runsAll_correct hsolver h hstart
  calc (t .step).vector = (t .zeros).vector - (t .zeros1).vector
      ↔ (1 - loop.kept s) • (t .step).vector = 0 := by rw [hchange, sub_smul, one_smul, sub_eq_zero]
    _ ↔ 1 - loop.kept s = 0 ∨ (t .step).vector = 0 := smul_eq_zero
    _ ↔ loop.kept s = 1 ∨ (t .fzeros).vector = 0 := by rw [sub_eq_zero, eq_comm, hstep, neg_eq_zero]

/-- With relaxation, some step is not the change of the unknowns. -/
theorem exists_step_ne_change {loop : Loop} (hsolver : loop.solver.Secant)
    (hrelaxation : loop.relaxation = true) (hn : n ≠ 0) :
    ∃ s t : Memory K n, RunsAll loop.correct s t ∧ (s .zeros).vector = (s .zeros1).vector ∧
      (t .step).vector ≠ (t .zeros).vector - (t .zeros1).vector := by
  let s : Memory K n := fun _ => { vector := 0, number := 0, count := 0 }
  obtain ⟨t, ht, hvector⟩ := exists_runsAll_correct hsolver s 1
  refine ⟨s, t, ht, rfl, ?_⟩
  rw [Ne, step_eq_change_iff hsolver ht rfl, hvector, not_or]
  constructor
  · simp [kept, Relaxes, hrelaxation, s]
  · have : NeZero n := ⟨hn⟩
    exact one_ne_zero

/-- In the branch that corrects the unknowns, secant methods remember the negative of the correction
as the step, after limits and before relaxation.  The unknowns change by the part of the step that
is kept, so the step is their change unless a part is taken back.  All steps are if and only if
there is no relaxation. -/
theorem steps_applied_unless_relaxed (loop : Loop) (hsolver : loop.solver.Secant) :
    (∀ s t : Memory K n, RunsAll loop.correct s t → (s .zeros).vector = (s .zeros1).vector →
      (t .zeros1 = s .zeros1 ∧ (t .step).vector = -(t .fzeros).vector ∧
        (t .zeros).vector - (t .zeros1).vector = loop.kept s • (t .step).vector) ∧
      ((t .step).vector = (t .zeros).vector - (t .zeros1).vector ↔ loop.kept s = 1 ∨
        (t .fzeros).vector = 0)) ∧
    ((∀ s t : Memory K n, RunsAll loop.correct s t → (s .zeros).vector = (s .zeros1).vector →
      (t .step).vector = (t .zeros).vector - (t .zeros1).vector) ↔ loop.relaxation = false ∨
        n = 0) := by
  refine ⟨fun s t h hstart => ⟨change_of_runsAll_correct hsolver h hstart,
    step_eq_change_iff hsolver h hstart⟩, ?_⟩
  constructor
  · intro hsteps
    by_contra hne
    obtain ⟨hrelaxation, hn⟩ := not_or.mp hne
    obtain ⟨s, t, h, hstart, hstep⟩ :=
      exists_step_ne_change (K := K) hsolver (Bool.eq_true_of_not_eq_false hrelaxation) hn
    exact hstep (hsteps s t h hstart)
  · rintro (hrelaxation | rfl) s t h hstart
    · refine (step_eq_change_iff hsolver h hstart).mpr (.inl ?_)
      simp [kept, Relaxes, hrelaxation]
    · exact Subsingleton.elim _ _

/-- The method of Broyden for one scalar, with relaxation. -/
def relaxedBroyden : Loop where
  layout := .plan .three [{ name := "x", rank := .scalar, arraySize := 1 }]
  solver := broyden
  context := { size := 1 }
  limits := {}
  factors := {}
  relaxation := true

/-- An iteration in which relaxation starts at the tenth and keeps half of the changes. -/
def atIteration (count : ℕ) : Memory ℚ 1
  | .iter => { vector := 0, number := 0, count := count }
  | .relaxationTrigger => { vector := 0, number := 0, count := 10 }
  | .relaxationCoefficient => { vector := 0, number := 1 / 2, count := 0 }
  | .maximumIncrement => { vector := 0, number := 1 / 10, count := 0 }
  | .trustRegionSize => { vector := 0, number := 1, count := 0 }
  | _ => { vector := 0, number := 0, count := 0 }

/-- In the tenth iteration the unknown changes by half of the step that is remembered. -/
theorem relaxed_broyden_step_not_applied :
    ∃ t, RunsAll relaxedBroyden.correct (atIteration 10) t ∧ (t .fzeros).vector = 1 ∧
      (t .step).vector = -1 ∧
      (t .zeros).vector - (t .zeros1).vector = fun _ => -(1 / 2) := by
  have hsolver : relaxedBroyden.solver.Secant := .broyden
  obtain ⟨t, ht, hvector⟩ := exists_runsAll_correct hsolver (atIteration 10) 1
  obtain ⟨-, hstep, hchange⟩ := change_of_runsAll_correct hsolver ht rfl
  have hkept : relaxedBroyden.kept (atIteration 10) = 1 / 2 := by
    simp [kept, Relaxes, relaxedBroyden, atIteration]
  refine ⟨t, ht, hvector, by rw [hstep, hvector], ?_⟩
  rw [hchange, hkept, hstep, hvector]
  ext i
  simp

/-- The same with a dog-leg and limits. -/
def limitedDogLeg : Loop where
  layout := relaxedBroyden.layout
  solver := powellDogLeg "PowellDogLeg_Broyden" broyden
  context := relaxedBroyden.context
  limits := { overall := some 0.1, entries := [("x", 2)] }
  factors := {}
  relaxation := true

theorem steps_applied_unless_relaxed_limitedDogLeg :
    ∃ t, RunsAll limitedDogLeg.correct (atIteration 9) t ∧ (t .fzeros).vector = (fun _ => 1 / 16) ∧
      (t .step).vector = (t .zeros).vector - (t .zeros1).vector := by
  have hsolver : limitedDogLeg.solver.Secant := .dogLeg _ .broyden
  obtain ⟨hruns, -⟩ := steps_applied_unless_relaxed (K := ℚ) (n := 1) limitedDogLeg hsolver
  obtain ⟨t, ht, hvector⟩ := exists_runsAll_correct hsolver (atIteration 9) fun _ => 1 / 16
  refine ⟨t, ht, hvector, (hruns _ t ht rfl).2.mpr (.inl ?_)⟩
  simp [kept, Relaxes, atIteration]

end Loop

end Constitutive
