import Constitutive.Compiler
import Constitutive.Proofs.Scheme.Draft
import Constitutive.Proofs.Unknowns.Layout

/-!
# What an accepted description is made of

A compilation is a chain of steps, each of which may fail, with notices in between.  Here the chain
is taken apart: the blueprint comes from a draft and its layout (`blueprint_eq_ok_iff`), the class
from the blueprint and its sections (`compile_eq_ok_iff`, `outcome_compile`), and the sections from
the parts that can fail (`sections_eq_ok_iff`).  Notices do not matter for any of this.  Without
requests for the inverse, derivatives without a view are all that a blueprint can fail for
(`exists_sections_eq_ok`).
-/

namespace Constitutive

namespace Compiler

variable {compiler : Compiler} {description : Description} {hypothesis : Hypothesis}

theorem blueprint_eq_ok_iff {plan : Blueprint} :
    (compiler.blueprint description hypothesis).outcome = .ok plan ↔
      ∃ draft solver,
        (description.draft compiler.solvers compiler.options.defaultAlgorithm hypothesis).outcome =
          .ok draft ∧
        draft.solver? = some solver ∧
        plan = ⟨draft, Layout.plan hypothesis.dimension draft.roster.vars, compiler.options,
          solver⟩ := by
  unfold blueprint
  simp only [Traced.outcome_bind, bind_eq_ok_iff, Traced.outcome_tell, true_and, exists_const]
  constructor
  · rintro ⟨draft, hdraft, hplan⟩
    split at hplan
    · cases hplan
    · rename_i solver hsolver
      exact ⟨draft, solver, hdraft, hsolver, (Except.ok.inj hplan).symm⟩
  · rintro ⟨draft, solver, hdraft, hsolver, rfl⟩
    refine ⟨draft, hdraft, ?_⟩
    rw [hsolver]
    rfl

theorem compile_eq_ok_iff {generated : GeneratedClass} :
    (compiler.compile description hypothesis).outcome = .ok generated ↔
      ∃ plan sections, (compiler.blueprint description hypothesis).outcome = .ok plan ∧
        plan.sections.outcome = .ok sections ∧
        generated = ⟨description.className, hypothesis, plan.layout, sections⟩ := by
  unfold compile
  simp only [Traced.outcome_bind, bind_eq_ok_iff, Traced.outcome_tell, Traced.outcome_pure,
    Except.ok.injEq, true_and, exists_const]
  constructor
  · rintro ⟨plan, hplan, sections, hsections, rfl⟩
    exact ⟨plan, sections, hplan, hsections, rfl⟩
  · rintro ⟨plan, sections, hplan, hsections, rfl⟩
    exact ⟨plan, hplan, sections, hsections, rfl⟩

/-- The outcome of a compilation, as a function of the draft. -/
theorem outcome_compile (compiler : Compiler) (description : Description)
    (hypothesis : Hypothesis) :
    (compiler.compile description hypothesis).outcome =
      (description.draft compiler.solvers compiler.options.defaultAlgorithm hypothesis).outcome >>=
        fun draft =>
        match draft.solver? with
        | none => .error (.declaration (.unknownAlgorithm compiler.options.defaultAlgorithm) none)
        | some solver =>
          let layout := Layout.plan hypothesis.dimension draft.roster.vars
          (Blueprint.mk draft layout compiler.options solver).sections.outcome.map
            fun sections => ⟨description.className, hypothesis, layout, sections⟩ := by
  unfold compile blueprint
  simp only [Traced.outcome_bind, Traced.outcome_tell, Traced.outcome_pure]
  cases (description.draft compiler.solvers compiler.options.defaultAlgorithm hypothesis).outcome
    with
  | error fault => rfl
  | ok draft =>
      cases hsolver : draft.solver? with
      | none => simp [bind, Except.bind, hsolver]
      | some solver =>
          simp only [bind, Except.bind, hsolver, Traced.outcome_pure]
          cases (Blueprint.mk draft (Layout.plan hypothesis.dimension draft.roster.vars)
            compiler.options solver).sections.outcome with
          | error fault => rfl
          | ok sections => rfl

end Compiler

namespace Blueprint

variable {plan : Blueprint}

theorem residualSection_eq_ok_iff {integrator : Option String} {residual : CodeSection} :
    (plan.residualSection integrator).outcome = .ok residual ↔
      ∃ derivatives, plan.derivatives integrator = .ok derivatives ∧
        residual = plan.sectionOf .residual (plan.residualMethod integrator derivatives) := by
  unfold residualSection
  simp only [Traced.outcome_bind, bind_eq_ok_iff, Traced.outcome_tell, Traced.outcome_ofExcept,
    Traced.outcome_pure, mapError_eq_ok_iff, true_and, exists_const, Except.ok.injEq]
  constructor
  · rintro ⟨derivatives, hderivatives, rfl⟩
    exact ⟨derivatives, hderivatives, rfl⟩
  · rintro ⟨derivatives, hderivatives, rfl⟩
    exact ⟨derivatives, hderivatives, rfl⟩

theorem sections_eq_ok_iff {sections : List CodeSection} :
    plan.sections.outcome = .ok sections ↔
      ∃ members derivatives numericalJacobian inverse call comparison loop,
        plan.members = .ok members ∧
        plan.derivatives (plan.code? .integrator) = .ok derivatives ∧
        plan.numericalJacobianSection.outcome = .ok numericalJacobian ∧
        plan.inverseSection = .ok (inverse, call) ∧
        plan.comparison.outcome = .ok comparison ∧
        plan.loopSection comparison call = .ok loop ∧
        sections =
          [plan.sectionOf .offsets plan.layout.offsetConstants, plan.sectionOf .members members,
            plan.sectionOf .views plan.views] ++
          plan.sectionFor .predictor .predictor plan.predictorMethod ++
          plan.sectionFor .stress .computeStress (plainMethod .stress) ++
          [plan.sectionOf .residual (plan.residualMethod (plan.code? .integrator) derivatives)] ++
          numericalJacobian ++
          [plan.sectionOf .update plan.updateMethod] ++
          plan.sectionFor .finalStress .computeFinalStress (plainMethod .finalStress) ++
          inverse ++ [loop] := by
  unfold Blueprint.sections
  simp only [Traced.outcome_bind, bind_eq_ok_iff, Traced.outcome_tell, Traced.outcome_ofExcept,
    Traced.outcome_pure, mapError_eq_ok_iff, true_and, exists_const, residualSection_eq_ok_iff,
    Except.ok.injEq]
  constructor
  · rintro ⟨members, hmembers, residual, ⟨derivatives, hderivatives, rfl⟩,
      numericalJacobian, hnumerical, ⟨inverse, call⟩, hinverse, comparison, hcomparison,
      loop, hloop, rfl⟩
    exact ⟨members, derivatives, numericalJacobian, inverse, call, comparison, loop, hmembers,
      hderivatives, hnumerical, hinverse, hcomparison, hloop, rfl⟩
  · rintro ⟨members, derivatives, numericalJacobian, inverse, call, comparison, loop, hmembers,
      hderivatives, hnumerical, hinverse, hcomparison, hloop, rfl⟩
    exact ⟨members, hmembers, _, ⟨derivatives, hderivatives, rfl⟩, numericalJacobian, hnumerical,
      (inverse, call), hinverse, comparison, hcomparison, loop, hloop, rfl⟩

/-! ## The section that evaluates the residual -/

theorem find?_sectionFor {kind wanted : SectionKind} (hkind : kind ≠ wanted) (role : Role)
    (method : String → List Stmt) :
    (plan.sectionFor kind role method).find? (·.kind == wanted) = none := by
  unfold sectionFor
  cases plan.code? role with
  | none => rfl
  | some code => simp [sectionOf, hkind]

end Blueprint

namespace Compiler

variable {compiler : Compiler} {description : Description} {hypothesis : Hypothesis}
  {plan : Blueprint}

/-- The class of an accepted description has the section, and its text is that of the method with
all derivatives that are addressed. -/
theorem section?_residual_of_compile {generated : GeneratedClass}
    (hcompile : (compiler.compile description hypothesis).outcome = .ok generated)
    (hplan : (compiler.blueprint description hypothesis).outcome = .ok plan) :
    ∃ derivatives, plan.derivatives (plan.code? .integrator) = .ok derivatives ∧
      generated.section? .residual =
        some (plan.sectionOf .residual
          (plan.residualMethod (plan.code? .integrator) derivatives)).text := by
  obtain ⟨plan', sections, hplan', hsections, rfl⟩ := compile_eq_ok_iff.mp hcompile
  obtain rfl : plan = plan' := Except.ok.inj (hplan.symm.trans hplan')
  obtain ⟨members, derivatives, numericalJacobian, inverse, call, comparison, loop, -, hderivatives,
      -, -, -, -, rfl⟩ :=
    Blueprint.sections_eq_ok_iff.mp hsections
  refine ⟨derivatives, hderivatives, ?_⟩
  -- the sections in front of it are of other kinds
  have hpredictor : SectionKind.predictor ≠ .residual := by decide
  have hstress : SectionKind.stress ≠ .residual := by decide
  unfold GeneratedClass.section?
  simp only [List.append_assoc, List.find?_append, Blueprint.find?_sectionFor hpredictor,
    Blueprint.find?_sectionFor hstress]
  rfl

end Compiler

/-! ## What can fail -/

/-- Increments of different variables are mapped back without a fault. -/
theorem exists_undoIncrements_eq_ok (factors : Factors) {undone : Undone} {slots : List Slot}
    (hnames : (slots.map Slot.name).Nodup)
    (hfresh : ∀ slot ∈ slots, incrementName slot.name ∉ undone) :
    ∃ body, undoIncrements factors undone slots = .ok body := by
  induction slots generalizing undone with
  | nil => exact ⟨[], rfl⟩
  | cons slot rest ih =>
      obtain ⟨hslot, hrest⟩ := List.nodup_cons.mp hnames
      have hfreshrest : ∀ t ∈ rest, incrementName t.name ∉ undone :=
        fun t ht => hfresh t (List.mem_cons_of_mem _ ht)
      unfold undoIncrements Undone.increment
      cases factors.get? slot.name .unknown with
      | none =>
          obtain ⟨body, hbody⟩ := ih hrest hfreshrest
          exact ⟨body,
            bind_eq_ok_iff.mpr ⟨(none, undone), rfl, bind_eq_ok_iff.mpr ⟨body, hbody, rfl⟩⟩⟩
      | some s =>
          -- noting the increment does not touch those of the other variables
          have hfreshslot : incrementName slot.name ∉ undone := hfresh slot (List.mem_cons_self ..)
          have hnoted : ∀ t ∈ rest, incrementName t.name ∉ incrementName slot.name :: undone := by
            intro t ht hmem
            rcases List.mem_cons.mp hmem with heq | hmem
            · exact hslot (List.mem_map.mpr ⟨t, ht, incrementName_inj.mp heq⟩)
            · exact hfreshrest t ht hmem
          have hnote :
              undone.note (incrementName slot.name) = .ok (incrementName slot.name :: undone) :=
            if_neg (by simpa using hfreshslot)
          obtain ⟨body, hbody⟩ := ih hrest hnoted
          exact ⟨_, bind_eq_ok_iff.mpr ⟨_, bind_eq_ok_iff.mpr ⟨_, hnote, rfl⟩,
            bind_eq_ok_iff.mpr ⟨body, hbody, rfl⟩⟩⟩

namespace Blueprint

variable {plan : Blueprint}

theorem exists_numericalJacobianSection_eq_ok (plan : Blueprint) :
    ∃ numericalJacobian, plan.numericalJacobianSection.outcome = .ok numericalJacobian := by
  unfold numericalJacobianSection
  split
  · exact ⟨_, rfl⟩
  · exact ⟨_, rfl⟩

theorem exists_comparison_eq_ok (plan : Blueprint) :
    ∃ comparison, plan.comparison.outcome = .ok comparison := by
  unfold comparison
  split
  · exact ⟨_, rfl⟩
  · split
    · exact ⟨_, rfl⟩
    · exact ⟨_, rfl⟩

theorem loopSection_eq_of_undoIncrements {undo : List Stmt}
    (hundo : undoIncrements plan.draft.factors [] plan.layout.slots = .ok undo)
    (comparison call : Option String) :
    plan.loopSection comparison call = .ok (plan.sectionOf .integrate
      ((plan.loop comparison call).body (comparison.toList.map .code) undo
        (call.toList.map .code))) := by
  have hmethod : (plan.loop comparison call).method =
      .ok ((plan.loop comparison call).body (comparison.toList.map .code) undo
          (call.toList.map .code)) :=
    bind_eq_ok_iff.mpr ⟨undo, hundo, rfl⟩
  unfold loopSection
  rw [hmethod]
  rfl

/-- If no block of the inverse is asked for, only the derivatives can fail. -/
theorem exists_sections_eq_ok (hdistinct : plan.layout.NamesDistinct)
    (hblocks : plan.draft.inverseBlocks = [])
    {derivatives : List Derivative}
    (hderivatives : plan.derivatives (plan.code? .integrator) = .ok derivatives) :
    ∃ sections, plan.sections.outcome = .ok sections := by
  obtain ⟨numericalJacobian, hnumerical⟩ := plan.exists_numericalJacobianSection_eq_ok
  obtain ⟨comparison, hcomparison⟩ := plan.exists_comparison_eq_ok
  obtain ⟨undo, hundo⟩ := exists_undoIncrements_eq_ok plan.draft.factors hdistinct
    (fun _ _ => List.not_mem_nil : ∀ slot ∈ plan.layout.slots,
      incrementName slot.name ∉ ([] : Undone))
  -- no block has to be placed, and no block has to be mapped back
  have hmembers : ∃ members, plan.members = .ok members := by
    unfold Blueprint.members
    rw [hblocks]
    exact ⟨_, rfl⟩
  have hinverse : plan.inverseSection = .ok ([], none) := by
    unfold inverseSection
    rw [hblocks]
    rfl
  obtain ⟨members, hmembers⟩ := hmembers
  exact ⟨_, sections_eq_ok_iff.mpr ⟨members, derivatives, numericalJacobian, [], none, comparison,
    _, hmembers, hderivatives, hnumerical, hinverse, hcomparison,
    loopSection_eq_of_undoIncrements hundo comparison none, rfl⟩⟩

end Blueprint

end Constitutive
