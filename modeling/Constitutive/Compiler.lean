import Constitutive.Section.Blueprint

/-!
# Compilation

A description is compiled for one hypothesis by drafting it, laying out its unknowns, and writing
the sections.  Compiling it for all requested hypotheses stops at the first that fails, or leaves
the hypotheses to workers that run at the same time.
-/

namespace Constitutive

/-- The choices and algorithms of a compilation. -/
structure Compiler where
  options : Options := {}
  solvers : Solvers := .builtin

namespace Blueprint

/-- The comparison with the numerical Jacobian, if it was asked for and makes sense. -/
def comparison (plan : Blueprint) : Traced Fault (Option String) := do
  if plan.draft.tolerances.comparisonCriterion?.isNone then return none
  else if plan.solver.capabilities.isAnalytical
    then return some (plan.render (jacobianComparison plan.layout))
  else
    Traced.tell [.comparisonSkipped plan.draft.hypothesis plan.solver.name]
    return none

/-- The section that evaluates the residual. -/
def residualSection (plan : Blueprint) (integrator : Option String) : Traced Fault CodeSection := do
  Traced.tell ((plan.ignoredBlock? integrator).toList.map
    (.blocksIgnored plan.draft.hypothesis plan.solver.name))
  let derivatives ← Traced.ofExcept ((plan.derivatives integrator).mapError Fault.internal)
  Traced.tell [.blocksAddressed plan.draft.hypothesis derivatives.length]
  return plan.sectionOf .residual (plan.residualMethod integrator derivatives)

/-- The section that computes the Jacobian by differences. -/
def numericalJacobianSection (plan : Blueprint) : Traced Fault (List CodeSection) := do
  if plan.needsNumericalJacobian then
    Traced.tell [.numericalJacobian plan.layout.total]
    return [plan.sectionOf .numericalJacobian
      (numericalJacobianMethod Member.numericalJacobianEpsilon)]
  else return []

/-- The section that hands out blocks of the inverse Jacobian, and the code that calls it. -/
def inverseSection (plan : Blueprint) :
    Except InternalFault (List CodeSection × Option String) := do
  let blocks := plan.draft.inverseBlocks
  if blocks = [] then return ([], none)
  else
    let method ← inverseMethod plan.layout plan.draft.factors plan.solver.capabilities blocks
    let call ← inverseCall plan.layout blocks
    return ([plan.sectionOf .inverseBlocks method], some (plan.render call))

/-- The integration loop, with texts that are put into it. -/
def loop (plan : Blueprint) (comparison inverseCall : Option String) : Loop where
  layout := plan.layout
  solver := plan.solver
  context := plan.solverContext
  limits := plan.draft.limits
  factors := plan.draft.factors
  debug := plan.options.debug
  comparison := comparison
  hasPredictor := (plan.draft.code? .predictor).isSome
  hasFinalStress := (plan.draft.code? .computeFinalStress).isSome
  relaxation := plan.draft.tolerances.useRelaxation
  inverseCall := inverseCall

/-- The section with the integration loop. -/
def loopSection (plan : Blueprint) (comparison inverseCall : Option String) :
    Except InternalFault CodeSection := do
  return plan.sectionOf .integrate (← (plan.loop comparison inverseCall).method)

/-- A section that is only there if code was given for it. -/
def sectionFor (plan : Blueprint) (kind : SectionKind) (role : Role) (method : String → List Stmt) :
    List CodeSection :=
  (plan.code? role).toList.map fun code => plan.sectionOf kind (method code)

/-- All sections, in order. -/
def sections (plan : Blueprint) : Traced Fault (List CodeSection) := do
  Traced.tell (plan.unusedFactors.map (.unusedFactor plan.draft.hypothesis))
  let integrator := plan.code? .integrator
  Traced.tell (if integrator.isNone then [.noIntegrator plan.draft.hypothesis] else [])
  let members ← Traced.ofExcept (plan.members.mapError Fault.internal)
  let residual ← plan.residualSection integrator
  let numericalJacobian ← plan.numericalJacobianSection
  let (inverse, inverseCall) ← Traced.ofExcept (plan.inverseSection.mapError Fault.internal)
  let comparison ← plan.comparison
  let loop ← Traced.ofExcept ((plan.loopSection comparison inverseCall).mapError Fault.internal)
  return [plan.sectionOf .offsets plan.layout.offsetConstants,
      plan.sectionOf .members members,
      plan.sectionOf .views plan.views] ++
    plan.sectionFor .predictor .predictor plan.predictorMethod ++
    plan.sectionFor .stress .computeStress (plainMethod .stress) ++
    [residual] ++
    numericalJacobian ++
    [plan.sectionOf .update plan.updateMethod] ++
    plan.sectionFor .finalStress .computeFinalStress (plainMethod .finalStress) ++
    inverse ++
    [loop]

end Blueprint

/-- The results of computations, one after the other up to the first that fails. -/
def Traced.inOrder {ε α : Type} : List (Traced ε α) → Traced ε (List α)
  | [] => pure []
  | job :: rest => do
    let result ← job
    return result :: (← inOrder rest)

theorem Traced.outcome_inOrder_cons {ε α : Type} (job : Traced ε α) (rest : List (Traced ε α)) :
    (inOrder (job :: rest)).outcome =
      job.outcome >>= fun result => (inOrder rest).outcome >>=
        fun results => .ok (result :: results) := by
  rw [inOrder]
  simp only [outcome_bind, outcome_pure]

/-- Workers run computations at the same time.  Results are collected in the order of the
computations.  If some of them fail, the fault of one is reported, and it is up to the workers which
one it is. -/
structure Workers (ε α : Type) where
  run : List (Traced ε α) → Traced ε (List α)
  collects : ∀ jobs results, jobs.map (·.outcome) = results.map .ok →
    (run jobs).outcome = .ok results
  reports : ∀ jobs, (∃ job ∈ jobs, ∃ fault, job.outcome = .error fault) →
    ∃ job ∈ jobs, ∃ fault, job.outcome = .error fault ∧ (run jobs).outcome = .error fault

/-- A single worker goes through the computations in order. -/
def Workers.single {ε α : Type} : Workers ε α where
  run := Traced.inOrder
  collects jobs := by
    induction jobs with
    | nil =>
      intro results h
      rw [List.map_eq_nil_iff.mp h.symm]
      rfl
    | cons job rest ih =>
      intro results h
      cases results with
      | nil => cases h
      | cons result results =>
        obtain ⟨hjob, hrest⟩ := List.cons.inj h
        have hjob : job.outcome = .ok result := hjob
        rw [Traced.outcome_inOrder_cons, hjob, ih results hrest]
        rfl
  reports jobs := by
    induction jobs with
    | nil =>
      rintro ⟨_, hjob, _⟩
      cases hjob
    | cons job rest ih =>
      rintro ⟨failing, hfailing, fault, hfault⟩
      rw [Traced.outcome_inOrder_cons]
      cases hjob : job.outcome with
      | error first => exact ⟨job, List.mem_cons_self .., first, hjob, rfl⟩
      | ok result =>
        rcases List.mem_cons.mp hfailing with rfl | hrest
        · cases hjob.symm.trans hfault
        · obtain ⟨reported, hreported, cause, hcause, hrun⟩ := ih ⟨failing, hrest, fault, hfault⟩
          refine ⟨reported, List.mem_cons_of_mem _ hreported, cause, hcause, ?_⟩
          rw [hrun]
          rfl

namespace Compiler

/-- Drafts a description under a hypothesis and lays out its unknowns. -/
def blueprint (compiler : Compiler) (description : Description) (hypothesis : Hypothesis) :
    Traced Fault Blueprint := do
  let defaultAlgorithm := compiler.options.defaultAlgorithm
  let draft ← description.draft compiler.solvers defaultAlgorithm hypothesis
  let layout := Layout.plan hypothesis.dimension draft.roster.vars
  Traced.tell [layout.notice]
  match draft.solver? with
  | none => Traced.ofExcept (.error (.declaration (.unknownAlgorithm defaultAlgorithm) none))
  | some solver => return ⟨draft, layout, compiler.options, solver⟩

/-- Generates the class of a description under a hypothesis. -/
def compile (compiler : Compiler) (description : Description) (hypothesis : Hypothesis) :
    Traced Fault GeneratedClass := do
  let plan ← compiler.blueprint description hypothesis
  let sections ← plan.sections
  Traced.tell [.compiled description.className hypothesis plan.solver.name plan.layout.total]
  return ⟨description.className, hypothesis, plan.layout, sections⟩

/-- A fault, and the class and hypothesis for which it arose. -/
structure Failure where
  className : String
  hypothesis : Hypothesis
  fault : Fault

/-- The wordings of a failure, from the outside in. -/
def Failure.messages (failure : Failure) : List String :=
  [s!"failed to compile behaviour {failure.className} for hypothesis {failure.hypothesis.name}",
    failure.fault.message, failure.fault.cause]

/-- The class of a description under one of several hypotheses. -/
def job (compiler : Compiler) (description : Description) (hypothesis : Hypothesis) :
    Traced Failure GeneratedClass :=
  let compiled := compiler.compile description hypothesis
  ⟨compiled.notices,
    compiled.outcome.mapError fun fault => ⟨description.className, hypothesis, fault⟩⟩

/-- Generates the classes of a description under all requested hypotheses, up to the first that
fails or, if that was chosen, at the same time. -/
def compileAll (compiler : Compiler) (description : Description)
    (workers : Workers Failure GeneratedClass := .single) : Traced Failure (List GeneratedClass) :=
  let jobs := description.requested.map (compiler.job description)
  if compiler.options.parallel then workers.run jobs else Traced.inOrder jobs

end Compiler

end Constitutive
