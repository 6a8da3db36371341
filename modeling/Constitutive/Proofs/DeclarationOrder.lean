import Constitutive.Proofs.Scheme.Exchange
import Constitutive.Proofs.Section.Blocks

/-!
# The order of declarations

Code is generated from what a draft holds and not from the order in which it was stored.  Factors,
limits and codes are only looked up, variable by variable or role by role, and the variables with
factors are sorted before they are gone through (`Factors.names_congr`).  So drafts that hold the
same give the same sections (`Blueprint.sections_congr`), and exchanging two declarations of
factors, limits or codes does not show in the class (`Compiler.exchange_does_not_show`).
-/

namespace Constitutive

/-! ## What is made from factors -/

theorem Factors.nodup_names (factors : Factors) : factors.names.Nodup :=
  (List.mergeSort_perm _ _).nodup_iff.mpr (nodup_eraseDups _)

theorem Factors.pairwise_names (factors : Factors) : factors.names.Pairwise (· ≤ ·) := by
  have htrans : ∀ a b c : String, decide (a ≤ b) = true → decide (b ≤ c) = true →
      decide (a ≤ c) = true := by
    simpa only [decide_eq_true_eq] using fun a b c : String => String.le_trans
  have htotal : ∀ a b : String, (decide (a ≤ b) || decide (b ≤ a)) = true := by
    simpa only [Bool.or_eq_true, decide_eq_true_eq] using String.le_total
  have hsorted := List.pairwise_mergeSort htrans htotal (factors.entries.map (·.1.1)).eraseDups
  exact hsorted.imp of_decide_eq_true

section Factors

variable {first second : Factors} (h : first.get? = second.get?)
include h

namespace Factors

theorem incrementExpression_congr : first.incrementExpression = second.incrementExpression := by
  funext name
  rw [incrementExpression, incrementExpression, h]

theorem prologue?_congr : first.prologue? = second.prologue? := by
  funext name
  rw [prologue?, prologue?, h]

theorem epilogue?_congr : first.epilogue? = second.epilogue? := by
  funext name
  rw [epilogue?, epilogue?, h]

theorem scaleBlock?_congr : first.scaleBlock? = second.scaleBlock? := by
  funext d
  rw [scaleBlock?, scaleBlock?, jacobianScale?, jacobianScale?, h]

theorem names_congr : first.names = second.names := by
  have hmem : ∀ name, name ∈ first.names ↔ name ∈ second.names := by
    intro name
    rw [mem_names_iff, mem_names_iff, isNormalised, isNormalised, h]
  have hperm : first.names.Perm second.names :=
    (List.perm_ext_iff_of_nodup first.nodup_names second.nodup_names).mpr hmem
  exact hperm.eq_of_pairwise (fun _ _ _ _ => String.le_antisymm) first.pairwise_names
    second.pairwise_names

end Factors

theorem adaptCode_congr : (adaptCode · · first) = (adaptCode · · second) := by
  funext role vars text
  have hexpressions : codeExpressions role first = codeExpressions role second := by
    funext name
    unfold codeExpressions
    rw [Factors.incrementExpression_congr h]
  rw [adaptCode, adaptCode, codeSubstitution, codeSubstitution, hexpressions]

theorem normaliseIncrements_congr :
    (normaliseIncrements · first) = (normaliseIncrements · second) := by
  funext vars
  unfold normaliseIncrements Factors.normaliseIncrement?
  rw [h]

theorem undoIncrements_congr (undone : Undone) (slots : List Slot) :
    undoIncrements first undone slots = undoIncrements second undone slots := by
  induction slots generalizing undone with
  | nil => rfl
  | cons slot rest ih =>
      have hincrement : undone.increment first slot.name = undone.increment second slot.name := by
        rw [Undone.increment, Undone.increment, h]
      rw [undoIncrements, undoIncrements, hincrement]
      simp only [ih]

theorem undoBlocks_congr (undone : Undone) (placed : List PlacedBlock) :
    undoBlocks first undone placed = undoBlocks second undone placed := by
  induction placed generalizing undone with
  | nil => rfl
  | cons p rest ih =>
      have hblock : ∀ target unknown residual,
          undone.inverseBlock first target unknown residual =
          undone.inverseBlock second target unknown residual := by
        intro target unknown residual
        rw [Undone.inverseBlock, Undone.inverseBlock, Factors.inverseScale?,
          Factors.inverseScale?, h]
      rw [undoBlocks, undoBlocks, hblock]
      simp only [ih]

theorem clamp_congr {limits limits' : Limits} (hoverall : limits.overall = limits'.overall)
    (hlimits : limits.get? = limits'.get?) (layout : Layout) :
    limits.clamp layout first = limits'.clamp layout second := by
  have hslot : limits.clampSlot first = limits'.clampSlot second := by
    funext slot
    rw [Limits.clampSlot, Limits.clampSlot, h, hlimits]
  rw [Limits.clamp, Limits.clamp, hslot, hoverall]

end Factors

/-- The integration loop looks limits and factors up. -/
theorem Loop.method_congr (loop : Loop) {factors : Factors}
    (hfactors : factors.get? = loop.factors.get?) {limits : Limits}
    (hoverall : limits.overall = loop.limits.overall) (hlimits : limits.get? = loop.limits.get?) :
    { loop with limits := limits, factors := factors }.method = loop.method := by
  have hcorrect : { loop with limits := limits, factors := factors }.correct = loop.correct := by
    simp only [correct, clamp_congr hfactors hoverall hlimits]
    rfl
  have hbody : { loop with limits := limits, factors := factors }.body = loop.body := by
    funext comparison undo call
    simp only [body, iteration, hcorrect]
    rfl
  simp only [method, hbody, undoIncrements_congr hfactors]

/-! ## What is made from drafts -/

namespace Blueprint

/-- The blueprint with another draft. -/
def withDraft (plan : Blueprint) (draft : Draft) : Blueprint :=
  { plan with draft := draft }

section

variable (plan : Blueprint) (draft : Draft)

@[simp]
theorem draft_withDraft : (plan.withDraft draft).draft = draft := rfl

@[simp]
theorem layout_withDraft : (plan.withDraft draft).layout = plan.layout := rfl

@[simp]
theorem options_withDraft : (plan.withDraft draft).options = plan.options := rfl

@[simp]
theorem solver_withDraft : (plan.withDraft draft).solver = plan.solver := rfl

@[simp]
theorem sectionOf_withDraft : (plan.withDraft draft).sectionOf = plan.sectionOf := rfl

@[simp]
theorem render_withDraft : (plan.withDraft draft).render = plan.render := rfl

end

variable {plan : Blueprint} {draft : Draft} (h : Draft.Alike draft plan.draft)
include h

theorem code?_congr : (plan.withDraft draft).code? = plan.code? := by
  funext role
  have hadapt : ∀ text, adaptCode role plan.draft.roster.vars draft.factors text =
      adaptCode role plan.draft.roster.vars plan.draft.factors text :=
    congrFun (congrFun (congrFun (adaptCode_congr h.factors) role) plan.draft.roster.vars)
  simp only [code?, draft_withDraft, h.codes, h.roster, hadapt]

theorem solverContext_congr : (plan.withDraft draft).solverContext = plan.solverContext := by
  simp only [solverContext, code?_congr h, draft_withDraft, layout_withDraft, options_withDraft,
    h.tolerances]

theorem members_congr : (plan.withDraft draft).members = plan.members := by
  have hlimits : draft.limits.members = plan.draft.limits.members := by
    rw [Limits.members, Limits.members, h.overallLimit]
  simp only [members, solverContext_congr h, draft_withDraft, layout_withDraft, solver_withDraft,
    h.inverseBlocks, h.tolerances, hlimits]

theorem predictorMethod_congr : (plan.withDraft draft).predictorMethod = plan.predictorMethod := by
  funext code
  have hnormalise := congrFun (normaliseIncrements_congr h.factors) plan.draft.roster.vars
  simp only [predictorMethod, draft_withDraft, h.roster]
  rw [hnormalise]

theorem derivatives_congr : (plan.withDraft draft).derivatives = plan.derivatives := by
  funext integrator
  simp only [derivatives, blockNames, draft_withDraft, layout_withDraft, solver_withDraft, h.roster,
    Factors.names_congr h.factors]

theorem residualMethod_congr : (plan.withDraft draft).residualMethod = plan.residualMethod := by
  funext integrator derivatives
  simp only [residualMethod, draft_withDraft, layout_withDraft, solver_withDraft, h.codes,
    Factors.prologue?_congr h.factors, Factors.epilogue?_congr h.factors,
    Factors.scaleBlock?_congr h.factors]

theorem inverseSection_congr : (plan.withDraft draft).inverseSection = plan.inverseSection := by
  simp only [inverseSection, inverseMethod, draft_withDraft, layout_withDraft, solver_withDraft,
    sectionOf_withDraft, render_withDraft, h.inverseBlocks, undoBlocks_congr h.factors]
  rfl

theorem loopSection_congr : (plan.withDraft draft).loopSection = plan.loopSection := by
  funext comparison call
  have hloop : (plan.withDraft draft).loop comparison call =
      { plan.loop comparison call with limits := draft.limits, factors := draft.factors } := by
    simp only [loop, solverContext_congr h, draft_withDraft, layout_withDraft, solver_withDraft,
      options_withDraft, h.codes, h.tolerances]
  rw [loopSection, loopSection, hloop, sectionOf_withDraft,
    Loop.method_congr (plan.loop comparison call) h.factors h.overallLimit h.limits]

theorem sections_congr {sections : List CodeSection} :
    (plan.withDraft draft).sections.outcome = .ok sections ↔ plan.sections.outcome =
      .ok sections := by
  have hnumerical :
      (plan.withDraft draft).numericalJacobianSection = plan.numericalJacobianSection := by
    simp only [numericalJacobianSection, needsNumericalJacobian, draft_withDraft, layout_withDraft,
      solver_withDraft, sectionOf_withDraft, h.tolerances]
    rfl
  have hcomparison : (plan.withDraft draft).comparison = plan.comparison := by
    simp only [comparison, draft_withDraft, layout_withDraft, solver_withDraft, render_withDraft,
      h.tolerances, h.hypothesis]
  have hupdate : (plan.withDraft draft).updateMethod = plan.updateMethod := by
    simp only [updateMethod, draft_withDraft, h.roster]
  have hviews : (plan.withDraft draft).views = plan.views := rfl
  simp only [sections_eq_ok_iff, sectionFor, code?_congr h, members_congr h,
    predictorMethod_congr h, derivatives_congr h, residualMethod_congr h, inverseSection_congr h,
    loopSection_congr h, hnumerical, hcomparison, hupdate, hviews,
    sectionOf_withDraft, layout_withDraft]

end Blueprint

namespace Compiler

variable {compiler : Compiler} {hypothesis : Hypothesis} {before after : List Event}
  {event event' : Event}

theorem compile_exchange (description : Description)
    (hevents : description.events = before ++ event :: event' :: after)
    (hadds : event.declaration.addsItem = true) (hadds' : event'.declaration.addsItem = true)
    {generated : GeneratedClass}
    (hcompile : (compiler.compile description hypothesis).outcome = .ok generated) :
    (compiler.compile { description with events := before ++ event' :: event :: after }
      hypothesis).outcome =
      .ok generated := by
  obtain ⟨plan, sections, hplan, hsections, rfl⟩ := compile_eq_ok_iff.mp hcompile
  obtain ⟨draft, solver, hdraft, hsolver, rfl⟩ := blueprint_eq_ok_iff.mp hplan
  obtain ⟨draft', hdraft', halike⟩ := Description.exists_draft_exchange hevents hadds hadds' hdraft
  have hplan' : (compiler.blueprint { description with events := before ++ event' :: event ::
      after } hypothesis).outcome =
      .ok ⟨draft', Layout.plan hypothesis.dimension draft.roster.vars, compiler.options, solver⟩ :=
    blueprint_eq_ok_iff.mpr ⟨draft', solver, hdraft', halike.solver? ▸ hsolver, halike.roster ▸ rfl⟩
  have hcongr : (Blueprint.withDraft ⟨draft', Layout.plan hypothesis.dimension draft.roster.vars,
        compiler.options, solver⟩ draft).sections.outcome = .ok sections ↔ _ :=
    Blueprint.sections_congr halike
  exact compile_eq_ok_iff.mpr ⟨_, sections, hplan', hcongr.mp hsections, rfl⟩

/-- **The order of factors, limits and codes does not show.**  Exchanging two of them that follow
each other keeps a description acceptable, and keeps the class with its layout and all texts. -/
theorem exchange_does_not_show (compiler : Compiler) (description : Description)
    (hypothesis : Hypothesis)
    (hevents : description.events = before ++ event :: event' :: after)
    (hadds : event.declaration.addsItem = true)
    (hadds' : event'.declaration.addsItem = true) (generated : GeneratedClass) :
    (compiler.compile description hypothesis).outcome = .ok generated ↔
      (compiler.compile { description with events := before ++ event' :: event :: after }
        hypothesis).outcome =
        .ok generated := by
  refine ⟨compile_exchange description hevents hadds hadds', fun hcompile => ?_⟩
  have hback := compile_exchange { description with events := before ++ event' :: event :: after }
    rfl hadds' hadds hcompile
  rwa [← hevents] at hback

/-- A description with a factor on each side and a limit, and with two events between them. -/
def scaledPressure (event event' : Event) : Description where
  className := "ScaledPressure"
  events :=
    [{ declaration := .integrationVariable "p" .scalar 1 },
      { declaration := .normalisationFactor "p" .unknown (.text "young") }] ++ event :: event' ::
    [{ declaration := .incrementLimit (some "p") 0.5 },
      { declaration := .normalisationFactor "p" .residual (.text "2*young") }]

def pressureCode : Event where
  declaration := .code .integrator "fp = dp; dfp_ddp = 1;"

def pressureLimit : Event where
  declaration := .incrementLimit none 0.25

theorem exchange_does_not_show_scaledPressure :
    ∃ generated,
      (({} : Compiler).compile (scaledPressure pressureCode pressureLimit)
        .tridimensional).outcome = .ok generated ∧
      (({} : Compiler).compile (scaledPressure pressureLimit pressureCode)
        .tridimensional).outcome = .ok generated := by
  have hchecked : (match (({} : Compiler).blueprint (scaledPressure pressureCode pressureLimit)
    .tridimensional).outcome with
      | .error _ => false
      | .ok plan =>
          plan.draft.inverseBlocks.isEmpty &&
            plan.draft.roster.vars.all (·.rank ≠ .vector)) = true := by
    decide +kernel
  split at hchecked
  · cases hchecked
  · rename_i plan hplan
    simp only [Bool.and_eq_true, List.isEmpty_iff, List.all_eq_true, decide_eq_true_eq] at hchecked
    obtain ⟨generated, hcompile⟩ :=
      exists_compile_eq_ok hplan hchecked.1 fun _ _ u hu _ hshape => hchecked.2 u hu hshape.2
    have hexchange := exchange_does_not_show {} (scaledPressure pressureCode pressureLimit)
      .tridimensional rfl rfl rfl generated
    exact ⟨generated, hcompile, hexchange.mp hcompile⟩

end Compiler

end Constitutive
