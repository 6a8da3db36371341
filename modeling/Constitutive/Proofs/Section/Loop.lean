import Constitutive.Proofs.Code.Rows
import Constitutive.Proofs.Faults

/-!
# Statements that are put into the loop as text

The comparison of the Jacobian with the numerical one, and the call that asks for blocks of its
inverse, are written first and then put into the loop as texts.  Both are tidy, so the loop reads as
if the statements themselves stood there (`Build.loop_sameText`).  So all sections of a class are
written from statements (`exists_build`).
-/

namespace Constitutive

open Stmt Line

/-! ## The comparison -/

theorem oneLine_jacobian : OneLine (Symbol.member .jacobian).reference :=
  oneLine_append.mpr ⟨oneLine_ofList rfl, oneLine_ofList rfl⟩

theorem oneLine_size : OneLine (Symbol.constant .size).reference :=
  oneLine_ofList rfl

theorem oneLine_offset {name : String} (hname : OneLine name) :
    OneLine (Symbol.constant (.offset name)).reference :=
  oneLine_append.mpr ⟨hname, oneLine_ofList rfl⟩

theorem oneLine_blockName {a b : String} (ha : OneLine a) (hb : OneLine b) :
    OneLine (blockName a b) := by
  unfold blockName
  simp only [oneLine_append]
  exact ⟨⟨⟨oneLine_ofList rfl, ha⟩, oneLine_ofList rfl⟩, hb⟩

theorem oneLine_typeName (rank : Rank) : OneLine rank.typeName := by
  cases rank with
  | scalar => exact oneLine_ofList rfl
  | vector => exact oneLine_ofList rfl
  | symmetricTensor => exact oneLine_ofList rfl

theorem tidy_fail : Stmt.Tidy fail := by
  refine tidy_render rfl (begins_ofList (by decide)) rfl (ends_ofList rfl) ?_
  simp only [unbroken_cons, unbroken_nil, and_true]
  exact ⟨oneLine_ofList rfl, oneLine_ofList rfl, oneLine_ofList rfl⟩

theorem tidy_forIndex {index : String} (hindex : OneLine index) {start stop : Line}
    (hstart : Unbroken start) (hstop : Unbroken stop) {body : List Stmt} (hbody : TidyIn body) :
    Stmt.Tidy (.block (.forIndex index start stop) body) := by
  refine ⟨tidy_head rfl (begins_ofList (by decide)) ?_, hbody⟩
  simp only [forIndex, unbroken_concat, List.forall_mem_cons, unbroken_cons, unbroken_nil, and_true,
    List.not_mem_nil, false_implies, implies_true]
  exact ⟨⟨oneLine_ofList rfl, hindex, oneLine_ofList rfl⟩, hstart,
    ⟨oneLine_ofList rfl, hindex, oneLine_ofList rfl⟩, hstop, oneLine_ofList rfl, hindex,
    oneLine_ofList rfl⟩

theorem tidy_forAllUnknowns {index : String} (hindex : OneLine index) {body : List Stmt}
    (hbody : TidyIn body) :
    Stmt.Tidy (forAllUnknowns index body) := by
  have hstart : Unbroken ["0"] := List.forall_mem_singleton.mpr (oneLine_ofList rfl : OneLine "0")
  have hstop : Unbroken [Constant.size] := List.forall_mem_singleton.mpr oneLine_size
  exact tidy_forIndex hindex hstart hstop hbody

theorem tidy_forSlot {index : String} (hindex : OneLine index) {slot : Slot}
    (hname : OneLine slot.name)
    {body : List Stmt} (hbody : TidyIn body) : Stmt.Tidy (forSlot index slot body) := by
  have hstart : Unbroken [Constant.offset slot.name] :=
    List.forall_mem_singleton.mpr (oneLine_offset hname)
  refine tidy_forIndex hindex hstart ?_ hbody
  simp only [unbroken_cons, unbroken_nil, and_true]
  exact ⟨oneLine_offset hname, oneLine_ofList rfl, oneLine_toString _⟩

theorem tidy_raiseToDifference {maximum : String} (hbegin : Begins maximum)
    (hmaximum : OneLine maximum) :
    Stmt.Tidy (raiseToDifference maximum) := by
  refine tidy_render rfl hbegin rfl (ends_ofList rfl) ?_
  simp only [unbroken_cons, unbroken_nil, and_true]
  exact ⟨hmaximum, oneLine_ofList rfl, hmaximum, oneLine_ofList rfl, oneLine_jacobian,
    oneLine_ofList rfl⟩

/-- The view on a block that is no function of array indices. -/
theorem tidy_accessor {d : Derivative} (hindexing : d.indexing = .none) {label : String}
    (hlabel : OneLine label)
    {matrix : Piece} (hmatrix : OneLine matrix.render) :
    Stmt.Tidy (.line (d.accessor label matrix)) := by
  have hrow : OneLine d.rowIndex.render := by
    unfold Derivative.rowIndex
    rw [hindexing]
    exact oneLine_toString _
  have hcolumn : OneLine d.columnIndex.render := by
    unfold Derivative.columnIndex
    rw [hindexing]
    exact oneLine_toString _
  show Text.Tidy (d.accessor label matrix).render.toList
  unfold Derivative.accessor
  rw [hindexing]
  dsimp only
  split
  · rename_i hcellwise
    unfold Derivative.view
    rw [if_pos hcellwise]
    refine tidy_render rfl (begins_ofList (by decide)) rfl (ends_ofList rfl) ?_
    simp only [unbroken_concat, List.forall_mem_cons, unbroken_cons, unbroken_nil, and_true,
      List.not_mem_nil, false_implies, implies_true]
    exact ⟨⟨oneLine_ofList rfl, hlabel, oneLine_ofList rfl⟩,
      ⟨hmatrix, oneLine_ofList rfl, hrow, oneLine_ofList rfl, hcolumn, oneLine_ofList rfl⟩,
      oneLine_ofList rfl⟩
  · refine tidy_render rfl (begins_ofList (by decide)) rfl (ends_ofList rfl) ?_
    simp only [unbroken_cons, unbroken_nil, and_true]
    exact ⟨oneLine_ofList rfl, hlabel, oneLine_ofList rfl, hrow, oneLine_ofList rfl, hcolumn,
      oneLine_ofList rfl, oneLine_typeName _, oneLine_ofList rfl, oneLine_typeName _,
      oneLine_ofList rfl, hmatrix, oneLine_ofList rfl⟩

theorem tidyIn_printBlock (layout : Layout) {r u : Slot} (hr : OneLine r.name)
    (hu : OneLine u.name) :
    TidyIn (printBlock layout r u) := by
  unfold printBlock
  split
  · trivial
  · rename_i d _
    split
    · trivial
    · rename_i harray
      have hindexing : d.indexing = .none := by simpa [Derivative.isArray] using harray
      have hname := oneLine_blockName hr hu
      have hnumerical : OneLine ("n" ++ blockName r.name u.name) :=
        oneLine_append.mpr ⟨oneLine_ofList rfl, hname⟩
      refine ⟨tidy_accessor hindexing hname oneLine_jacobian,
        tidy_accessor hindexing hnumerical (oneLine_ofList rfl), ?_, trivial⟩
      refine tidy_render rfl (begins_ofList (by decide)) rfl (ends_ofList rfl) ?_
      simp only [unbroken_cons, unbroken_nil, and_true]
      exact ⟨oneLine_ofList rfl, hname, oneLine_ofList rfl, hname, oneLine_ofList rfl, hnumerical,
        oneLine_ofList rfl, hnumerical, oneLine_ofList rfl⟩

/-- The brace of a block without a head. -/
theorem tidy_openBrace : Text.Tidy (Line.render [] ++ "\x7b").toList :=
  tidy_brace (.inl rfl)

theorem tidy_compareBlock (layout : Layout) {r u : Slot} (hr : OneLine r.name)
    (hu : OneLine u.name) :
    Stmt.Tidy (compareBlock layout r u) := by
  have hidx : OneLine "idx" := oneLine_ofList rfl
  have hidx2 : OneLine "idx2" := oneLine_ofList rfl
  have hraise :=
    tidy_raiseToDifference (begins_ofList (by decide) : Begins "block_error") (oneLine_ofList rfl)
  refine ⟨tidy_openBrace, ?_,
    tidy_forSlot hidx hr ⟨tidy_forSlot hidx2 hu ⟨hraise, trivial⟩, trivial⟩, ⟨?_, ?_,
    tidyIn_printBlock layout hr hu⟩, trivial⟩
  · exact tidy_text (begins_ofList (by decide)) (ends_ofList rfl) (oneLine_ofList rfl)
  · refine tidy_head rfl (begins_ofList (by decide)) ?_
    simp only [unbroken_cons, unbroken_nil, and_true]
    exact ⟨oneLine_ofList rfl, oneLine_toString _, oneLine_ofList rfl, oneLine_toString _,
      oneLine_ofList rfl, oneLine_append.mpr ⟨oneLine_ofList rfl, oneLine_ofList rfl⟩,
      oneLine_ofList rfl⟩
  · refine tidy_render rfl (begins_ofList (by decide)) rfl (ends_ofList rfl) ?_
    simp only [unbroken_cons, unbroken_nil, and_true]
    exact ⟨oneLine_ofList rfl, oneLine_blockName hr hu, oneLine_ofList rfl⟩

theorem tidyIn_jacobianComparison {layout : Layout}
    (hnames : ∀ slot ∈ layout.slots, OneLine slot.name) :
    TidyIn (jacobianComparison layout) := by
  have hidx : OneLine "idx" := oneLine_ofList rfl
  have hidx2 : OneLine "idx2" := oneLine_ofList rfl
  have hraise := tidy_raiseToDifference (begins_ofList (by decide) : Begins "jacobian_error")
    (oneLine_ofList rfl)
  refine ⟨⟨tidy_openBrace, ?_⟩, trivial⟩
  rw [tidyIn_iff, List.forall_mem_append]
  refine ⟨?_, fun stmt hstmt => ?_⟩
  · simp only [List.forall_mem_cons, List.not_mem_nil, false_implies, implies_true, and_true]
    refine ⟨?_, ?_, ⟨?_, tidy_fail, trivial⟩, ?_,
      tidy_forAllUnknowns hidx ⟨tidy_forAllUnknowns hidx2 ⟨hraise, trivial⟩, trivial⟩, ?_⟩
    · exact tidy_comment (ends_ofList rfl) (oneLine_ofList rfl)
    · refine tidy_render rfl (begins_ofList (by decide)) rfl (ends_ofList rfl) ?_
      simp only [matrixType, unbroken_concat, List.forall_mem_cons, unbroken_cons,
        unbroken_nil, and_true, List.not_mem_nil, false_implies, implies_true]
      exact ⟨⟨oneLine_ofList rfl, oneLine_size, oneLine_ofList rfl, oneLine_size,
        oneLine_ofList rfl⟩, oneLine_ofList rfl⟩
    · refine tidy_head rfl (begins_ofList (by decide)) ?_
      simp only [unbroken_cons, unbroken_nil, and_true]
      exact ⟨oneLine_ofList rfl, oneLine_append.mpr ⟨oneLine_ofList rfl, oneLine_ofList rfl⟩,
        oneLine_ofList rfl⟩
    · exact tidy_text (begins_ofList (by decide)) (ends_ofList rfl) (oneLine_ofList rfl)
    · exact tidy_text (begins_ofList (by decide)) (ends_ofList rfl) (oneLine_ofList rfl)
  · obtain ⟨r, hr, hstmt⟩ := List.mem_flatMap.mp hstmt
    obtain ⟨u, hu, rfl⟩ := List.mem_map.mp hstmt
    exact tidy_compareBlock layout (hnames r hr) (hnames u hu)

/-! ## The call for blocks of the inverse -/

namespace Blueprint

theorem tidyIn_callFor {placed : List PlacedBlock}
    (hnames : ∀ p ∈ placed, OneLine p.block.memberName) :
    TidyIn (callFor placed) := by
  refine ⟨⟨tidy_head rfl (begins_ofList (by decide)) ?_, tidy_fail, trivial⟩, trivial⟩
  have hseparator : OneLine ", " := oneLine_ofList rfl
  simp only [unbroken_concat, unbroken_joinWith hseparator, List.forall_mem_cons, unbroken_cons,
    unbroken_nil, and_true, List.not_mem_nil, false_implies, implies_true, List.forall_mem_map]
  refine ⟨⟨oneLine_ofList rfl, oneLine_append.mpr ⟨oneLine_ofList rfl, oneLine_ofList rfl⟩,
    oneLine_ofList rfl⟩, ?_, oneLine_ofList rfl⟩
  intro p hp
  exact oneLine_append.mpr ⟨oneLine_ofList rfl, hnames p hp⟩

end Blueprint

/-! ## The loop -/

theorem Loop.body_sameText {comments : Bool} (loop : Loop)
    {comparison comparison' call call' : List Stmt}
    (hcomparison : SameText comments comparison comparison') (hcall : SameText comments call call')
    (undo : List Stmt) :
    SameText comments (loop.body comparison undo call) (loop.body comparison' undo call') := by
  have hiteration : SameText comments (loop.iteration comparison) (loop.iteration comparison') := by
    unfold Loop.iteration
    exact ((((SameText.refl _).append hcomparison).append (.refl _)).append (.refl _)).append
      (.refl _)
  have hconclude : SameText comments (loop.conclude undo call) (loop.conclude undo call') := by
    unfold Loop.conclude
    exact (((SameText.refl _).append hcall).append (.refl _)).append (.refl _)
  have hwhile : ∀ head : Line, SameText comments
      ([.line ["bool converged = false;"], .line [Member.iter, " = 0;"]] ++
        [.block head (loop.iteration comparison)])
      ([.line ["bool converged = false;"], .line [Member.iter, " = 0;"]] ++
          [.block head (loop.iteration comparison')]) :=
    fun head => (SameText.refl _).append (hiteration.block head)
  unfold Loop.body
  exact (((SameText.refl _).append (hwhile _)).append hconclude).block _

/-! ## The sections as statements -/

namespace Blueprint

variable {plan : Blueprint}

theorem sectionOf_congr {body body' : List Stmt} (h : SameText plan.options.comments body body')
    (kind : SectionKind) :
    plan.sectionOf kind body = plan.sectionOf kind body' := by
  unfold sectionOf Blueprint.render
  rw [h.render_eq]

/-- Whether the Jacobian is compared with the numerical one. -/
def compares (plan : Blueprint) : Bool :=
  plan.draft.tolerances.comparisonCriterion?.isSome && plan.solver.capabilities.isAnalytical

/-- What an accepted blueprint has for its sections: the results of all that could have failed. -/
structure Build (plan : Blueprint) where
  members : List Stmt
  derivatives : List Derivative
  placed : List PlacedBlock
  /-- The method that hands out blocks of the inverse. -/
  inverse : List Stmt
  /-- The call of this method. -/
  call : List Stmt
  /-- Statements that map the increments back. -/
  undoIncrements : List Stmt
  members_eq : plan.members = .ok members
  derivatives_eq : plan.derivatives (plan.code? .integrator) = .ok derivatives
  placed_eq : placeBlocks plan.layout plan.draft.inverseBlocks = .ok placed
  inverse_eq :
    inverseMethod plan.layout plan.draft.factors plan.solver.capabilities plan.draft.inverseBlocks =
    .ok inverse
  call_eq : inverseCall plan.layout plan.draft.inverseBlocks = .ok call
  undoIncrements_eq : Constitutive.undoIncrements plan.draft.factors [] plan.layout.slots =
    .ok undoIncrements

namespace Build

/-- The members that do not receive blocks of the inverse. -/
def ownMembers (plan : Blueprint) : List Stmt :=
  [.comment "solver state",
      .line ["static constexpr bool ", .define (.constant .success), " = true;"],
      .line ["static constexpr bool ", .define (.constant .failure), " = false;"],
      plainMember vectorType .zeros,
      plainMember vectorType .zeros1,
      plainMember vectorType .fzeros,
      plainMember matrixType .jacobian,
      .line ["unsigned short ", .define (.member .iter), " = 0;"]] ++
    plan.draft.tolerances.members ++
    plan.draft.limits.members ++
    plan.solver.members plan.solverContext

theorem members_eq_append (build : plan.Build) :
    build.members = ownMembers plan ++ build.placed.map fun p =>
      plainMember p.type (.inverseBlock p.block) := by
  have hmembers := build.members_eq
  unfold Blueprint.members inverseMembers at hmembers
  rw [build.placed_eq] at hmembers
  exact (Except.ok.inj hmembers).symm

theorem exists_inverse_eq (build : plan.Build) :
    ∃ undo, undoBlocks plan.draft.factors [] build.placed = .ok undo ∧
      build.inverse = handOut plan.solver.capabilities build.placed undo := by
  have hinverse := build.inverse_eq
  rw [inverseMethod_eq build.placed_eq] at hinverse
  cases hundo : undoBlocks plan.draft.factors [] build.placed with
  | error fault =>
      rw [hundo] at hinverse
      cases hinverse
  | ok undo =>
      rw [hundo] at hinverse
      exact ⟨undo, rfl, (Except.ok.inj hinverse).symm⟩

theorem call_eq_callFor (build : plan.Build) : build.call = callFor build.placed := by
  have hcall := build.call_eq
  unfold inverseCall at hcall
  rw [build.placed_eq] at hcall
  exact (Except.ok.inj hcall).symm

/-- The text of the comparison. -/
def comparisonText (plan : Blueprint) : Option String :=
  if plan.compares then some (plan.render (jacobianComparison plan.layout)) else none

/-- The text of the call that asks for blocks of the inverse. -/
def callText (build : plan.Build) : Option String :=
  if plan.draft.inverseBlocks = [] then none else some (plan.render build.call)

/-- The loop with the statements of the comparison, and with given ones that ask for blocks of the
inverse. -/
def loopWith (build : plan.Build) (call : List Stmt) : List Stmt :=
  (plan.loop (comparisonText plan) build.callText).body
    (onlyIf plan.compares (jacobianComparison plan.layout)) build.undoIncrements call

/-- The loop. -/
def loop (build : plan.Build) : List Stmt :=
  build.loopWith (onlyIf (plan.draft.inverseBlocks ≠ []) build.call)

/-- The statements of all sections, in order. -/
def parts (build : plan.Build) : List (SectionKind × List Stmt) :=
  [(SectionKind.offsets, plan.layout.offsetConstants), (SectionKind.members, build.members),
      (SectionKind.views, plan.views)] ++
    (plan.code? .predictor).toList.map
      (fun code => (SectionKind.predictor, plan.predictorMethod code)) ++
    (plan.code? .computeStress).toList.map
      (fun code => (SectionKind.stress, plainMethod .stress code)) ++
    [(SectionKind.residual, plan.residualMethod (plan.code? .integrator) build.derivatives)] ++
    (if plan.needsNumericalJacobian then
      [(SectionKind.numericalJacobian, numericalJacobianMethod Member.numericalJacobianEpsilon)]
        else []) ++
    [(SectionKind.update, plan.updateMethod)] ++
    (plan.code? .computeFinalStress).toList.map
      (fun code => (SectionKind.finalStress, plainMethod .finalStress code)) ++
    (if plan.draft.inverseBlocks = [] then [] else [(SectionKind.inverseBlocks, build.inverse)]) ++
    [(SectionKind.integrate, build.loop)]

end Build

theorem mem_slots_of_slot? {layout : Layout} {name : String} {slot : Slot}
    (h : layout.slot? name = some slot) :
    slot ∈ layout.slots :=
  List.mem_reverse.mp (List.mem_of_find?_eq_some h)

theorem mem_slots_of_derivative (build : plan.Build) {d : Derivative} (hd : d ∈ build.derivatives) :
    d.residual ∈ plan.layout.slots ∧ d.unknown ∈ plan.layout.slots := by
  have hderivatives := build.derivatives_eq
  cases hanalytical : plan.solver.capabilities.isAnalytical with
  | false =>
      rw [Blueprint.derivatives, hanalytical, if_neg Bool.false_ne_true] at hderivatives
      rw [← Except.ok.inj hderivatives] at hd
      exact absurd hd List.not_mem_nil
  | true =>
      obtain ⟨_, hpair⟩ := exists_of_mem_right (forall₂_derivatives hanalytical hderivatives) hd
      obtain ⟨hresidual, hunknown⟩ := Layout.slot?_of_derivative_eq_ok hpair
      exact ⟨mem_slots_of_slot? hresidual, mem_slots_of_slot? hunknown⟩

theorem comparison_eq_text {comparison : Option String}
    (h : plan.comparison.outcome = .ok comparison) :
    comparison = Build.comparisonText plan := by
  unfold Blueprint.comparison at h
  unfold Build.comparisonText compares
  split at h
  · rename_i hnone
    obtain rfl := Except.ok.inj h
    rw [Option.isNone_iff_eq_none.mp hnone]
    rfl
  · rename_i hsome
    rw [Bool.not_eq_true, Option.isNone_eq_false_iff] at hsome
    split at h
    · rename_i hanalytical
      obtain rfl := Except.ok.inj h
      rw [hsome, hanalytical]
      rfl
    · rename_i hanalytical
      have hfalse : plan.solver.capabilities.isAnalytical = false := by simpa using hanalytical
      rw [hsome, hfalse]
      exact (Except.ok.inj h).symm

theorem numericalJacobianSection_eq {numericalJacobian : List CodeSection}
    (h : plan.numericalJacobianSection.outcome = .ok numericalJacobian) :
    numericalJacobian = if plan.needsNumericalJacobian then
      [plan.sectionOf .numericalJacobian (numericalJacobianMethod Member.numericalJacobianEpsilon)]
        else [] := by
  unfold numericalJacobianSection at h
  split at h
  · rename_i hneeds
    rw [if_pos hneeds]
    exact (Except.ok.inj h).symm
  · rename_i hneeds
    rw [if_neg hneeds]
    exact (Except.ok.inj h).symm

theorem inverseSection_eq_ok {inverse : List CodeSection} {call : Option String}
    (h : plan.inverseSection = .ok (inverse, call)) :
    ∃ method calling,
      inverseMethod plan.layout plan.draft.factors plan.solver.capabilities
        plan.draft.inverseBlocks = .ok method ∧
      inverseCall plan.layout plan.draft.inverseBlocks = .ok calling ∧
      inverse =
        (if plan.draft.inverseBlocks = [] then [] else [plan.sectionOf .inverseBlocks method]) ∧
      call = if plan.draft.inverseBlocks = [] then none else some (plan.render calling) := by
  unfold inverseSection at h
  by_cases hempty : plan.draft.inverseBlocks = []
  · rw [if_pos hempty] at h
    obtain ⟨rfl, rfl⟩ := Prod.mk.inj (Except.ok.inj h)
    rw [hempty]
    exact ⟨_, _, rfl, rfl, rfl, rfl⟩
  · rw [if_neg hempty] at h
    obtain ⟨method, hmethod, h⟩ := bind_eq_ok_iff.mp h
    obtain ⟨calling, hcalling, h⟩ := bind_eq_ok_iff.mp h
    obtain ⟨rfl, rfl⟩ := Prod.mk.inj (Except.ok.inj h)
    exact ⟨method, calling, hmethod, hcalling, (if_neg hempty).symm, (if_neg hempty).symm⟩

namespace Build

variable {dim : Dimension}

theorem oneLine_of_mem_names (hplan : plan.Grounded dim) {name : String}
    (h : name ∈ plan.draft.roster.names) :
    OneLine name :=
  oneLine_of_isVariableName (hplan.sound.wellNamed.identifiers name h)

theorem name_mem_of_mem_slots (hplan : plan.Grounded dim) {slot : Slot}
    (h : slot ∈ plan.layout.slots) :
    slot.name ∈ plan.draft.roster.names := by
  rw [hplan.layout_eq] at h
  exact List.mem_map_of_mem (Layout.owner_mem_of_mem_plan h)

theorem oneLine_memberName (hplan : plan.Grounded dim) (build : plan.Build) :
    ∀ p ∈ build.placed, OneLine p.block.memberName := by
  intro p hp
  have hblock : p.block ∈ plan.draft.inverseBlocks :=
    map_block_of_placeBlocks build.placed_eq ▸ List.mem_map_of_mem hp
  obtain ⟨hunknown, hresidual⟩ := hplan.requests.declared p.block hblock
  unfold InverseBlock.memberName
  simp only [oneLine_append]
  exact ⟨⟨⟨oneLine_ofList rfl, oneLine_of_mem_names hplan hunknown⟩, oneLine_ofList rfl⟩,
    oneLine_of_mem_names hplan hresidual⟩

/-- The texts in the loop are written as the statements. -/
theorem loop_sameText (hplan : plan.Grounded dim) (build : plan.Build) :
    SameText plan.options.comments
      ((plan.loop (comparisonText plan) build.callText).body
        ((comparisonText plan).toList.map .code) build.undoIncrements
        (build.callText.toList.map .code)) build.loop := by
  refine Loop.body_sameText _ ?_ ?_ _
  · unfold comparisonText onlyIf
    split
    · have hnames : ∀ slot ∈ plan.layout.slots, OneLine slot.name :=
        fun slot hslot => oneLine_of_mem_names hplan (name_mem_of_mem_slots hplan hslot)
      exact SameText.code_render (tidyIn_jacobianComparison hnames)
    · exact SameText.refl []
  · unfold callText onlyIf
    by_cases hempty : plan.draft.inverseBlocks = []
    · simpa [hempty] using SameText.refl []
    · have htidy : TidyIn build.call := by
        rw [build.call_eq_callFor]
        exact tidyIn_callFor (oneLine_memberName hplan build)
      have hcall : SameText plan.options.comments [.code (plan.render build.call)] build.call :=
        SameText.code_render htidy
      simpa [hempty] using hcall

/-- So the loop with the texts is the section of the loop with the statements. -/
theorem loopSection_eq (hplan : plan.Grounded dim) (build : plan.Build) :
    plan.loopSection (comparisonText plan) build.callText =
      .ok (plan.sectionOf .integrate build.loop) := by
  rw [loopSection_eq_of_undoIncrements build.undoIncrements_eq]
  exact congrArg Except.ok (sectionOf_congr (loop_sameText hplan build) .integrate)

end Build

end Blueprint

namespace Compiler

open Blueprint

variable {compiler : Compiler} {description : Description} {hypothesis : Hypothesis}
  {plan : Blueprint}

/-- The sections of an accepted description are those of its build. -/
theorem exists_build {generated : GeneratedClass}
    (hcompile : (compiler.compile description hypothesis).outcome = .ok generated)
    (hplan : (compiler.blueprint description hypothesis).outcome = .ok plan) :
    ∃ build : plan.Build, generated.sections = build.parts.map fun part =>
      plan.sectionOf part.1 part.2 := by
  have hgrounded := grounded_of_blueprint hplan
  obtain ⟨plan', sections, hplan', hsections, rfl⟩ := compile_eq_ok_iff.mp hcompile
  obtain rfl : plan = plan' := Except.ok.inj (hplan.symm.trans hplan')
  obtain ⟨members, derivatives, numericalJacobian, inverse, call, comparison, loop, hmembers,
    hderivatives, hnumerical, hinverse, hcomparison, hloop, rfl⟩ := sections_eq_ok_iff.mp hsections
  obtain ⟨placed, hplaced⟩ := hgrounded.exists_placed
  obtain ⟨method, calling, hmethod, hcalling, rfl, rfl⟩ := inverseSection_eq_ok hinverse
  obtain ⟨increments, hincrements⟩ :=
    exists_undoIncrements_eq_ok plan.draft.factors hgrounded.namesDistinct
      (fun _ _ => List.not_mem_nil : ∀ slot ∈ plan.layout.slots,
        incrementName slot.name ∉ ([] : Undone))
  let build : plan.Build :=
    { members := members, derivatives := derivatives, placed := placed, inverse := method
      call := calling, undoIncrements := increments
      members_eq := hmembers, derivatives_eq := hderivatives, placed_eq := hplaced
      inverse_eq := hmethod, call_eq := hcalling, undoIncrements_eq := hincrements }
  have hloop' : loop = plan.sectionOf .integrate build.loop := by
    rw [comparison_eq_text hcomparison] at hloop
    exact Except.ok.inj (hloop.symm.trans (Build.loopSection_eq hgrounded build))
  refine ⟨build, ?_⟩
  rw [hloop', numericalJacobianSection_eq hnumerical]
  unfold Build.parts sectionFor
  simp only [List.map_append, List.map_cons, List.map_nil, List.map_map, apply_ite (List.map _)]
  rfl

end Compiler

end Constitutive
