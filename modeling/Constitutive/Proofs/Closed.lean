import Constitutive.Proofs.Code.References
import Constitutive.Proofs.Section.Loop

/-!
# Generated classes are closed

Which members, methods and constants a class has depends on the description: on the code that was
given, on the algorithm, on what is to be compared, relaxed, bounded or handed out.  Declarations
and uses are written in different places, each under a condition of its own.  They agree for every
description that is accepted with a built-in algorithm (`class_is_closed`): whatever is used is
declared, in the section where it belongs, and optional methods are called exactly if they are
there.

## Strategy

* **Declarations.**  `Fits` collects, symbol by symbol, under which condition a scope has to have
  it.  The scope of the class fits by looking up each symbol in the section that defines it
  (`fits_scope`).
* **Uses.**  Every section keeps to any scope that fits (`Fits.covers_of_mem_parts`), and so does
  the loop if the call that asks for blocks of the inverse does (`Fits.covers_loopWith`).  This is
  used twice: for the scope of the class, and for the scope without the method that hands out such
  blocks, which shows that nothing else calls it.
-/

namespace Constitutive

open Stmt

/-! ## Sections of symbols -/

/-- The section of a method. -/
def Method.home : Method → SectionKind
  | predictor => .predictor
  | stress => .stress
  | residual => .residual
  | numericalJacobian => .numericalJacobian
  | update => .update
  | finalStress => .finalStress
  | inverseBlocks => .inverseBlocks
  | integrate => .integrate

/-- The section that declares a symbol. -/
def Symbol.home : Symbol → SectionKind
  | .member (.increment _) => .views
  | .member _ => .members
  | .method m => m.home
  | .constant .size => .offsets
  | .constant (.offset _) => .offsets
  | .constant _ => .members

namespace Blueprint

variable {plan : Blueprint} {dim : Dimension}

@[simp] theorem isSome_code? (role : Role) :
    (plan.code? role).isSome = (plan.draft.code? role).isSome := by
  simp [code?]

/-- A symbol is defined in its section.  The values of variables are members that the class has
anyway. -/
def Declared (plan : Blueprint) (parts : List (SectionKind × List Stmt)) (symbol : Symbol) : Prop :=
  (∃ name ∈ plan.draft.roster.names, symbol = .member (.value name)) ∨
    ∃ part ∈ parts, part.1 = symbol.home ∧ Defines part.2 symbol

/-- What the code of a class may refer to: what its sections declare, the factors, and the code of
the description. -/
def scope (plan : Blueprint) (parts : List (SectionKind × List Stmt)) : Scope where
  declared := plan.Declared parts
  given expression := ∃ name side, plan.draft.factors.get? name side = some expression
  code text := ∃ role, plan.code? role = some text

/-- A scope that has all that a class refers to, except for the method that hands out blocks of the
inverse. -/
structure Fits (plan : Blueprint) (build : plan.Build) (scope : Scope) : Prop where
  core : scope.HasCore
  offset : ∀ slot ∈ plan.layout.slots, scope.declared (.constant (.offset slot.name))
  increment : ∀ name ∈ plan.draft.roster.names, scope.declared (.member (.increment name))
  value : ∀ name ∈ plan.draft.roster.names, scope.declared (.member (.value name))
  criterion : plan.draft.tolerances.comparisonCriterion?.isSome = true →
    scope.declared (.member .comparisonCriterion)
  trigger : plan.draft.tolerances.useRelaxation = true → scope.declared (.member .relaxationTrigger)
  coefficient : plan.draft.tolerances.useRelaxation = true →
    scope.declared (.member .relaxationCoefficient)
  limit : plan.draft.limits.overall.isSome = true → scope.declared (.member .maximumIncrement)
  own : ∀ symbol, Defines (plan.solver.members plan.solverContext) symbol → scope.declared symbol
  block : ∀ p ∈ build.placed, scope.declared (.member (.inverseBlock p.block))
  predictor : (plan.code? .predictor).isSome = true → scope.declared (.method .predictor)
  stress : (plan.code? .computeStress).isSome = true → scope.declared (.method .stress)
  finalStress : (plan.code? .computeFinalStress).isSome = true →
    scope.declared (.method .finalStress)
  numericalJacobian : plan.needsNumericalJacobian = true →
    scope.declared (.method .numericalJacobian)
  given : ∀ name side expression, plan.draft.factors.get? name side = some expression →
    scope.given expression
  code : ∀ role text, plan.code? role = some text → scope.code text

/-! ## Declarations -/

namespace Build

variable (build : plan.Build)

theorem offsets_mem : (SectionKind.offsets, plan.layout.offsetConstants) ∈ build.parts := by
  simp [parts]

theorem members_mem : (SectionKind.members, build.members) ∈ build.parts := by
  simp [parts]

theorem views_mem : (SectionKind.views, plan.views) ∈ build.parts := by
  simp [parts]

theorem residual_mem :
    (SectionKind.residual, plan.residualMethod (plan.code? .integrator) build.derivatives) ∈
      build.parts := by
  simp [parts]

theorem update_mem : (SectionKind.update, plan.updateMethod) ∈ build.parts := by
  simp [parts]

theorem integrate_mem : (SectionKind.integrate, build.loop) ∈ build.parts := by
  simp [parts]

variable {build}

theorem declared_of_members {symbol : Symbol} (hhome : symbol.home = .members)
    (h : Defines build.members symbol) :
    plan.Declared build.parts symbol :=
  Or.inr ⟨_, build.members_mem, hhome.symm, h⟩

/-- The members that do not depend on anything. -/
theorem defines_core (build : plan.Build) :
    ∀ symbol ∈ core, symbol.home = .members → Defines build.members symbol := by
  simp [core, Symbol.home, Method.home, build.members_eq_append, ownMembers, plainMember,
    Line.concat, vectorType, matrixType, Tolerances.members, Tolerances.parameterMember]

theorem hasCore_scope (build : plan.Build) : (plan.scope build.parts).HasCore := by
  intro symbol hsymbol
  by_cases hhome : symbol.home = .members
  · exact declared_of_members hhome (build.defines_core symbol hsymbol hhome)
  · have hother :
        symbol ∈ [.constant .size, .method .residual, .method .update, .method .integrate] := by
      revert symbol
      decide
    simp only [List.mem_cons, List.not_mem_nil, or_false] at hother
    rcases hother with rfl | rfl | rfl | rfl
    · exact Or.inr ⟨_, build.offsets_mem, rfl, by simp [Layout.offsetConstants]⟩
    · exact Or.inr ⟨_, build.residual_mem, rfl, by simp [residualMethod]⟩
    · exact Or.inr ⟨_, build.update_mem, rfl, by simp [updateMethod]⟩
    · exact Or.inr ⟨_, build.integrate_mem, rfl, by simp [Build.loop, loopWith, Loop.body]⟩

theorem defines_of_tolerances {symbol : Symbol} (h : Defines plan.draft.tolerances.members symbol) :
    Defines build.members symbol := by
  simp only [build.members_eq_append, ownMembers, has_append]
  exact Or.inl (Or.inl (Or.inl (Or.inr h)))

/-- The scope of a class has all that the class refers to. -/
theorem fits_scope (hplan : plan.Grounded dim) (hsolver : plan.solver.SelfContained)
    (build : plan.Build) :
    plan.Fits build (plan.scope build.parts) where
  core := build.hasCore_scope
  offset := by
    intro slot hslot
    refine Or.inr ⟨_, build.offsets_mem, rfl, ?_⟩
    simp only [Layout.offsetConstants, has_append, has_cons_comment, has_map]
    exact Or.inl ⟨slot, hslot, by simp⟩
  increment := by
    intro name hname
    obtain ⟨v, hv, rfl⟩ := List.mem_map.mp hname
    obtain ⟨slot, hslot, hv⟩ := Layout.exists_slot_of_mem dim hv
    refine Or.inr ⟨_, build.views_mem, rfl, ?_⟩
    simp only [views, has_cons_comment, has_map]
    refine ⟨slot, hplan.layout_eq ▸ hslot, ?_⟩
    simp [vectorView, Line.concat, Slot.name, hv]
  value := fun name hname => Or.inl ⟨name, hname, rfl⟩
  criterion := by
    intro hsome
    obtain ⟨criterion, hcriterion⟩ := Option.isSome_iff_exists.mp hsome
    refine declared_of_members rfl (defines_of_tolerances ?_)
    simp [Tolerances.members, hcriterion, Tolerances.parameterMember]
  trigger := by
    intro hrelaxation
    refine declared_of_members rfl (defines_of_tolerances ?_)
    simp [Tolerances.members, hrelaxation, Tolerances.parameterMember]
  coefficient := by
    intro hrelaxation
    refine declared_of_members rfl (defines_of_tolerances ?_)
    simp [Tolerances.members, hrelaxation, Tolerances.parameterMember]
  limit := by
    intro hsome
    obtain ⟨limit, hlimit⟩ := Option.isSome_iff_exists.mp hsome
    refine declared_of_members rfl ?_
    simp only [build.members_eq_append, ownMembers, has_append]
    exact Or.inl (Or.inl (Or.inr (by simp [Limits.members, hlimit])))
  own := by
    intro symbol hdefines
    have hhome : ∀ own ∈ ownSymbols, own.home = .members := by decide
    refine declared_of_members (hhome symbol (hsolver.members _ symbol hdefines)) ?_
    simp only [build.members_eq_append, ownMembers, has_append]
    exact Or.inl (Or.inr hdefines)
  block := by
    intro p hp
    refine declared_of_members rfl ?_
    simp only [build.members_eq_append, has_append, has_map]
    exact Or.inr ⟨p, hp, by simp [plainMember, Line.concat]⟩
  predictor := by
    intro hsome
    obtain ⟨code, hcode⟩ := Option.isSome_iff_exists.mp hsome
    exact Or.inr ⟨(.predictor, plan.predictorMethod code), by simp [parts, hcode], rfl,
      by simp [predictorMethod]⟩
  stress := by
    intro hsome
    obtain ⟨code, hcode⟩ := Option.isSome_iff_exists.mp hsome
    exact Or.inr ⟨(.stress, plainMethod .stress code), by simp [parts, hcode], rfl,
      by simp [plainMethod]⟩
  finalStress := by
    intro hsome
    obtain ⟨code, hcode⟩ := Option.isSome_iff_exists.mp hsome
    exact Or.inr ⟨(.finalStress, plainMethod .finalStress code), by simp [parts, hcode], rfl,
      by simp [plainMethod]⟩
  numericalJacobian := by
    intro hneeds
    exact Or.inr ⟨(.numericalJacobian, numericalJacobianMethod Member.numericalJacobianEpsilon),
      by simp [parts, hneeds], rfl, by simp [numericalJacobianMethod, Line.concat]⟩
  given := fun name side _ hget => ⟨name, side, hget⟩
  code := fun role _ hcode => ⟨role, hcode⟩

end Build

end Blueprint

/-! ## Uses -/

section Lines

variable {scope : Scope}

theorem covers_vectorView {label : Piece} (hlabel : scope.Allows label) {slot : Slot}
    (hoffset : scope.declared (.constant (.offset slot.name))) {vector : Member}
    (hvector : scope.declared (.member vector)) : scope.Covers [vectorView label slot vector] := by
  unfold vectorView
  split
  · simp [hlabel, hoffset, hvector]
  · simp [hlabel, hoffset, hvector]

theorem allowsLine_view {matrix : Piece} (hmatrix : scope.Allows matrix) (d : Derivative) :
    scope.AllowsLine (d.view matrix) := by
  unfold Derivative.view
  split
  · simp [hmatrix]
  · simp [hmatrix]

theorem allowsLine_accessor {matrix : Piece} (hmatrix : scope.Allows matrix) (d : Derivative)
    (label : String) :
    scope.AllowsLine (d.accessor label matrix) := by
  have hview := allowsLine_view hmatrix d
  unfold Derivative.accessor
  split
  · split
    · simp [hview]
    · simp [hmatrix]
  · simp [hview]
  · simp [hview]
  · simp [hview]

theorem allowsLine_scale {s r : Option String} (hs : ∀ e ∈ s, scope.given e)
    (hr : ∀ e ∈ r, scope.given e)
    {scale : Scale} (h : Scale.of? s r = some scale) : scope.AllowsLine scale.line := by
  cases s with
  | none =>
      cases r with
      | none => cases h
      | some r =>
          obtain rfl := Option.some.inj h
          simpa [Scale.line] using hr r rfl
  | some s =>
      cases r with
      | none =>
          obtain rfl := Option.some.inj h
          simpa [Scale.line] using hs s rfl
      | some r =>
          obtain rfl := Option.some.inj h
          simpa [Scale.line] using ⟨hs s rfl, hr r rfl⟩

end Lines

namespace Blueprint.Fits

variable {plan : Blueprint} {dim : Dimension} {build : plan.Build} {scope : Scope}

theorem allowsLine_factorScale (hfits : plan.Fits build scope) {a b : String} {scale : Scale}
    (h : Scale.of? (plan.draft.factors.get? a .unknown) (plan.draft.factors.get? b .residual) =
      some scale) :
    scope.AllowsLine scale.line :=
  allowsLine_scale (fun e he => hfits.given a .unknown e he)
    (fun e he => hfits.given b .residual e he) h

theorem covers_self (hfits : plan.Fits build scope) (hsolver : plan.solver.SelfContained) :
    scope.Covers (plan.solver.members plan.solverContext) ∧
      scope.Covers (plan.solver.initialisation plan.solverContext) ∧
      scope.Covers (plan.solver.correction plan.solverContext) ∧
      scope.Covers (plan.solver.afterUpdate plan.solverContext) := by
  obtain ⟨hmembers, hinitialisation, hcorrection, hafter, -⟩ :=
    hsolver.covers scope plan.solverContext hfits.core
    hfits.own (fun text h => hfits.code .initializeJacobian text h)
    (fun text h => hfits.code .initializeJacobianInvert text h)
  exact ⟨hmembers, hinitialisation, hcorrection, hafter⟩

theorem covers_members (hfits : plan.Fits build scope) (hsolver : plan.solver.SelfContained) :
    scope.Covers build.members := by
  have htolerances : scope.Covers plan.draft.tolerances.members := by
    unfold Tolerances.members
    simp only [Scope.covers_append]
    refine ⟨⟨by simp [Tolerances.parameterMember], ?_⟩, ?_⟩
    · split
      · simp [Tolerances.parameterMember]
      · simp
    · split
      · simp [Tolerances.parameterMember]
      · simp
  have hlimits : scope.Covers plan.draft.limits.members := by
    unfold Limits.members
    split
    · simp
    · simp
  have hstate : scope.Covers [.comment "solver state",
      .line ["static constexpr bool ", .define (.constant .success), " = true;"],
      .line ["static constexpr bool ", .define (.constant .failure), " = false;"],
      plainMember vectorType .zeros, plainMember vectorType .zeros1, plainMember vectorType .fzeros,
      plainMember matrixType .jacobian,
      .line ["unsigned short ", .define (.member .iter), " = 0;"]] := by
    simp [plainMember, vectorType, matrixType, hfits.core.all]
  rw [build.members_eq_append]
  unfold Build.ownMembers
  simp only [Scope.covers_append, Scope.covers_map]
  refine ⟨⟨⟨⟨hstate, htolerances⟩, hlimits⟩, (hfits.covers_self hsolver).1⟩, fun p _ => ?_⟩
  simp [plainMember, PlacedBlock.type]

theorem covers_views (hfits : plan.Fits build scope) : scope.Covers plan.views := by
  unfold views
  simp only [Scope.covers_cons_comment, Scope.covers_map]
  intro slot hslot
  exact covers_vectorView (scope.allows_define _) (hfits.offset slot hslot)
    (hfits.core _ (by decide))

theorem covers_predictorMethod (hfits : plan.Fits build scope) {code : String}
    (hcode : plan.code? .predictor = some code) : scope.Covers (plan.predictorMethod code) := by
  unfold predictorMethod normaliseIncrements
  simp only [Scope.covers_cons_block, Scope.covers_cons_code, Scope.covers_map,
    Scope.covers_nil, and_true, List.mem_filterMap]
  refine ⟨by simp, by simp, hfits.code _ _ hcode, ?_⟩
  rintro l ⟨v, hv, hl⟩
  obtain ⟨s, hs, rfl⟩ := Option.map_eq_some_iff.mp hl
  have hincrement := hfits.increment v.name (List.mem_map_of_mem hv)
  simp [hincrement, hfits.given _ _ _ hs]

theorem covers_plainMethod (hfits : plan.Fits build scope) {role : Role} {code : String}
    (hcode : plan.code? role = some code) (method : Method) :
    scope.Covers (plainMethod method code) := by
  simpa [plainMethod] using hfits.code _ _ hcode

theorem covers_residualMethod (hfits : plan.Fits build scope) :
    scope.Covers (plan.residualMethod (plan.code? .integrator) build.derivatives) := by
  have hjacobian : scope.Allows (.use (.member .jacobian)) := hfits.core _ (by decide)
  have hviews : ∀ slot ∈ plan.layout.slots,
      scope.Covers [vectorView (residualName slot.name) slot .fzeros] :=
    fun slot hslot =>
      covers_vectorView (scope.allows_text _) (hfits.offset slot hslot) (hfits.core _ (by decide))
  have hprologue : ∀ slot ∈ plan.layout.slots,
      ∀ stmt ∈ (plan.draft.factors.prologue? slot.name).map Stmt.line, scope.Covers [stmt] := by
    intro slot _ stmt hstmt
    obtain ⟨l, hl, rfl⟩ := Option.map_eq_some_iff.mp hstmt
    obtain ⟨s, hs, rfl⟩ := Option.map_eq_some_iff.mp hl
    simp [hfits.given _ _ _ hs]
  have hepilogue : ∀ slot ∈ plan.layout.slots,
      ∀ stmt ∈ (plan.draft.factors.epilogue? slot.name).map Stmt.line, scope.Covers [stmt] := by
    intro slot _ stmt hstmt
    obtain ⟨l, hl, rfl⟩ := Option.map_eq_some_iff.mp hstmt
    obtain ⟨s, hs, rfl⟩ := Option.map_eq_some_iff.mp hl
    simp [hfits.given _ _ _ hs]
  have hscale : ∀ d ∈ build.derivatives,
      ∀ stmt ∈ (plan.draft.factors.scaleBlock? d).map Stmt.line, scope.Covers [stmt] := by
    intro d _ stmt hstmt
    obtain ⟨l, hl, rfl⟩ := Option.map_eq_some_iff.mp hstmt
    obtain ⟨scale, hscale, rfl⟩ := Option.map_eq_some_iff.mp hl
    have hline := hfits.allowsLine_factorScale hscale
    dsimp only
    split
    · simp [hline]
    · simp [hline]
    · simp [hline]
    · simp [hline]
  have hcode : ∀ text ∈ plan.code? .integrator, scope.code text := fun text h => hfits.code _ text h
  unfold residualMethod
  simp only [Scope.covers_cons_block, Scope.covers_append, Scope.covers_map, Scope.covers_filterMap,
    Scope.covers_onlyIf, Scope.covers_cons_line, Scope.covers_nil, and_true]
  refine ⟨by simp, ⟨⟨⟨⟨⟨⟨⟨⟨⟨fun _ => covers_resetJacobian hfits.core, ?_⟩, hviews⟩, ?_⟩, ?_⟩,
    hprologue⟩, ?_⟩, hepilogue⟩, hscale⟩, by simp⟩⟩
  · simp [hfits.core.all]
  · exact fun d _ => allowsLine_accessor hjacobian d d.name
  · intro hsome
    have hmethod := hfits.stress ((isSome_code? _).trans hsome)
    simp [hmethod]
  · intro text htext
    simpa using hcode text (Option.mem_toList.mp htext)

theorem covers_numericalJacobianMethod (hcore : scope.HasCore) :
    scope.Covers (numericalJacobianMethod Member.numericalJacobianEpsilon) := by
  simp [numericalJacobianMethod, evaluateOrRestore, localValue, localCopy, forAllUnknowns,
    vectorType, matrixType, hcore.all]

theorem covers_updateMethod (hfits : plan.Fits build scope) : scope.Covers plan.updateMethod := by
  unfold updateMethod
  simp only [Scope.covers_cons_block, Scope.covers_map, Scope.covers_nil, and_true]
  refine ⟨by simp, fun v hv => ?_⟩
  have hname : v.name ∈ plan.draft.roster.names := List.mem_map_of_mem hv
  simp [hfits.value _ hname, hfits.increment _ hname]

theorem mem_slots_of_placed (build : plan.Build) {p : PlacedBlock} (hp : p ∈ build.placed) :
    p.unknown ∈ plan.layout.slots ∧ p.residual ∈ plan.layout.slots := by
  obtain ⟨block, hblock⟩ := exists_of_mem_right (placeBlocks_eq_ok_iff.mp build.placed_eq) hp
  obtain ⟨-, hunknown, hresidual⟩ := PlacedBlock.of_eq_ok_iff.mp hblock
  exact ⟨List.mem_reverse.mp (List.mem_of_find?_eq_some hunknown),
    List.mem_reverse.mp (List.mem_of_find?_eq_some hresidual)⟩

theorem covers_inverse (hfits : plan.Fits build scope) : scope.Covers build.inverse := by
  obtain ⟨undo, hundo, hinverse⟩ := build.exists_inverse_eq
  have hoffsets : ∀ p ∈ build.placed, scope.declared (.constant (.offset p.unknown.name)) ∧
      scope.declared (.constant (.offset p.residual.name)) := by
    intro p hp
    obtain ⟨hunknown, hresidual⟩ := mem_slots_of_placed build hp
    exact ⟨hfits.offset _ hunknown, hfits.offset _ hresidual⟩
  have hcopy : ∀ p ∈ build.placed, scope.Covers [p.copy] := by
    intro p hp
    simp [PlacedBlock.copy, hfits.core.all, hoffsets p hp]
  have hcollect : ∀ p ∈ build.placed, scope.Covers [p.collect] := by
    intro p hp
    simp [PlacedBlock.collect, hoffsets p hp]
  have hextraction : scope.Covers (if plan.solver.capabilities.usesJacobianInvert
      then build.placed.map PlacedBlock.copy else collectBlocks build.placed) := by
    split
    · simpa using hcopy
    · simp only [collectBlocks, forAllUnknowns, vectorType, Scope.covers_cons_line,
        Scope.covers_cons_block, Scope.covers_append, Scope.covers_map]
      simpa [hfits.core.all] using hcollect
  have hlines : scope.Covers undo := by
    obtain ⟨-, -, heq⟩ := (undoBlocks_eq_ok_iff (named_of_placeBlocks build.placed_eq)).mp hundo
    rw [heq, Scope.covers_map]
    intro l hl
    obtain ⟨block, -, hline⟩ := List.mem_filterMap.mp hl
    obtain ⟨scale, hscale, rfl⟩ := Option.map_eq_some_iff.mp hline
    have hallows := hfits.allowsLine_factorScale hscale
    simp [hallows]
  rw [hinverse]
  unfold handOut
  simp only [Scope.covers_cons_block, Scope.covers_append, Scope.covers_nil, and_true]
  refine ⟨?_, ⟨hextraction, hlines⟩, by simp⟩
  simp [PlacedBlock.type]

/-- Increments are mapped back by their factors. -/
theorem covers_undoIncrements (hfits : plan.Fits build scope) {undone : Undone} {slots : List Slot}
    {body : List Stmt} (hslots : ∀ slot ∈ slots, slot.name ∈ plan.draft.roster.names)
    (h : undoIncrements plan.draft.factors undone slots = .ok body) : scope.Covers body := by
  induction slots generalizing undone body with
  | nil =>
      obtain rfl := Except.ok.inj h
      exact Scope.covers_nil
  | cons slot rest ih =>
      obtain ⟨hslot, hrest⟩ := List.forall_mem_cons.mp hslots
      unfold undoIncrements at h
      obtain ⟨⟨line?, noted⟩, hline, h⟩ := bind_eq_ok_iff.mp h
      obtain ⟨tail, htail, h⟩ := bind_eq_ok_iff.mp h
      obtain rfl := Except.ok.inj h
      refine Scope.covers_append.mpr ⟨?_, ih hrest htail⟩
      unfold Undone.increment at hline
      split at hline
      · obtain ⟨rfl, -⟩ := Prod.mk.inj (Except.ok.inj hline)
        simp
      · rename_i s hs
        obtain ⟨_, -, hline⟩ := bind_eq_ok_iff.mp hline
        obtain ⟨rfl, -⟩ := Prod.mk.inj (Except.ok.inj hline)
        simp [hfits.increment _ hslot, hfits.given _ _ _ hs]

theorem covers_jacobianComparison (hfits : plan.Fits build scope)
    (hcriterion : scope.declared (.member .comparisonCriterion))
    (hnumerical : scope.declared (.method .numericalJacobian)) :
    scope.Covers (jacobianComparison plan.layout) := by
  have hjacobian : scope.Allows (.use (.member .jacobian)) := hfits.core _ (by decide)
  have hprint : ∀ r u : Slot, scope.Covers (printBlock plan.layout r u) := by
    intro r u
    unfold printBlock
    split
    · simp
    · split
      · simp
      · simp [allowsLine_accessor hjacobian, allowsLine_accessor (scope.allows_text "njacobian")]
  have hblock : ∀ r ∈ plan.layout.slots, ∀ u ∈ plan.layout.slots,
      scope.Covers [compareBlock plan.layout r u] := by
    intro r hr u hu
    simp [compareBlock, forSlot, raiseToDifference, hfits.core.all, hfits.offset r hr,
      hfits.offset u hu, hcriterion, hprint r u]
  unfold jacobianComparison
  simp only [Scope.covers_cons_block, Scope.covers_append, Scope.covers_flatMap, Scope.covers_map,
    Scope.covers_nil, and_true]
  refine ⟨by simp, ?_, hblock⟩
  simp [fail, forAllUnknowns, raiseToDifference, matrixType, hfits.core.all, hnumerical]

theorem covers_clamp (hfits : plan.Fits build scope) :
    scope.Covers (plan.draft.limits.clamp plan.layout plan.draft.factors) := by
  unfold Limits.clamp
  rw [Scope.covers_append, Scope.covers_flatMap]
  refine ⟨fun slot hslot => ?_, ?_⟩
  · unfold Limits.clampSlot
    split
    · simp
    · have hoffset := hfits.offset slot hslot
      cases hget : plan.draft.factors.get? slot.name .unknown with
      | none => simp [Limits.clampComponent, hoffset, hfits.core.all]
      | some s => simp [Limits.clampComponent, hoffset, hfits.core.all, hfits.given _ _ _ hget]
  · split
    · simp
    · rename_i limit hlimit
      have hmaximum := hfits.limit (by rw [hlimit]; rfl)
      simp [Limits.clampComponent, hmaximum, hfits.core.all]

theorem covers_computeJacobian (hfits : plan.Fits build scope)
    (hrequires : plan.solver.capabilities.requiresNumericalJacobian = true) :
    scope.Covers Loop.computeJacobian := by
  have hmethod := hfits.numericalJacobian (by simp [needsNumericalJacobian, hrequires])
  simp [Loop.computeJacobian, fail, hmethod, hfits.core.all]

/-- The comparison needs the criterion and the method, which are there if it is asked for. -/
theorem covers_comparison (hfits : plan.Fits build scope) (hcompares : plan.compares = true) :
    scope.Covers (jacobianComparison plan.layout) := by
  obtain ⟨hcriterion, -⟩ := Bool.and_eq_true_iff.mp hcompares
  have hcompare : plan.draft.tolerances.compareToNumericalJacobian = true := by
    by_contra hnot
    simp [Tolerances.comparisonCriterion?, hnot] at hcriterion
  exact hfits.covers_jacobianComparison (hfits.criterion hcriterion)
    (hfits.numericalJacobian (by simp [needsNumericalJacobian, hcompare]))

theorem covers_correct (hfits : plan.Fits build scope) (hsolver : plan.solver.SelfContained)
    (comparison call : Option String) : scope.Covers (plan.loop comparison call).correct := by
  obtain ⟨-, -, hcorrection, hafter⟩ := hfits.covers_self hsolver
  have hrelax : plan.draft.tolerances.useRelaxation = true → scope.Covers [Loop.relax] := by
    intro hrelaxation
    simp [Loop.relax, hfits.core.all, hfits.trigger hrelaxation, hfits.coefficient hrelaxation]
  simp only [Loop.correct, Scope.covers_append, Scope.covers_onlyIf]
  refine ⟨⟨⟨⟨⟨?_, hcorrection⟩, hfits.covers_clamp⟩, ?_⟩, hafter⟩, hrelax⟩
  · exact fun h => hfits.covers_computeJacobian (Bool.and_eq_true_iff.mp h).1
  · simp [hfits.core.all]

theorem covers_iteration (hfits : plan.Fits build scope) (hsolver : plan.solver.SelfContained)
    (comparison call : Option String) :
    scope.Covers ((plan.loop comparison call).iteration
      (onlyIf plan.compares (jacobianComparison plan.layout))) := by
  simp only [Loop.iteration, Scope.covers_append, Scope.covers_onlyIf]
  refine ⟨⟨⟨⟨⟨?_, ?_⟩, hfits.covers_comparison⟩, ?_⟩, ?_⟩, ?_⟩
  · simp [hfits.core.all]
  · simp [Loop.evaluate, fail, hfits.core.all]
  · simp [Loop.test, localValue, hfits.core.all]
  · exact fun h => hfits.covers_computeJacobian (Bool.and_eq_true_iff.mp h).1
  · simp [hfits.covers_correct hsolver]

theorem covers_conclude (hfits : plan.Fits build scope) (hplan : plan.Grounded dim)
    {inverse : List Stmt} (hinverse : scope.Covers inverse) (comparison call : Option String) :
    scope.Covers ((plan.loop comparison call).conclude build.undoIncrements inverse) := by
  have hundo :=
    hfits.covers_undoIncrements (fun slot hslot => Build.name_mem_of_mem_slots hplan hslot)
    build.undoIncrements_eq
  simp only [Loop.conclude, Scope.covers_append, Scope.covers_onlyIf]
  refine ⟨⟨⟨⟨⟨⟨?_, hundo⟩, ?_⟩, ?_⟩, hinverse⟩, ?_⟩, ?_⟩
  · simp [fail, hfits.core.all]
  · simp [hfits.core.all]
  · intro hsome
    have hmethod := hfits.finalStress ((isSome_code? _).trans hsome)
    simp [hmethod]
  · simp [hfits.core.all]
  · simp [hfits.core.all]

/-- The loop keeps to every scope that fits, if the call for blocks of the inverse does. -/
theorem covers_loopWith (hfits : plan.Fits build scope) (hplan : plan.Grounded dim)
    (hsolver : plan.solver.SelfContained) {call : List Stmt} (hcall : scope.Covers call) :
    scope.Covers (build.loopWith call) := by
  obtain ⟨-, hinitialisation, -, -⟩ := hfits.covers_self hsolver
  unfold Build.loopWith Loop.body
  simp only [Scope.covers_cons_block, Scope.covers_append, Scope.covers_onlyIf,
    Scope.covers_nil, and_true]
  refine ⟨by simp, ⟨⟨?_, hinitialisation⟩, ?_⟩, hfits.covers_conclude hplan hcall _ _⟩
  · intro hsome
    have hmethod := hfits.predictor ((isSome_code? _).trans hsome)
    simp [hmethod]
  · simp [hfits.core.all, hfits.covers_iteration hsolver]

/-- All sections but the loop keep to every scope that fits. -/
theorem covers_of_mem_parts (hfits : plan.Fits build scope) (hsolver : plan.solver.SelfContained) :
    ∀ part ∈ build.parts, part = (.integrate, build.loop) ∨ scope.Covers part.2 := by
  unfold Build.parts
  simp only [List.forall_mem_append, List.forall_mem_cons, List.forall_mem_map, List.not_mem_nil,
    false_implies, implies_true, and_true, Option.mem_toList]
  refine ⟨⟨⟨⟨⟨⟨⟨⟨⟨.inr ?_, .inr (hfits.covers_members hsolver), .inr hfits.covers_views⟩, ?_⟩, ?_⟩,
    .inr hfits.covers_residualMethod⟩, ?_⟩, .inr hfits.covers_updateMethod⟩, ?_⟩, ?_⟩, .inl trivial⟩
  · simp [Layout.offsetConstants]
  · exact fun code hcode => .inr (hfits.covers_predictorMethod hcode)
  · exact fun code hcode => .inr (hfits.covers_plainMethod hcode .stress)
  · split
    · exact List.forall_mem_singleton.mpr (.inr (covers_numericalJacobianMethod hfits.core))
    · exact fun _ h => absurd h List.not_mem_nil
  · exact fun code hcode => .inr (hfits.covers_plainMethod hcode .finalStress)
  · split
    · exact fun _ h => absurd h List.not_mem_nil
    · exact List.forall_mem_singleton.mpr (.inr hfits.covers_inverse)

/-- All sections keep to a scope that fits, if it has the method that hands out blocks of the
inverse when there are such. -/
theorem covers_parts (hfits : plan.Fits build scope) (hplan : plan.Grounded dim)
    (hsolver : plan.solver.SelfContained)
    (hmethod : plan.draft.inverseBlocks ≠ [] → scope.declared (.method .inverseBlocks)) :
    ∀ part ∈ build.parts, scope.Covers part.2 := by
  have hcall : plan.draft.inverseBlocks ≠ [] → scope.Covers build.call := by
    intro hne
    have hmembers : ∀ p ∈ build.placed, scope.declared (.member (.inverseBlock p.block)) :=
      hfits.block
    simpa [build.call_eq_callFor, callFor, fail, hmethod hne, hfits.core.all] using hmembers
  intro part hpart
  rcases hfits.covers_of_mem_parts hsolver part hpart with rfl | hcovers
  · exact hfits.covers_loopWith hplan hsolver
      (Scope.covers_onlyIf.mpr fun h => hcall (by simpa using h))
  · exact hcovers

end Blueprint.Fits

/-! ## Which sections there are -/

namespace Blueprint

variable {plan : Blueprint} {dim : Dimension}

/-- Whether there is a section of some kind. -/
def hasSection (plan : Blueprint) : SectionKind → Bool
  | .predictor => (plan.code? .predictor).isSome
  | .stress => (plan.code? .computeStress).isSome
  | .numericalJacobian => plan.needsNumericalJacobian
  | .finalStress => (plan.code? .computeFinalStress).isSome
  | .inverseBlocks => plan.draft.inverseBlocks ≠ []
  | _ => true

theorem map_fst_toList {β : Type} (code : Option String) (kind : SectionKind) (f : String → β) :
    (code.toList.map fun text => (kind, f text)).map Prod.fst = if code.isSome then [kind]
      else [] := by
  cases code with
  | none => rfl
  | some text => rfl

theorem Build.kinds_parts (build : plan.Build) :
    build.parts.map Prod.fst = SectionKind.all.filter plan.hasSection := by
  -- the pieces of the list of all kinds that are kept or dropped as a whole
  have hall : SectionKind.all = [SectionKind.offsets, SectionKind.members, SectionKind.views] ++
      [SectionKind.predictor] ++ [SectionKind.stress] ++ [SectionKind.residual] ++
      [SectionKind.numericalJacobian] ++
      [SectionKind.update] ++ [SectionKind.finalStress] ++ [SectionKind.inverseBlocks] ++
      [SectionKind.integrate] := rfl
  rw [hall]
  unfold Build.parts
  simp only [List.map_append, List.filter_append, map_fst_toList, List.filter_singleton,
    apply_ite (List.map Prod.fst)]
  simp [hasSection, List.filter_cons, Bool.cond_eq_ite]

theorem Build.mem_kinds (build : plan.Build) {kind : SectionKind} :
    kind ∈ build.parts.map Prod.fst ↔ plan.hasSection kind = true := by
  rw [build.kinds_parts, List.mem_filter, and_iff_right_iff_imp]
  intro _
  cases kind <;> decide

/-! ## Calls of optional methods -/

theorem uses_loopWith {build : plan.Build} {call : List Stmt} {symbol : Symbol}
    (h : Uses call symbol) :
    Uses (build.loopWith call) symbol := by
  simp only [Build.loopWith, Loop.body, Loop.conclude, has_cons_block, has_append]
  exact .inr (.inl (.inr (.inl (.inl (.inr h)))))

/-- The calls are made under the same conditions as the methods are written. -/
theorem Build.uses_of_hasSection (build : plan.Build) {method : Method}
    (hmethod : method ∈ [.predictor, .stress, .finalStress, .inverseBlocks])
    (h : plan.hasSection method.home = true) :
    ∃ part ∈ build.parts, Uses part.2 (.method method) := by
  simp only [List.mem_cons, List.not_mem_nil, or_false] at hmethod
  rcases hmethod with rfl | rfl | rfl | rfl
  · have hsome : (plan.draft.code? .predictor).isSome = true := by
      simpa [hasSection, Method.home] using h
    refine ⟨_, build.integrate_mem, ?_⟩
    simp only [Build.loop, loopWith, Loop.body, has_cons_block, has_append, has_onlyIf]
    exact .inr (.inl (.inl (.inl (.inl ⟨hsome, by simp⟩))))
  · have hsome : (plan.draft.code? .computeStress).isSome = true := by
      simpa [hasSection, Method.home] using h
    refine ⟨_, build.residual_mem, ?_⟩
    simp [residualMethod, hsome]
  · have hsome : (plan.draft.code? .computeFinalStress).isSome = true := by
      simpa [hasSection, Method.home] using h
    refine ⟨_, build.integrate_mem, ?_⟩
    simp only [Build.loop, loopWith, Loop.body, Loop.conclude, has_cons_block,
      has_append, has_onlyIf]
    exact .inr (.inl (.inr (.inl (.inl (.inl (.inr ⟨hsome, by simp⟩))))))
  · have hne : plan.draft.inverseBlocks ≠ [] := by simpa [hasSection, Method.home] using h
    refine ⟨_, build.integrate_mem, uses_loopWith ?_⟩
    simp [hne, build.call_eq_callFor, callFor, Line.concat]

/-! ## The call for blocks of the inverse -/

/-- The head of the method that hands out blocks of the inverse. -/
def parameterLine (placed : List PlacedBlock) : Line :=
  .concat [["bool ", .define (.method .inverseBlocks), "("],
    .joinWith ", " (placed.map fun p => .concat [p.type, ["& ", p.block.argumentName]]), [")"]]

/-- The line that calls it. -/
def callLine (placed : List PlacedBlock) : Line :=
  .concat [["if(!", Method.inverseBlocks, "("],
    .joinWith ", " (placed.map fun p => [.use (.member (.inverseBlock p.block))]), ["))"]]

/-- Blocks of the inverse have members, and the method that hands them out has parameters of the
same types, in the order in which the members are passed. -/
structure Passes (plan : Blueprint) (parts : List (SectionKind × List Stmt))
    (placed : List PlacedBlock) : Prop where
  blocks : placed.map (·.block) = plan.draft.inverseBlocks
  members : ∀ body, (.members, body) ∈ parts → ∀ p ∈ placed,
    plainMember p.type (.inverseBlock p.block) ∈ body
  parameters : ∀ body, (.inverseBlocks, body) ∈ parts → ∃ rest,
    body = [.block (parameterLine placed) rest]
  call : ∀ part ∈ parts, ∀ l ∈ linesIn part.2, .use (.method .inverseBlocks) ∈ l →
    l = callLine placed

/-- All symbols but the method that hands out blocks of the inverse. -/
def withoutInverse : Scope where
  declared symbol := symbol ≠ .method .inverseBlocks
  given _ := True
  code _ := True

theorem fits_withoutInverse (hsolver : plan.solver.SelfContained) (build : plan.Build) :
    plan.Fits build withoutInverse where
  core := by
    show ∀ symbol ∈ Constitutive.core, symbol ≠ .method .inverseBlocks
    decide
  offset := nofun
  increment := nofun
  value := nofun
  criterion := nofun
  trigger := nofun
  coefficient := nofun
  limit := nofun
  own := by
    intro symbol hdefines
    have hown : ∀ own ∈ ownSymbols, own ≠ .method .inverseBlocks := by decide
    exact hown symbol (hsolver.members _ symbol hdefines)
  block := nofun
  predictor := nofun
  stress := nofun
  finalStress := nofun
  numericalJacobian := nofun
  given := fun _ _ _ _ => trivial
  code := fun _ _ _ => trivial

theorem mem_linesIn_loopWith {build : plan.Build} {call : List Stmt} {l : Line}
    (h : l ∈ linesIn (build.loopWith call)) :
    l ∈ linesIn (build.loopWith []) ∨ l ∈ linesIn call := by
  simp only [Build.loopWith, Loop.body, Loop.conclude, linesIn, lines, linesIn_append,
    List.mem_append, List.mem_cons] at h ⊢
  -- the same alternatives on both sides, with the lines of the call in their middle
  grind

/-- Only the call for blocks of the inverse mentions their method. -/
theorem Build.eq_callLine (hplan : plan.Grounded dim) (hsolver : plan.solver.SelfContained)
    (build : plan.Build)
    {part : SectionKind × List Stmt} (hpart : part ∈ build.parts) {l : Line}
    (hl : l ∈ linesIn part.2)
    (huse : .use (.method .inverseBlocks) ∈ l) : l = callLine build.placed := by
  have hfits := fits_withoutInverse hsolver build
  have hnot : ∀ body, withoutInverse.Covers body → l ∉ linesIn body :=
    fun body hcovers hl => hcovers.1 l hl _ huse rfl
  rcases hfits.covers_of_mem_parts hsolver part hpart with rfl | hcovers
  · rcases mem_linesIn_loopWith hl with hl | hl
    · exact absurd hl (hnot _ (hfits.covers_loopWith hplan hsolver Scope.covers_nil))
    · have hcall : l ∈ linesIn (callFor build.placed) := by
        rw [build.call_eq_callFor] at hl
        unfold onlyIf at hl
        split at hl
        · exact hl
        · cases hl
      simp only [callFor, linesIn, lines, fail, List.mem_append, List.mem_cons, List.not_mem_nil,
        or_false] at hcall
      rcases hcall with rfl | rfl
      · rfl
      · simp at huse
  · exact absurd hl (hnot _ hcovers)

theorem Build.passes (hplan : plan.Grounded dim) (hsolver : plan.solver.SelfContained)
    (build : plan.Build) :
    plan.Passes build.parts build.placed where
  blocks := map_block_of_placeBlocks build.placed_eq
  members := by
    intro body hbody p hp
    have hbody : body = build.members := by simpa [Build.parts] using hbody
    rw [hbody, build.members_eq_append]
    exact List.mem_append_right _ (List.mem_map_of_mem hp)
  parameters := by
    intro body hbody
    obtain ⟨-, hbody⟩ : plan.draft.inverseBlocks ≠ [] ∧ body = build.inverse := by
      simpa [Build.parts] using hbody
    obtain ⟨undo, -, hinverse⟩ := build.exists_inverse_eq
    exact ⟨_, hbody.trans hinverse⟩
  call := fun _ hpart _ hl huse => build.eq_callLine hplan hsolver hpart hl huse

/-! ## Closed classes -/

/-- The code of a class keeps to what the class declares, and calls the optional methods that it
has. -/
structure Closed (plan : Blueprint) (build : plan.Build) : Prop where
  covers : ∀ part ∈ build.parts, (plan.scope build.parts).Covers part.2
  called : ∀ method ∈ [Method.predictor, .stress, .finalStress, .inverseBlocks],
    (∃ part ∈ build.parts, Uses part.2 (.method method)) ↔ method.home ∈ build.parts.map Prod.fst
  passes : plan.Passes build.parts build.placed

theorem Build.covers_parts (hplan : plan.Grounded dim) (hsolver : plan.solver.SelfContained)
    (build : plan.Build) :
    ∀ part ∈ build.parts, (plan.scope build.parts).Covers part.2 := by
  refine (build.fits_scope hplan hsolver).covers_parts hplan hsolver fun hne => ?_
  obtain ⟨undo, -, hinverse⟩ := build.exists_inverse_eq
  exact Or.inr ⟨(.inverseBlocks, build.inverse), by simp [Build.parts, hne], rfl,
    by simp [hinverse, handOut, Line.concat]⟩

theorem Build.closed (hplan : plan.Grounded dim) (hsolver : plan.solver.SelfContained)
    (build : plan.Build) :
    plan.Closed build where
  covers := build.covers_parts hplan hsolver
  called := by
    intro method hmethod
    constructor
    · rintro ⟨part, hpart, l, hl, huse⟩
      obtain ⟨_, -, heq⟩ | ⟨home, hhome, heq, -⟩ :=
        (build.covers_parts hplan hsolver part hpart).1 l hl _ huse
      · cases heq
      · have heq : home.1 = method.home := heq
        exact heq ▸ List.mem_map_of_mem hhome
    · intro hhome
      exact build.uses_of_hasSection hmethod (build.mem_kinds.mp hhome)
  passes := build.passes hplan hsolver

end Blueprint

namespace Compiler

open Blueprint

variable {compiler : Compiler} {description : Description} {hypothesis : Hypothesis}
  {plan : Blueprint}

theorem registered_of_blueprint
    (hplan : (compiler.blueprint description hypothesis).outcome = .ok plan) :
    ∃ name, compiler.solvers.get? name = some plan.solver := by
  obtain ⟨draft, solver, hdraft, hsolver, rfl⟩ := blueprint_eq_ok_iff.mp hplan
  obtain ⟨⟨name, _⟩, hchosen, rfl⟩ := Option.map_eq_some_iff.mp hsolver
  exact ⟨name, Description.registered_of_draft_eq_ok hdraft _ hchosen⟩

/-- The sections of a class follow each other in their order, those that every class has among them,
and are written from statements that refer to nothing but what the class declares. -/
theorem class_is_closed {generated : GeneratedClass}
    (hcompile : (compiler.compile description hypothesis).outcome = .ok generated)
    (hplan : (compiler.blueprint description hypothesis).outcome = .ok plan)
    (hsolver : ∃ name, Solvers.builtin.get? name = some plan.solver) :
    (generated.sections.map (·.kind)).Sublist SectionKind.all ∧
      (∀ kind ∈ [SectionKind.offsets, .members, .views, .residual, .update, .integrate],
        kind ∈ generated.sections.map (·.kind)) ∧
      ∃ build : plan.Build, generated.sections =
        build.parts.map (fun part => plan.sectionOf part.1 part.2) ∧
        plan.Closed build := by
  obtain ⟨name, hname⟩ := hsolver
  have hself := Strategy.selfContained_of_builtin hname
  have hgrounded := grounded_of_blueprint hplan
  obtain ⟨build, hsections⟩ := exists_build hcompile hplan
  have hkinds : generated.sections.map (·.kind) = SectionKind.all.filter plan.hasSection := by
    rw [hsections, ← build.kinds_parts, List.map_map]
    rfl
  refine ⟨?_, ?_, build, hsections, build.closed hgrounded hself⟩
  · rw [hkinds]
    exact List.filter_sublist
  · rw [hkinds]
    simp [SectionKind.all, hasSection]

/-- A description with code for every section. -/
def everySection : Description where
  className := "EverySection"
  events :=
    [{ declaration := .integrationVariable "eel" .symmetricTensor 1 },
      { declaration := .integrationVariable "p" .scalar 2 },
      { declaration := .algorithm "PowellDogLeg_NewtonRaphson" },
      { declaration := .parameter "useRelaxation" (.flag true) },
      { declaration := .compareToNumericalJacobian true },
      { declaration := .normalisationFactor "p" .unknown (.text "young") },
      { declaration := .normalisationFactor "p" .residual (.text "2*young") },
      { declaration := .code .predictor "dp = 0;" },
      { declaration := .code .computeStress "sig = D * eel;" },
      { declaration := .code .integrator "fp = dp; dfp_ddeel = n;" },
      { declaration := .code .computeFinalStress "sig = D * eel;" },
      { declaration := .tangentBlocks [⟨"eel", "eel"⟩, ⟨"eel", "p"⟩, ⟨"p", "eel"⟩] }]

theorem everySection_plan :
    ∃ plan, (({} : Compiler).blueprint everySection .tridimensional).outcome = .ok plan ∧
      (∀ v ∈ plan.draft.roster.vars, v.rank ≠ .vector) ∧
      InverseBlock.scaled plan.draft.factors plan.draft.inverseBlocks =
        [⟨"eel", "p"⟩, ⟨"p", "eel"⟩] ∧
      ∀ kind ∈ SectionKind.all, plan.hasSection kind = true := by
  have hchecked : (match (({} : Compiler).blueprint everySection .tridimensional).outcome with
      | .error _ => false
      | .ok plan => plan.draft.roster.vars.all (·.rank ≠ .vector) &&
        InverseBlock.scaled plan.draft.factors plan.draft.inverseBlocks =
        [⟨"eel", "p"⟩, ⟨"p", "eel"⟩] &&
        SectionKind.all.all plan.hasSection) = true := by
    decide +kernel
  split at hchecked
  · cases hchecked
  · rename_i plan hplan
    simp only [Bool.and_eq_true, List.all_eq_true, decide_eq_true_eq] at hchecked
    obtain ⟨⟨hranks, hscaled⟩, hkinds⟩ := hchecked
    exact ⟨plan, hplan, hranks, hscaled, hkinds⟩

theorem class_is_closed_everySection :
    ∃ generated plan, (({} : Compiler).compile everySection .tridimensional).outcome =
      .ok generated ∧
      (({} : Compiler).blueprint everySection .tridimensional).outcome = .ok plan ∧
      (∀ kind ∈ SectionKind.all, plan.hasSection kind = true) ∧
      ∃ build : plan.Build, generated.sections =
        build.parts.map (fun part => plan.sectionOf part.1 part.2) ∧
        plan.Closed build := by
  obtain ⟨plan, hplan, hranks, hscaled, hkinds⟩ := everySection_plan
  have hgrounded := grounded_of_blueprint hplan
  have hviews : ∃ derivatives, plan.derivatives (plan.code? .integrator) = .ok derivatives :=
    exists_derivatives_eq_ok hgrounded.sound hgrounded.layout_eq fun _ _ u hu _ hshape =>
      hranks u hu hshape.2
  have hdistinct : ¬ ∃ target, ClashAt plan.draft.factors plan.draft.inverseBlocks target := by
    rintro ⟨target, hclash⟩
    have hclash := not_nodup_of_clashAt hclash
    rw [hscaled] at hclash
    exact hclash (by decide)
  cases hinverse : plan.inverseSection with
  | error cause =>
      obtain ⟨target, -, hclash⟩ := undoneTwice_of_inverseSection_eq_error hgrounded hinverse
      exact absurd ⟨target, hclash⟩ hdistinct
  | ok inverse =>
      obtain ⟨derivatives, hderivatives⟩ := hviews
      obtain ⟨sections, hsections⟩ := exists_sections_of_parts hgrounded hderivatives hinverse
      have hcompile := compile_eq_ok_iff.mpr ⟨plan, sections, hplan, hsections, rfl⟩
      obtain ⟨-, -, hclosed⟩ := class_is_closed hcompile hplan (registered_of_blueprint hplan)
      exact ⟨_, plan, hcompile, hplan, hkinds, hclosed⟩

end Compiler

end Constitutive
