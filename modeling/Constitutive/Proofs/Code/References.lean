import Constitutive.Solver.Builtin

/-!
# What code refers to

Code refers to symbols of the class, and holds expressions and texts that were given in the
description.  A `Scope` says which of them are allowed, and `Scope.Covers` that all code of some
statements keeps to it.  Scopes are checked statement by statement: what holds of a composed
statement is a rewrite rule on its parts.

The built-in strategies are self-contained.  They refer to what every class declares (`core`) and to
members of their own (`selfContained_of_builtin`).
-/

namespace Constitutive

namespace Stmt

mutual

/-- The lines of a statement, the heads of blocks included. -/
def lines : Stmt → List Line
  | line l => [l]
  | block head body => head :: linesIn body
  | comment _ => []
  | code _ => []

/-- The lines of statements, one after the other. -/
def linesIn : List Stmt → List Line
  | [] => []
  | stmt :: rest => lines stmt ++ linesIn rest

end

mutual

/-- The texts in a statement that come from elsewhere. -/
def codes : Stmt → List String
  | line _ => []
  | block _ body => codesIn body
  | comment _ => []
  | code text => [text]

/-- The texts in statements that come from elsewhere. -/
def codesIn : List Stmt → List String
  | [] => []
  | stmt :: rest => codes stmt ++ codesIn rest

end

theorem mem_linesIn {body : List Stmt} {l : Line} :
    l ∈ linesIn body ↔ ∃ stmt ∈ body, l ∈ lines stmt := by
  induction body with
  | nil => simp [linesIn]
  | cons stmt rest ih => simp [linesIn, ih]

theorem mem_codesIn {body : List Stmt} {text : String} :
    text ∈ codesIn body ↔ ∃ stmt ∈ body, text ∈ codes stmt := by
  induction body with
  | nil => simp [codesIn]
  | cons stmt rest ih => simp [codesIn, ih]

theorem linesIn_append (first second : List Stmt) :
    linesIn (first ++ second) = linesIn first ++ linesIn second := by
  induction first with
  | nil => rfl
  | cons stmt rest ih => simp [linesIn, ih]

/-- Some line of the statements has the piece. -/
def Has (body : List Stmt) (piece : Piece) : Prop :=
  ∃ l ∈ linesIn body, piece ∈ l

/-- The statements use a symbol. -/
abbrev Uses (body : List Stmt) (symbol : Symbol) : Prop :=
  Has body (.use symbol)

/-- The statements define a symbol. -/
abbrev Defines (body : List Stmt) (symbol : Symbol) : Prop :=
  Has body (.define symbol)

section Has

variable {piece : Piece} {rest : List Stmt}

@[simp] theorem not_has_nil : ¬ Has [] piece := by
  simp [Has, linesIn]

@[simp] theorem has_cons_line {l : Line} :
    Has (.line l :: rest) piece ↔ piece ∈ l ∨ Has rest piece := by
  simp [Has, linesIn, lines]

@[simp] theorem has_cons_block {head : Line} {body : List Stmt} :
    Has (.block head body :: rest) piece ↔ piece ∈ head ∨ Has body piece ∨ Has rest piece := by
  simp only [Has, linesIn, lines, List.mem_append, List.mem_cons, or_and_right, exists_or,
    exists_eq_left, or_assoc]

@[simp] theorem has_cons_comment {text : String} :
    Has (.comment text :: rest) piece ↔ Has rest piece := by
  simp [Has, linesIn, lines]

@[simp] theorem has_cons_code {text : String} :
    Has (.code text :: rest) piece ↔ Has rest piece := by
  simp [Has, linesIn, lines]

@[simp] theorem has_append {first second : List Stmt} :
    Has (first ++ second) piece ↔ Has first piece ∨ Has second piece := by
  simp only [Has, linesIn_append, List.mem_append, or_and_right, exists_or]

@[simp] theorem has_map {α : Type} {f : α → Stmt} {xs : List α} :
    Has (xs.map f) piece ↔ ∃ x ∈ xs, Has [f x] piece := by
  induction xs with
  | nil => simp
  | cons x xs ih =>
      rw [List.map_cons, ← List.singleton_append, has_append, ih]
      simp

@[simp] theorem has_onlyIf {condition : Bool} {body : List Stmt} :
    Has (onlyIf condition body) piece ↔ condition = true ∧ Has body piece := by
  cases condition with
  | false => simp [onlyIf]
  | true => simp [onlyIf]

end Has

end Stmt

open Stmt

/-! ## Scopes -/

/-- What code may refer to. -/
structure Scope where
  declared : Symbol → Prop
  /-- Expressions of the description. -/
  given : String → Prop
  /-- Texts from elsewhere. -/
  code : String → Prop

namespace Scope

variable {scope : Scope}

/-- The piece keeps to the scope. -/
def Allows (scope : Scope) : Piece → Prop
  | .text _ => True
  | .use symbol => scope.declared symbol
  | .define _ => True
  | .given expression => scope.given expression

@[simp] theorem allows_text (s : String) : scope.Allows (.text s) := trivial

@[simp] theorem allows_define (symbol : Symbol) : scope.Allows (.define symbol) := trivial

@[simp] theorem allows_use {symbol : Symbol} :
    scope.Allows (.use symbol) ↔ scope.declared symbol := Iff.rfl

@[simp] theorem allows_given {expression : String} :
    scope.Allows (.given expression) ↔ scope.given expression := Iff.rfl

/-- The line keeps to the scope. -/
def AllowsLine (scope : Scope) (l : Line) : Prop :=
  ∀ piece ∈ l, scope.Allows piece

@[simp] theorem allowsLine_nil : scope.AllowsLine [] := by
  simp [AllowsLine]

@[simp] theorem allowsLine_cons {piece : Piece} {l : Line} :
    scope.AllowsLine (piece :: l) ↔ scope.Allows piece ∧ scope.AllowsLine l := by
  simp [AllowsLine]

@[simp] theorem allowsLine_append {l l' : Line} :
    scope.AllowsLine (l ++ l') ↔ scope.AllowsLine l ∧ scope.AllowsLine l' := by
  simp [AllowsLine, or_imp, forall_and]

@[simp] theorem allowsLine_concat {parts : List Line} :
    scope.AllowsLine (.concat parts) ↔ ∀ part ∈ parts, scope.AllowsLine part := by
  induction parts with
  | nil => simp [Line.concat]
  | cons part rest ih =>
      have hconcat : Line.concat (part :: rest) = part ++ Line.concat rest := rfl
      rw [hconcat, allowsLine_append, ih, List.forall_mem_cons]

@[simp] theorem allowsLine_joinWith {separator : String} {parts : List Line} :
    scope.AllowsLine (.joinWith separator parts) ↔ ∀ part ∈ parts, scope.AllowsLine part := by
  induction parts using Line.joinWith.induct with
  | case1 => simp [Line.joinWith]
  | case2 part => simp [Line.joinWith]
  | case3 part rest hrest ih => simp [Line.joinWith, ih]

@[simp] theorem allowsLine_forIndex {index : String} {start stop : Line} :
    scope.AllowsLine (.forIndex index start stop) ↔ scope.AllowsLine start ∧
      scope.AllowsLine stop := by
  simp [Line.forIndex]

@[simp] theorem allowsLine_forBelow {index : String} {stop : Line} :
    scope.AllowsLine (.forBelow index stop) ↔ scope.AllowsLine stop := by
  simp [Line.forBelow]

@[simp] theorem allowsLine_inBraces {head body : Line} :
    scope.AllowsLine (.inBraces head body) ↔ scope.AllowsLine head ∧ scope.AllowsLine body := by
  simp [Line.inBraces]

/-- All code of the statements keeps to the scope. -/
def Covers (scope : Scope) (body : List Stmt) : Prop :=
  (∀ l ∈ linesIn body, scope.AllowsLine l) ∧ ∀ text ∈ codesIn body, scope.code text

theorem covers_iff {body : List Stmt} : scope.Covers body ↔ ∀ stmt ∈ body, scope.Covers [stmt] := by
  constructor
  · rintro ⟨hlines, hcodes⟩ stmt hstmt
    refine ⟨fun l hl => hlines l ?_, fun text htext => hcodes text ?_⟩
    · obtain ⟨stmt', hstmt', hmem⟩ := mem_linesIn.mp hl
      obtain rfl := List.mem_singleton.mp hstmt'
      exact mem_linesIn.mpr ⟨stmt', hstmt, hmem⟩
    · obtain ⟨stmt', hstmt', hmem⟩ := mem_codesIn.mp htext
      obtain rfl := List.mem_singleton.mp hstmt'
      exact mem_codesIn.mpr ⟨stmt', hstmt, hmem⟩
  · intro h
    refine ⟨fun l hl => ?_, fun text htext => ?_⟩
    · obtain ⟨stmt, hstmt, hl⟩ := mem_linesIn.mp hl
      exact (h stmt hstmt).1 l (mem_linesIn.mpr ⟨stmt, List.mem_singleton_self _, hl⟩)
    · obtain ⟨stmt, hstmt, htext⟩ := mem_codesIn.mp htext
      exact (h stmt hstmt).2 text (mem_codesIn.mpr ⟨stmt, List.mem_singleton_self _, htext⟩)

@[simp] theorem covers_nil : scope.Covers [] := by
  simp [Covers, linesIn, codesIn]

@[simp] theorem covers_cons_line {l : Line} {rest : List Stmt} :
    scope.Covers (.line l :: rest) ↔ scope.AllowsLine l ∧ scope.Covers rest := by
  simp [Covers, linesIn, codesIn, lines, codes, and_assoc]

@[simp] theorem covers_cons_block {head : Line} {body rest : List Stmt} :
    scope.Covers (.block head body :: rest) ↔ scope.AllowsLine head ∧ scope.Covers body ∧
      scope.Covers rest := by
  simp only [Covers, linesIn, codesIn, lines, codes, List.forall_mem_append, List.forall_mem_cons]
  exact ⟨fun ⟨⟨⟨hhead, hbody⟩, hrest⟩, hcodes, hcodes'⟩ => ⟨hhead, ⟨hbody, hcodes⟩, hrest, hcodes'⟩,
    fun ⟨hhead, ⟨hbody, hcodes⟩, hrest, hcodes'⟩ => ⟨⟨⟨hhead, hbody⟩, hrest⟩, hcodes, hcodes'⟩⟩

@[simp] theorem covers_cons_comment {text : String} {rest : List Stmt} :
    scope.Covers (.comment text :: rest) ↔ scope.Covers rest := by
  simp [Covers, linesIn, codesIn, lines, codes]

@[simp] theorem covers_cons_code {text : String} {rest : List Stmt} :
    scope.Covers (.code text :: rest) ↔ scope.code text ∧ scope.Covers rest := by
  simp [Covers, linesIn, codesIn, lines, codes, and_left_comm]

@[simp] theorem covers_append {first second : List Stmt} :
    scope.Covers (first ++ second) ↔ scope.Covers first ∧ scope.Covers second := by
  rw [covers_iff, List.forall_mem_append, ← covers_iff, ← covers_iff]

@[simp] theorem covers_map {α : Type} {f : α → Stmt} {xs : List α} :
    scope.Covers (xs.map f) ↔ ∀ x ∈ xs, scope.Covers [f x] := by
  rw [covers_iff, List.forall_mem_map]

@[simp] theorem covers_filterMap {α : Type} {f : α → Option Stmt} {xs : List α} :
    scope.Covers (xs.filterMap f) ↔ ∀ x ∈ xs, ∀ stmt ∈ f x, scope.Covers [stmt] := by
  rw [covers_iff]
  simp only [List.mem_filterMap, Option.mem_def]
  exact ⟨fun h x hx stmt hstmt => h stmt ⟨x, hx, hstmt⟩,
    fun h stmt ⟨x, hx, hstmt⟩ => h x hx stmt hstmt⟩

@[simp] theorem covers_flatMap {α : Type} {f : α → List Stmt} {xs : List α} :
    scope.Covers (xs.flatMap f) ↔ ∀ x ∈ xs, scope.Covers (f x) := by
  induction xs with
  | nil => simp
  | cons x rest ih => rw [List.flatMap_cons, covers_append, ih, List.forall_mem_cons]

@[simp] theorem covers_onlyIf {condition : Bool} {body : List Stmt} :
    scope.Covers (onlyIf condition body) ↔ (condition = true → scope.Covers body) := by
  cases condition with
  | false => simp [onlyIf]
  | true => simp [onlyIf]

end Scope

/-! ## Strategies -/

/-- The symbols that every class declares. -/
def core : List Symbol :=
  [.constant .size, .constant .success, .constant .failure, .member .zeros, .member .zeros1,
    .member .fzeros, .member .jacobian, .member .iter, .member .epsilon, .member .theta,
    .member .iterMax, .member .numericalJacobianEpsilon, .method .residual, .method .update,
    .method .integrate]

/-- The scope has the symbols that every class declares. -/
def Scope.HasCore (scope : Scope) : Prop :=
  ∀ symbol ∈ core, scope.declared symbol

section Core

variable {scope : Scope}

/-- The symbols one by one, as rewrite rules. -/
theorem Scope.HasCore.all (hcore : scope.HasCore) :
    scope.declared (.constant .size) ∧ scope.declared (.constant .success) ∧
      scope.declared (.constant .failure) ∧
      scope.declared (.member .zeros) ∧ scope.declared (.member .zeros1) ∧
      scope.declared (.member .fzeros) ∧
      scope.declared (.member .jacobian) ∧ scope.declared (.member .iter) ∧
      scope.declared (.member .epsilon) ∧
      scope.declared (.member .theta) ∧ scope.declared (.member .iterMax) ∧
      scope.declared (.member .numericalJacobianEpsilon) ∧ scope.declared (.method .residual) ∧
      scope.declared (.method .update) ∧ scope.declared (.method .integrate) := by
  simpa [HasCore, core] using hcore

theorem covers_resetJacobian (hcore : scope.HasCore) : scope.Covers resetJacobian := by
  simp [resetJacobian, hcore.all]

theorem covers_solveLinear (hcore : scope.HasCore) (ctx : SolverContext) {matrix : Piece}
    (hmatrix : scope.Allows matrix) : scope.Covers (solveLinear ctx matrix) := by
  simp [solveLinear, fail, hcore.all, hmatrix]

theorem covers_initialMatrix (hcore : scope.HasCore) {code : Option String}
    (hcode : ∀ text ∈ code, scope.code text) :
    scope.Covers (initialMatrix code) := by
  unfold initialMatrix
  split
  · rename_i text
    simpa using hcode text rfl
  · exact covers_resetJacobian hcore

theorem covers_dogLegCorrection (hcore : scope.HasCore)
    (hradius : scope.declared (.member .trustRegionSize))
    (ctx : SolverContext) {matrix : Piece} (hmatrix : scope.Allows matrix) (residual : String) :
    scope.Covers (dogLegCorrection ctx matrix residual) := by
  simp [dogLegCorrection, accumulate, localValue, forAllUnknowns, vectorType, hcore.all,
    hradius, hmatrix]

end Core

/-- The symbols that a strategy may declare. -/
def ownSymbols : List Symbol :=
  [.member .jacobian2, .member .fzeros2, .member .step, .member .trustRegionSize]

/-- What the code of a strategy refers to is declared by every class, or by the strategy itself, and
the texts in it are those it is told. -/
structure Strategy.SelfContained (solver : Strategy) : Prop where
  covers : ∀ (scope : Scope) (ctx : SolverContext), scope.HasCore →
    (∀ symbol, Defines (solver.members ctx) symbol → scope.declared symbol) →
    (∀ text ∈ ctx.initialJacobian, scope.code text) →
    (∀ text ∈ ctx.initialJacobianInvert, scope.code text) →
      scope.Covers (solver.members ctx) ∧ scope.Covers (solver.initialisation ctx) ∧
        scope.Covers (solver.correction ctx) ∧ scope.Covers (solver.afterUpdate ctx) ∧
        ∀ matrix ∈ solver.factorised, scope.Allows matrix
  /-- It defines members of its own only. -/
  members : ∀ (ctx : SolverContext) (symbol : Symbol), Defines (solver.members ctx) symbol →
    symbol ∈ ownSymbols

namespace Strategy

/-- A strategy without members of its own that solves with the Jacobian itself. -/
theorem selfContained_of_solveLinear (name : String) (capabilities : Capabilities) :
    ({ name := name, capabilities := capabilities,
       correction := fun ctx => solveLinear ctx Member.jacobian } : Strategy).SelfContained where
  covers := by
    intro scope ctx hcore _ _ _
    have hjacobian : scope.Allows (.use (.member .jacobian)) := hcore _ (by decide)
    simp [covers_solveLinear hcore ctx hjacobian]
  members := by
    intro ctx symbol h
    simp at h

theorem selfContained_broyden : broyden.SelfContained where
  covers := by
    intro scope ctx hcore hown hinitial _
    have hjacobian : scope.Allows (.use (.member .jacobian)) := hcore _ (by decide)
    have hjacobian2 : scope.declared (.member .jacobian2) :=
      hown _ (by simp [broyden, plainMember, Line.concat])
    have hfzeros2 : scope.declared (.member .fzeros2) :=
      hown _ (by simp [broyden, plainMember, Line.concat])
    have hstep : scope.declared (.member .step) :=
      hown _ (by simp [broyden, plainMember, Line.concat])
    refine ⟨?_, covers_initialMatrix hcore hinitial, ?_, ?_, ?_⟩
    · simp [broyden, plainMember, matrixType, vectorType, hcore.all]
    · have hsolve := covers_solveLinear hcore ctx (scope.allows_use.mpr hjacobian2)
      simp [broyden, afterFirstIteration, residualChange, rememberResidual, localValue, vectorType,
        hcore.all, hfzeros2, hstep, hjacobian2, hsolve]
    · simp [broyden, rememberStep, hcore.all, hstep]
    · simpa [broyden] using hjacobian
  members := by
    intro ctx symbol h
    simp only [broyden, plainMember, matrixType, vectorType, Line.concat, has_cons_line] at h
    simp at h
    rcases h with rfl | rfl | rfl
    · decide
    · decide
    · decide

theorem selfContained_broyden2 : broyden2.SelfContained where
  covers := by
    intro scope ctx hcore hown _ hinitial
    have hfzeros2 : scope.declared (.member .fzeros2) :=
      hown _ (by simp [broyden2, plainMember, Line.concat])
    have hstep : scope.declared (.member .step) :=
      hown _ (by simp [broyden2, plainMember, Line.concat])
    refine ⟨?_, covers_initialMatrix hcore hinitial, ?_, ?_, ?_⟩
    · simp [broyden2, plainMember, vectorType, hcore.all]
    · simp [broyden2, afterFirstIteration, residualChange, rememberResidual, localValue, vectorType,
        hcore.all, hfzeros2, hstep]
    · simp [broyden2, rememberStep, hcore.all, hstep]
    · simp [broyden2]
  members := by
    intro ctx symbol h
    simp only [broyden2, plainMember, vectorType, Line.concat, has_cons_line] at h
    simp at h
    rcases h with rfl | rfl
    · decide
    · decide

/-- The dog-leg adds the size of its trust region to the members. -/
theorem SelfContained.powellDogLeg {inner : Strategy} (hinner : inner.SelfContained)
    (name : String) :
    (powellDogLeg name inner).SelfContained where
  covers := by
    intro scope ctx hcore hown hinitial hinitial'
    have hradius : scope.declared (.member .trustRegionSize) :=
      hown _ (by simp [Constitutive.powellDogLeg])
    obtain ⟨hmembers, hinitialisation, hcorrection, hafter, hfactorised⟩ :=
      hinner.covers scope ctx hcore
      (fun symbol h => hown symbol (by simp [Constitutive.powellDogLeg, h])) hinitial hinitial'
    refine ⟨?_, hinitialisation, ?_, hafter, hfactorised⟩
    · simp [Constitutive.powellDogLeg, hmembers]
    · unfold Constitutive.powellDogLeg
      cases hmatrix : inner.factorised with
      | some matrix =>
          have hdogLeg :=
            covers_dogLegCorrection hcore hradius ctx (hfactorised matrix hmatrix) "pdl_fzeros"
          simp [localCopy, vectorType, hcore.all, hcorrection, hdogLeg]
      | none =>
          have hdogLeg := covers_dogLegCorrection hcore hradius ctx
            (scope.allows_text "pdl_jacobian") "pdl_fzeros"
          simp [localCopy, vectorType, matrixType, hcore.all, hcorrection, hdogLeg]
  members := by
    intro ctx symbol h
    simp only [Constitutive.powellDogLeg, has_append] at h
    rcases h with h | h
    · exact hinner.members ctx symbol h
    · have hsymbol : symbol = .member .trustRegionSize := by simpa using h
      rw [hsymbol]
      decide

/-- The basic strategies, and dog-legs on top of them up to any height. -/
inductive BuiltIn : Strategy → Prop
  | newtonRaphson : BuiltIn newtonRaphson
  | newtonRaphsonNumericalJacobian : BuiltIn newtonRaphsonNumericalJacobian
  | broyden : BuiltIn broyden
  | broyden2 : BuiltIn broyden2
  | powellDogLeg (name : String) {inner : Strategy} (hinner : BuiltIn inner) :
      BuiltIn (powellDogLeg name inner)

theorem BuiltIn.selfContained {solver : Strategy} (h : solver.BuiltIn) : solver.SelfContained := by
  induction h with
  | newtonRaphson => exact selfContained_of_solveLinear _ _
  | newtonRaphsonNumericalJacobian => exact selfContained_of_solveLinear _ _
  | broyden => exact selfContained_broyden
  | broyden2 => exact selfContained_broyden2
  | powellDogLeg name _ ih => exact ih.powellDogLeg name

end Strategy

/-! ## Algorithms -/

namespace Solvers

variable {solvers : Solvers} {name : String} {solver : Strategy}

/-- All algorithms have built-in strategies. -/
def AllBuiltIn (solvers : Solvers) : Prop :=
  ∀ entry ∈ solvers.entries, entry.2.BuiltIn

theorem AllBuiltIn.of_get? (h : solvers.AllBuiltIn) (hget : solvers.get? name = some solver) :
    solver.BuiltIn := by
  obtain ⟨before, after, heq, -⟩ := List.lookup_eq_some_iff.mp hget
  exact h (name, solver) (heq ▸ List.mem_append_right before (List.mem_cons_self ..))

theorem AllBuiltIn.register (h : solvers.AllBuiltIn) (hsolver : solver.BuiltIn) :
    (solvers.register name solver).AllBuiltIn := by
  intro entry hentry
  rcases List.mem_append.mp hentry with hentry | hentry
  · exact h entry (List.mem_filter.mp hentry).1
  · obtain rfl := List.mem_singleton.mp hentry
    exact hsolver

theorem allBuiltIn_builtin : builtin.AllBuiltIn := by
  simp only [AllBuiltIn, builtin, own, List.forall_mem_cons, List.not_mem_nil, false_implies,
    implies_true, and_true]
  exact ⟨.newtonRaphson, .newtonRaphsonNumericalJacobian, .broyden, .broyden2,
    .powellDogLeg _ .newtonRaphson, .powellDogLeg _ .newtonRaphsonNumericalJacobian,
    .powellDogLeg _ .broyden⟩

end Solvers

/-- The built-in strategies are self-contained. -/
theorem Strategy.selfContained_of_builtin {name : String} {solver : Strategy}
    (h : Solvers.builtin.get? name = some solver) : solver.SelfContained :=
  (Solvers.allBuiltIn_builtin.of_get? h).selfContained

end Constitutive
