import Constitutive.Scheme.Draft
import Constitutive.Section.Difference
import Constitutive.Section.Inverse
import Constitutive.Section.Kind
import Constitutive.Section.Loop

/-!
# The blueprint of a class

A blueprint is a finished draft with its layout and the strategy of its algorithm.  From it the
statements of each section follow.
-/

namespace Constitutive

/-- All that the sections of a class are made from. -/
structure Blueprint where
  draft : Draft
  layout : Layout
  options : Options
  solver : Strategy

/-- A view on the part of a vector that belongs to a slot. -/
def vectorView (label : Piece) (slot : Slot) (vector : Member) : Stmt :=
  let element := slot.rank.typeName
  let shape : Line := if slot.isArray then [toString slot.arraySize, ", ", element] else [element]
  .line (.concat [["auto&& ", label, " = map<"], shape,
    [">(", vector, ", ", Constant.offset slot.name, ");"]])

namespace Blueprint

/-- The code of a role as it is put into the class. -/
def code? (plan : Blueprint) (role : Role) : Option String :=
  (plan.draft.code? role).map fun code =>
    adaptCode role plan.draft.roster.vars plan.draft.factors code.text

/-- What the solver is told. -/
def solverContext (plan : Blueprint) : SolverContext where
  size := plan.layout.total
  debug := plan.options.debug
  initialJacobian := plan.code? .initializeJacobian
  initialJacobianInvert := plan.code? .initializeJacobianInvert
  trustRegionSize := plan.draft.tolerances.trustRegionSize

/-- The members of the class. -/
def members (plan : Blueprint) : Except InternalFault (List Stmt) := do
  let inverse ← inverseMembers plan.layout plan.draft.inverseBlocks
  return [.comment "solver state",
      .line ["static constexpr bool ", .define (.constant .success), " = true;"],
      .line ["static constexpr bool ", .define (.constant .failure), " = false;"],
      plainMember vectorType .zeros,
      plainMember vectorType .zeros1,
      plainMember vectorType .fzeros,
      plainMember matrixType .jacobian,
      .line ["unsigned short ", .define (.member .iter), " = 0;"]] ++
    plan.draft.tolerances.members ++
    plan.draft.limits.members ++
    plan.solver.members plan.solverContext ++
    inverse

/-- The views on the increments. -/
def views (plan : Blueprint) : List Stmt :=
  .comment "increments of the integration variables" ::
    plan.layout.slots.map fun slot =>
      vectorView (.define (.member (.increment slot.name))) slot .zeros

/-- The method that runs the predictor. -/
def predictorMethod (plan : Blueprint) (code : String) : List Stmt :=
  [.block ["void ", .define (.method .predictor), "()"]
    (.block [] [.code code] ::
      (normaliseIncrements plan.draft.roster.vars plan.draft.factors).map .line)]

/-- A method whose body is given. -/
def plainMethod (method : Method) (code : String) : List Stmt :=
  [.block ["void ", .define (.method method), "()"] [.code code]]

/-- The blocks of the Jacobian that are addressed: those that the integrator mentions, and the
diagonal blocks of normalised variables, which have to be scaled even if no code fills them. -/
def blockNames (plan : Blueprint) (integrator : Option String) : List (String × String) :=
  let mentioned := match integrator with
    | some text => blocksUsed plan.draft.roster.contains text
    | none => []
  sortedPairs (mentioned ++ plan.draft.factors.names.map fun name => (name, name))

/-- The derivatives that are addressed. -/
def derivatives (plan : Blueprint) (integrator : Option String) :
    Except InternalFault (List Derivative) :=
  if plan.solver.capabilities.isAnalytical then
    (plan.blockNames integrator).mapM fun (r, u) => plan.layout.derivative r u
  else .ok []

/-- The first block that code mentions in vain, when the solver does not use a Jacobian from
code. -/
def ignoredBlock? (plan : Blueprint) (integrator : Option String) : Option String :=
  if plan.solver.capabilities.isAnalytical then none
  else do
    let text ← integrator
    let (r, u) ← (blocksUsed plan.draft.roster.contains text).head?
    return blockName r u

/-- The method that evaluates the residual, and the Jacobian if it comes from code. -/
def residualMethod (plan : Blueprint) (integrator : Option String) (derivatives : List Derivative) :
    List Stmt :=
  let slots := plan.layout.slots
  let factors := plan.draft.factors
  [.block ["bool ", .define (.method .residual), "()"]
    (onlyIf plan.solver.capabilities.requiresJacobianReset resetJacobian ++
      [.line [Member.fzeros, " = ", Member.zeros, ";"]] ++
      slots.map (fun slot => vectorView (residualName slot.name) slot .fzeros) ++
      derivatives.map (fun d => .line (d.accessor d.name Member.jacobian)) ++
      onlyIf (plan.draft.code? .computeStress).isSome [.line [Method.stress, "();"]] ++
      slots.filterMap (fun slot => (factors.prologue? slot.name).map .line) ++
      integrator.toList.map (fun code => .block [] [.code code]) ++
      slots.filterMap (fun slot => (factors.epilogue? slot.name).map .line) ++
      derivatives.filterMap (fun d => (factors.scaleBlock? d).map .line) ++
      [.line ["return true;"]])]

/-- The method that adds the increments to the variables. -/
def updateMethod (plan : Blueprint) : List Stmt :=
  [.block ["void ", .define (.method .update), "()"]
    (plan.draft.roster.vars.map fun v =>
      .line [.use (.member (.value v.name)), " += ", .use (.member (.increment v.name)), ";"])]

/-- Normalised variables that no code mentions, neither themselves nor their increments or
residuals. -/
def unusedFactors (plan : Blueprint) : List String :=
  plan.draft.factors.names.filter fun v =>
    !plan.draft.codes.any fun (_, code) =>
      [v, incrementName v, residualName v].any (mentions code.text ·)

/-- The text of statements. -/
def render (plan : Blueprint) (body : List Stmt) : String :=
  Stmt.render plan.options.comments body

/-- A section, with its title if there are comments. -/
def sectionOf (plan : Blueprint) (kind : SectionKind) (body : List Stmt) : CodeSection :=
  let text := plan.render body
  ⟨kind, if plan.options.comments then s!"// {kind.title}\n{text}" else text⟩

/-- Whether there is a method that computes the Jacobian by differences. -/
def needsNumericalJacobian (plan : Blueprint) : Bool :=
  plan.solver.capabilities.requiresNumericalJacobian ||
    plan.draft.tolerances.compareToNumericalJacobian

end Blueprint

end Constitutive
