import Constitutive.Solver.Strategy

/-!
# Built-in strategies

Newton's method with a Jacobian from code or from differences, the two methods of Broyden, and
Powell's dog-leg on top of any other strategy.
-/

namespace Constitutive

/-- Solves the linear system with a matrix that is factorised in place. -/
def solveLinear (ctx : SolverContext) (matrix : Piece) : List Stmt :=
  [.block ["try"]
      [.line ["TinyMatrixSolve<", Constant.size, ", real>::exe(", matrix, ", ",
        Member.fzeros, ");"]],
    .block ["catch(LUException&)"]
      (onlyIf ctx.debug
        [.line ["std::cout << \"integrate() : singular jacobian at iteration \" << ", Member.iter,
          " << std::endl;"]] ++ [fail])]

/-- Initialises the matrix of the iteration, by given code or as the identity. -/
def initialMatrix (code : Option String) : List Stmt :=
  match code with
  | some text => [.block [] [.code text]]
  | none => resetJacobian

/-- Newton's method with a Jacobian computed by code of the description. -/
def newtonRaphson : Strategy where
  name := "NewtonRaphson"
  capabilities := { usesJacobian := true, requiresJacobianReset := true }
  correction ctx := solveLinear ctx Member.jacobian

/-- Newton's method with a Jacobian computed by central differences. -/
def newtonRaphsonNumericalJacobian : Strategy where
  name := "NewtonRaphson_NumericalJacobian"
  capabilities := { usesJacobian := true, requiresNumericalJacobian := true }
  correction ctx := solveLinear ctx Member.jacobian

/-- The change of the residual since the last iteration. -/
def residualChange : Stmt :=
  localValue vectorType "Dfzeros" ["(", Member.fzeros, ") - (", Member.fzeros2, ")"]

/-- Remembers the step that has been made. -/
def rememberStep : Stmt :=
  .line [Member.step, " = -(", Member.fzeros, ");"]

/-- Keeps the residual for the next iteration. -/
def rememberResidual : Stmt :=
  .line [Member.fzeros2, " = ", Member.fzeros, ";"]

/-- From the second iteration on. -/
def afterFirstIteration (body : List Stmt) : Stmt :=
  .block ["if(", Member.iter, " > 1)"] body

/-- Broyden's method: rank-one updates of the Jacobian. -/
def broyden : Strategy where
  name := "Broyden"
  capabilities := { usesJacobian := true, allowsJacobianInitialisation := true }
  members _ :=
    [plainMember matrixType .jacobian2, plainMember vectorType .fzeros2,
      plainMember vectorType .step]
  initialisation ctx := initialMatrix ctx.initialJacobian
  correction ctx :=
    [afterFirstIteration
        [residualChange,
          localValue ["real"] "broyden_inv" ["(", Member.step, ") | (", Member.step, ")"],
          .block ["if(broyden_inv > 100 * std::numeric_limits<real>::epsilon())"]
            [.line [Member.jacobian, " += ((Dfzeros - (", Member.jacobian, ") * (",
              Member.step, ")) ^ (", Member.step, ")) / broyden_inv;"]]],
      rememberResidual,
      .line [Member.jacobian2, " = ", Member.jacobian, ";"]] ++
    solveLinear ctx Member.jacobian2
  factorised := some Member.jacobian
  afterUpdate _ := [rememberStep]

/-- Broyden's second method: rank-one updates of the inverse of the Jacobian. -/
def broyden2 : Strategy where
  name := "Broyden2"
  capabilities := { usesJacobianInvert := true, allowsJacobianInvertInitialisation := true }
  members _ := [plainMember vectorType .fzeros2, plainMember vectorType .step]
  initialisation ctx := initialMatrix ctx.initialJacobianInvert
  correction _ :=
    [afterFirstIteration
        [residualChange,
          localValue vectorType "jacobian_Dfzeros" ["(", Member.jacobian, ") * Dfzeros"],
          localValue ["real"] "broyden_inv" ["(", Member.step, ") | jacobian_Dfzeros"],
          .block ["if(std::abs(broyden_inv) > 100 * std::numeric_limits<real>::epsilon())"]
            [.line [Member.jacobian, " += ((", Member.step, " - jacobian_Dfzeros) ^ ((",
              Member.step, ") * (", Member.jacobian, "))) / broyden_inv;"]]],
      rememberResidual,
      .line [Member.fzeros, " = (", Member.jacobian, ") * (", Member.fzeros, ");"]]
  afterUpdate _ := [rememberStep]

/-- Adds up products into the components of a local vector. -/
def accumulate (target : String) (term : Line) : Stmt :=
  forAllUnknowns "idx"
    [.line [target, "(idx) = real(0);"],
      forAllUnknowns "idx2" [.line (.concat [[target, "(idx) += "], term, [";"]])]]

/-- Replaces the Newton correction by the dog-leg step of the system with a given matrix and
residual. -/
def dogLegCorrection (ctx : SolverContext) (matrix : Piece) (residual : String) : List Stmt :=
  [localValue ["real"] "pdl_radius" ["real(", toString ctx.size, ") * (",
    Member.trustRegionSize, ")"], .block ["if(norm(", Member.fzeros, ") >= pdl_radius)"]
      [.comment "steepest descent direction",
        .line (.concat [vectorType, [" pdl_g;"]]),
        .line (.concat [vectorType, [" pdl_g2;"]]),
        accumulate "pdl_g" ["(", matrix, "(idx2, idx)) * (", residual, "(idx2))"],
        accumulate "pdl_g2" ["(", matrix, "(idx, idx2)) * pdl_g(idx2)"],
        .comment "Cauchy point",
        .line ["pdl_g *= (pdl_g | pdl_g) / (pdl_g2 | pdl_g2);"],
        .block ["if(norm(pdl_g) < pdl_radius)"]
          [localValue ["real"] "pdl_0" ["pdl_radius * pdl_radius"],
            localValue ["real"] "pdl_1" ["(pdl_g | pdl_g)"],
            localValue ["real"] "pdl_2" ["((", Member.fzeros, ") | pdl_g)"],
            localValue ["real"] "pdl_3" ["((", Member.fzeros, ") | (", Member.fzeros, "))"],
            localValue ["real"] "pdl_alpha"
            ["(pdl_0 - pdl_1) / ((pdl_2 - pdl_1) + std::sqrt(std::max((pdl_2 - pdl_0) * ",
              "(pdl_2 - pdl_0) + (pdl_3 - pdl_0) * (pdl_0 - pdl_1), real(0))))"],
            .line ["pdl_g = pdl_alpha * (", Member.fzeros, ") + (1 - pdl_alpha) * pdl_g;"]],
        .block ["else"] [.line ["pdl_g *= pdl_radius / norm(pdl_g);"]],
        .line [Member.fzeros, " = pdl_g;"]]]

/-- Powell's dog-leg on top of another strategy.  The Jacobian is copied if the inner strategy does
not keep it. -/
def powellDogLeg (name : String) (inner : Strategy) : Strategy where
  name := name
  capabilities := inner.capabilities
  members ctx := inner.members ctx ++
    [.line ["real ", .define (.member .trustRegionSize), " = ",
      Decimal.literal ctx.trustRegionSize, ";"]]
  initialisation := inner.initialisation
  correction ctx :=
    localCopy vectorType "pdl_fzeros" Member.fzeros ::
      match inner.factorised with
      | some matrix => inner.correction ctx ++ dogLegCorrection ctx matrix "pdl_fzeros"
      | none =>
        localCopy matrixType "pdl_jacobian" Member.jacobian ::
          inner.correction ctx ++ dogLegCorrection ctx "pdl_jacobian" "pdl_fzeros"
  factorised := inner.factorised
  afterUpdate := inner.afterUpdate

/-- Strategies by the names of their algorithms. -/
structure Solvers where
  entries : List (String × Strategy) := []

namespace Solvers

/-- Adds a strategy, in place of one of the same name. -/
def register (solvers : Solvers) (name : String) (strategy : Strategy) : Solvers :=
  ⟨solvers.entries.filter (·.1 != name) ++ [(name, strategy)]⟩

/-- The strategy of a name. -/
def get? (solvers : Solvers) (name : String) : Option Strategy :=
  solvers.entries.lookup name

/-- The names of the algorithms, sorted. -/
def names (solvers : Solvers) : List String :=
  (solvers.entries.map (·.1)).mergeSort (fun a b => a ≤ b)

/-- A strategy under its own name. -/
def own (strategy : Strategy) : String × Strategy :=
  (strategy.name, strategy)

/-- The built-in algorithms. -/
def builtin : Solvers :=
  ⟨[own newtonRaphson, own newtonRaphsonNumericalJacobian, own broyden, own broyden2,
    own (powellDogLeg "PowellDogLeg_NewtonRaphson" newtonRaphson),
    own
      (powellDogLeg "PowellDogLeg_NewtonRaphson_NumericalJacobian" newtonRaphsonNumericalJacobian),
    own (powellDogLeg "PowellDogLeg_Broyden" broyden)]⟩

end Solvers

end Constitutive
