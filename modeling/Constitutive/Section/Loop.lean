import Constitutive.Scheme.Limits
import Constitutive.Solver.Strategy

/-!
# Code for the integration loop

The loop evaluates the residual, stops if it is small, and otherwise lets the solver compute a
correction, bounds it, and subtracts it from the unknowns.  After convergence the increments are
mapped back, the variables are updated, and what else was asked for is done.
-/

namespace Constitutive

/-- What the integration loop is made of. -/
structure Loop where
  layout : Layout
  solver : Strategy
  context : SolverContext
  limits : Limits
  factors : Factors
  debug : Bool := false
  /-- Code that compares the Jacobian with the numerical one. -/
  comparison : Option String := none
  hasPredictor : Bool := false
  hasFinalStress : Bool := false
  relaxation : Bool := false
  /-- Code that asks for blocks of the inverse of the Jacobian. -/
  inverseCall : Option String := none

/-- Maps the increments back, one after the other. -/
def undoIncrements (factors : Factors) : Undone → List Slot → Except InternalFault (List Stmt)
  | _, [] => .ok []
  | undone, slot :: rest => do
    let (line, undone) ← undone.increment factors slot.name
    return line.toList.map .line ++ (← undoIncrements factors undone rest)

namespace Loop

/-- Evaluates the residual; if that fails, goes back half of the last step, or gives up on the first
iteration. -/
def evaluate (loop : Loop) : List Stmt :=
  [.block ["if(!", Method.residual, "())"]
      [.block ["if(", Member.iter, " == 1)"]
          (onlyIf loop.debug [.line [
            "std::cout << \"integrate() : computeFdF failed on the first iteration\" << std::endl;"
          ]] ++ [fail]),
        .comment "go half way back to the last successful iterate",
        .line [Member.zeros, " = real(0.5) * (", Member.zeros1, " + ", Member.zeros, ");"],
        .line ["continue;"]],
    .line [Member.zeros1, " = ", Member.zeros, ";"]]

/-- Tests the residual. -/
def test (loop : Loop) : List Stmt :=
  [localValue ["real"] "error" ["norm(", Member.fzeros, ") / (real(", Constant.size, "))"]] ++
    onlyIf loop.debug
      [.line ["std::cout << \"integrate() : iteration \" << ", Member.iter,
        " << \" : \" << error << std::endl;"]] ++
    [.line ["converged = error < ", Member.epsilon, ";"]]

/-- Computes the Jacobian by differences. -/
def computeJacobian : List Stmt :=
  [.block ["if(!", Method.numericalJacobian, "(", Member.jacobian, "))"] [fail]]

/-- Whether the numerical Jacobian is needed at the converged unknowns too, for blocks of its
inverse. -/
def jacobianAtConvergence (loop : Loop) : Bool :=
  loop.solver.capabilities.requiresNumericalJacobian && loop.inverseCall.isSome

/-- Keeps only a part of the last change of the unknowns, from some iteration on. -/
def relax : Stmt :=
  .block ["if(", Member.iter, " >= ", Member.relaxationTrigger, ")"]
    [.line [Member.zeros, " -= (1 - ", Member.relaxationCoefficient, ") * (", Member.zeros, " - ",
      Member.zeros1, ");"]]

/-- Changes the unknowns, when the residual is not small. -/
def correct (loop : Loop) : List Stmt :=
  onlyIf (loop.solver.capabilities.requiresNumericalJacobian && !loop.jacobianAtConvergence)
    computeJacobian ++ loop.solver.correction loop.context ++
    loop.limits.clamp loop.layout loop.factors ++
    [.line [Member.zeros, " -= ", Member.fzeros, ";"]] ++
    loop.solver.afterUpdate loop.context ++
    onlyIf loop.relaxation [relax]

/-- One iteration, with statements that compare the Jacobian with the numerical one. -/
def iteration (loop : Loop) (comparison : List Stmt) : List Stmt :=
  [.line ["++(", Member.iter, ");"]] ++
    loop.evaluate ++
    comparison ++
    loop.test ++
    onlyIf loop.jacobianAtConvergence computeJacobian ++
    [.block ["if(!converged)"] loop.correct]

/-- What is done when the iterations have ended, with statements that map the increments back and
statements that ask for blocks of the inverse. -/
def conclude (loop : Loop) (undo inverseCall : List Stmt) : List Stmt :=
  [.block ["if(!converged)"]
      (onlyIf loop.debug
        [.line ["std::cout << \"integrate() : no convergence after \" << ", Member.iter,
          " << \" iterations\" << std::endl;"]] ++ [fail])] ++
    undo ++
    [.line [Method.update, "();"]] ++
    onlyIf loop.hasFinalStress [.line [Method.finalStress, "();"]] ++
    inverseCall ++
    onlyIf loop.debug
      [.line ["std::cout << \"integrate() : convergence after \" << ", Member.iter,
        " << \" iterations\" << std::endl;"]] ++
    [.line ["return ", Constant.success, ";"]]

/-- The method that integrates the behaviour, with the statements that are made elsewhere. -/
def body (loop : Loop) (comparison undo inverseCall : List Stmt) : List Stmt :=
  [.block ["bool ", .define (.method .integrate), "()"]
    (onlyIf loop.hasPredictor [.line [Method.predictor, "();"]] ++
      loop.solver.initialisation loop.context ++
      [.line ["bool converged = false;"],
        .line [Member.iter, " = 0;"],
        .block ["while((!converged) && (", Member.iter, " < ", Member.iterMax, "))"]
          (loop.iteration comparison)] ++
      loop.conclude undo inverseCall)]

/-- The method that integrates the behaviour. -/
def method (loop : Loop) : Except InternalFault (List Stmt) := do
  let undo ← undoIncrements loop.factors [] loop.layout.slots
  return loop.body (loop.comparison.toList.map .code) undo (loop.inverseCall.toList.map .code)

end Loop

end Constitutive
