import Constitutive.Solver.Strategy
import Constitutive.Unknowns.Derivative

/-!
# Code for the numerical Jacobian

The generated method perturbs each unknown in turn, below and above, and fills one column of the
matrix with the difference quotient of the two residuals.  Unknowns, residual and Jacobian are as
before afterwards, so that the method serves as the only source of the Jacobian as well as for a
comparison with it.
-/

namespace Constitutive

/-- Evaluates the residual at perturbed unknowns, and restores everything if that fails. -/
def evaluateOrRestore : Stmt :=
  .block ["if(!", Method.residual, "())"]
    [.line [Member.zeros, " = tzeros;"], .line [Member.fzeros, " = tfzeros;"],
      .line [Member.jacobian, " = tjacobian;"], .line ["return false;"]]

/-- The method that computes the Jacobian by central differences. -/
def numericalJacobianMethod (epsilon : Piece) : List Stmt :=
  [.block
    (.concat [["bool ", .define (.method .numericalJacobian), "("], matrixType, ["& njacobian)"]])
    [localValue ["real"] "eps" [epsilon],
      localCopy vectorType "tzeros" Member.zeros,
      localCopy vectorType "tfzeros" Member.fzeros,
      localCopy matrixType "tjacobian" Member.jacobian,
      forAllUnknowns "idx"
        [.line [Member.zeros, "(idx) -= eps;"],
          evaluateOrRestore,
          localCopy vectorType "tfzeros2" Member.fzeros,
          .line [Member.zeros, " = tzeros;"],
          .line [Member.zeros, "(idx) += eps;"],
          evaluateOrRestore,
          forAllUnknowns "idx2"
            [.line ["njacobian(idx2, idx) = (", Member.fzeros,
              "(idx2) - tfzeros2(idx2)) / (2 * eps);"]],
          .line [Member.zeros, " = tzeros;"],
          .line [Member.fzeros, " = tfzeros;"]],
      .block ["if(&njacobian != &(", Member.jacobian, "))"]
        [.line [Member.jacobian, " = tjacobian;"]],
      .line ["return true;"]]]

/-- Enlarges a local maximum by the difference of the two Jacobians at the current indices. -/
def raiseToDifference (maximum : String) : Stmt :=
  .line [maximum, " = std::max(", maximum, ", std::abs(", Member.jacobian,
    "(idx, idx2) - njacobian(idx, idx2)));"]

/-- A loop over the unknowns of one slot. -/
def forSlot (index : String) (slot : Slot) (body : List Stmt) : Stmt :=
  .block (.forIndex index [Constant.offset slot.name] [Constant.offset slot.name, " + ",
    toString slot.size]) body

/-- Prints a block of both Jacobians; blocks of arrays are functions and cannot be printed. -/
def printBlock (layout : Layout) (r u : Slot) : List Stmt :=
  match layout.derivative r.name u.name with
  | .error _ => []
  | .ok d =>
    if d.isArray then []
    else
      let name := blockName r.name u.name
      let numerical := "n" ++ name
      [.line (d.accessor name Member.jacobian), .line (d.accessor numerical "njacobian"),
        .line ["std::cout << \"", name, " : \" << ", name, " << \"\\n", numerical,
          " : \" << ", numerical, " << std::endl;"]]

/-- Reports a block whose largest difference exceeds the criterion. -/
def compareBlock (layout : Layout) (r u : Slot) : Stmt :=
  .block []
    [.line ["real block_error = real(0);"],
      forSlot "idx" r [forSlot "idx2" u [raiseToDifference "block_error"]],
      .block ["if(block_error > ", toString r.components, " * ", toString u.components, " * (",
          Member.comparisonCriterion, "))"]
        (.line ["std::cout << \"integrate() : jacobian block ", blockName r.name u.name,
          " differs from its numerical approximation (\" << block_error << \")\" << std::endl;"] ::
          printBlock layout r u)]

/-- Compares the Jacobian with the numerical one, as a whole and block by block. -/
def jacobianComparison (layout : Layout) : List Stmt :=
  [.block []
    ([.comment "comparison to the numerical jacobian",
      .line (.concat [matrixType, [" njacobian;"]]),
      .block ["if(!", Method.numericalJacobian, "(njacobian))"] [fail],
      .line ["real jacobian_error = real(0);"],
      forAllUnknowns "idx" [forAllUnknowns "idx2" [raiseToDifference "jacobian_error"]],
      .line [
        "std::cout << \"integrate() : maximum jacobian error \" << jacobian_error << std::endl;"
      ]] ++
      layout.slots.flatMap fun r => layout.slots.map fun u => compareBlock layout r u)]

end Constitutive
