import Constitutive.Behaviour.Document
import Constitutive.Scheme.Tolerances

/-!
# Parameters as JSON documents

The parameters are written with all their fields; one that was not given is null.
-/

namespace Constitutive

/-- The parameters as a document, given how a number is written. -/
def Tolerances.toJson (real : Float → Json) (t : Tolerances) : Json :=
  let write := numberToJson real
  .record [("epsilon", write t.epsilon), ("theta", write t.theta), ("iter_max", .nat t.iterMax),
    ("numerical_jacobian_epsilon", (t.explicitJacobianEpsilon.map write).getD .null),
    ("compare_to_numerical_jacobian", .bool t.compareToNumericalJacobian),
    ("jacobian_comparison_criterion", (t.explicitCriterion.map write).getD .null),
    ("trust_region_size", write t.trustRegionSize), ("use_relaxation", .bool t.useRelaxation),
    ("relaxation_trigger", .nat t.relaxationTrigger),
    ("relaxation_coefficient", write t.relaxationCoefficient)]

end Constitutive
