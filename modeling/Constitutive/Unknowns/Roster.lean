import Constitutive.Behaviour.Fault
import Constitutive.Behaviour.Variable

/-!
# The declared variables

A roster lists the integration variables in the order of their declaration.  A name can be declared
if it is an identifier, has not been declared, is not reserved, and does not meet any of the names
made from variables: neither is it made from declared variables, nor are the names made from it
reserved or declared.
-/

namespace Constitutive

/-- Names that the generated solver uses itself. -/
def reservedNames : List String :=
  ["N", "epsilon", "theta", "iterMax", "numerical_jacobian_epsilon",
    "maximum_increment_value_per_iteration", "jacobianComparisonCriterion",
    "powell_dogleg_trust_region_size", "relaxationTrigger", "relaxationCoefficient",
    "vect_e", "zeros", "tzeros", "zeros_1", "fzeros", "tfzeros", "tfzeros2", "fzeros2",
    "Dzeros", "Dfzeros",
    "jacobian", "tjacobian", "njacobian", "jacobian2", "jacobian_error", "jacobian_permutation",
    "partial_jacobian", "t", "error", "error_1", "error_p", "idx", "idx2", "idx3", "iter",
    "converged",
    "broyden_inv", "TinyMatrixSolve", "computeNumericalJacobian", "computePartialJacobianInvert",
    "computeFdF",
    "computePredictor", "computeStress", "computeFinalStress", "updateIntegrationVariables",
    "integrate"]

/-- The variables declared so far, and the names that cannot be declared. -/
structure Roster where
  vars : List Variable := []
  reserved : List String := reservedNames
  deriving DecidableEq, Repr

namespace Roster

/-- Whether a variable has been declared. -/
def contains (roster : Roster) (name : String) : Bool :=
  roster.vars.any (·.name == name)

/-- The variable of a name. -/
def get? (roster : Roster) (name : String) : Option Variable :=
  roster.vars.find? (·.name == name)

/-- Whether a name is reserved. -/
def isReserved (roster : Roster) (name : String) : Bool :=
  roster.reserved.contains name

/-- Reserves a name for other purposes. -/
def reserve (roster : Roster) (name : String) : Roster :=
  { roster with reserved := name :: roster.reserved }

/-- The name made from declared variables that the new name equals, if any. -/
def madeName? (roster : Roster) (name : String) : Option String :=
  ((dropFirst? 'f' name).filter roster.contains).map residualName <|>
    ((dropFirst? 'd' name).filter roster.contains).map incrementName <|>
    (splitBlockName? roster.contains name).map fun (a, b) => blockName a b

/-- The residual or increment name of the new variable that is reserved or declared, if any. -/
def takenName? (roster : Roster) (name : String) : Option String :=
  [residualName name, incrementName name].find? fun made =>
    roster.isReserved made || roster.contains made

/-- The block name that a declared variable would have together with the new one, if any. -/
def newBlockName? (roster : Roster) (name : String) : Option String :=
  let known (candidate : String) : Bool := candidate == name || roster.contains candidate
  let blocks := roster.vars.filterMap fun v => splitBlockName? known v.name
  (blocks.find? fun (a, b) => a == name || b == name).map fun (a, b) => blockName a b

/-- A name made from variables that a new variable would collide with. -/
def collision? (roster : Roster) (name : String) : Option String :=
  roster.madeName? name <|> roster.takenName? name <|> roster.newBlockName? name

/-- Declares a variable. -/
def declare (roster : Roster) (name : String) (rank : Rank) (arraySize : Nat) :
    Except DeclarationFault Roster :=
  if !isVariableName name then .error (.invalidName name)
  else if arraySize = 0 then .error (.invalidArraySize name)
  else if roster.isReserved name then .error (.reservedName name)
  else if roster.contains name then .error (.duplicateName name)
  else match roster.collision? name with
    | some made => .error (.generatedNameCollision name made)
    | none => .ok { roster with vars := roster.vars ++ [⟨name, rank, arraySize⟩] }

end Roster

end Constitutive
