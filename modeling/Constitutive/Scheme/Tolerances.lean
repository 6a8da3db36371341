import Constitutive.Behaviour.Fault
import Constitutive.Code.Stmt

/-!
# Parameters of the iteration

The parameters of the implicit scheme end up as members of the generated class.  They are set by
name.  Two of them can only be set after the feature they belong to has been switched on.
-/

namespace Constitutive

/-- The parameters of the iteration. -/
structure Tolerances where
  epsilon : Float := 1e-8
  theta : Float := 0.5
  iterMax : Nat := 100
  /-- The step of the numerical Jacobian, if it was given. -/
  explicitJacobianEpsilon : Option Float := none
  compareToNumericalJacobian : Bool := false
  /-- The criterion of the comparison, if it was given. -/
  explicitCriterion : Option Float := none
  trustRegionSize : Float := 1e-4
  useRelaxation : Bool := false
  relaxationTrigger : Nat := 10
  relaxationCoefficient : Float := 0.5

namespace Tolerances

/-- The step of the numerical Jacobian, a tenth of the threshold unless it was given. -/
def numericalJacobianEpsilon (t : Tolerances) : Float :=
  t.explicitJacobianEpsilon.getD (t.epsilon / 10)

/-- The criterion of the comparison if there is one, the threshold unless it was given. -/
def comparisonCriterion? (t : Tolerances) : Option Float :=
  if t.compareToNumericalJacobian then some (t.explicitCriterion.getD t.epsilon) else none

/-- A value that must not be negative. -/
def nonNegative (name : String) (value : Float) : Except DeclarationFault Float :=
  if 0 ≤ value ∧ value.isFinite then .ok value
    else .error (.invalidParameter name (.negative value))

/-- The value of a parameter, if it is of the right kind. -/
def typed {α : Type} (name expected : String) (read : Setting → Option α) (value : Setting) :
    Except DeclarationFault α :=
  match read value with
  | some a => .ok a
  | none => .error (.typeMismatch name expected value.kind)

def numberOf (name : String) (value : Setting) : Except DeclarationFault Float :=
  typed name "number" Setting.number? value

def flagOf (name : String) (value : Setting) : Except DeclarationFault Bool :=
  typed name "boolean" Setting.flag? value

def wordOf (name : String) (value : Setting) : Except DeclarationFault Nat :=
  typed name "non-negative integer" Setting.word? value

/-- Sets a parameter by its name. -/
def set (t : Tolerances) (name : String) (value : Setting) : Except DeclarationFault Tolerances :=
  match name with
  | "epsilon" => do
    return { t with epsilon := ← nonNegative name (← numberOf name value) }
  | "theta" => do
    let theta ← numberOf name value
    if 0 ≤ theta ∧ theta ≤ 1 then return { t with theta := theta }
    else throw (.invalidParameter name (.outsideUnitInterval theta))
  | "iterMax" => do
    let iterMax ← wordOf name value
    if iterMax = 0 then throw (.invalidParameter name .noIteration)
    else return { t with iterMax := iterMax }
  | "numerical_jacobian_epsilon" => do
    return { t with explicitJacobianEpsilon := some (← nonNegative name (← numberOf name value)) }
  | "compareToNumericalJacobian" => do
    return { t with compareToNumericalJacobian := ← flagOf name value }
  | "jacobianComparisonCriterion" => do
    let criterion ← numberOf name value
    if !t.compareToNumericalJacobian then throw .comparisonNotRequested
    else return { t with explicitCriterion := some (← nonNegative name criterion) }
  | "powell_dogleg_trust_region_size" => do
    return { t with trustRegionSize := ← nonNegative name (← numberOf name value) }
  | "useRelaxation" => do
    return { t with useRelaxation := ← flagOf name value }
  | "relaxationTrigger" => do
    return { t with relaxationTrigger := ← wordOf name value }
  | "relaxationCoefficient" => do
    let coefficient ← numberOf name value
    if !t.useRelaxation then throw .relaxationNotEnabled
    else return { t with relaxationCoefficient := ← nonNegative name coefficient }
  | _ => throw (.unknownParameter name)

/-- Checks the parameters against each other. -/
def validate (t : Tolerances) : Except DeclarationFault Unit :=
  if t.useRelaxation ∧ t.iterMax ≤ t.relaxationTrigger + 1 then
    .error (.invalidParameter "relaxationTrigger"
      (.relaxationTooLate t.relaxationTrigger t.iterMax))
  else .ok ()

/-- A member with its initial value. -/
def parameterMember (type : String) (member : Member) (value : String) : Stmt :=
  .line [type, " ", .define (.member member), " = ", value, ";"]

/-- The members that hold the parameters. -/
def members (t : Tolerances) : List Stmt :=
  [parameterMember "real" .epsilon (Decimal.literal t.epsilon),
    parameterMember "real" .theta (Decimal.literal t.theta),
    parameterMember "unsigned short" .iterMax (toString t.iterMax),
    parameterMember "real" .numericalJacobianEpsilon
      (Decimal.literal t.numericalJacobianEpsilon)] ++
  (match t.comparisonCriterion? with
    | some criterion => [parameterMember "real" .comparisonCriterion (Decimal.literal criterion)]
    | none => []) ++
  (if t.useRelaxation then
    [parameterMember "unsigned short" .relaxationTrigger (toString t.relaxationTrigger),
      parameterMember "real" .relaxationCoefficient (Decimal.literal t.relaxationCoefficient)]
  else [])

end Tolerances

end Constitutive
