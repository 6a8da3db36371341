import Constitutive.Behaviour.Description

/-!
# What can go wrong

A description can be at fault, or the compiler can be used in a way it does not support.  Each fault
says what caused it; the wording stands in the `message` functions alone.
-/

namespace Constitutive

/-- Why a parameter cannot have a value. -/
inductive ParameterFault where
  | negative (value : Float)
  | outsideUnitInterval (value : Float)
  | noIteration
  /-- Relaxation would start at an iteration that is never reached. -/
  | relaxationTooLate (trigger iterMax : Nat)

/-- The wording of a parameter fault. -/
def ParameterFault.message : ParameterFault → String
  | negative x => s!"expected a non-negative value, got {Decimal.plain x}"
  | outsideUnitInterval x => s!"expected a value in [0, 1], got {Decimal.plain x}"
  | noIteration => "at least one iteration is required"
  | relaxationTooLate trigger iterMax =>
    s!"relaxation can never take place ({trigger} >= iterMax - 1 with iterMax = {iterMax})"

/-- Why a normalisation factor cannot be used. -/
inductive FactorFault where
  | notPositive (value : Float)
  | emptyExpression
  | notAnExpression

/-- The wording of a factor fault. -/
def FactorFault.message : FactorFault → String
  | notPositive x => s!"expected a positive value, got {Decimal.plain x}"
  | emptyExpression => "empty expression"
  | notAnExpression => "expected a number or an expression"

/-- A fault of the description. -/
inductive DeclarationFault where
  | invalidName (name : String)
  | duplicateName (name : String)
  | reservedName (name : String)
  /-- The name, or a name made from it, is also made from other variables. -/
  | generatedNameCollision (name generated : String)
  | invalidArraySize (name : String)
  | unsupportedDimension (dimension : Nat)
  | unknownParameter (name : String)
  | invalidParameter (name : String) (reason : ParameterFault)
  | typeMismatch (name expected found : String)
  | unknownAlgorithm (name : String)
  | algorithmAlreadyDefined
  /-- A code text that depends on the algorithm was given before any algorithm. -/
  | undefinedAlgorithm (role : Role)
  | initialisationNotAllowed (algorithm : String) (role : Role)
  | comparisonNotRequested
  | relaxationNotEnabled
  | unknownVariable (name : String)
  | invalidFactor (name : String) (reason : FactorFault)
  | factorRedefined (name : String) (side : Side)
  | invalidLimit (name : Option String) (value : Float)
  | limitRedefined (name : Option String)
  | codeRedefined (role : Role)

/-- The wording of a fault of the description. -/
def DeclarationFault.message : DeclarationFault → String
  | invalidName name => s!"'{name}' is not a valid variable name"
  | duplicateName name => s!"variable '{name}' has already been declared"
  | reservedName name => s!"'{name}' is a reserved name"
  | generatedNameCollision name generated =>
    s!"variable '{name}' collides with the generated name '{generated}'"
  | invalidArraySize name => s!"array size of variable '{name}' must be at least one"
  | unsupportedDimension dimension =>
    s!"unsupported space dimension {dimension} (expected 1, 2 or 3)"
  | unknownParameter name => s!"unknown parameter '{name}'"
  | invalidParameter name reason => s!"invalid value for parameter '{name}': {reason.message}"
  | typeMismatch name expected found => s!"parameter '{name}' expects a {expected}, got a {found}"
  | unknownAlgorithm name => s!"unknown algorithm '{name}'"
  | algorithmAlreadyDefined => "an algorithm has already been defined"
  | undefinedAlgorithm role => s!"the algorithm must be defined before the {role.tag} block"
  | initialisationNotAllowed algorithm role =>
    s!"algorithm '{algorithm}' does not allow a {role.tag} block"
  | comparisonNotRequested =>
    "the jacobian comparison criterion requires comparison to the numerical jacobian"
  | relaxationNotEnabled => "the relaxation coefficient requires useRelaxation"
  | unknownVariable name => s!"'{name}' is not an integration variable"
  | invalidFactor name reason => s!"invalid normalisation factor for '{name}': {reason.message}"
  | factorRedefined name side => s!"{side.word} normalisation factor of '{name}' already defined"
  | invalidLimit (some name) value =>
    s!"increment limit {Decimal.plain value} of '{name}' must be positive"
  | invalidLimit none value => s!"increment limit {Decimal.plain value} must be positive"
  | limitRedefined (some name) => s!"increment limit of '{name}' already defined"
  | limitRedefined none => "global increment limit already defined"
  | codeRedefined role => s!"the {role.tag} block has already been defined"

/-- A use of the compiler that it does not support. -/
inductive InternalFault where
  | unsupportedDerivative (residual unknown : String) (residualRank unknownRank : Rank)
  | unknownInverseBlock (block : InverseBlock)
  | unknownVariable (name : String)
  /-- The normalisation of something was to be undone a second time. -/
  | undoneTwice (target : String)
  | frozen
  deriving DecidableEq

/-- The wording of an internal fault. -/
def InternalFault.message : InternalFault → String
  | unsupportedDerivative residual unknown residualRank unknownRank =>
    s!"unsupported derivative shape: residual '{residual}' ({residualRank.name}) " ++
      s!"with respect to '{unknown}' ({unknownRank.name})"
  | unknownInverseBlock block =>
    s!"tangent block ('{block.unknown}', '{block.residual}') " ++
      "does not refer to two integration variables"
  | unknownVariable name => s!"'{name}' is not part of the unknown vector"
  | undoneTwice target => s!"normalisation of '{target}' undone more than once"
  | frozen => "normalisation factors can not be changed once emission started"

/-- Why a compilation failed. -/
inductive Fault where
  /-- A fault of the description, at its place if that is known. -/
  | declaration (cause : DeclarationFault) (location : Option Location)
  | internal (cause : InternalFault)

namespace Fault

/-- The wording of the cause, with its place. -/
def cause : Fault → String
  | declaration fault none => fault.message
  | declaration fault (some location) => location.describe ++ ": " ++ fault.message
  | internal fault => fault.message

/-- The wording of a fault. -/
def message : Fault → String
  | fault@(declaration _ _) => "declaration error: " ++ fault.cause
  | fault@(internal _) => "internal error: " ++ fault.cause

/-- The same fault, a fault of the description being placed at `location`. -/
def located (location : Location) : Fault → Fault
  | declaration fault _ => declaration fault (some location)
  | internal fault => internal fault

instance : Coe DeclarationFault Fault := ⟨fun fault => .declaration fault none⟩

instance : Coe InternalFault Fault := ⟨.internal⟩

end Fault

end Constitutive
