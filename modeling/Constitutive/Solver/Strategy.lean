import Constitutive.Code.Stmt
import Constitutive.Decimal.Text

/-!
# Solver strategies

A strategy supplies the parts of the generated iteration that depend on the algorithm: members of
its own, what is done before the first iteration, how the residual is replaced by a correction, and
what is done after the unknowns have been updated.  The iteration itself is the same for all
strategies.
-/

namespace Constitutive

/-- What a strategy needs from the generated code. -/
structure Capabilities where
  /-- It works with the Jacobian, or an approximation of it. -/
  usesJacobian : Bool := false
  /-- It works with an approximation of the inverse of the Jacobian. -/
  usesJacobianInvert : Bool := false
  /-- The Jacobian is computed by differences before every correction. -/
  requiresNumericalJacobian : Bool := false
  /-- The Jacobian is reset to the identity before every evaluation of the residual. -/
  requiresJacobianReset : Bool := false
  allowsJacobianInitialisation : Bool := false
  allowsJacobianInvertInitialisation : Bool := false
  deriving DecidableEq, Repr

/-- Whether the Jacobian is computed by code of the description. -/
def Capabilities.isAnalytical (c : Capabilities) : Bool :=
  c.usesJacobian && c.requiresJacobianReset

/-- What a strategy is told when it writes its code. -/
structure SolverContext where
  /-- The number of unknowns. -/
  size : Nat := 0
  debug : Bool := false
  /-- Code that initialises the Jacobian. -/
  initialJacobian : Option String := none
  /-- Code that initialises the inverse of the Jacobian. -/
  initialJacobianInvert : Option String := none
  /-- The size of the trust region, per unknown. -/
  trustRegionSize : Float := 1e-4

/-- A solver strategy. -/
structure Strategy where
  name : String
  capabilities : Capabilities := {}
  members : SolverContext → List Stmt := fun _ => []
  /-- What is done before the first iteration. -/
  initialisation : SolverContext → List Stmt := fun _ => []
  /-- Replaces the residual by the correction that is subtracted from the unknowns. -/
  correction : SolverContext → List Stmt
  /-- The matrix that the correction solves with, if it is still there afterwards. -/
  factorised : Option Piece := none
  /-- What is done after the correction has been subtracted. -/
  afterUpdate : SolverContext → List Stmt := fun _ => []

/-- Statements that are only there if a condition holds. -/
def onlyIf (condition : Bool) (body : List Stmt) : List Stmt :=
  if condition then body else []

/-- A vector of as many reals as there are unknowns. -/
def vectorType : Line := ["tvector<", Constant.size, ", real>"]

/-- A square matrix over the unknowns. -/
def matrixType : Line := ["tmatrix<", Constant.size, ", ", Constant.size, ", real>"]

/-- A member without an initial value. -/
def plainMember (type : Line) (member : Member) : Stmt :=
  .line (.concat [type, [" ", .define (.member member), ";"]])

/-- A constant local copy. -/
def localCopy (type : Line) (name : String) (of : Piece) : Stmt :=
  .line (.concat [["const "], type, [" ", name, "(", of, ");"]])

/-- A constant local value. -/
def localValue (type : Line) (name : String) (value : Line) : Stmt :=
  .line (.concat [["const "], type, [" ", name, " = "], value, [";"]])

/-- A loop over all unknowns. -/
def forAllUnknowns (index : String) (body : List Stmt) : Stmt :=
  .block (.forBelow index [Constant.size]) body

/-- Makes the Jacobian the identity. -/
def resetJacobian : List Stmt :=
  [.line ["std::fill(", Member.jacobian, ".begin(), ", Member.jacobian, ".end(), real(0));"],
    .line (.inBraces (.forBelow "idx" [Constant.size]) [Member.jacobian, "(idx, idx) = real(1);"])]

/-- Leaves the integration without success. -/
def fail : Stmt := .line ["return ", Constant.failure, ";"]

end Constitutive
