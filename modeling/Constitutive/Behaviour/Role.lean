/-!
# Roles of code texts

A description can give code for six purposes.  At most one text is given for each.
-/

namespace Constitutive

/-- What a code text is for. -/
inductive Role where
  | predictor
  | integrator
  | computeStress
  | computeFinalStress
  | initializeJacobian
  | initializeJacobianInvert
  deriving DecidableEq, Repr

namespace Role

/-- All roles. -/
def all : List Role :=
  [predictor, integrator, computeStress, computeFinalStress, initializeJacobian,
    initializeJacobianInvert]

/-- The name of a role in descriptions. -/
def name : Role → String
  | predictor => "Predictor"
  | integrator => "Integrator"
  | computeStress => "ComputeStress"
  | computeFinalStress => "ComputeFinalStress"
  | initializeJacobian => "InitializeJacobian"
  | initializeJacobianInvert => "InitializeJacobianInvert"

/-- The name of a role in messages. -/
def tag (role : Role) : String := "@" ++ role.name

/-- The role of a name. -/
def ofName? (name : String) : Option Role :=
  all.find? (·.name == name)

theorem mem_all (role : Role) : role ∈ all := by
  cases role <;> decide

end Role

/-- The side of the system a factor belongs to. -/
inductive Side where
  | residual
  | unknown
  deriving DecidableEq, Repr

namespace Side

/-- The name of a side in descriptions. -/
def name : Side → String
  | residual => "Residual"
  | unknown => "Unknown"

/-- The name of a side in messages. -/
def word : Side → String
  | residual => "residual"
  | unknown => "unknown"

/-- Both sides. -/
def all : List Side := [residual, unknown]

end Side

end Constitutive
