import Constitutive.Behaviour.Tensor

/-!
# Modelling hypotheses

The spatial and kinematic settings a behaviour can be generated for.  Each one fixes the space
dimension.
-/

namespace Constitutive

/-- A modelling hypothesis. -/
inductive Hypothesis where
  | axisymmetricalGeneralisedPlaneStrain
  | axisymmetricalGeneralisedPlaneStress
  | axisymmetrical
  | planeStress
  | planeStrain
  | generalisedPlaneStrain
  | tridimensional
  deriving DecidableEq, Repr

namespace Hypothesis

/-- All hypotheses, in the order in which they are compiled. -/
def all : List Hypothesis :=
  [axisymmetricalGeneralisedPlaneStrain, axisymmetricalGeneralisedPlaneStress, axisymmetrical,
    planeStress, planeStrain, generalisedPlaneStrain, tridimensional]

/-- The space dimension of a hypothesis. -/
def dimension : Hypothesis → Dimension
  | axisymmetricalGeneralisedPlaneStrain | axisymmetricalGeneralisedPlaneStress => .one
  | axisymmetrical | planeStress | planeStrain | generalisedPlaneStrain => .two
  | tridimensional => .three

/-- The name of a hypothesis in descriptions and messages. -/
def name : Hypothesis → String
  | axisymmetricalGeneralisedPlaneStrain => "AxisymmetricalGeneralisedPlaneStrain"
  | axisymmetricalGeneralisedPlaneStress => "AxisymmetricalGeneralisedPlaneStress"
  | axisymmetrical => "Axisymmetrical"
  | planeStress => "PlaneStress"
  | planeStrain => "PlaneStrain"
  | generalisedPlaneStrain => "GeneralisedPlaneStrain"
  | tridimensional => "Tridimensional"

/-- The hypothesis of a name. -/
def ofName? (name : String) : Option Hypothesis :=
  all.find? (·.name == name)

/-- Whether the first of two hypotheses comes before the second, or is the same. -/
def le (first second : Hypothesis) : Bool :=
  first.ctorIdx ≤ second.ctorIdx

theorem mem_all (h : Hypothesis) : h ∈ all := by
  cases h <;> decide

end Hypothesis

end Constitutive
