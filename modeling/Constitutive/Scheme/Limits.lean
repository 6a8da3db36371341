import Constitutive.Scheme.Factors

/-!
# Limits of corrections

The components of a correction can be bounded, for one variable or for all.  The correction acts on
normalised unknowns, so the bound of a variable is divided by its factor.
-/

namespace Constitutive

/-- Bounds on the components of a correction. -/
structure Limits where
  overall : Option Float := none
  entries : List (String × Float) := []

namespace Limits

/-- Whether a bound can be used. -/
def isValid (value : Float) : Bool :=
  0 < value && value.isFinite

/-- Sets the bound for all variables. -/
def setOverall (limits : Limits) (value : Float) : Except DeclarationFault Limits :=
  if !isValid value then .error (.invalidLimit none value)
  else if limits.overall.isSome then .error (.limitRedefined none)
  else .ok { limits with overall := some value }

/-- The bound of a variable. -/
def get? (limits : Limits) (name : String) : Option Float :=
  limits.entries.lookup name

/-- Sets the bound of a variable. -/
def set (limits : Limits) (name : String) (value : Float) : Except DeclarationFault Limits :=
  if !isValid value then .error (.invalidLimit (some name) value)
  else if (limits.get? name).isSome then .error (.limitRedefined (some name))
  else .ok { limits with entries := limits.entries ++ [(name, value)] }

def isEmpty (limits : Limits) : Bool :=
  limits.overall.isNone && limits.entries.isEmpty

/-- The member that holds the bound for all variables. -/
def members (limits : Limits) : List Stmt :=
  match limits.overall with
  | none => []
  | some value =>
    [.line ["real ", .define (.member .maximumIncrement), " = ", Decimal.literal value, ";"]]

/-- Brings one component of the correction between a bound and its negative. -/
def clampComponent (bound : Line) : Stmt :=
  let component : Line := [Member.fzeros, "(idx)"]
  .line (.concat [component, [" = std::max(std::min("], component, [", "], bound, ["), -("],
    bound, ["));"]])

/-- Clamps the components of one variable. -/
def clampSlot (limits : Limits) (factors : Factors) (slot : Slot) : List Stmt :=
  match limits.get? slot.name with
  | none => []
  | some limit =>
    let bound : Line := match factors.get? slot.name .unknown with
      | some s => ["(", Decimal.literal limit, ")/(", .given s, ")"]
      | none => [Decimal.literal limit]
    let start : Line := [Constant.offset slot.name]
    let stop : Line := [Constant.offset slot.name, " + ", toString slot.size]
    [.block (.forIndex "idx" start stop) [clampComponent bound]]

/-- Clamps the correction, first variable by variable and then as a whole. -/
def clamp (limits : Limits) (layout : Layout) (factors : Factors) : List Stmt :=
  layout.slots.flatMap (limits.clampSlot factors) ++
    match limits.overall with
    | none => []
    | some _ =>
      [.block (.forBelow "idx" [Constant.size]) [clampComponent [Member.maximumIncrement]]]

end Limits

end Constitutive
