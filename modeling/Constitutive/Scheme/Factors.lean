import Constitutive.Numeric.Scaling
import Constitutive.Unknowns.Derivative

/-!
# Normalisation factors

A variable can have a factor `s` on the side of the unknowns and a factor `r` on the side of the
residuals.  The solver then works on the increment divided by `s` and on the residual divided by
`r`.  So the block of the derivative of `a` with respect to `b` is multiplied by `s b / r a`, and a
block of the inverse, of unknown `a` and residual `b`, is mapped back by `s a / r b`.

Factors are expressions of generated code.  They are frozen once code is generated.
-/

namespace Constitutive

/-- The quotient of two optional expressions, at least one of which is there. -/
inductive Scale where
  | times (factor : String)
  | reciprocal (divisor : String)
  | ratio (factor divisor : String)
  deriving DecidableEq, Repr

namespace Scale

/-- The quotient of two expressions, unless both are missing. -/
def of? : Option String → Option String → Option Scale
  | some s, some r => some (.ratio s r)
  | some s, none => some (.times s)
  | none, some r => some (.reciprocal r)
  | none, none => none

/-- The expression in code. -/
def line : Scale → Line
  | times s => ["(", .given s, ")"]
  | reciprocal r => ["real(1)/(", .given r, ")"]
  | ratio s r => ["(", .given s, ")/(", .given r, ")"]

end Scale

/-- The normalisation factors of variables, by name and side. -/
structure Factors where
  entries : List ((String × Side) × String) := []
  frozen : Bool := false
  deriving DecidableEq, Repr

namespace Factors

/-- The factor of a variable on one side. -/
def get? (factors : Factors) (name : String) (side : Side) : Option String :=
  factors.entries.lookup (name, side)

/-- Sets a factor that has not been set. -/
def set (factors : Factors) (name : String) (side : Side) (expression : String) :
    Except Fault Factors :=
  if factors.frozen then .error (.internal .frozen)
  else if (factors.get? name side).isSome
    then .error (.declaration (.factorRedefined name side) none)
  else .ok { factors with entries := factors.entries ++ [((name, side), expression)] }

def isEmpty (factors : Factors) : Bool :=
  factors.entries.isEmpty

/-- Whether a variable has a factor on either side. -/
def isNormalised (factors : Factors) (name : String) : Bool :=
  (factors.get? name .unknown).isSome || (factors.get? name .residual).isSome

/-- The variables with a factor, sorted by name. -/
def names (factors : Factors) : List String :=
  ((factors.entries.map (·.1.1)).eraseDups).mergeSort (fun a b => a ≤ b)

/-- Forbids further changes. -/
def freeze (factors : Factors) : Factors :=
  { factors with frozen := true }

/-- The increment of a variable itself, as an expression of code. -/
def incrementExpression (factors : Factors) (name : String) : String :=
  match factors.get? name .unknown with
  | some s => s!"(({s})*(this->{incrementName name}))"
  | none => s!"(this->{incrementName name})"

/-- Makes the residual, which starts as the normalised increment, the increment itself. -/
def prologue? (factors : Factors) (name : String) : Option Line :=
  (factors.get? name .unknown).map fun s => [residualName name, " *= ", .given s, ";"]

/-- Divides the residual by its factor. -/
def epilogue? (factors : Factors) (name : String) : Option Line :=
  (factors.get? name .residual).map fun r => [residualName name, " *= real(1)/(", .given r, ");"]

/-- The scale of a block of the Jacobian. -/
def jacobianScale? (factors : Factors) (residual unknown : String) : Option Scale :=
  Scale.of? (factors.get? unknown .unknown) (factors.get? residual .residual)

/-- The scale that maps a block of the inverse Jacobian back. -/
def inverseScale? (factors : Factors) (unknown residual : String) : Option Scale :=
  Scale.of? (factors.get? unknown .unknown) (factors.get? residual .residual)

/-- Scales the block of a derivative, for all its array indices. -/
def scaleBlock? (factors : Factors) (d : Derivative) : Option Line :=
  (factors.jacobianScale? d.residual.name d.unknown.name).map fun scale =>
    let scaled (indices : String) : Line := .concat [[d.name, indices, " *= "], scale.line, [";"]]
    match d.indexing with
    | .none => scaled ""
    | .residual size | .unknown size => .inBraces (.forBelow "idx" [toString size]) (scaled "(idx)")
    | .both residual unknown =>
      .inBraces (.forBelow "idx" [toString residual])
        (.inBraces (.forBelow "idx2" [toString unknown]) (scaled "(idx, idx2)"))

/-- Makes increments that were assigned by code the normalised ones. -/
def normaliseIncrement? (factors : Factors) (name : String) : Option Line :=
  (factors.get? name .unknown).map fun s =>
    [.use (.member (.increment name)), " *= real(1)/(", .given s, ");"]

/-- The factors of one variable as numbers, put into a scaling.  There is no result if a factor is
no number. -/
def scaleSlot {n : Nat} (factors : Factors) (slot : Slot) (scaling : Numeric.Scaling Float n) :
    ExceptT Numeric.Violation Option (Numeric.Scaling Float n) := do
  let scaling ← match factors.get? slot.name .unknown with
    | none => pure scaling
    | some s => do
      let x ← (Decimal.read? s : Option Float)
      (scaling.setUnknown slot.offset slot.stop x : Except Numeric.Violation _)
  match factors.get? slot.name .residual with
    | none => pure scaling
    | some r => do
      let x ← (Decimal.read? r : Option Float)
      (scaling.setResidual slot.offset slot.stop x : Except Numeric.Violation _)

/-- The factors as numbers, for every unknown of a layout. -/
def toScaling (factors : Factors) (layout : Layout) :
    ExceptT Numeric.Violation Option (Numeric.Scaling Float layout.total) :=
  layout.slots.foldlM (fun scaling slot => factors.scaleSlot slot scaling) (.identity layout.total)

end Factors

/-- What has been mapped back to the unknowns themselves so far; nothing may be mapped back
twice. -/
abbrev Undone := List String

namespace Undone

/-- Notes that a target has been mapped back. -/
def note (undone : Undone) (target : String) : Except InternalFault Undone :=
  if undone.contains target then .error (.undoneTwice target) else .ok (target :: undone)

/-- Maps the increment of a variable back, if it has a factor. -/
def increment (undone : Undone) (factors : Factors) (name : String) :
    Except InternalFault (Option Line × Undone) :=
  match factors.get? name .unknown with
  | none => .ok (none, undone)
  | some s => do
    let undone ← undone.note (incrementName name)
    return (some [.use (.member (.increment name)), " *= ", .given s, ";"], undone)

/-- Maps a block of the inverse back, if there are factors. -/
def inverseBlock (undone : Undone) (factors : Factors) (target unknown residual : String) :
    Except InternalFault (Option Line × Undone) :=
  match factors.inverseScale? unknown residual with
  | none => .ok (none, undone)
  | some scale => do
    let undone ← undone.note target
    return (some (.concat [[target, " *= "], scale.line, [";"]]), undone)

end Undone

end Constitutive
