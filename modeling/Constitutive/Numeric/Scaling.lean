import Constitutive.Numeric.Vec

/-!
# Scaling of a system

With factors `s` of the unknowns and `r` of the residuals, a solver works on the unknowns
`y = x / s` and the residual `F / r`.  The matrix of the scaled system is then `J * s / r`, where
`s` belongs to the column and `r` to the row.
-/

namespace Constitutive.Numeric

/-- Scale factors of the unknowns and the residuals of a system of size `n`. -/
structure Scaling (α : Type) (n : Nat) where
  unknown : Vec α n
  residual : Vec α n

namespace Scaling

variable {α : Type} {n : Nat}

/-- All factors are one. -/
def identity [One α] (n : Nat) : Scaling α n :=
  ⟨Vector.replicate n 1, Vector.replicate n 1⟩

/-- Replaces the entries from `start` up to, and without, `start + count`. -/
def fill (x : Vec α n) (start count : Nat) (a : α) : Vec α n :=
  Vector.ofFn fun i => if start ≤ i.val ∧ i.val < start + count then a else x.entry i

/-- Whether a factor can be set in a range. -/
def check [Zero α] [BEq α] (n start stop : Nat) (factor : α) : Except Violation Unit :=
  if factor == 0 then .error .zeroFactor
  else if n < start + (stop - start) then .error .dimension
  else .ok ()

/-- Sets the factor of the unknowns from `start` up to, and without, `stop`. -/
def setUnknown [Zero α] [BEq α] (scaling : Scaling α n) (start stop : Nat) (factor : α) :
    Except Violation (Scaling α n) := do
  check n start stop factor
  return { scaling with unknown := fill scaling.unknown start (stop - start) factor }

/-- Sets the factor of the residuals from `start` up to, and without, `stop`. -/
def setResidual [Zero α] [BEq α] (scaling : Scaling α n) (start stop : Nat) (factor : α) :
    Except Violation (Scaling α n) := do
  check n start stop factor
  return { scaling with residual := fill scaling.residual start (stop - start) factor }

/-- The scaled residual. -/
def scaleResidual [Div α] (scaling : Scaling α n) (f : Vec α n) : Vec α n :=
  Vector.zipWith (· / ·) f scaling.residual

/-- The matrix of the scaled system. -/
def scaleJacobian [Mul α] [Div α] (scaling : Scaling α n) (j : Mat α n n) : Mat α n n :=
  Mat.ofFn fun i k => j.entry i k * scaling.unknown.entry k / scaling.residual.entry i

/-- The unknowns themselves, from the scaled ones. -/
def physical [Mul α] (scaling : Scaling α n) (y : Vec α n) : Vec α n :=
  Vector.zipWith (· * ·) y scaling.unknown

/-- The scaled unknowns. -/
def normalized [Div α] (scaling : Scaling α n) (x : Vec α n) : Vec α n :=
  Vector.zipWith (· / ·) x scaling.unknown

end Scaling

end Constitutive.Numeric
