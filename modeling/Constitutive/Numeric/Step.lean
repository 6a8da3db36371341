import Constitutive.Numeric.Vec

/-!
# Dog-leg steps and rank-one updates

`dogLegStep` shortens a Newton step to a trust region.  If the Newton step is too long, the Cauchy
point, which is the best point in the direction of steepest descent, is looked at: from a Cauchy
point inside the region the step goes towards the Newton step up to the boundary, and a Cauchy point
outside is pulled back to it.

`secantUpdate` changes a matrix as little as possible so that it maps a step to the observed change
of the residual.
-/

namespace Constitutive.Numeric

variable {α : Type} {m n : Nat}

section DogLeg

variable [Zero α] [Add α] [Mul α] [Div α]

/-- The direction `Jᵀ f`, scaled to the minimum of `|f - J x|` along it. -/
def cauchyPoint (j : Mat α m n) (f : Vec α m) : Vec α n :=
  let g := j.transposeMulVec f
  let image := j.mulVec g
  let scale := dot g g / dot image image
  g.map (· * scale)

variable [ScalarFunctions α]

/-- Pulls a point to the boundary of the trust region. -/
def toBoundary (radius : α) (cauchy : Vec α n) : Vec α n :=
  let scale := radius / norm cauchy
  cauchy.map (· * scale)

variable [One α] [Sub α]

/-- The point on the boundary between a Cauchy point inside the region and the Newton step. -/
def alongDogLeg (radius : α) (newton cauchy : Vec α n) : Vec α n :=
  let r2 := radius * radius
  let c2 := dot cauchy cauchy
  let pc := dot newton cauchy
  let p2 := dot newton newton
  let discriminant := ScalarFunctions.larger ((pc - r2) * (pc - r2) + (p2 - r2) * (r2 - c2)) 0
  let part := (r2 - c2) / ((pc - c2) + ScalarFunctions.sqrt discriminant)
  Vector.zipWith (fun p c => p * part + c * (1 - part)) newton cauchy

variable [LT α] [DecidableLT α]

/-- The dog-leg step for the system `J x = f` with Newton step `newton`. -/
def dogLegStep (j : Mat α m n) (f : Vec α m) (newton : Vec α n) (radius : α) : Vec α n :=
  if norm newton < radius then newton
  else
    let cauchy := cauchyPoint j f
    if norm cauchy < radius then alongDogLeg radius newton cauchy else toBoundary radius cauchy

end DogLeg

section Secant

variable [Zero α] [Add α] [Mul α] [LE α] [DecidableLE α] [ScalarFunctions α]

/-- Whether a step is too short to learn from. -/
def isNegligible (dz : Vec α n) : Bool :=
  dot dz dz ≤ ScalarFunctions.ofNat 100 * ScalarFunctions.epsilon

variable [One α] [Sub α] [Div α]

/-- The matrix after a step `dz` over which the residual changed by `df`, if the step is long
enough. -/
def secantUpdate (j : Mat α m n) (dz : Vec α n) (df : Vec α m) : Option (Mat α m n) :=
  if isNegligible dz then none
  else
    let predicted := j.mulVec dz
    let defect := Vector.zipWith (· - ·) df predicted
    let weight := 1 / dot dz dz
    some (Mat.ofFn fun i k => weight * dz.entry k * Vec.entry defect i + j.entry i k)

end Secant

end Constitutive.Numeric
