import Constitutive.Behaviour.Role
import Constitutive.Numeric.Difference
import Constitutive.Numeric.Inverse
import Constitutive.Numeric.Newton
import Constitutive.Numeric.Polynomial
import Constitutive.Numeric.Step

/-!
# Arguments of any size

Vectors and matrices that arrive as lists have to fit each other.  The functions here check what
they need, in the order in which they need it, and call the functions on vectors and matrices of
known size.  A list without rows is a matrix without columns.
-/

namespace Constitutive.Numeric

variable {α : Type}

/-- A list as a vector of a given length. -/
def vecOf (n : Nat) (xs : List α) : Except Violation (Vec α n) :=
  if h : xs.length = n then .ok ⟨xs.toArray, by simpa using h⟩ else .error .dimension

/-- The number of rows and columns of a list of rows. -/
def shapeOf (rows : List (List α)) : Nat × Nat :=
  (rows.length, ((rows.head?).map List.length).getD 0)

/-- A list of rows as a matrix of a given shape. -/
def matOf (m n : Nat) (rows : List (List α)) : Except Violation (Mat α m n) := do
  if shapeOf rows = (m, n) then vecOf m (← rows.mapM (vecOf n)) else throw .dimension

/-- The rows of a matrix. -/
def Mat.toRows {m n : Nat} (a : Mat α m n) : List (List α) :=
  a.toList.map Vector.toList

/-- The scaling with given factors, each set for one side and one range. -/
def Scaling.ofRanges [Zero α] [One α] [BEq α] (n : Nat) (entries : List (Side × Range × α)) :
    Except Violation (Scaling α n) :=
  entries.foldlM (fun scaling (side, range, factor) =>
    match side with
    | .unknown => scaling.setUnknown range.start range.stop factor
    | .residual => scaling.setResidual range.start range.stop factor) (.identity n)

/-- A term whose unknowns are given by number. -/
structure LooseTerm (α : Type) where
  coefficient : α
  powers : List (Nat × Nat)

/-- The powers of a term in `n` unknowns.  Other unknowns can only stand there with exponent
zero. -/
def fitPowers (n : Nat) (powers : List (Nat × Nat)) : Except Violation (List (Fin n × Nat)) :=
  (powers.filter fun (i, e) => i < n || 0 < e).mapM fun (i, e) =>
    if h : i < n then .ok (⟨i, h⟩, e) else .error .dimension

/-- Polynomials in `n` unknowns. -/
def polynomialsOf (n : Nat) (residuals : List (List (LooseTerm α))) :
    Except Violation (Polynomials α residuals.length n) := do
  vecOf residuals.length (← residuals.mapM fun terms => terms.mapM fun term => do
    return ⟨term.coefficient, ← fitPowers n term.powers⟩)

/-- The largest difference of two matrices of one shape. -/
def discrepancyOf [Zero α] [Sub α] [LT α] [DecidableLT α] [ScalarFunctions α]
    (a b : List (List α)) :
    Except Violation (Discrepancy α) := do
  let (m, n) := shapeOf a
  return discrepancy (← matOf m n a) (← matOf m n b)

variable [Zero α] [One α] [Add α] [Sub α] [Mul α] [Div α]

/-- The numerical Jacobian of polynomials.  The shape of the result, if it is given, has to be the
right one.  Polynomials that do not fit are only found when they are evaluated, which is not done if
there are no unknowns. -/
def centralJacobianOf [OfNat α 2] [ScalarFunctions α] (residuals : List (List (LooseTerm α)))
    (x : List α) (step : α) (shape : Option (Nat × Nat)) : Except Violation (List (List α)) := do
  if shape.all (· == (residuals.length, x.length)) then
    let system := polynomialsOf x.length residuals
    let a ← centralJacobian (fun x => do return (← system).value x) (← vecOf x.length x) step
    return a.toRows
  else throw .dimension

/-- The dog-leg step; the Newton step is only looked at as far as it is needed. -/
def dogLegStepOf [LT α] [DecidableLT α] [ScalarFunctions α] (rows : List (List α))
    (f newton : List α) (radius : α) :
    Except Violation (List α) := do
  let step : Vec α newton.length ← vecOf newton.length newton
  if norm step < radius then return newton
  else
    let j ← matOf (shapeOf rows).1 (shapeOf rows).2 rows
    let f ← vecOf (shapeOf rows).1 f
    let cauchy := cauchyPoint j f
    if norm cauchy < radius then
      return (alongDogLeg radius (← vecOf (shapeOf rows).2 newton) cauchy).toList
    else return (toBoundary radius cauchy).toList

/-- The secant update; the sizes are only looked at if the step is long enough. -/
def secantUpdateOf [LE α] [DecidableLE α] [ScalarFunctions α] (rows : List (List α))
    (dz df : List α) :
    Except Violation (Option (List (List α))) := do
  let step : Vec α dz.length ← vecOf dz.length dz
  if isNegligible step then return none
  else
    let j ← matOf (shapeOf rows).1 (shapeOf rows).2 rows
    let dz ← vecOf (shapeOf rows).2 dz
    let df ← vecOf (shapeOf rows).1 df
    return (secantUpdate j dz df).map Mat.toRows

variable [Neg α]

/-- Blocks of the inverse.  A block without rows that starts beyond the matrix cannot be cut out of
a column. -/
def inverseBlocksOf [LT α] [DecidableLT α] [BEq α] [ScalarFunctions α] {n : Nat}
    (rows : List (List α)) (blocks : List BlockRange) (scaling : Scaling α n) :
    Except Violation (Except InverseFault (List (List (List α)))) := do
  let j ← matOf n n rows
  match inverseBlocks j blocks scaling with
  | .error fault => return .error fault
  | .ok extracted =>
    if blocks.any fun b => n < b.rows.start && b.columns.start < b.columns.stop
      then throw .dimension
    else return .ok (extracted.map fun block => block.entries.toRows)

/-- Where the Jacobian of an iteration comes from. -/
inductive JacobianSource (α : Type) where
  | analytical
  | central (step : α)
  | constant (rows : List (List α))

/-- Polynomial equations as a system that counts the evaluations of its residual.  What does not fit
is only found when it is evaluated. -/
def countedSystem [OfNat α 2] [ScalarFunctions α] (residuals : List (List (LooseTerm α)))
    (source : JacobianSource α) :
    DifferentiableSystem (StateT Nat (Except Violation)) α residuals.length where
  residual x := do
    let system ← polynomialsOf residuals.length residuals
    modify (· + 1)
    return system.value x
  jacobian x := do
    let system ← polynomialsOf residuals.length residuals
    match source with
    | .analytical => return system.jacobian x
    | .central step => return (centralJacobian (fun x => (pure (system.value x) : Id _)) x step).run
    | .constant rows => matOf residuals.length residuals.length rows

/-- Solves polynomial equations from given scaled unknowns, and counts the evaluations. -/
def newtonOf [OfNat α 2] [LT α] [DecidableLT α] [BEq α] [ScalarFunctions α] {k : Nat}
    (residuals : List (List (LooseTerm α)))
    (source : JacobianSource α) (scaling : Scaling α k) (settings : NewtonSettings α) (y : List α) :
    Except Violation (NewtonOutcome α residuals.length × Nat) := do
  let start ← vecOf residuals.length y
  if h : k = residuals.length then
    (newton (countedSystem residuals source) (h ▸ scaling) settings start).run 0
  else throw .dimension

end Constitutive.Numeric
