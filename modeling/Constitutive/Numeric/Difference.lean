import Constitutive.Numeric.Vec

/-!
# Central differences and the comparison of Jacobians

The derivative with respect to one unknown is approximated from two evaluations, at a point a little
below and at one a little above.  The point is moved in place, one unknown after the other, and each
unknown is put back before the next one is moved.  Evaluations may have an effect, so their order is
part of the definition: for each unknown the lower point comes first.
-/

namespace Constitutive.Numeric

variable {α : Type} {m n : Nat}

/-- The point with one unknown replaced. -/
def replaceAt (x : Vec α n) (i : Fin n) (a : α) : Vec α n :=
  Vector.ofFn fun k => if k = i then a else x.entry k

/-- A point that is moved in place, and a matrix that is filled column by column. -/
structure Differences (α : Type) (m n : Nat) where
  point : Vec α n
  jacobian : Mat α m n

section

variable [OfNat α 2] [Add α] [Sub α] [Mul α] [Div α] {M : Type → Type} [Monad M]

/-- Fills the column of difference quotients with respect to unknown `i`, which is moved down, moved
up and put back. -/
def Differences.fillColumn (f : Vec α n → M (Vec α m)) (h : α) (state : Differences α m n)
    (i : Fin n) :
    M (Differences α m n) := do
  let centre := state.point.entry i
  let lower := replaceAt state.point i (centre - h)
  let below ← f lower
  let upper := replaceAt lower i (centre + h)
  let above ← f upper
  return ⟨replaceAt upper i centre,
    state.jacobian.setColumn i (Vector.zipWith (fun a b => (a - b) / (2 * h)) above below)⟩

/-- Fills a matrix with the Jacobian of a function at a point, by central differences with step
`h`. -/
def Differences.fill (f : Vec α n → M (Vec α m)) (h : α) (state : Differences α m n) :
    M (Differences α m n) :=
  Fin.foldlM n (Differences.fillColumn f h) state

/-- The Jacobian of a function at a point, by central differences with step `h`. -/
def centralJacobian [Zero α] (f : Vec α n → M (Vec α m)) (x : Vec α n) (h : α) : M (Mat α m n) := do
  let filled ← Differences.fill f h ⟨x, Mat.ofFn fun _ _ => 0⟩
  return filled.jacobian

end

/-- The largest difference between two matrices, and where it is. -/
structure Discrepancy (α : Type) where
  value : α
  row : Nat
  column : Nat

variable [Zero α] [Sub α] [LT α] [DecidableLT α] [ScalarFunctions α]

/-- The larger of a discrepancy and the difference at one more place. -/
def Discrepancy.extend (a b : Mat α m n) (j : Fin n) (found : Discrepancy α) (i : Fin m) :
    Discrepancy α :=
  let difference := ScalarFunctions.abs (a.entry i j - b.entry i j)
  if found.value < difference then ⟨difference, i, j⟩ else found

/-- The largest difference between two matrices, and the first place column by column where it is
found. -/
def discrepancy (a b : Mat α m n) : Discrepancy α :=
  Fin.foldl n (fun found j => Fin.foldl m (Discrepancy.extend a b j) found) ⟨0, 0, 0⟩

end Constitutive.Numeric
