import Constitutive.Numeric.Vec

/-!
# Gaussian elimination

A square matrix is factorised column by column.  The pivot of a column is its first entry of largest
absolute value; its row changes places with the first row, and multiples of it are subtracted from
the rows below.  What is left after that is a smaller matrix, so a factorisation is a chain of
steps.  It fails exactly when some pivot is zero.

`Factorisation.solve` does to a right-hand side what was done to the matrix, solves the smaller
system, and then the equation of the pivot row.
-/

namespace Constitutive.Numeric

/-- The steps of elimination on a matrix of size `n`. -/
inductive Factorisation (α : Type) : Nat → Type where
  | nil : Factorisation α 0
  /-- The row exchanged with the first, the pivot and the rest of its row, the multiple of it
  subtracted from each row below, and the steps on what is left. -/
  | step {n : Nat} (swap : Fin (n + 1)) (pivot : α) (row : Vec α n) (multipliers : Vec α n)
      (rest : Factorisation α n) : Factorisation α (n + 1)

variable {α : Type} {n : Nat}

/-- The index of the first entry of largest absolute value. -/
def pivotIndex [LT α] [DecidableLT α] [ScalarFunctions α] (column : Vec α (n + 1)) : Fin (n + 1) :=
  Fin.foldl n (fun best i =>
    if ScalarFunctions.abs (column.entry best) < ScalarFunctions.abs (column.entry i.succ)
      then i.succ else best) ⟨0, n.succ_pos⟩

variable [Zero α] [One α] [Add α] [Mul α] [Div α] [Neg α]

/-- The factorisation of a matrix, unless some pivot is zero. -/
def factorise? [LT α] [DecidableLT α] [BEq α] [ScalarFunctions α] :
    {n : Nat} → Mat α n n → Option (Factorisation α n)
  | 0, _ => some .nil
  | n + 1, a =>
    let p := pivotIndex (a.column 0)
    let pivot := a.entry p 0
    if pivot == 0 then none
    else
      let swapped : Mat α (n + 1) (n + 1) :=
        Vector.ofFn fun i => if i = 0 then a.row p else if i = p then a.row 0 else a.row i
      let inverse := 1 / pivot
      let row : Vec α n := Vector.ofFn fun j => swapped.entry 0 j.succ
      let multipliers : Vec α n := Vector.ofFn fun i => swapped.entry i.succ 0 * inverse
      let below : Mat α n n :=
        Mat.ofFn fun i j => -row.entry j * multipliers.entry i + swapped.entry i.succ j.succ
      (factorise? below).map (.step p pivot row multipliers)

/-- The solution of the system with a given right-hand side. -/
def Factorisation.solve : {n : Nat} → Factorisation α n → Vec α n → Vec α n
  | _, .nil, b => b
  | k + 1, .step swap pivot row multipliers rest, b =>
    let b := Vec.swapFirst b swap
    let first := b.entry 0
    let xs := rest.solve (Vector.ofFn fun i => -first * multipliers.entry i + b.entry i.succ)
    let remainder := Fin.foldr k (fun j sum => -xs.entry j * row.entry j + sum) first
    Vec.cons (remainder / pivot) xs

/-- The solution of a linear system, unless the matrix is singular. -/
def solve? [LT α] [DecidableLT α] [BEq α] [ScalarFunctions α] (a : Mat α n n) (b : Vec α n) :
    Option (Vec α n) :=
  (factorise? a).map (·.solve b)

end Constitutive.Numeric
