import Constitutive.Numeric.Elimination
import Constitutive.Numeric.Scaling

/-!
# Blocks of the inverse

Blocks of the inverse of a scaled matrix are taken from the solutions for the canonical basis
vectors, all with one factorisation, and mapped back to the unknowns and residuals themselves.
-/

namespace Constitutive.Numeric

/-- Indices from `start` up to, and without, `stop`. -/
structure Range where
  start : Nat
  stop : Nat
  deriving DecidableEq, Repr

namespace Range

/-- The number of indices. -/
def length (range : Range) : Nat := range.stop - range.start

/-- The range in messages. -/
def describe (range : Range) : String :=
  toString range.start ++ ".." ++ toString range.stop

end Range

/-- A block of a matrix. -/
structure BlockRange where
  rows : Range
  columns : Range
  deriving DecidableEq, Repr

/-- Why blocks of an inverse cannot be given. -/
inductive InverseFault where
  | singular
  | outOfBounds (block : BlockRange) (dimension : Nat)
  deriving DecidableEq, Repr

/-- The wording of an inverse fault. -/
def InverseFault.message : InverseFault → String
  | singular => "The converged Jacobian is singular"
  | outOfBounds block dimension =>
    s!"Block (rows {block.rows.describe}, cols {block.columns.describe}) " ++
      s!"exceeds the system dimension {dimension}"

/-- A block, with its place. -/
structure ExtractedBlock (α : Type) where
  place : BlockRange
  entries : Mat α place.rows.length place.columns.length

variable {α : Type} {n : Nat} [Zero α] [One α] [Add α] [Mul α] [Div α] [Neg α]

/-- A canonical basis vector. -/
def basisVector (k : Fin n) : Vec α n :=
  Vector.ofFn fun i => if i = k then 1 else 0

namespace ExtractedBlock

/-- A block that nothing has been copied into. -/
def zeros (place : BlockRange) : ExtractedBlock α :=
  ⟨place, Mat.ofFn fun _ _ => 0⟩

/-- Copies the rows of the block out of a column of the inverse, if this is one of its columns. -/
def copyColumn (k : Fin n) (column : Vec α n) (block : ExtractedBlock α) : ExtractedBlock α :=
  if h : block.place.columns.start ≤ k ∧ k < block.place.columns.stop then
    { block with
      entries := block.entries.setColumn
        ⟨k - block.place.columns.start, Nat.sub_lt_sub_right h.1 h.2⟩
        (Vector.ofFn fun i => column.entryOrZero (block.place.rows.start + i)) }
  else block

/-- Undoes the scaling of the unknowns of the rows and of the residuals of the columns. -/
def mapBack (scaling : Scaling α n) (block : ExtractedBlock α) : ExtractedBlock α :=
  { block with
    entries := Mat.ofFn fun i j =>
      block.entries.entry i j * scaling.unknown.entryOrZero (block.place.rows.start + i) /
        scaling.residual.entryOrZero (block.place.columns.start + j) }

end ExtractedBlock

/-- Blocks of the inverse, given the matrix of the scaled system. -/
def inverseBlocks [LT α] [DecidableLT α] [BEq α] [ScalarFunctions α] (jacobian : Mat α n n)
    (blocks : List BlockRange) (scaling : Scaling α n) :
    Except InverseFault (List (ExtractedBlock α)) :=
  match blocks.find? fun block => n < block.rows.stop || n < block.columns.stop with
  | some block => .error (.outOfBounds block n)
  | none =>
    match factorise? jacobian with
    | none => .error .singular
    | some factors =>
      -- one basis vector after the other, each for all blocks
      let filled := Fin.foldl n (fun outputs k =>
        outputs.map (ExtractedBlock.copyColumn k (factors.solve (basisVector k))))
        (blocks.map .zeros)
      .ok (filled.map (ExtractedBlock.mapBack scaling))

end Constitutive.Numeric
