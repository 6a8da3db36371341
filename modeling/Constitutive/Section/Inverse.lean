import Constitutive.Numeric.Inverse
import Constitutive.Scheme.Factors
import Constitutive.Solver.Strategy

/-!
# Code for blocks of the inverse Jacobian

After convergence, blocks of the inverse of the Jacobian can be handed out.  If the solver iterates
on the inverse they are copied from it.  Otherwise the Jacobian is factorised once, and the blocks
are collected from the solutions for the canonical basis vectors.  Either way each block is mapped
back by its factors once.
-/

namespace Constitutive

/-- A requested block with the slots of its unknown and its residual. -/
structure PlacedBlock where
  block : InverseBlock
  unknown : Slot
  residual : Slot

namespace PlacedBlock

/-- Finds the slots of a block. -/
def of (layout : Layout) (block : InverseBlock) : Except InternalFault PlacedBlock :=
  match layout.slot? block.unknown, layout.slot? block.residual with
  | some unknown, some residual => .ok ⟨block, unknown, residual⟩
  | _, _ => .error (.unknownInverseBlock block)

/-- The rows and columns of the block. -/
def range (placed : PlacedBlock) : Numeric.BlockRange :=
  ⟨⟨placed.unknown.offset, placed.unknown.stop⟩, ⟨placed.residual.offset, placed.residual.stop⟩⟩

/-- The type of a matrix that holds the block. -/
def type (placed : PlacedBlock) : Line :=
  ["tmatrix<", toString placed.unknown.size, ", ", toString placed.residual.size, ", real>"]

/-- Copies the block from the inverse of the Jacobian. -/
def copy (placed : PlacedBlock) : Stmt :=
  .block (.forBelow "idx" [toString placed.unknown.size])
    [.block (.forBelow "idx2" [toString placed.residual.size])
      [.line [placed.block.argumentName, "(idx, idx2) = ", Member.jacobian, "(",
        Constant.offset placed.unknown.name, " + idx, ", Constant.offset placed.residual.name,
        " + idx2);"]]]

/-- Takes one column of the block from the solution for a basis vector, if it belongs to the
block. -/
def collect (placed : PlacedBlock) : Stmt :=
  let offset := Constant.offset placed.residual.name
  .block ["if((idx >= ", offset, ") && (idx < ", offset, " + ", toString placed.residual.size, "))"]
    [.block (.forBelow "idx2" [toString placed.unknown.size])
      [.line [placed.block.argumentName, "(idx2, idx - ", offset, ") = vect_e(",
        Constant.offset placed.unknown.name, " + idx2);"]]]

end PlacedBlock

/-- Finds the slots of all blocks. -/
def placeBlocks (layout : Layout) (blocks : List InverseBlock) :
    Except InternalFault (List PlacedBlock) :=
  blocks.mapM (PlacedBlock.of layout)

/-- The members that receive the blocks. -/
def inverseMembers (layout : Layout) (blocks : List InverseBlock) :
    Except InternalFault (List Stmt) := do
  let placed ← placeBlocks layout blocks
  return placed.map fun p => plainMember p.type (.inverseBlock p.block)

/-- The call that fills the members. -/
def inverseCall (layout : Layout) (blocks : List InverseBlock) :
    Except InternalFault (List Stmt) := do
  let placed ← placeBlocks layout blocks
  let arguments : List Line := placed.map fun p => [.use (.member (.inverseBlock p.block))]
  return [.block (.concat [["if(!", Method.inverseBlocks, "("], .joinWith ", " arguments, ["))"]])
    [fail]]

/-- Maps the blocks back, one after the other. -/
def undoBlocks (factors : Factors) : Undone → List PlacedBlock → Except InternalFault (List Stmt)
  | _, [] => .ok []
  | undone, p :: rest => do
    let (line, undone) ← undone.inverseBlock factors p.block.argumentName p.unknown.name
      p.residual.name
    return line.toList.map .line ++ (← undoBlocks factors undone rest)

/-- Collects the blocks from one factorisation of the Jacobian. -/
def collectBlocks (placed : List PlacedBlock) : List Stmt :=
  [.line ["TinyPermutation<", Constant.size, "> jacobian_permutation;"],
    .block ["try"] [.line ["TinyMatrixSolve<", Constant.size, ", real>::decomp(", Member.jacobian,
      ", jacobian_permutation);"]],
    .block ["catch(LUException&)"] [.line ["return false;"]],
    forAllUnknowns "idx"
      ([.line (.concat [vectorType, [" vect_e(real(0));"]]),
        .line ["vect_e(idx) = real(1);"],
        .line ["TinyMatrixSolve<", Constant.size, ", real>::back_substitute(", Member.jacobian,
          ", jacobian_permutation, vect_e);"]] ++
        placed.map PlacedBlock.collect)]

/-- The method that hands out blocks of the inverse. -/
def inverseMethod (layout : Layout) (factors : Factors) (capabilities : Capabilities)
    (blocks : List InverseBlock) :
    Except InternalFault (List Stmt) := do
  let placed ← placeBlocks layout blocks
  let parameters : List Line := placed.map fun p => .concat [p.type, ["& ", p.block.argumentName]]
  let extraction := if capabilities.usesJacobianInvert then placed.map PlacedBlock.copy
    else collectBlocks placed
  let undo ← undoBlocks factors [] placed
  return [.block
    (.concat [["bool ", .define (.method .inverseBlocks), "("], .joinWith ", " parameters, [")"]])
    (extraction ++ undo ++ [.line ["return true;"]])]

end Constitutive
