import Constitutive.Unknowns.Layout

/-!
# Blocks of the Jacobian

The derivative of the residual of one variable with respect to another fills a block of the
Jacobian: the residual indexes rows, the unknown columns.  Row `offset + i * components + c` belongs
to component `c` of element `i`, and columns likewise.

Code addresses a block through a view.  Which kind of view it is depends on the ranks of the two
variables and on which of them are arrays; blocks of arrays are addressed by functions of the array
indices, the residual's first.  The derivative of a symmetric tensor with respect to a vector has no
view.
-/

namespace Constitutive

/-- The kinds of view on a block. -/
inductive BlockShape where
  | cell
  | row
  | column
  | matrix
  deriving DecidableEq, Repr

/-- The array indices a block is addressed by. -/
inductive Indexing where
  | none
  | residual (size : Nat)
  | unknown (size : Nat)
  | both (residual unknown : Nat)
  deriving DecidableEq, Repr

/-- A row or column in generated code: a number, plus a multiple of an index. -/
inductive Index where
  | fixed (offset : Nat)
  | strided (offset : Nat) (index : String) (stride : Nat)
  deriving DecidableEq, Repr

namespace Index

/-- The text of an index; a factor of one is not written. -/
def render : Index → String
  | fixed offset => toString offset
  | strided offset index stride =>
    if stride = 1 then s!"{offset} + {index}" else s!"{offset} + {index} * {stride}"

/-- The row or column that is meant when the index has the value `i`. -/
def value (i : Nat) : Index → Nat
  | fixed offset => offset
  | strided offset _ stride => offset + i * stride

end Index

/-- The derivative of the residual of one variable with respect to another. -/
structure Derivative where
  residual : Slot
  unknown : Slot
  deriving DecidableEq, Repr

namespace Derivative

/-- The name of the block in code. -/
def name (d : Derivative) : String :=
  blockName d.residual.name d.unknown.name

def indexing (d : Derivative) : Indexing :=
  match d.residual.isArray, d.unknown.isArray with
  | false, false => .none
  | true, false => .residual d.residual.arraySize
  | false, true => .unknown d.unknown.arraySize
  | true, true => .both d.residual.arraySize d.unknown.arraySize

/-- Whether the block is addressed by array indices. -/
def isArray (d : Derivative) : Bool :=
  d.indexing ≠ .none

/-- Whether single cells are addressed. -/
def isCellwise (d : Derivative) : Bool :=
  d.residual.rank = .scalar && d.unknown.rank = .scalar

def shape (d : Derivative) : BlockShape :=
  match d.residual.rank, d.unknown.rank with
  | .scalar, .scalar =>
    match d.indexing with
    | .none => .cell
    | .residual _ => .column
    | .unknown _ => .row
    | .both _ _ => .matrix
  | .scalar, _ => .row
  | _, .scalar => .column
  | _, _ => .matrix

/-- The number of elements of the residual that are addressed by an index. -/
def residualElements (d : Derivative) : Nat :=
  match d.indexing with
  | .residual size => size
  | .both size _ => size
  | _ => 1

/-- The number of elements of the unknown that are addressed by an index. -/
def unknownElements (d : Derivative) : Nat :=
  match d.indexing with
  | .unknown size => size
  | .both _ size => size
  | _ => 1

/-- The row of a component of an element of the residual. -/
def rowOf (d : Derivative) (element component : Nat) : Nat :=
  d.residual.offset + element * d.residual.components + component

/-- The column of a component of an element of the unknown. -/
def columnOf (d : Derivative) (element component : Nat) : Nat :=
  d.unknown.offset + element * d.unknown.components + component

/-- The first row of the block, at an array index if the residual is addressed by one. -/
def rowIndex (d : Derivative) : Index :=
  match d.indexing with
  | .residual _ | .both _ _ => .strided d.residual.offset "idx" d.residual.components
  | _ => .fixed d.residual.offset

/-- The first column of the block, at an array index if the unknown is addressed by one. -/
def columnIndex (d : Derivative) : Index :=
  match d.indexing with
  | .unknown _ => .strided d.unknown.offset "idx" d.unknown.components
  | .both _ _ => .strided d.unknown.offset "idx2" d.unknown.components
  | _ => .fixed d.unknown.offset

/-- The view on the block of a matrix at the current indices. -/
def view (d : Derivative) (matrix : Piece) : Line :=
  let row := d.rowIndex.render
  let column := d.columnIndex.render
  if d.isCellwise then [matrix, "(", row, ", ", column, ")"]
  else ["map_derivative<", d.residual.rank.typeName, ", ", d.unknown.rank.typeName, ">(", matrix,
    ", ", row, ", ", column, ")"]

/-- A declaration of `label` as a view on the block of a matrix. -/
def accessor (d : Derivative) (label : String) (matrix : Piece) : Line :=
  match d.indexing with
  | .none =>
    if d.isCellwise then .concat [["real& ", label, " = "], d.view matrix, [";"]]
    else ["auto&& ", label, " = map_derivative<", d.rowIndex.render, ", ",
      d.columnIndex.render, ", ", d.residual.rank.typeName, ", ", d.unknown.rank.typeName, ">(",
      matrix, ");"]
  | .residual _ | .unknown _ =>
    .concat [["auto ", label, " = [&](const unsigned short idx) -> decltype(auto) \x7b return "],
      d.view matrix, ["; \x7d;"]]
  | .both _ _ =>
    .concat [["auto ", label,
      " = [&](const unsigned short idx, const unsigned short idx2) -> decltype(auto) \x7b return "],
      d.view matrix,
      ["; \x7d;"]]

end Derivative

/-- The derivative of one variable of a layout with respect to another, if it has a view. -/
def Layout.derivative (layout : Layout) (residual unknown : String) :
    Except InternalFault Derivative :=
  match layout.slot? residual with
  | none => .error (.unknownVariable residual)
  | some r =>
    match layout.slot? unknown with
    | none => .error (.unknownVariable unknown)
    | some u =>
      if r.rank = .symmetricTensor ∧ u.rank = .vector then
        .error (.unsupportedDerivative residual unknown r.rank u.rank)
      else .ok ⟨r, u⟩

end Constitutive
