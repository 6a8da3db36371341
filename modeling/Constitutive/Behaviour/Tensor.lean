/-!
# Tensorial categories

An integration variable is a scalar, a vector or a symmetric tensor.  How many components it has
depends on the space dimension, which is one, two or three.
-/

namespace Constitutive

/-- A space dimension. -/
inductive Dimension where
  | one
  | two
  | three
  deriving DecidableEq, Repr

namespace Dimension

/-- The dimension as a number. -/
def toNat : Dimension → Nat
  | one => 1
  | two => 2
  | three => 3

/-- The dimension of a number, unless it is none of 1, 2 and 3. -/
def ofNat? : Nat → Option Dimension
  | 1 => some one
  | 2 => some two
  | 3 => some three
  | _ => none

/-- Independent components of a symmetric tensor. -/
def tensorComponents : Dimension → Nat
  | one => 3
  | two => 4
  | three => 6

theorem ofNat?_toNat (d : Dimension) : ofNat? d.toNat = some d := by
  cases d <;> rfl

theorem ofNat?_eq_some_iff {n : Nat} {d : Dimension} : ofNat? n = some d ↔ d.toNat = n := by
  constructor
  · intro h
    unfold ofNat? at h
    split at h <;> cases h <;> rfl
  · rintro rfl
    exact ofNat?_toNat d

end Dimension

/-- The tensorial category of a variable. -/
inductive Rank where
  | scalar
  | vector
  | symmetricTensor
  deriving DecidableEq, Repr

namespace Rank

/-- Components of one element. -/
def components (rank : Rank) (dim : Dimension) : Nat :=
  match rank with
  | scalar => 1
  | vector => dim.toNat
  | symmetricTensor => dim.tensorComponents

/-- The name of the category in descriptions and messages. -/
def name : Rank → String
  | scalar => "Scalar"
  | vector => "Vector"
  | symmetricTensor => "SymmetricTensor"

/-- The type of one element in generated code. -/
def typeName : Rank → String
  | scalar => "real"
  | vector => "TVector"
  | symmetricTensor => "Stensor"

/-- All categories. -/
def all : List Rank := [scalar, vector, symmetricTensor]

theorem components_pos (rank : Rank) (dim : Dimension) : 0 < rank.components dim := by
  cases rank <;> cases dim <;> decide

end Rank

end Constitutive
