import Constitutive.Numeric.Scalar

/-!
# Vectors and matrices

Vectors carry their length in their type, and a matrix is the vector of its rows.  Sums are taken in
a fixed order, because sums of doubles depend on it: `dot` adds the products in eight interleaved
lanes as long as there are eight of them, then joins the lanes in pairs and adds the remaining
products one by one.
-/

namespace Constitutive.Numeric

/-- A vector of `n` scalars. -/
abbrev Vec (α : Type) (n : Nat) := Vector α n

/-- A matrix of `m` rows and `n` columns, by rows. -/
abbrev Mat (α : Type) (m n : Nat) := Vector (Vector α n) m

variable {α : Type} {m n : Nat}

namespace Vec

/-- The entry at an index. -/
def entry (x : Vec α n) (i : Fin n) : α :=
  x[i]

@[simp] theorem entry_ofFn (f : Fin n → α) (i : Fin n) : Vec.entry (Vector.ofFn f) i = f i := by
  simp [entry]

/-- Vectors with the same entries are the same. -/
theorem ext_entry {x y : Vec α n} (h : ∀ i, x.entry i = y.entry i) : x = y := by
  apply Vector.ext
  intro i hi
  exact h ⟨i, hi⟩

end Vec

namespace Mat

/-- The matrix with given entries. -/
def ofFn (entry : Fin m → Fin n → α) : Mat α m n :=
  Vector.ofFn fun i => Vector.ofFn fun j => entry i j

/-- A row. -/
def row (a : Mat α m n) (i : Fin m) : Vec α n :=
  a[i]

/-- The entry in row `i` and column `j`. -/
def entry (a : Mat α m n) (i : Fin m) (j : Fin n) : α :=
  (a.row i).entry j

/-- A column. -/
def column (a : Mat α m n) (j : Fin n) : Vec α m :=
  Vector.ofFn fun i => a.entry i j

/-- The matrix with one column replaced. -/
def setColumn (a : Mat α m n) (i : Fin n) (column : Vec α m) : Mat α m n :=
  ofFn fun r k => if k = i then column.entry r else a.entry r k

@[simp] theorem entry_ofFn (f : Fin m → Fin n → α) (i : Fin m) (j : Fin n) :
    (ofFn f).entry i j = f i j := by
  simp [ofFn, entry, row, Vec.entry]

/-- Matrices with the same entries are the same. -/
theorem ext_entry {a b : Mat α m n} (h : ∀ i j, a.entry i j = b.entry i j) : a = b := by
  apply Vec.ext_entry
  intro i
  apply Vec.ext_entry
  intro j
  exact h i j

end Mat

namespace Vec

/-- The entry at an index, zero beyond the end. -/
def entryOrZero [Zero α] (x : Vec α n) (i : Nat) : α :=
  if h : i < n then x[i] else 0

/-- Puts a scalar in front. -/
def cons (a : α) (x : Vec α n) : Vec α (n + 1) :=
  Vector.ofFn fun i => Fin.cases a x.entry i

/-- Exchanges the first entry with entry `p`. -/
def swapFirst (x : Vec α (n + 1)) (p : Fin (n + 1)) : Vec α (n + 1) :=
  Vector.ofFn fun i => if i = 0 then x.entry p else if i = p then x.entry 0 else x.entry i

end Vec

/-- The sum of the scalars that are left, with the sums of eight lanes already taken. -/
def laneSum [Zero α] [Add α] (a₀ a₁ a₂ a₃ a₄ a₅ a₆ a₇ : α) : List α → α
  | p₀ :: p₁ :: p₂ :: p₃ :: p₄ :: p₅ :: p₆ :: p₇ :: rest =>
    laneSum (a₀ + p₀) (a₁ + p₁) (a₂ + p₂) (a₃ + p₃) (a₄ + p₄) (a₅ + p₅) (a₆ + p₆) (a₇ + p₇) rest
  | rest => rest.foldl (· + ·) (0 + (a₀ + a₄) + (a₁ + a₅) + (a₂ + a₆) + (a₃ + a₇))

/-- The scalar product. -/
def dot [Zero α] [Add α] [Mul α] (x y : Vec α n) : α :=
  laneSum 0 0 0 0 0 0 0 0 (Vector.zipWith (· * ·) x y).toList

/-- The Euclidean norm. -/
def norm [Zero α] [Add α] [Mul α] [ScalarFunctions α] (x : Vec α n) : α :=
  ScalarFunctions.sqrt (dot x x)

/-- The sum of scalars from the first to the last, zero if there are none. -/
def sumInOrder [Zero α] [Add α] : List α → α
  | [] => 0
  | a :: rest => rest.foldl (· + ·) a

namespace Mat

/-- The product of a matrix and a vector. -/
def mulVec [Zero α] [Add α] [Mul α] (a : Mat α m n) (x : Vec α n) : Vec α m :=
  a.map fun row => sumInOrder (Vector.zipWith (· * ·) row x).toList

/-- The product of a transposed matrix and a vector. -/
def transposeMulVec [Zero α] [Add α] [Mul α] (a : Mat α m n) (x : Vec α m) : Vec α n :=
  Vector.ofFn fun j => dot (a.column j) x

end Mat

end Constitutive.Numeric
