import Constitutive.Numeric.Elimination
import Mathlib

/-!
# Elimination over an ordered field

With exact arithmetic, elimination decides whether a matrix is invertible, and solves its systems if
it is (`solve?_eq_none_iff`, `solve?_eq_some_iff`).

One step is enough to look at.  Exchanging two rows of a system exchanges two entries of its
right-hand side.  After that the system says two things: the equation of the first row, and a system
for the other unknowns with the matrix that is left (`Mat.Clears.mulVec_eq_iff`).  The pivot has the
largest absolute value in its column, so if it is zero, the column is zero, and the first unknown is
free (`entry_eq_zero_of_pivot_eq_zero`).
-/

namespace Constitutive.Numeric

open Matrix

/-- The absolute value of scalars is that of an ordered field. -/
class ExactScalars (K : Type) [Field K] [LinearOrder K] [ScalarFunctions K] : Prop where
  abs_eq : ∀ x : K, ScalarFunctions.abs x = |x|

/-- Rational numbers as scalars.  Square roots are those of squares, and rounded down otherwise. -/
instance : ScalarFunctions ℚ where
  abs := fun x => |x|
  sqrt := Rat.sqrt
  larger := max
  withSign := fun size sign => if sign < 0 then -|size| else |size|
  ofNat := fun n => n
  epsilon := 0

instance : ExactScalars ℚ where
  abs_eq := fun _ => rfl

variable {K : Type} {m n : ℕ}

namespace Vec

theorem entry_ofFn_eq (f : Fin n → K) : Vec.entry (Vector.ofFn f) = f :=
  funext fun i => entry_ofFn f i

theorem entry_map (op : K → K) (x : Vec K n) (i : Fin n) :
    Vec.entry (x.map op) i = op (x.entry i) := by
  simp [entry]

theorem entry_zipWith (op : K → K → K) (x y : Vec K n) (i : Fin n) :
    Vec.entry (Vector.zipWith op x y) i = op (x.entry i) (y.entry i) := by
  simp [entry]

@[simp] theorem entry_cons_zero (a : K) (x : Vec K n) : (cons a x).entry 0 = a := by
  simp [cons]

@[simp] theorem entry_cons_succ (a : K) (x : Vec K n) (i : Fin n) :
    (cons a x).entry i.succ = x.entry i := by
  simp [cons]

theorem entry_swapFirst (x : Vec K (n + 1)) (p : Fin (n + 1)) :
    (swapFirst x p).entry = x.entry ∘ Equiv.swap 0 p := by
  funext i
  rw [swapFirst, entry_ofFn, Function.comp_apply, Equiv.swap_apply_def]
  split
  · rfl
  · split
    · rfl
    · rfl

end Vec

namespace Mat

/-- The matrix with the same entries. -/
def toMatrix (a : Mat K m n) : Matrix (Fin m) (Fin n) K :=
  Matrix.of a.entry

@[simp] theorem toMatrix_apply (a : Mat K m n) (i : Fin m) (j : Fin n) :
    a.toMatrix i j = a.entry i j := rfl

theorem entry_swapFirst (a : Mat K (n + 1) (n + 1)) (p i j : Fin (n + 1)) :
    Mat.entry (Vec.swapFirst a p) i j = a.entry (Equiv.swap 0 p i) j := by
  have hrow := congrFun (Vec.entry_swapFirst a p) i
  exact congrArg (fun row => Vec.entry row j) hrow

theorem entry_swapFirst_zero (a : Mat K (n + 1) (n + 1)) (p j : Fin (n + 1)) :
    Mat.entry (Vec.swapFirst a p) 0 j = a.entry p j := by
  rw [entry_swapFirst, Equiv.swap_apply_left]

variable [Field K]

/-- Exchanging rows of a system exchanges entries of the right-hand side. -/
theorem mulVec_swapFirst_iff (a : Mat K (n + 1) (n + 1)) (p : Fin (n + 1)) (b x : Fin (n + 1) → K) :
    toMatrix (Vec.swapFirst a p) *ᵥ x = b ∘ Equiv.swap 0 p ↔ a.toMatrix *ᵥ x = b := by
  have hrows : ∀ i,
      (toMatrix (Vec.swapFirst a p) *ᵥ x) i = (a.toMatrix *ᵥ x) (Equiv.swap 0 p i) := by
    intro i
    simp only [Matrix.mulVec, dotProduct, toMatrix_apply, entry_swapFirst]
  simp only [funext_iff, hrows, Function.comp_apply]
  exact (Equiv.swap 0 p).forall_congr_right (q := fun i => (a.toMatrix *ᵥ x) i = b i)

/-- The first column of a matrix is cleared below its first entry: `row` stands to the right of the
pivot, `multipliers` are the multiples of the first row that are subtracted from the others, and
`below` is what is left of these. -/
structure Clears (s : Mat K (n + 1) (n + 1)) (pivot : K) (row multipliers : Vec K n)
    (below : Mat K n n) : Prop where
  pivot_eq : s.entry 0 0 = pivot
  pivot_ne_zero : pivot ≠ 0
  row_eq : ∀ j, row.entry j = s.entry 0 j.succ
  multipliers_eq : ∀ i, multipliers.entry i = s.entry i.succ 0 * (1 / pivot)
  below_eq : ∀ i j, below.entry i j = -row.entry j * multipliers.entry i + s.entry i.succ j.succ

namespace Clears

variable {s : Mat K (n + 1) (n + 1)} {pivot : K} {row multipliers : Vec K n} {below : Mat K n n}

theorem mulVec_zero (h : Clears s pivot row multipliers below) (x : Fin (n + 1) → K) :
    (s.toMatrix *ᵥ x) 0 = pivot * x 0 + ∑ j, row.entry j * x j.succ := by
  simp only [Matrix.mulVec, dotProduct, toMatrix_apply, Fin.sum_univ_succ, h.pivot_eq, h.row_eq]

/-- Every other row is a multiple of the first one, and a row of what is left. -/
theorem mulVec_succ (h : Clears s pivot row multipliers below) (x : Fin (n + 1) → K) (i : Fin n) :
    (s.toMatrix *ᵥ x) i.succ =
      multipliers.entry i * (s.toMatrix *ᵥ x) 0 + (below.toMatrix *ᵥ fun j => x j.succ) i := by
  have hleft : (below.toMatrix *ᵥ fun j => x j.succ) i =
      -(multipliers.entry i * ∑ j, row.entry j * x j.succ) + ∑ j : Fin n,
      s.entry i.succ j.succ * x j.succ := by
    simp only [Matrix.mulVec, dotProduct, toMatrix_apply, h.below_eq, add_mul,
      Finset.sum_add_distrib, Finset.mul_sum]
    rw [← Finset.sum_neg_distrib]
    congr 1
    refine Finset.sum_congr rfl ?_
    intro j _
    ring
  have hcolumn : multipliers.entry i * pivot = s.entry i.succ 0 := by
    rw [h.multipliers_eq, mul_assoc, one_div_mul_cancel h.pivot_ne_zero, mul_one]
  rw [hleft, h.mulVec_zero, mul_add, ← mul_assoc, hcolumn]
  simp only [Matrix.mulVec, dotProduct, toMatrix_apply, Fin.sum_univ_succ]
  ring

/-- A system is the equation of its first row and a smaller system for the other unknowns. -/
theorem mulVec_eq_iff (h : Clears s pivot row multipliers below) (b x : Fin (n + 1) → K) :
    s.toMatrix *ᵥ x = b ↔
      pivot * x 0 + ∑ j, row.entry j * x j.succ = b 0 ∧
        below.toMatrix *ᵥ (fun j => x j.succ) = fun i => -b 0 * multipliers.entry i + b i.succ := by
  constructor
  · intro hsystem
    have hb : ∀ i, (s.toMatrix *ᵥ x) i = b i := fun i => congrFun hsystem i
    refine ⟨h.mulVec_zero x ▸ hb 0, ?_⟩
    funext i
    have hi := h.mulVec_succ x i
    rw [hb, hb] at hi
    linear_combination -hi
  · rintro ⟨hrow, hbelow⟩
    funext i
    cases i using Fin.cases with
    | zero => rw [h.mulVec_zero, hrow]
    | succ i =>
        rw [h.mulVec_succ, h.mulVec_zero, hrow, hbelow]
        ring

end Clears

end Mat

section Pivot

variable [LinearOrder K]

/-- Choosing the larger of two again and again ends at the largest. -/
theorem le_foldl_larger {ι : Type} (size : ι → K) (best : ι) (candidate : Fin n → ι) :
    let chosen :=
  Fin.foldl n (fun best i => if size best < size (candidate i) then candidate i else best) best
    size best ≤ size chosen ∧ ∀ i, size (candidate i) ≤ size chosen := by
  induction n with
  | zero => simp
  | succ n ih =>
      obtain ⟨hbest, hbefore⟩ := ih fun i => candidate i.castSucc
      rw [Fin.foldl_succ_last]
      generalize Fin.foldl n (fun best i => if size best < size (candidate i.castSucc)
        then candidate i.castSucc else best) best = chosen at hbest hbefore
      simp only [Fin.forall_fin_succ']
      split
      · rename_i hlarger
        exact ⟨hbest.trans hlarger.le, fun i => (hbefore i).trans hlarger.le, le_rfl⟩
      · rename_i hlarger
        exact ⟨hbest, hbefore, not_lt.mp hlarger⟩

variable [Field K] [ScalarFunctions K] [ExactScalars K]

theorem abs_entry_le_pivotIndex (column : Vec K (n + 1)) (i : Fin (n + 1)) :
    |column.entry i| ≤ |column.entry (pivotIndex column)| := by
  simp only [← ExactScalars.abs_eq]
  obtain ⟨hfirst, hrest⟩ :=
    le_foldl_larger (fun i => ScalarFunctions.abs (column.entry i)) 0 (Fin.succ (n := n))
  cases i using Fin.cases with
  | zero => exact hfirst
  | succ i => exact hrest i

variable [IsStrictOrderedRing K]

/-- A column whose pivot is zero is zero. -/
theorem entry_eq_zero_of_pivot_eq_zero {column : Vec K (n + 1)}
    (h : column.entry (pivotIndex column) = 0) (i : Fin (n + 1)) : column.entry i = 0 := by
  have hle := abs_entry_le_pivotIndex column i
  rw [h, abs_zero] at hle
  exact abs_nonpos_iff.mp hle

end Pivot

section Solve

variable [Field K]

theorem foldr_neg_mul_add (x row : Fin n → K) (first : K) :
    Fin.foldr n (fun j sum => -x j * row j + sum) first = first - ∑ j, row j * x j := by
  induction n with
  | zero => simp
  | succ n ih =>
      rw [Fin.foldr_succ, ih (fun j => x j.succ) (fun j => row j.succ), Fin.sum_univ_succ]
      ring

/-- A step solves the equation of its row, and its rest solves the smaller system. -/
theorem eq_solve_step_iff (p : Fin (n + 1)) {pivot : K} (hne : pivot ≠ 0)
    (row multipliers : Vec K n)
    (rest : Factorisation K n) (b c : Vec K (n + 1)) (hc : Vec.swapFirst b p = c)
    (x : Fin (n + 1) → K) :
    x = ((Factorisation.step p pivot row multipliers rest).solve b).entry ↔
      pivot * x 0 + ∑ j, row.entry j * x j.succ = c.entry 0 ∧
        (fun j => x j.succ) =
          (rest.solve (Vector.ofFn fun i => -c.entry 0 * multipliers.entry i +
            c.entry i.succ)).entry := by
  set xs :=
    rest.solve (Vector.ofFn fun i => -c.entry 0 * multipliers.entry i + c.entry i.succ) with hxs
  have hsolve : (Factorisation.step p pivot row multipliers rest).solve b =
      Vec.cons ((c.entry 0 - ∑ j, row.entry j * xs.entry j) / pivot) xs := by
    rw [← foldr_neg_mul_add, hxs, ← hc]
    rfl
  rw [hsolve]
  constructor
  · intro hx
    have hrest : ∀ j : Fin n, x j.succ = xs.entry j := by
      intro j
      rw [hx, Vec.entry_cons_succ]
    refine ⟨?_, funext hrest⟩
    simp only [hrest]
    rw [hx, Vec.entry_cons_zero, mul_div_cancel₀ _ hne]
    ring
  · rintro ⟨hrow, hrest⟩
    funext i
    cases i using Fin.cases with
    | zero =>
        rw [Vec.entry_cons_zero, eq_div_iff hne, ← hrow, ← hrest]
        ring
    | succ i => rw [Vec.entry_cons_succ, ← hrest]

variable [LinearOrder K] [BEq K] [ScalarFunctions K]

/-- What elimination does with a matrix: it fails on a column without a pivot, or clears it and goes
on with what is left. -/
theorem factorise?_succ [LawfulBEq K] (a : Mat K (n + 1) (n + 1)) :
    let p := pivotIndex (a.column 0)
    a.entry p 0 = 0 ∧ factorise? a = none ∨
      ∃ row multipliers below, Mat.Clears (Vec.swapFirst a p) (a.entry p 0) row multipliers below ∧
        factorise? a = (factorise? below).map (.step p (a.entry p 0) row multipliers) := by
  intro p
  by_cases hpivot : a.entry p 0 = 0
  · exact .inl ⟨hpivot, if_pos (beq_iff_eq.mpr hpivot)⟩
  · refine .inr ⟨_, _, _, ⟨a.entry_swapFirst_zero p 0, hpivot, ?_, ?_, ?_⟩,
      if_neg (by simpa using hpivot)⟩
    · exact fun j => Vec.entry_ofFn _ j
    · exact fun i => Vec.entry_ofFn _ i
    · exact fun i j => Mat.entry_ofFn _ i j

variable [LawfulBEq K]

/-- A factorised matrix has exactly one solution for each right-hand side. -/
theorem mulVec_eq_iff_of_factorise? {a : Mat K n n} {f : Factorisation K n}
    (h : factorise? a = some f)
    (b : Vec K n) (x : Fin n → K) : a.toMatrix *ᵥ x = b.entry ↔ x = (f.solve b).entry := by
  induction n with
  | zero => simp [eq_iff_true_of_subsingleton]
  | succ n ih =>
      rcases factorise?_succ a with ⟨-, hnone⟩ | ⟨row, multipliers, below, hclears, hstep⟩
      · rw [hnone] at h
        cases h
      · rw [hstep] at h
        obtain ⟨rest, hrest, rfl⟩ := Option.map_eq_some_iff.mp h
        rw [eq_solve_step_iff _ hclears.pivot_ne_zero _ _ _ b _ rfl, ← ih hrest,
          ← Mat.mulVec_swapFirst_iff a _, ← Vec.entry_swapFirst, hclears.mulVec_eq_iff]
        simp only [Vec.entry_ofFn_eq]

variable [ExactScalars K] [IsStrictOrderedRing K]

/-- Elimination fails on a matrix that maps some non-zero vector to zero. -/
theorem exists_mulVec_eq_zero_of_factorise?_eq_none {a : Mat K n n} (h : factorise? a = none) :
    ∃ x : Fin n → K, x ≠ 0 ∧ a.toMatrix *ᵥ x = 0 := by
  induction n with
  | zero => cases h
  | succ n ih =>
      rcases factorise?_succ a with ⟨hzero, -⟩ | ⟨row, multipliers, below, hclears, hstep⟩
      · -- the column of the first unknown is zero, so this unknown can be anything
        have hcolumn : ∀ i, a.entry i 0 = 0 := by
          have hpivot : (a.column 0).entry (pivotIndex (a.column 0)) = 0 := by
            simpa [Mat.column] using hzero
          simpa [Mat.column] using entry_eq_zero_of_pivot_eq_zero hpivot
        refine ⟨Pi.single 0 1, by simp, ?_⟩
        rw [Matrix.mulVec_single_one]
        funext i
        exact hcolumn i
      · rw [hstep] at h
        obtain ⟨xs, hxs, hbelow⟩ := ih (Option.map_eq_none_iff.mp h)
        set pivot := a.entry (pivotIndex (a.column 0)) 0
        -- the first unknown is the one that the equation of the pivot row asks for
        refine ⟨Fin.cons (-(∑ j, row.entry j * xs j) / pivot) xs, ?_, ?_⟩
        · intro hx
          exact hxs (funext fun i => congrFun hx i.succ)
        · rw [← Mat.mulVec_swapFirst_iff a _, hclears.mulVec_eq_iff]
          simp only [Fin.cons_zero, Fin.cons_succ, Function.comp_apply, Pi.zero_apply,
            mul_div_cancel₀ _ hclears.pivot_ne_zero]
          refine ⟨by ring, ?_⟩
          rw [hbelow]
          funext i
          simp

/-- Elimination fails exactly on the matrices without an inverse. -/
theorem factorise?_eq_none_iff (a : Mat K n n) : factorise? a = none ↔ a.toMatrix.det = 0 := by
  constructor
  · intro h
    obtain ⟨x, hx, hzero⟩ := exists_mulVec_eq_zero_of_factorise?_eq_none h
    exact Matrix.exists_mulVec_eq_zero_iff.mp ⟨x, hx, hzero⟩
  · intro hdet
    obtain ⟨x, hx, hzero⟩ := Matrix.exists_mulVec_eq_zero_iff.mpr hdet
    by_contra hsome
    obtain ⟨f, hf⟩ := Option.ne_none_iff_exists'.mp hsome
    have hunique := mulVec_eq_iff_of_factorise? hf (Vector.ofFn 0)
    rw [Vec.entry_ofFn_eq] at hunique
    exact hx (((hunique x).mp hzero).trans ((hunique 0).mp (Matrix.mulVec_zero _)).symm)

theorem solve?_eq_none_iff (a : Mat K n n) (b : Vec K n) :
    solve? a b = none ↔ a.toMatrix.det = 0 := by
  rw [solve?, Option.map_eq_none_iff, factorise?_eq_none_iff]

/-- Elimination finds exactly the solutions of systems whose matrix has an inverse. -/
theorem solve?_eq_some_iff (a : Mat K n n) (b x : Vec K n) :
    solve? a b = some x ↔ a.toMatrix.det ≠ 0 ∧ a.toMatrix *ᵥ x.entry = b.entry := by
  rw [Ne, ← factorise?_eq_none_iff a, solve?, Option.map_eq_some_iff]
  constructor
  · rintro ⟨f, hf, rfl⟩
    exact ⟨by simp [hf], (mulVec_eq_iff_of_factorise? hf b _).mpr rfl⟩
  · rintro ⟨hsome, hsolves⟩
    obtain ⟨f, hf⟩ := Option.ne_none_iff_exists'.mp hsome
    have hentry := (mulVec_eq_iff_of_factorise? hf b _).mp hsolves
    exact ⟨f, hf, Vec.ext_entry fun i => (congrFun hentry i).symm⟩

end Solve

end Constitutive.Numeric
