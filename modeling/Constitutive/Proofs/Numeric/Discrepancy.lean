import Constitutive.Proofs.Numeric.Difference
import Constitutive.Proofs.Numeric.Inverse
import Constitutive.Proofs.Unknowns.Location

/-!
# Where two matrices differ most

Two loops go through the cells of two matrices, column by column, and keep the largest difference
and its place.  Only a larger difference replaces what was found, so the place is the first of those
with the largest difference, and the place at the beginning stays if there is no difference at all.

The loops are one loop over the list of all cells (`discrepancy_eq_foldl`), and `FoundAmong` is what
holds after any part of it.  The list is in order (`pairwise_columnwise`), which makes the first
place in the list the first place in the matrix.

The difference of one block is taken by two loops of its own, over the rows of one slot and the
columns of another.  A slot of a planned layout stays inside the matrix and the slots leave nothing
out, so the largest difference of all blocks is that of the matrices (`isLargest_blockError`).
-/

namespace Constitutive.Numeric

variable {K : Type} {m n : ℕ}

/-! ## The cells in order -/

/-- The cells of a matrix, column by column. -/
def columnwise (m n : ℕ) : List (Fin m × Fin n) :=
  (List.finRange n).flatMap fun j => (List.finRange m).map fun i => (i, j)

theorem mem_columnwise (cell : Fin m × Fin n) : cell ∈ columnwise m n := by
  refine List.mem_flatMap.mpr ⟨cell.2, List.mem_finRange _, ?_⟩
  exact List.mem_map.mpr ⟨cell.1, List.mem_finRange _, rfl⟩

theorem pairwise_columnwise (m n : ℕ) :
    (columnwise m n).Pairwise fun cell later => cell.2 < later.2 ∨ cell.2 = later.2 ∧
      cell.1 < later.1 := by
  rw [columnwise, List.pairwise_flatMap]
  constructor
  · intro j hj
    rw [List.pairwise_map]
    exact (List.pairwise_lt_finRange m).imp fun hlt => Or.inr ⟨rfl, hlt⟩
  · refine (List.pairwise_lt_finRange n).imp ?_
    intro j later hlt cell hcell other hother
    obtain ⟨i, -, rfl⟩ := List.mem_map.mp hcell
    obtain ⟨i', -, rfl⟩ := List.mem_map.mp hother
    exact Or.inl hlt

section Rows

variable [Zero K] [Sub K] [LT K] [DecidableLT K] [ScalarFunctions K]

theorem discrepancy_eq_foldl (a b : Mat K m n) :
    discrepancy a b =
      (columnwise m n).foldl (fun found cell => Discrepancy.extend a b cell.2 found cell.1)
        ⟨0, 0, 0⟩ := by
  rw [discrepancy, columnwise, List.foldl_flatMap, Fin.foldl_eq_foldl_finRange]
  congr 1
  funext found j
  rw [List.foldl_map, Fin.foldl_eq_foldl_finRange]

/-- Matrices that arrive as their rows are compared as well, also if there are no rows that could
tell the number of columns. -/
theorem discrepancyOf_toRows (a b : Mat K m n) :
    discrepancyOf a.toRows b.toRows = .ok (discrepancy a b) := by
  cases m with
  | zero =>
      have hrows : ∀ c : Mat K 0 n, c.toRows = [] := fun c => by simp [Mat.toRows]
      have hcells : columnwise 0 n = [] := List.eq_nil_iff_forall_not_mem.mpr fun cell _ =>
        cell.1.elim0
      rw [hrows, hrows, discrepancy_eq_foldl, hcells]
      rfl
  | succ m =>
      rw [discrepancyOf, shapeOf_toRows]
      simp only [matOf_toRows_of_shapeOf (shapeOf_toRows _), bind, Except.bind]
      rfl

end Rows

variable [Field K] [LinearOrder K]

/-- How far two matrices are apart in one cell. -/
def gap (a b : Mat K m n) (cell : Fin m × Fin n) : K :=
  |a.entry cell.1 cell.2 - b.entry cell.1 cell.2|

/-- The largest of some numbers, and zero if there are none. -/
def IsLargest (values : Set K) (largest : K) : Prop :=
  IsGreatest values largest ∨ values = ∅ ∧ largest = 0

/-! ## What is found -/

/-- What is found among some cells: no gap is larger, and either there was none at all, or the place
is that of the first gap of this size. -/
structure FoundAmong (a b : Mat K m n) (cells : List (Fin m × Fin n)) (found : Discrepancy K) :
    Prop where
  gap_le : ∀ cell ∈ cells, gap a b cell ≤ found.value
  first : found = ⟨0, 0, 0⟩ ∨ ∃ before cell after, cells = before ++ cell :: after ∧
    found = ⟨gap a b cell, cell.1, cell.2⟩ ∧ 0 < gap a b cell ∧ ∀ earlier ∈ before,
    gap a b earlier < gap a b cell

namespace FoundAmong

variable {a b : Mat K m n} {cells : List (Fin m × Fin n)} {found : Discrepancy K}

theorem nonneg (h : FoundAmong a b cells found) : 0 ≤ found.value := by
  rcases h.first with rfl | ⟨before, cell, after, -, rfl, hpos, -⟩
  · exact le_rfl
  · exact hpos.le

theorem eq_zero (h : FoundAmong a b cells found) (hvalue : found.value = 0) :
    found = ⟨0, 0, 0⟩ := by
  rcases h.first with hnone | ⟨before, cell, after, -, rfl, hpos, -⟩
  · exact hnone
  · exact absurd hvalue hpos.ne'

/-- Among all cells in order, the first gap of its size in the list is the first in the matrix. -/
theorem exists_first (h : FoundAmong a b (columnwise m n) found) (hvalue : found.value ≠ 0) :
    ∃ cell : Fin m × Fin n, found = ⟨gap a b cell, cell.1, cell.2⟩ ∧
      ∀ other, gap a b other = gap a b cell → cell.2 < other.2 ∨ cell.2 = other.2 ∧
        cell.1 ≤ other.1 := by
  rcases h.first with rfl | ⟨before, cell, after, hcells, hfound, -, hsmaller⟩
  · exact absurd rfl hvalue
  · refine ⟨cell, hfound, ?_⟩
    intro other hgap
    have hother : other ∈ before ++ cell :: after := hcells ▸ mem_columnwise other
    have hordered := hcells ▸ pairwise_columnwise m n
    obtain ⟨hlater, -⟩ := List.pairwise_cons.mp (List.pairwise_append.mp hordered).2.1
    rcases List.mem_append.mp hother with hbefore | hother
    · exact absurd hgap (hsmaller other hbefore).ne
    · rcases List.mem_cons.mp hother with rfl | hafter
      · exact Or.inr ⟨rfl, le_rfl⟩
      · exact (hlater other hafter).imp_right fun hrow => ⟨hrow.1, hrow.2.le⟩

end FoundAmong

/-! ## Blocks -/

/-- How far two matrices are apart at two indices, and zero outside. -/
def gapAt (a b : Mat K m n) (i j : ℕ) : K :=
  if h : i < m ∧ j < n then gap a b (⟨i, h.1⟩, ⟨j, h.2⟩) else 0

/-- The largest gap in the rows of one slot and the columns of another, by loops that begin with
zero, as `compareBlock` has them in generated code. -/
def blockError (a b : Mat K m n) (r u : Slot) : K :=
  (List.range' r.offset r.size).foldl (fun error i =>
    (List.range' u.offset u.size).foldl (fun error j => max error (gapAt a b i j)) error) 0

/-- A loop stays below a bound if it begins below it and no round goes beyond it. -/
theorem foldl_le_iff {E : Type} [LE E] {step : E → ℕ → E} {bounded : ℕ → Prop} {bound : E}
    (hstep : ∀ error i, step error i ≤ bound ↔ error ≤ bound ∧ bounded i) (indices : List ℕ)
    (error : E) :
    indices.foldl step error ≤ bound ↔ error ≤ bound ∧ ∀ i ∈ indices, bounded i := by
  induction indices generalizing error with
  | nil => simp
  | cons i rest ih => rw [List.foldl_cons, ih, hstep, List.forall_mem_cons, and_assoc]

section Blocks

variable {a b : Mat K m n} {r u : Slot}

theorem blockError_le_iff {bound : K} :
    blockError a b r u ≤ bound ↔
      0 ≤ bound ∧ ∀ i, r.Contains i → ∀ j, u.Contains j → gapAt a b i j ≤ bound := by
  have hrow : ∀ error i,
      (List.range' u.offset u.size).foldl (fun error j => max error (gapAt a b i j)) error ≤ bound ↔
      error ≤ bound ∧ ∀ j ∈ List.range' u.offset u.size, gapAt a b i j ≤ bound := by
    intro error i
    apply foldl_le_iff
    intro error j
    exact max_le_iff
  rw [blockError, foldl_le_iff hrow]
  simp only [List.mem_range'_1, Slot.Contains, Slot.stop]

theorem gap_le_blockError {cell : Fin m × Fin n} (hrow : r.Contains cell.1)
    (hcolumn : u.Contains cell.2) :
    gap a b cell ≤ blockError a b r u := by
  have hgap := (blockError_le_iff.mp (le_refl (blockError a b r u))).2 _ hrow _ hcolumn
  rwa [gapAt, dif_pos ⟨cell.1.isLt, cell.2.isLt⟩] at hgap

end Blocks

/-! ## One cell after the other -/

variable [ScalarFunctions K] [ExactScalars K]

theorem Discrepancy.extend_eq (a b : Mat K m n) (found : Discrepancy K) (cell : Fin m × Fin n) :
    Discrepancy.extend a b cell.2 found cell.1 =
      if found.value < gap a b cell then ⟨gap a b cell, cell.1, cell.2⟩ else found := by
  rw [Discrepancy.extend, ExactScalars.abs_eq]
  rfl

/-- One more cell. -/
theorem FoundAmong.extend {a b : Mat K m n} {cells : List (Fin m × Fin n)} {found : Discrepancy K}
    (h : FoundAmong a b cells found) (cell : Fin m × Fin n) :
    FoundAmong a b (cells ++ [cell]) (Discrepancy.extend a b cell.2 found cell.1) := by
  rw [Discrepancy.extend_eq]
  split
  · rename_i hlarger
    -- the new cell comes after smaller gaps only
    have hsmaller : ∀ earlier ∈ cells, gap a b earlier < gap a b cell :=
      fun earlier hearlier => (h.gap_le earlier hearlier).trans_lt hlarger
    refine ⟨List.forall_mem_append.mpr ⟨fun earlier hearlier => (hsmaller earlier hearlier).le, ?_⟩,
      ?_⟩
    · exact List.forall_mem_singleton.mpr le_rfl
    · exact Or.inr ⟨cells, cell, [], rfl, rfl, h.nonneg.trans_lt hlarger, hsmaller⟩
  · rename_i hnot
    refine ⟨List.forall_mem_append.mpr ⟨h.gap_le, List.forall_mem_singleton.mpr (not_lt.mp hnot)⟩,
      ?_⟩
    rcases h.first with hnone | ⟨before, place, after, rfl, hfirst⟩
    · exact Or.inl hnone
    · exact Or.inr ⟨before, place, after ++ [cell], by simp, hfirst⟩

theorem foundAmong_foldl (a b : Mat K m n) (cells : List (Fin m × Fin n)) :
    FoundAmong a b cells
      (cells.foldl (fun found cell => Discrepancy.extend a b cell.2 found cell.1) ⟨0, 0, 0⟩) := by
  induction cells using List.reverseRecOn with
  | nil => exact ⟨fun cell hcell => absurd hcell List.not_mem_nil, Or.inl rfl⟩
  | append_singleton cells cell ih =>
      rw [List.foldl_append, List.foldl_cons, List.foldl_nil]
      exact ih.extend cell

/-! ## The largest gap -/

theorem foundAmong_discrepancy (a b : Mat K m n) :
    FoundAmong a b (columnwise m n) (discrepancy a b) := by
  rw [discrepancy_eq_foldl]
  exact foundAmong_foldl a b (columnwise m n)

theorem gap_le_discrepancy (a b : Mat K m n) (cell : Fin m × Fin n) :
    gap a b cell ≤ (discrepancy a b).value :=
  (foundAmong_discrepancy a b).gap_le cell (mem_columnwise cell)

theorem exists_gap_eq_discrepancy {a b : Mat K m n} (hvalue : (discrepancy a b).value ≠ 0) :
    ∃ cell, gap a b cell = (discrepancy a b).value := by
  obtain ⟨cell, hfound, -⟩ := (foundAmong_discrepancy a b).exists_first hvalue
  exact ⟨cell, by rw [hfound]⟩

section Ordered

variable [IsStrictOrderedRing K]

theorem isLargest_gap (a b : Mat K m n) :
    IsLargest (Set.range (gap a b)) (discrepancy a b).value := by
  rcases isEmpty_or_nonempty (Fin m × Fin n) with hempty | ⟨⟨cell⟩⟩
  · refine Or.inr ⟨Set.range_eq_empty _, ?_⟩
    by_contra hvalue
    obtain ⟨cell, -⟩ := exists_gap_eq_discrepancy hvalue
    exact hempty.elim cell
  · refine Or.inl ⟨?_, ?_⟩
    · by_cases hvalue : (discrepancy a b).value = 0
      · -- no gap is larger than zero, and so that of any cell is zero
        exact ⟨cell, le_antisymm (gap_le_discrepancy a b cell) (hvalue ▸ abs_nonneg _)⟩
      · exact exists_gap_eq_discrepancy hvalue
    · rintro _ ⟨other, rfl⟩
      exact gap_le_discrepancy a b other

theorem discrepancy_value_eq_zero_iff (a b : Mat K m n) : (discrepancy a b).value = 0 ↔ a = b := by
  constructor
  · intro hvalue
    apply Mat.ext_entry
    intro i j
    have hgap := gap_le_discrepancy a b (i, j)
    rw [hvalue] at hgap
    exact sub_eq_zero.mp (abs_nonpos_iff.mp hgap)
  · rintro rfl
    by_contra hvalue
    obtain ⟨cell, hcell⟩ := exists_gap_eq_discrepancy hvalue
    rw [gap, sub_self, abs_zero] at hcell
    exact hvalue hcell.symm

end Ordered

/-! ## The largest gap of all blocks -/

theorem blockError_le_discrepancy (a b : Mat K m n) (r u : Slot) :
    blockError a b r u ≤ (discrepancy a b).value := by
  have hnonneg := (foundAmong_discrepancy a b).nonneg
  refine blockError_le_iff.mpr ⟨hnonneg, ?_⟩
  intro i _ j _
  rw [gapAt]
  split
  · exact gap_le_discrepancy a b _
  · exact hnonneg

theorem isLargest_blockError (a b : Mat K m n) {dim : Dimension} {vars : List Variable}
    (hrows : (Layout.plan dim vars).total = m) (hcolumns : (Layout.plan dim vars).total = n) :
    IsLargest {error | ∃ r ∈ (Layout.plan dim vars).slots, ∃ u ∈ (Layout.plan dim vars).slots,
      blockError a b r u = error} (discrepancy a b).value := by
  -- no block error is larger, so it is left to find a block whose error is as large
  suffices h : (∃ r ∈ (Layout.plan dim vars).slots, ∃ u ∈ (Layout.plan dim vars).slots,
      (discrepancy a b).value ≤ blockError a b r u) ∨ (Layout.plan dim vars).slots = [] ∧
      (discrepancy a b).value = 0 by
    rcases h with ⟨r, hr, u, hu, hle⟩ | ⟨hslots, hvalue⟩
    · refine Or.inl ⟨⟨r, hr, u, hu, (blockError_le_discrepancy a b r u).antisymm hle⟩, ?_⟩
      rintro _ ⟨r, -, u, -, rfl⟩
      exact blockError_le_discrepancy a b r u
    · exact Or.inr ⟨by simp [hslots], hvalue⟩
  by_cases hvalue : (discrepancy a b).value = 0
  · rw [hvalue]
    cases hslots : (Layout.plan dim vars).slots with
    | nil => exact Or.inr ⟨rfl, rfl⟩
    | cons r rest =>
        have hnonneg := (blockError_le_iff.mp (le_refl (blockError a b r r))).1
        exact Or.inl ⟨r, List.mem_cons_self, r, List.mem_cons_self, hnonneg⟩
  · obtain ⟨cell, hcell⟩ := exists_gap_eq_discrepancy hvalue
    obtain ⟨r, hr, hrow⟩ := Layout.exists_contains_of_lt_total (cell.1.isLt.trans_eq hrows.symm)
    obtain ⟨u, hu, hcolumn⟩ :=
      Layout.exists_contains_of_lt_total (cell.2.isLt.trans_eq hcolumns.symm)
    exact Or.inl ⟨r, hr, u, hu, hcell ▸ gap_le_blockError hrow hcolumn⟩

/-- The largest gap is reported with the first place where it is, which is the first cell of all if
the matrices are the same.  It is also the largest of the gaps in the blocks of a layout. -/
theorem discrepancy_is_first_largest_gap [IsStrictOrderedRing K] (a b : Mat K m n) :
    discrepancyOf a.toRows b.toRows = .ok (discrepancy a b) ∧
      IsLargest (Set.range fun cell : Fin m × Fin n => |a.entry cell.1 cell.2 -
        b.entry cell.1 cell.2|) (discrepancy a b).value ∧
      ((discrepancy a b).value = 0 ↔ a = b) ∧
      (a = b → (discrepancy a b).row = 0 ∧ (discrepancy a b).column = 0) ∧
      (a ≠ b → ∃ i j, (discrepancy a b).row = i.val ∧ (discrepancy a b).column = j.val ∧
        |a.entry i j - b.entry i j| = (discrepancy a b).value ∧
        ∀ i' j', |a.entry i' j' - b.entry i' j'| = (discrepancy a b).value → j < j' ∨
          j = j' ∧ i ≤ i') ∧
      ∀ (dim : Dimension) (vars : List Variable), (Layout.plan dim vars).total = m →
        (Layout.plan dim vars).total = n →
        IsLargest {error | ∃ r ∈ (Layout.plan dim vars).slots, ∃ u ∈ (Layout.plan dim vars).slots,
          blockError a b r u = error} (discrepancy a b).value := by
  have hfound := foundAmong_discrepancy a b
  have hzero := discrepancy_value_eq_zero_iff a b
  refine ⟨discrepancyOf_toRows a b, isLargest_gap a b, hzero, ?_, ?_, ?_⟩
  · intro hsame
    rw [hfound.eq_zero (hzero.mpr hsame)]
    exact ⟨rfl, rfl⟩
  · intro hdiffer
    obtain ⟨cell, hplace, hfirst⟩ := hfound.exists_first (mt hzero.mp hdiffer)
    rw [hplace]
    exact ⟨cell.1, cell.2, rfl, rfl, rfl, fun i' j' hgap => hfirst (i', j') hgap⟩
  · intro dim vars hrows hcolumns
    exact isLargest_blockError a b hrows hcolumns

/-- Of two cells with the same gap, the one in the first column is reported, although it is in the
last row. -/
theorem discrepancy_is_first_largest_gap_tie :
    let a : Mat ℚ 2 2 := Mat.ofFn ![![1, 5], ![0, 2]]
    let b : Mat ℚ 2 2 := Mat.ofFn ![![1, 2], ![3, 2]]
    let layout := Layout.plan .two [⟨"p", .scalar, 1⟩, ⟨"q", .scalar, 1⟩]
    a ≠ b ∧ layout.total = 2 ∧ (discrepancy a b).value = 3 ∧ (discrepancy a b).row = 1 ∧
    (discrepancy a b).column = 0 ∧
      ∃ r ∈ layout.slots, ∃ u ∈ layout.slots, blockError a b r u = 3 := by
  intro a b layout
  have hvalue : (discrepancy a b).value = 3 := by decide +kernel
  obtain ⟨-, -, hzero, -, hfirst, hblocks⟩ := discrepancy_is_first_largest_gap a b
  have hdiffer : a ≠ b := fun hsame => absurd (hvalue.symm.trans (hzero.mpr hsame)) (by decide)
  obtain ⟨i, j, hrow, hcolumn, hgap, hplace⟩ := hfirst hdiffer
  rw [hvalue] at hgap hplace
  -- the cell at the bottom left has the same gap, and only a cell above it could come first
  obtain ⟨rfl, -⟩ := (hplace 1 0 (by decide +kernel)).resolve_left (Fin.not_lt_zero j)
  have hbottom : i = 1 := by
    fin_cases i
    · exact absurd hgap (by decide +kernel)
    · rfl
  rw [hrow, hcolumn, hbottom, hvalue]
  have htotal : layout.total = 2 := rfl
  have hlargest := hblocks .two _ htotal htotal
  rw [hvalue] at hlargest
  rcases hlargest with ⟨hblock, -⟩ | ⟨-, hnone⟩
  · exact ⟨hdiffer, htotal, rfl, rfl, rfl, hblock⟩
  · exact absurd hnone (by decide)

end Constitutive.Numeric
