import Constitutive.Numeric.Sized
import Constitutive.Proofs.Numeric.Newton

/-!
# Blocks of the inverse of a scaled matrix

The columns of the inverse are the solutions for the canonical basis vectors.  With exact
arithmetic, column `k` of the inverse of a scaled matrix, with the factors of the unknowns undone
and divided by the factor of residual `k`, is column `k` of the inverse of the matrix itself
(`entry_solve_basisVector`).  Rows of the inverse belong to unknowns and columns to residuals, the
other way round than in the matrix.

Blocks start as zeros and are filled while the basis vectors are solved for one after the other.
After `k` of them, a block holds its columns before `k` (`copyColumn_copiedBelow`), so in the end it
is the block of the matrix with these columns (`foldl_copyColumn`).

So a block that lies inside the matrix shows the entries of its inverse at its place
(`shows_mapBack_ofColumns`), and a list of blocks is answered by the first block that does not lie
inside, by the matrix being singular, or block by block.
-/

namespace Constitutive.Numeric

open Matrix

variable {K : Type} {n : ℕ}

/-! ## Places -/

/-- The index in the whole of an index in a range. -/
def Range.index (range : Range) (h : range.stop ≤ n) (i : Fin range.length) : Fin n :=
  ⟨range.start + i, by have hi := i.isLt; unfold Range.length at hi; omega⟩

namespace BlockRange

/-- No range ends before it starts. -/
structure Ordered (block : BlockRange) : Prop where
  rows : block.rows.start ≤ block.rows.stop
  columns : block.columns.start ≤ block.columns.stop

/-- The block lies inside a matrix of size `n`. -/
structure Fits (block : BlockRange) (n : ℕ) : Prop where
  rows : block.rows.stop ≤ n
  columns : block.columns.stop ≤ n

theorem fits_iff (block : BlockRange) (n : ℕ) :
    block.Fits n ↔ (decide (n < block.rows.stop) || decide (n < block.columns.stop)) = false := by
  rw [Bool.or_eq_false_iff, decide_eq_false_iff_not, decide_eq_false_iff_not, not_lt, not_lt]
  exact ⟨fun h => ⟨h.rows, h.columns⟩, fun h => ⟨h.1, h.2⟩⟩

end BlockRange

/-- The block shows the entries of a matrix at its place. -/
def ExtractedBlock.Shows (block : ExtractedBlock K) (a : Matrix (Fin n) (Fin n) K) : Prop :=
  ∃ h : block.place.Fits n, ∀ i k,
    block.entries.entry i k = a (block.place.rows.index h.rows i)
      (block.place.columns.index h.columns k)

/-! ## Filling the blocks -/

/-- What a loop over the indices ends with, from what each pass makes of what was there. -/
theorem foldl_eq_of_step {σ : Type} {step : σ → Fin n → σ} (state : ℕ → σ)
    (hstep : ∀ k : Fin n, step (state k) k = state (k + 1)) :
    Fin.foldl n step (state 0) = state n := by
  induction n with
  | zero => rfl
  | succ n ih =>
      rw [Fin.foldl_succ_last, ih fun k => hstep k.castSucc]
      exact hstep (Fin.last n)

section Filling

variable [Zero K]

theorem Vec.entryOrZero_of_lt (x : Vec K n) {i : ℕ} (h : i < n) :
    x.entryOrZero i = x.entry ⟨i, h⟩ :=
  dif_pos h

/-- The entry in a row and a column of the matrix with given columns, zero beyond them. -/
def entryAt (columns : Fin n → Vec K n) (row column : ℕ) : K :=
  if h : column < n then (columns ⟨column, h⟩).entryOrZero row else 0

theorem entryAt_val (columns : Fin n → Vec K n) (row : ℕ) (k : Fin n) :
    entryAt columns row k = (columns k).entryOrZero row :=
  dif_pos k.isLt

namespace ExtractedBlock

/-- The block of the matrix with given columns. -/
def ofColumns (columns : Fin n → Vec K n) (place : BlockRange) : ExtractedBlock K :=
  ⟨place, Mat.ofFn fun i j => entryAt columns (place.rows.start + i) (place.columns.start + j)⟩

/-- A block into which the columns before a bound have been copied. -/
def copiedBelow (columns : Fin n → Vec K n) (bound : ℕ) (place : BlockRange) : ExtractedBlock K :=
  ⟨place, Mat.ofFn fun i j =>
    if place.columns.start + j < bound then
      entryAt columns (place.rows.start + i) (place.columns.start + j)
    else 0⟩

theorem copyColumn_of_inside {place : BlockRange} {entries : Mat K place.rows.length _} {k : Fin n}
    {column : Vec K n} (hstart : place.columns.start ≤ k) (hstop : k < place.columns.stop) :
    copyColumn k column ⟨place, entries⟩ =
      ⟨place, entries.setColumn ⟨k - place.columns.start, Nat.sub_lt_sub_right hstart hstop⟩
        (Vector.ofFn fun i => column.entryOrZero (place.rows.start + i))⟩ :=
  dif_pos ⟨hstart, hstop⟩

/-- Copying one more column. -/
theorem copyColumn_copiedBelow (columns : Fin n → Vec K n) (place : BlockRange) (k : Fin n) :
    copyColumn k (columns k) (copiedBelow columns k place) =
      copiedBelow columns (k + 1) place := by
  by_cases hinside : place.columns.start ≤ k ∧ k < place.columns.stop
  · obtain ⟨hstart, hstop⟩ := hinside
    refine (copyColumn_of_inside hstart hstop).trans ?_
    refine congrArg (ExtractedBlock.mk place) (Mat.ext_entry fun i j => ?_)
    rw [Mat.setColumn, Mat.entry_ofFn, Mat.entry_ofFn, Mat.entry_ofFn, Vec.entry_ofFn]
    by_cases hj : place.columns.start + j = k
    · have hplace : j = ⟨k - place.columns.start, Nat.sub_lt_sub_right hstart hstop⟩ :=
        Fin.ext (by show j.val = k - place.columns.start; omega)
      rw [if_pos hplace, if_pos (by omega), hj, entryAt_val]
    · have hplace : j ≠ ⟨k - place.columns.start, Nat.sub_lt_sub_right hstart hstop⟩ := by
        intro h
        have hval : j.val = k - place.columns.start := congrArg Fin.val h
        omega
      rw [if_neg hplace]
      exact if_congr (by omega) rfl rfl
  · -- none of the columns of the block is this one
    refine (dif_neg hinside).trans ?_
    refine congrArg (ExtractedBlock.mk place) (Mat.ext_entry fun i j => ?_)
    have hj : j.val < place.columns.stop - place.columns.start := j.isLt
    rw [Mat.entry_ofFn, Mat.entry_ofFn]
    exact if_congr (by omega) rfl rfl

theorem copiedBelow_zero (columns : Fin n → Vec K n) : copiedBelow columns 0 = zeros := by
  funext place
  refine congrArg (ExtractedBlock.mk place) (Mat.ext_entry fun i j => ?_)
  rw [Mat.entry_ofFn, Mat.entry_ofFn, if_neg (Nat.not_lt_zero _)]

theorem copiedBelow_all (columns : Fin n → Vec K n) :
    copiedBelow columns n = ofColumns columns := by
  funext place
  refine congrArg (ExtractedBlock.mk place) (Mat.ext_entry fun i j => ?_)
  rw [Mat.entry_ofFn, Mat.entry_ofFn]
  split
  · rfl
  · rename_i hbeyond
    rw [entryAt, dif_neg hbeyond]

/-- Copying all columns, one after the other, gives the blocks of the matrix with these columns. -/
theorem foldl_copyColumn (columns : Fin n → Vec K n) (places : List BlockRange) :
    Fin.foldl n (fun outputs k => outputs.map (copyColumn k (columns k))) (places.map zeros) =
      places.map (ofColumns columns) := by
  rw [← copiedBelow_zero columns, ← copiedBelow_all]
  refine foldl_eq_of_step (fun k => places.map (copiedBelow columns k)) fun k => ?_
  rw [List.map_map]
  exact List.map_congr_left fun place _ => copyColumn_copiedBelow columns place k

end ExtractedBlock

end Filling

/-! ## Columns and blocks -/

section Field

variable [Field K]

/-- What a block inside the matrix holds. -/
theorem entry_mapBack_ofColumns (columns : Fin n → Vec K n) (scaling : Scaling K n)
    {block : BlockRange} (hfits : block.Fits n) (i : Fin block.rows.length)
    (k : Fin block.columns.length) :
    let row := block.rows.index hfits.rows i
    let column := block.columns.index hfits.columns k
    Mat.entry ((ExtractedBlock.ofColumns columns block).mapBack scaling).entries i k =
      (columns column).entry row * scaling.unknown.entry row / scaling.residual.entry column := by
  intro row column
  have hrow : block.rows.start + i < n := row.isLt
  have hcolumn : block.columns.start + k < n := column.isLt
  refine (Mat.entry_ofFn _ i k).trans ?_
  simp only [ExtractedBlock.ofColumns, Mat.entry_ofFn, entryAt, dif_pos hcolumn,
    Vec.entryOrZero_of_lt _ hrow, Vec.entryOrZero_of_lt _ hcolumn]
  rfl

variable [LinearOrder K] [IsStrictOrderedRing K] [BEq K] [LawfulBEq K] [ScalarFunctions K]
  [ExactScalars K] {scaling : Scaling K n} {j : Mat K n n} {factors : Factorisation K n}

/-- The solution for a basis vector, with the scaling undone, is a column of the inverse. -/
theorem entry_solve_basisVector (h : scaling.Regular)
    (hfactors : factorise? (scaling.scaleJacobian j) = some factors)
    (i k : Fin n) :
    (factors.solve (basisVector k)).entry i * scaling.unknown.entry i / scaling.residual.entry k =
      j.toMatrix⁻¹ i k := by
  -- the basis vector is the scaled form of the right-hand side with the factor of the residual
  set f : Vec K n := Vector.ofFn (Pi.single k (scaling.residual.entry k)) with hf
  have hscaled : scaling.scaleResidual f = basisVector k := by
    refine Vec.ext_entry fun l => ?_
    rw [Scaling.scaleResidual, Vec.entry_zipWith, hf, Vec.entry_ofFn, basisVector, Vec.entry_ofFn,
      Pi.single_apply]
    split
    · rename_i hl
      rw [hl, div_self (h.residual k)]
    · rw [zero_div]
  have hsolve : solve? (scaling.scaleJacobian j) (scaling.scaleResidual f) =
      some (factors.solve (basisVector k)) := by
    rw [solve?, hfactors, hscaled, Option.map_some]
  obtain ⟨-, hphysical⟩ := Scaling.physical_correction h hsolve
  have hi := congrFun hphysical i
  rw [Scaling.entry_physical, hf, Vec.entry_ofFn_eq, mulVec_single, Pi.smul_apply, op_smul_eq_mul,
    col_apply] at hi
  rw [hi, mul_div_cancel_right₀ _ (h.residual k)]

/-- A block inside the matrix shows the inverse. -/
theorem shows_mapBack_ofColumns (h : scaling.Regular)
    (hfactors : factorise? (scaling.scaleJacobian j) = some factors) {block : BlockRange}
    (hfits : block.Fits n) :
    ((ExtractedBlock.ofColumns (fun k => factors.solve (basisVector k)) block).mapBack
      scaling).Shows j.toMatrix⁻¹ := by
  refine ⟨hfits, ?_⟩
  intro i k
  refine (entry_mapBack_ofColumns _ scaling hfits i k).trans ?_
  exact entry_solve_basisVector h hfactors _ _

end Field

/-! ## Lists of blocks -/

section Lists

variable [Zero K] [One K] [Add K] [Mul K] [Div K] [Neg K] [LT K] [DecidableLT K] [BEq K]
  [ScalarFunctions K] {a : Mat K n n} {scaling : Scaling K n} {blocks : List BlockRange}

/-- The first block that does not lie inside the matrix is reported. -/
theorem inverseBlocks_of_exceeding {before after : List BlockRange} {block : BlockRange}
    (hbefore : ∀ b ∈ before, b.Fits n) (hblock : ¬ block.Fits n) :
    inverseBlocks a (before ++ block :: after) scaling = .error (.outOfBounds block n) := by
  have hfind : (before ++ block :: after).find?
      (fun block => n < block.rows.stop || n < block.columns.stop) = some block := by
    rw [List.find?_eq_some_iff_append]
    refine ⟨?_, before, after, rfl, ?_⟩
    · rwa [BlockRange.fits_iff, Bool.not_eq_false] at hblock
    · intro b hb
      rw [Bool.not_eq_true', ← BlockRange.fits_iff]
      exact hbefore b hb
  rw [inverseBlocks, hfind]

theorem find?_eq_none_iff_fits :
    blocks.find? (fun block => n < block.rows.stop || n < block.columns.stop) = none ↔ ∀ b ∈ blocks,
      b.Fits n := by
  simp only [List.find?_eq_none, Bool.not_eq_true, BlockRange.fits_iff]

theorem inverseBlocks_of_none (hfits : ∀ b ∈ blocks, b.Fits n) (hnone : factorise? a = none) :
    inverseBlocks a blocks scaling = .error .singular := by
  rw [inverseBlocks, find?_eq_none_iff_fits.mpr hfits, hnone]

theorem inverseBlocks_of_some (hfits : ∀ b ∈ blocks, b.Fits n) {factors : Factorisation K n}
    (hsome : factorise? a = some factors) :
    inverseBlocks a blocks scaling =
      .ok (blocks.map fun place =>
        (ExtractedBlock.ofColumns (fun k => factors.solve (basisVector k)) place).mapBack
          scaling) := by
  rw [inverseBlocks, find?_eq_none_iff_fits.mpr hfits, hsome]
  dsimp only
  rw [ExtractedBlock.foldl_copyColumn fun k => factors.solve (basisVector k), List.map_map]
  rfl

/-- Blocks are only extracted if all of them lie inside the matrix. -/
theorem fits_of_inverseBlocks_eq_ok {extracted : List (ExtractedBlock K)}
    (h : inverseBlocks a blocks scaling = .ok extracted) :
    ∀ b ∈ blocks, b.Fits n := by
  rw [inverseBlocks] at h
  split at h
  · cases h
  · rename_i hfind
    exact find?_eq_none_iff_fits.mp hfind

end Lists

section Rows

variable {m : ℕ}

theorem vecOf_toList (x : Vec K n) : vecOf n x.toList = .ok x := by
  rw [vecOf, dif_pos x.length_toList]
  simp [Vector.toList]

theorem mapM_vecOf_toRows (a : Mat K m n) : a.toRows.mapM (vecOf n) = .ok a.toList := by
  unfold Mat.toRows
  induction a.toList with
  | nil => rfl
  | cons row rest ih =>
      rw [List.map_cons, List.mapM_cons, vecOf_toList, ih]
      rfl

theorem matOf_toRows_of_shapeOf {a : Mat K m n} (hshape : shapeOf a.toRows = (m, n)) :
    matOf m n a.toRows = .ok a := by
  rw [matOf, if_pos hshape, mapM_vecOf_toRows]
  exact vecOf_toList a

/-- The rows of a matrix tell its shape, if there are any. -/
theorem shapeOf_toRows (a : Mat K (m + 1) n) : shapeOf a.toRows = (m + 1, n) := by
  simp [shapeOf, Mat.toRows, List.head?_eq_getElem?]

theorem matOf_toRows (a : Mat K n n) : matOf n n a.toRows = .ok a := by
  apply matOf_toRows_of_shapeOf
  cases n with
  | zero => simp [shapeOf, Mat.toRows, List.head?_eq_getElem?]
  | succ n => exact shapeOf_toRows a

variable [Zero K] [One K] [Add K] [Mul K] [Div K] [Neg K] [LT K] [DecidableLT K] [BEq K]
  [ScalarFunctions K]

/-- Rows of a matrix are treated as the matrix, if no range ends before it starts. -/
theorem inverseBlocksOf_toRows (a : Mat K n n) (scaling : Scaling K n) {blocks : List BlockRange}
    (hordered : ∀ b ∈ blocks, b.Ordered) :
    inverseBlocksOf a.toRows blocks scaling =
      .ok ((inverseBlocks a blocks scaling).map fun extracted => extracted.map fun block =>
        block.entries.toRows) := by
  cases hresult : inverseBlocks a blocks scaling with
  | error fault =>
      simp only [inverseBlocksOf, matOf_toRows, bind, Except.bind, hresult]
      rfl
  | ok extracted =>
      have hinside :
          ¬ (blocks.any fun b => n < b.rows.start && b.columns.start < b.columns.stop) = true := by
        rw [List.any_eq_true]
        rintro ⟨b, hb, hbeyond⟩
        rw [Bool.and_eq_true, decide_eq_true_eq] at hbeyond
        have hstart := (hordered b hb).rows
        have hstop := (fits_of_inverseBlocks_eq_ok hresult b hb).rows
        omega
      simp only [inverseBlocksOf, matOf_toRows, bind, Except.bind, hresult, if_neg hinside]
      rfl

end Rows

section Exact

variable [Field K] [LinearOrder K] [IsStrictOrderedRing K] [BEq K] [LawfulBEq K] [ScalarFunctions K]
  [ExactScalars K]

/-- Blocks asked for of a scaled matrix are those of the inverse of the matrix itself, in the order
asked for.  The first block that does not lie inside the matrix is reported instead, and then that
the matrix is singular. -/
theorem inverse_blocks_undo_scaling (j : Mat K n n) (scaling : Scaling K n)
    (hscaling : scaling.Regular) (blocks : List BlockRange) (hordered : ∀ b ∈ blocks, b.Ordered) :
    let result := inverseBlocks (scaling.scaleJacobian j) blocks scaling
    inverseBlocksOf (scaling.scaleJacobian j).toRows blocks scaling =
        .ok (result.map fun extracted => extracted.map fun block => block.entries.toRows) ∧
      (∀ before block after, blocks = before ++ block :: after → (∀ b ∈ before, b.Fits n) →
        ¬ block.Fits n →
        result = .error (.outOfBounds block n)) ∧
      ((∀ b ∈ blocks, b.Fits n) →
        (result = .error .singular ↔ j.toMatrix.det = 0) ∧
        (j.toMatrix.det ≠ 0 → ∃ extracted, result = .ok extracted ∧
            extracted.map ExtractedBlock.place = blocks ∧
          ∀ block ∈ extracted, block.Shows j.toMatrix⁻¹)) := by
  intro result
  refine ⟨inverseBlocksOf_toRows _ scaling hordered, ?_, fun hfits => ?_⟩
  · rintro before block after rfl hbefore hblock
    exact inverseBlocks_of_exceeding hbefore hblock
  · have hsingular := factorise?_eq_none_iff (scaling.scaleJacobian j)
    rw [Scaling.det_scaleJacobian_eq_zero_iff hscaling] at hsingular
    cases hfactors : factorise? (scaling.scaleJacobian j) with
    | none =>
        have hdet := hsingular.mp hfactors
        exact ⟨iff_of_true (inverseBlocks_of_none hfits hfactors) hdet, fun hne => absurd hdet hne⟩
    | some factors =>
        have hresult : result = .ok _ := inverseBlocks_of_some hfits hfactors
        have hdet : j.toMatrix.det ≠ 0 := by
          rw [Ne, ← hsingular, hfactors]
          exact Option.some_ne_none _
        refine ⟨iff_of_false (by rw [hresult]; exact nofun) hdet, fun _ => ⟨_, hresult, ?_, ?_⟩⟩
        · rw [List.map_map]
          exact List.map_id _
        · intro block hblock
          obtain ⟨place, hplace, rfl⟩ := List.mem_map.mp hblock
          exact shows_mapBack_ofColumns hscaling hfactors (hfits place hplace)

end Exact

def cyclicJacobian : Mat ℚ 3 3 := #v[#v[0, 2, 0], #v[0, 0, 5], #v[1, 0, 1]]

def cyclicScaling : Scaling ℚ 3 where
  unknown := #v[2, 1, -3]
  residual := #v[1 / 2, 7, 1]

/-- Overlapping blocks, one of them twice, and one without rows at the very end. -/
def mixedBlocks : List BlockRange :=
  [⟨⟨1, 3⟩, ⟨0, 2⟩⟩, ⟨⟨0, 2⟩, ⟨1, 3⟩⟩, ⟨⟨1, 3⟩, ⟨0, 2⟩⟩, ⟨⟨3, 3⟩, ⟨0, 3⟩⟩]

/-- The blocks are those of the inverse, and one more block that is too wide is found. -/
theorem inverse_blocks_undo_scaling_mixed :
    cyclicScaling.Regular ∧ cyclicJacobian.toMatrix.det ≠ 0 ∧
      (∃ extracted, inverseBlocks (cyclicScaling.scaleJacobian cyclicJacobian) mixedBlocks
        cyclicScaling = .ok extracted ∧
        extracted.map ExtractedBlock.place = mixedBlocks ∧ ∀ block ∈ extracted,
          block.Shows cyclicJacobian.toMatrix⁻¹) ∧
      inverseBlocks (cyclicScaling.scaleJacobian cyclicJacobian) (mixedBlocks ++ [⟨⟨0, 1⟩, ⟨3, 5⟩⟩])
        cyclicScaling =
        .error (.outOfBounds ⟨⟨0, 1⟩, ⟨3, 5⟩⟩ 3) := by
  have hregular : cyclicScaling.Regular := ⟨by decide +kernel, by decide +kernel⟩
  have hdet : cyclicJacobian.toMatrix.det ≠ 0 := by
    rw [det_fin_three]
    decide +kernel
  have hfits : ∀ b ∈ mixedBlocks, b.Fits 3 := by
    simp only [BlockRange.fits_iff]
    decide
  have hordered : ∀ b ∈ mixedBlocks ++ [⟨⟨0, 1⟩, ⟨3, 5⟩⟩], b.Ordered := by
    have hstarts : ∀ b ∈ mixedBlocks ++ [⟨⟨0, 1⟩, ⟨3, 5⟩⟩], b.rows.start ≤ b.rows.stop ∧
        b.columns.start ≤ b.columns.stop := by
      decide
    exact fun b hb => ⟨(hstarts b hb).1, (hstarts b hb).2⟩
  have hblocks := inverse_blocks_undo_scaling cyclicJacobian cyclicScaling hregular mixedBlocks
    fun b hb => hordered b (List.mem_append_left _ hb)
  have hmore := inverse_blocks_undo_scaling cyclicJacobian cyclicScaling hregular _ hordered
  refine ⟨hregular, hdet, (hblocks.2.2 hfits).2 hdet, hmore.2.1 mixedBlocks _ [] rfl hfits ?_⟩
  exact fun h => absurd h.columns (by decide)

end Constitutive.Numeric
