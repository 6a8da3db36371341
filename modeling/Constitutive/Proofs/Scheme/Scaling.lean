import Constitutive.Proofs.Code.Matrix

/-!
# What a scaling statement does

The code that scales a block is a loop for each of its array indices, and in them a multiplication
of the view that has the name of the block (`scaleBlock?_eq`).  If that name means the view on the
block, the array sizes fit into 16 bits and the scale has one value throughout, the statement runs,
and it multiplies each cell of the block once (`runs_code_iff`, `scaleAll_scalesOn`).

## Strategy

Every step of a run multiplies the cells of some region by a number and leaves the others as they
are (`ScalesOn`).  If the regions of several steps have no cell in common, no cell is multiplied
twice (`foldl_scalesOn`).  The regions of the elements of a block are such, and together they are
the block.
-/

namespace Constitutive

variable {K : Type} [Field K]

/-- The cells of a region are multiplied by a number, once, and no others change. -/
def ScalesOn (region : Nat → Nat → Prop) (k : K) (before after : Cells K) : Prop :=
  ∀ row column, (region row column → after row column = before row column * k) ∧
    (¬ region row column → after row column = before row column)

theorem Cells.scalesOn_scale (row rows column columns : Nat) (k : K) (cells : Cells K) :
    ScalesOn (fun i j => (row ≤ i ∧ i < row + rows) ∧ column ≤ j ∧ j < column + columns) k cells
      (cells.scale row rows column columns k) :=
  fun _ _ => ⟨fun hin => if_pos hin, fun hout => if_neg hout⟩

theorem ScalesOn.congr {region region' : Nat → Nat → Prop} {k : K} {before after : Cells K}
    (h : ScalesOn region k before after)
    (hregion : ∀ row column, region' row column ↔ region row column) :
    ScalesOn region' k before after :=
  fun row column => ⟨fun hin => (h row column).1 ((hregion row column).mp hin),
    fun hout => (h row column).2 fun hin => hout ((hregion row column).mpr hin)⟩

/-- Steps on regions without a common cell multiply each cell at most once. -/
theorem foldl_scalesOn {α : Type} {step : Cells K → α → Cells K} {region : α → Nat → Nat → Prop}
    {k : α → K} {xs : List α}
    (hstep : ∀ x ∈ xs, ∀ cells, ScalesOn (region x) (k x) cells (step cells x))
    (hdisjoint : xs.Pairwise fun x y => ∀ row column, region x row column → ¬ region y row column)
    (cells : Cells K) (row column : Nat) :
    (∀ x ∈ xs, region x row column → xs.foldl step cells row column = cells row column * k x) ∧
      ((∀ x ∈ xs, ¬ region x row column) → xs.foldl step cells row column = cells row column) := by
  induction xs generalizing cells with
  | nil => exact ⟨fun _ hx => absurd hx List.not_mem_nil, fun _ => rfl⟩
  | cons x rest ih =>
      obtain ⟨hfirst, hrest⟩ := List.pairwise_cons.mp hdisjoint
      obtain ⟨hin, hout⟩ := hstep x (List.mem_cons_self ..) cells row column
      obtain ⟨ihin, ihout⟩ :=
        ih (fun y hy => hstep y (List.mem_cons_of_mem _ hy)) hrest (step cells x)
      rw [List.foldl_cons]
      refine ⟨fun y hy hregion => ?_, fun hnone => ?_⟩
      · rcases List.mem_cons.mp hy with rfl | hy
        · -- the first step changes the cell, the others do not
          rw [ihout fun z hz => hfirst z hz row column hregion, hin hregion]
        · rw [ihin y hy hregion, hout fun hx => hfirst y hy row column hx hregion]
      · rw [ihout fun z hz => hnone z (List.mem_cons_of_mem _ hz),
          hout (hnone x (List.mem_cons_self ..))]

/-- A loop whose iterations have no cell in common. -/
theorem foldl_range_scalesOn {step : Cells K → Nat → Cells K} {region : Nat → Nat → Nat → Prop}
    {k : K} {bound : Nat} (hstep : ∀ i < bound, ∀ cells, ScalesOn (region i) k cells (step cells i))
    (hdisjoint : ∀ i j row column, region i row column → region j row column → i = j)
    (cells : Cells K) :
    ScalesOn (fun row column => ∃ i < bound, region i row column) k cells
      ((List.range bound).foldl step cells) := by
  have hpairwise : (List.range bound).Pairwise fun i j => ∀ row column, region i row column →
      ¬ region j row column :=
    List.nodup_range.imp fun hne row column hi hj => hne (hdisjoint _ _ row column hi hj)
  intro row column
  obtain ⟨hin, hout⟩ := foldl_scalesOn (k := fun _ => k)
    (fun i hi => hstep i (List.mem_range.mp hi)) hpairwise cells row column
  refine ⟨?_, fun hnone => hout fun i hi hregion => hnone ⟨i, List.mem_range.mp hi, hregion⟩⟩
  rintro ⟨i, hi, hregion⟩
  exact hin i (List.mem_range.mpr hi) hregion

/-! ## Elements of slots and blocks -/

/-- An index of some component of an element. -/
def Slot.InElement (slot : Slot) (element i : Nat) : Prop :=
  ∃ component < slot.components, slot.index element component = i

theorem Slot.contains_iff_exists_inElement {slot : Slot} {i : Nat} :
    slot.Contains i ↔ ∃ element < slot.arraySize, slot.InElement element i := by
  constructor
  · exact exists_index_of_contains
  · rintro ⟨element, helement, component, hcomponent, rfl⟩
    exact slot.contains_index helement hcomponent

theorem Slot.inElement_unique {slot : Slot} {element element' i : Nat}
    (h : slot.InElement element i) (h' : slot.InElement element' i) : element = element' := by
  obtain ⟨component, hcomponent, rfl⟩ := h
  obtain ⟨component', hcomponent', heq⟩ := h'
  exact (index_inj hcomponent' hcomponent heq).1.symm

theorem Slot.inElement_iff_le {slot : Slot} {element i : Nat} :
    slot.InElement element i ↔ slot.index element 0 ≤ i ∧ i < slot.index element 0 +
      slot.components := by
  unfold InElement index
  constructor
  · rintro ⟨component, hcomponent, rfl⟩
    omega
  · rintro ⟨hstart, hstop⟩
    exact ⟨i - (slot.offset + element * slot.components), by omega, by omega⟩

namespace Derivative

variable {d : Derivative}

/-- The cells of the block. -/
def Covers (d : Derivative) (row column : Nat) : Prop :=
  d.residual.Contains row ∧ d.unknown.Contains column

/-- The cells of the block that belong to an element of the residual and one of the unknown. -/
def CoversElement (d : Derivative) (i j row column : Nat) : Prop :=
  d.residual.InElement i row ∧ d.unknown.InElement j column

theorem covers_iff_exists_coversElement {row column : Nat} :
    d.Covers row column ↔
      ∃ i < d.residual.arraySize, ∃ j < d.unknown.arraySize, d.CoversElement i j row column := by
  unfold Covers CoversElement
  rw [Slot.contains_iff_exists_inElement, Slot.contains_iff_exists_inElement]
  constructor
  · rintro ⟨⟨i, hi, hrow⟩, j, hj, hcolumn⟩
    exact ⟨i, hi, j, hj, hrow, hcolumn⟩
  · rintro ⟨i, hi, j, hj, hrow, hcolumn⟩
    exact ⟨⟨i, hi, hrow⟩, j, hj, hcolumn⟩

/-- The loops over the array indices of the block, from the outside in. -/
def loops (d : Derivative) : List (String × Nat) :=
  match d.indexing with
  | .none => []
  | .residual size | .unknown size => [("idx", size)]
  | .both residual unknown => [("idx", residual), ("idx2", unknown)]

/-- The loops bind what the accessor of the block is a function of, in the same order. -/
theorem map_fst_loops (d : Derivative) : d.loops.map (·.1) = d.parameters := by
  unfold loops parameters
  cases d.indexing <;> rfl

/-- Each loop goes through all elements of the variable that its index belongs to. -/
theorem map_snd_loops (d : Derivative) :
    d.loops.map (·.2) = d.arguments d.residual.arraySize d.unknown.arraySize := by
  unfold loops arguments indexing
  cases d.residual.isArray <;> cases d.unknown.isArray <;> rfl

theorem scaleView_scalesOn (hsized : d.Sized) (k : K) {env : String → Nat} {i j : Nat}
    (henv : d.parameters.map env = d.arguments i j) (hi : i < d.residual.arraySize)
    (hj : j < d.unknown.arraySize)
    (cells : Cells K) : ScalesOn (d.CoversElement i j) k cells (d.scaleView k env cells) := by
  refine (Cells.scalesOn_scale _ _ _ _ k cells).congr fun row column => ?_
  rw [valueIn_rowIndex hsized henv hi, valueIn_columnIndex hsized henv hj]
  exact and_congr Slot.inElement_iff_le Slot.inElement_iff_le

end Derivative

/-! ## Running loops -/

/-- Runs a body in nested loops, given from the outside in. -/
def runLoops (body : (String → Nat) → Cells K → Cells K) :
    List (String × Nat) → (String → Nat) → Cells K → Cells K
  | [], env, cells => body env cells
  | (index, bound) :: rest, env, cells =>
    (List.range bound).foldl
      (fun cells i => runLoops body rest (Function.update env index i) cells) cells

/-- The indices as numbers.  Names that are not bound count as zero. -/
def numbered (env : String → Option UInt16) (name : String) : Nat :=
  ((env name).map UInt16.toNat).getD 0

theorem numbered_update (env : String → Option UInt16) (index : String) {k : Nat}
    (hk : k < UInt16.size) :
    numbered (Function.update env index (some (.ofNat k))) =
      Function.update (numbered env) index k := by
  funext name
  by_cases hname : name = index
  · subst hname
    rw [numbered, Function.update_self, Function.update_self, Option.map_some, Option.getD_some,
      toNat_ofNat, Nat.mod_eq_of_lt hk]
  · rw [numbered, Function.update_of_ne hname, Function.update_of_ne hname, numbered]

/-- Names that are bound can be passed as arguments. -/
theorem exists_arguments {env : String → Option UInt16} {indices : List String}
    (hbound : ∀ index ∈ indices, (env index).isSome) :
    ∃ arguments, indices.mapM env = some arguments ∧
      arguments.map UInt16.toNat = indices.map (numbered env) := by
  induction indices with
  | nil => exact ⟨[], rfl, rfl⟩
  | cons index rest ih =>
      obtain ⟨hindex, hrest⟩ := List.forall_mem_cons.mp hbound
      obtain ⟨i, hi⟩ := Option.isSome_iff_exists.mp hindex
      obtain ⟨arguments, harguments, hnumbers⟩ := ih hrest
      refine ⟨i :: arguments, ?_, ?_⟩
      · rw [List.mapM_cons, hi, harguments]
        rfl
      · rw [List.map_cons, List.map_cons, hnumbers, numbered, hi, Option.map_some, Option.getD_some]

namespace MatrixCode

variable {scope : MatrixScope K} {before after : Cells K}

/-- Code in nested loops, given from the outside in. -/
def nest (loops : List (String × Nat)) (body : MatrixCode) : MatrixCode :=
  loops.foldr (fun entry body => loop entry.1 (toString entry.2) body) body

/-- Loops run as on numbers if all bounds fit and all indices of the view are bound. -/
theorem runs_nest_iff {view : String} {indices : List String} {scale : Scale} {d : Derivative}
    {k : Quantity K} (hview : scope.view? view = some d)
    (hvalue : ∀ env cells, scale.value? Int.cast (scope.evaluate env cells) = some k)
    (hcount : indices.length = d.parameters.length) {loops : List (String × Nat)}
    (hfits : ∀ entry ∈ loops, entry.2 < UInt16.size) {env : String → Option UInt16}
    (hbound : ∀ index ∈ indices, index ∈ loops.map (·.1) ∨ (env index).isSome) :
    Runs scope (nest loops (multiply view indices scale)) env before after ↔
      after = runLoops (fun env => d.scaleView (k.toReal Int.cast) (d.bind (indices.map env))) loops
        (numbered env) before := by
  induction loops generalizing env before after with
  | nil =>
      have hall : ∀ index ∈ indices, (env index).isSome := fun index hindex =>
        (hbound index hindex).resolve_left List.not_mem_nil
      obtain ⟨arguments, harguments, hnumbers⟩ := exists_arguments hall
      have hlength : arguments.length = d.parameters.length := by
        rw [← hcount, ← List.length_map UInt16.toNat, hnumbers, List.length_map]
      refine (runs_multiply_iff hview harguments hlength (hvalue env before)).trans ?_
      rw [hnumbers]
      rfl
  | cons entry rest ih =>
      obtain ⟨index, bound⟩ := entry
      obtain ⟨hentry, hrest⟩ := List.forall_mem_cons.mp hfits
      have hnumber : Line.value? scope.constants [.text (toString bound)] = some bound :=
        value?_number _ _
      refine runs_loop_iff hnumber hentry fun i hi before after => ?_
      rw [← numbered_update env index (Nat.lt_trans hi hentry)]
      refine ih hrest fun name hname => ?_
      -- the index of this loop is bound now
      by_cases hsame : name = index
      · subst hsame
        exact Or.inr (by rw [Function.update_self]; rfl)
      · rw [Function.update_of_ne hsame]
        exact (hbound name hname).imp_left fun hmem =>
          (List.mem_cons.mp hmem).resolve_left hsame

/-- Statements that have one outcome each have one outcome together. -/
theorem runsAll_map_iff {α : Type} {code : α → MatrixCode} {step : Cells K → α → Cells K}
    {xs : List α} (hcode : ∀ x ∈ xs, ∀ before after,
      Runs scope (code x) (fun _ => none) before after ↔ after = step before x) :
    RunsAll scope (xs.map code) before after ↔ after = xs.foldl step before := by
  induction xs generalizing before with
  | nil => rfl
  | cons x rest ih =>
      obtain ⟨hx, hrest⟩ := List.forall_mem_cons.mp hcode
      simp only [List.map_cons, RunsAll, hx, exists_eq_left, ih hrest, List.foldl_cons]

end MatrixCode

/-! ## Scaling statements -/

namespace Derivative

variable {d : Derivative}

/-- The statement that scales a block. -/
def code (d : Derivative) (scale : Scale) : MatrixCode :=
  .nest d.loops (.multiply d.name d.parameters scale)

/-- Multiplies all cells of a block, element by element. -/
def scaleAll (d : Derivative) (k : K) (cells : Cells K) : Cells K :=
  runLoops (fun env => d.scaleView k (d.bind (d.parameters.map env))) d.loops (fun _ => 0) cells

theorem target?_code (d : Derivative) (scale : Scale) : (d.code scale).target? = some d.name := by
  unfold code MatrixCode.nest
  induction d.loops with
  | nil => rfl
  | cons entry rest ih => exact ih

/-- The loops over a block reach each pair of elements once. -/
theorem scaleAll_scalesOn (hsized : d.Sized) (k : K) (cells : Cells K) :
    ScalesOn d.Covers k cells (d.scaleAll k cells) := by
  have hrows : ∀ {i i' j j' row column}, d.CoversElement i j row column →
      d.CoversElement i' j' row column → i = i' := fun h h' => Slot.inElement_unique h.1 h'.1
  have hcolumns : ∀ {i i' j j' row column}, d.CoversElement i j row column →
      d.CoversElement i' j' row column → j = j' := fun h h' => Slot.inElement_unique h.2 h'.2
  have hview : ∀ {env : String → Nat} {i j}, d.parameters.map env = d.arguments i j →
      i < d.residual.arraySize → j < d.unknown.arraySize → ∀ cells,
        ScalesOn (d.CoversElement i j) k cells
          (d.scaleView k (d.bind (d.parameters.map env)) cells) := by
    intro env i j henv hi hj
    refine scaleView_scalesOn hsized k ?_ hi hj
    rw [map_bind (List.length_map _), henv]
  unfold scaleAll loops
  unfold arguments at hview
  have hparameters : d.parameters = d.loops.map (·.1) := d.map_fst_loops.symm
  unfold loops at hparameters
  obtain ⟨h, hr, hu⟩ | ⟨h, hu⟩ | ⟨h, hr⟩ | h := indexing_cases hsized
  · rw [h] at hview hparameters ⊢
    refine (hview (i := 0) (j := 0) (by simp [hparameters]) (by omega) (by omega) cells).congr
      fun row column => ?_
    rw [covers_iff_exists_coversElement, hr, hu]
    simp
  · rw [h] at hview hparameters ⊢
    refine (foldl_range_scalesOn (fun i hi cells =>
      hview (i := i) (j := 0) (by simp [hparameters]) hi (by omega) cells)
      (fun _ _ _ _ => hrows) cells).congr fun row column => ?_
    rw [covers_iff_exists_coversElement, hu]
    simp
  · rw [h] at hview hparameters ⊢
    refine (foldl_range_scalesOn (fun j hj cells =>
      hview (i := 0) (j := j) (by simp [hparameters]) (by omega) hj cells)
      (fun _ _ _ _ => hcolumns) cells).congr fun row column => ?_
    rw [covers_iff_exists_coversElement, hr]
    simp
  · rw [h] at hview hparameters ⊢
    -- the inner loop scales all elements of the unknown at one element of the residual
    refine (foldl_range_scalesOn (fun i hi cells =>
      foldl_range_scalesOn (fun j hj cells =>
        hview (i := i) (j := j) (by simp [hparameters]) hi hj cells)
        (fun _ _ _ _ => hcolumns) cells) ?_ cells).congr
      fun row column => covers_iff_exists_coversElement
    rintro i i' row column ⟨j, -, hj⟩ ⟨j', -, hj'⟩
    exact hrows hj hj'

theorem lt_of_mem_loops {bound : Nat} (hresidual : d.residual.arraySize < bound)
    (hunknown : d.unknown.arraySize < bound) : ∀ entry ∈ d.loops, entry.2 < bound := by
  have hbounds : ∀ size ∈ d.loops.map (·.2), size < bound := by
    rw [map_snd_loops]
    unfold arguments
    cases d.indexing with
    | none => simp
    | residual size => simpa using hresidual
    | unknown size => simpa using hunknown
    | both residual unknown => simpa using ⟨hresidual, hunknown⟩
  exact List.forall_mem_map.mp hbounds

/-- Where its name means the view on the block, the statement has one outcome: all cells of the
block are multiplied by the scale. -/
theorem runs_code_iff {scope : MatrixScope K} {scale : Scale} {k : Quantity K}
    (hview : scope.view? d.name = some d)
    (hvalue : ∀ env cells, scale.value? Int.cast (scope.evaluate env cells) = some k)
    (hfits : ∀ entry ∈ d.loops, entry.2 < UInt16.size) {before after : Cells K} :
    MatrixCode.Runs scope (d.code scale) (fun _ => none) before after ↔
      after = d.scaleAll (k.toReal Int.cast) before := by
  refine MatrixCode.runs_nest_iff hview hvalue rfl hfits fun index hindex => Or.inl ?_
  rwa [map_fst_loops]

end Derivative

/-- A block that is scaled, with its scale. -/
structure BlockScaling where
  block : Derivative
  scale : Scale
  deriving DecidableEq

/-- The statement. -/
def BlockScaling.code (scaling : BlockScaling) : MatrixCode :=
  scaling.block.code scaling.scale

namespace Factors

/-- The statement that scales a block, if there are factors. -/
def blockScaling? (factors : Factors) (d : Derivative) : Option BlockScaling :=
  (factors.jacobianScale? d.residual.name d.unknown.name).map (⟨d, ·⟩)

theorem scaleBlock?_eq (factors : Factors) (d : Derivative) :
    factors.scaleBlock? d = (factors.blockScaling? d).map fun scaling => scaling.code.line := by
  unfold scaleBlock? blockScaling?
  rw [Option.map_map]
  refine congrArg (Option.map · _) (funext fun scale => ?_)
  show _ = (d.code scale).line
  unfold Derivative.code Derivative.loops Derivative.parameters
  cases d.indexing <;> rfl

/-- The value of a factor as a real number; one that is absent counts as one. -/
def valueOf (factors : Factors) (value : String → Option (Quantity K)) (name : String)
    (side : Side) : K :=
  ((factors.quantity? value name side).map (·.toReal Int.cast)).getD 1

theorem valueOf_of_none {factors : Factors} {value : String → Option (Quantity K)} {name : String}
    {side : Side} (h : factors.get? name side = none) : factors.valueOf value name side = 1 := by
  rw [valueOf, quantity?, h]
  rfl

/-- The number by which the derivative of one variable with respect to another is to be
multiplied. -/
def jacobianFactor (factors : Factors) (value : String → Option (Quantity K))
    (residual unknown : String) : K :=
  factors.valueOf value unknown .unknown / factors.valueOf value residual .residual

/-- The factors of a derivative have values, not both of them whole and the divisor not zero, so
that code divides them as numbers are divided. -/
def Divides (factors : Factors) (value : String → Option (Quantity K)) (residual unknown : String) :
    Prop :=
  ∃ s r, factors.quantity? value unknown .unknown = some s ∧
    factors.quantity? value residual .residual = some r ∧
    (s.isWhole && r.isWhole) = false ∧ r.toReal Int.cast ≠ (0 : K)

theorem jacobianScale?_eq_none_iff {factors : Factors} {residual unknown : String} :
    factors.jacobianScale? residual unknown = none ↔
      factors.get? unknown .unknown = none ∧ factors.get? residual .residual = none := by
  unfold jacobianScale?
  cases factors.get? unknown .unknown with
  | none => cases factors.get? residual .residual <;> simp [Scale.of?]
  | some s => cases factors.get? residual .residual <;> simp [Scale.of?]

/-- The value of a scale depends on the values of its factors only. -/
theorem value?_congr {factors : Factors} {value value' : String → Option (Quantity K)}
    (h : ∀ name side s, factors.get? name side = some s → value s = value' s)
    {residual unknown : String} {scale : Scale}
    (hscale : factors.jacobianScale? residual unknown = some scale) :
    scale.value? Int.cast value = scale.value? Int.cast value' := by
  unfold jacobianScale? at hscale
  cases hs : factors.get? unknown .unknown with
  | none =>
      cases hr : factors.get? residual .residual with
      | none =>
          rw [hs, hr] at hscale
          cases hscale
      | some r =>
          rw [hs, hr] at hscale
          obtain rfl := Option.some.inj hscale
          simp only [Scale.value?, h _ _ _ hr]
  | some s =>
      cases hr : factors.get? residual .residual with
      | none =>
          rw [hs, hr] at hscale
          obtain rfl := Option.some.inj hscale
          exact h _ _ _ hs
      | some r =>
          rw [hs, hr] at hscale
          obtain rfl := Option.some.inj hscale
          simp only [Scale.value?, h _ _ _ hs, h _ _ _ hr]

/-- There is a scale exactly if there is a factor, and its value is the quotient of the factors. -/
theorem jacobianScale?_cases {factors : Factors} {value : String → Option (Quantity K)}
    {residual unknown : String} (h : factors.Divides value residual unknown) :
    (∃ scale k, factors.jacobianScale? residual unknown = some scale ∧
        ((factors.get? unknown .unknown).isSome ∨ (factors.get? residual .residual).isSome) ∧
        scale.value? Int.cast value = some k ∧
        k.toReal Int.cast = factors.jacobianFactor value residual unknown) ∨
      factors.jacobianScale? residual unknown = none ∧
        factors.get? unknown .unknown = none ∧ factors.get? residual .residual = none := by
  obtain ⟨s, r, hs, hr, hreal, -⟩ := h
  have hfactor : factors.jacobianFactor value residual unknown =
      s.toReal Int.cast / r.toReal Int.cast := by
    rw [jacobianFactor, valueOf, valueOf, hs, hr]
    rfl
  have happlied : Scale.applied? Int.cast value (factors.jacobianScale? residual unknown) =
      some (factors.jacobianFactor value residual unknown) := by
    rw [hfactor]
    refine (Scale.applied?_of? div_one hs hr).trans ?_
    rw [Quantity.div?_of_real hreal]
    rfl
  cases hscale : factors.jacobianScale? residual unknown with
  | none => exact Or.inr ⟨rfl, jacobianScale?_eq_none_iff.mp hscale⟩
  | some scale =>
      rw [hscale] at happlied
      obtain ⟨k, hk, hreal⟩ := Option.map_eq_some_iff.mp happlied
      refine Or.inl ⟨scale, k, rfl, ?_, hk, hreal⟩
      by_contra hnone
      simp only [not_or, Option.not_isSome_iff_eq_none] at hnone
      rw [jacobianScale?_eq_none_iff.mpr hnone] at hscale
      cases hscale

end Factors

end Constitutive
