import Constitutive.Proofs.Faults
import Constitutive.Proofs.Scheme.Scaling
import Constitutive.Proofs.Unknowns.MadeNames
import Mathlib.Data.Matrix.Mul

/-!
# The Jacobian is normalised once

The method that evaluates the residual makes the Jacobian the identity, lets the integrator write
into the blocks that it addresses, and then scales these blocks.  The result is the Jacobian of the
normalised system: each row divided by the factor of its residual, each column multiplied by the
factor of its unknown.

This needs some things that the compiler does not check (`CleanScaling`).  The number of unknowns
has to fit into 16 bits, or the reset stops early.  The views have to have different names, or the
statements do not mean the blocks they are for.  Factors must not change while blocks are scaled,
and code has to divide them as numbers are divided, which it does not if both are whole.  Otherwise
the method does something else (`scalings_can_miss_their_blocks`).

## Strategy

Three things have to fit together.

* **No block is scaled twice.**  A pair of variables is addressed at most once, different pairs have
  no cell in common, and the loops of one statement reach each cell of its block once
  (`Derivative.scaleAll_scalesOn`).
* **No block with a factor is forgotten.**  A block that is not addressed off the diagonal still
  holds the zeros of the identity, which no scaling changes.  On the diagonal it holds ones, but
  then its variable has no factor, because the diagonal blocks of normalised variables are always
  addressed.
* **The factors of a cell are those of its block.**  Every cell lies in one block.

`Addressing` collects what is known about the derivatives of an accepted description; the rest
follows from it.
-/

namespace Constitutive

variable {K : Type} [Field K]

namespace Cells

/-- The matrix of the first rows and columns. -/
def toMatrix (n : Nat) (cells : Cells K) : Matrix (Fin n) (Fin n) K :=
  Matrix.of fun i j => cells i j

theorem toMatrix_reset (n : Nat) : (reset n : Cells K).toMatrix n = 1 := by
  ext i j
  rw [toMatrix, Matrix.of_apply, reset_apply, Matrix.one_apply]
  simp [Fin.ext_iff]

end Cells

/-- Where names are different, only one thing has a name. -/
theorem filter_eq_singleton {α β : Type} [DecidableEq β] {f : α → β} {xs : List α}
    (hnodup : (xs.map f).Nodup) {x : α} (hx : x ∈ xs) : xs.filter (f · = f x) = [x] := by
  induction xs with
  | nil => exact absurd hx List.not_mem_nil
  | cons first rest ih =>
      obtain ⟨hfirst, hrest⟩ := List.nodup_cons.mp hnodup
      rcases List.mem_cons.mp hx with rfl | hx
      · have hnone : rest.filter (f · = f x) = [] := by
          refine List.filter_eq_nil_iff.mpr fun y hy => ?_
          simp only [decide_eq_true_eq]
          exact fun heq => hfirst (heq ▸ List.mem_map_of_mem hy)
        rw [List.filter_cons_of_pos (by simp), hnone]
      · have hne : ¬ f first = f x := fun heq => hfirst (heq ▸ List.mem_map_of_mem hx)
        rw [List.filter_cons_of_neg (by simpa using hne), ih hrest hx]

/-- Code that changes the Jacobian only in the blocks of some derivatives. -/
def WritesThrough (derivatives : List Derivative) (integrator : Cells K → Cells K) : Prop :=
  ∀ cells row column, (∀ d ∈ derivatives, ¬ d.Covers row column) →
    integrator cells row column = cells row column

namespace Blueprint

variable {plan : Blueprint} {derivatives : List Derivative}

/-! ## The method -/

/-- The statements that scale blocks, in order. -/
def scalings (plan : Blueprint) (derivatives : List Derivative) : List BlockScaling :=
  derivatives.filterMap plan.draft.factors.blockScaling?

theorem filter_scalings (plan : Blueprint) (derivatives : List Derivative)
    (pair : String × String) :
    (plan.scalings derivatives).filter (·.block.names = pair) =
      plan.scalings (derivatives.filter (·.names = pair)) := by
  unfold scalings
  rw [List.filter_filterMap, List.filterMap_filter]
  refine List.filterMap_congr fun d _ => ?_
  unfold Factors.blockScaling?
  cases plan.draft.factors.jacobianScale? d.residual.name d.unknown.name with
  | none => simp
  | some scale => by_cases heq : d.names = pair <;> simp [heq]

theorem mem_scalings {scaling : BlockScaling} :
    scaling ∈ plan.scalings derivatives ↔
      scaling.block ∈ derivatives ∧
        plan.draft.factors.jacobianScale? scaling.block.residual.name scaling.block.unknown.name =
          some scaling.scale := by
  unfold scalings Factors.blockScaling?
  rw [List.mem_filterMap]
  constructor
  · rintro ⟨d, hd, hscaling⟩
    obtain ⟨scale, hscale, rfl⟩ := Option.map_eq_some_iff.mp hscaling
    exact ⟨hd, hscale⟩
  · rintro ⟨hd, hscale⟩
    exact ⟨scaling.block, hd, by rw [hscale]; rfl⟩

theorem sublist_map_block (plan : Blueprint) (derivatives : List Derivative) :
    ((plan.scalings derivatives).map (·.block)).Sublist derivatives := by
  unfold scalings Factors.blockScaling?
  induction derivatives with
  | nil => exact List.Sublist.refl _
  | cons d rest ih =>
      cases hscale : plan.draft.factors.jacobianScale? d.residual.name d.unknown.name with
      | none =>
          rw [List.filterMap_cons_none (by rw [hscale]; rfl)]
          exact ih.cons d
      | some scale =>
          rw [List.filterMap_cons_some (by rw [hscale]; rfl), List.map_cons]
          exact ih.cons_cons d

/-- Where views have different names, only one statement names the view on a block. -/
theorem filter_target (hnamed : (derivatives.map Derivative.name).Nodup) {s : BlockScaling}
    (hs : s ∈ plan.scalings derivatives) :
    ((plan.scalings derivatives).map BlockScaling.code).filter
      (·.target? = some s.block.name) = [s.code] := by
  have hnodup : ((plan.scalings derivatives).map fun t => t.block.name).Nodup := by
    have hmap := hnamed.sublist ((sublist_map_block plan derivatives).map Derivative.name)
    rwa [List.map_map] at hmap
  have hfilter : (fun t : BlockScaling => decide (t.code.target? = some s.block.name)) =
      fun t => decide (t.block.name = s.block.name) := by
    funext t
    refine decide_eq_decide.mpr ?_
    rw [BlockScaling.code, Derivative.target?_code, Option.some_inj]
  rw [List.filter_map]
  show ((plan.scalings derivatives).filter
    fun t => decide (t.code.target? = some s.block.name)).map BlockScaling.code = [s.code]
  rw [hfilter, filter_eq_singleton hnodup hs, List.map_singleton]

/-- What is done between the reset of the Jacobian and the code of the integrator: the residual is
made the increments, all views are declared, and the stress is computed. -/
def beforeIntegrator (plan : Blueprint) (derivatives : List Derivative) : List Stmt :=
  [.line [Member.fzeros, " = ", Member.zeros, ";"]] ++
    plan.layout.slots.map (fun slot => vectorView (residualName slot.name) slot .fzeros) ++
    derivatives.map (fun d => .line (d.accessor d.name Member.jacobian)) ++
    onlyIf (plan.draft.code? .computeStress).isSome [.line [Method.stress, "();"]] ++
    plan.layout.slots.filterMap (fun slot => (plan.draft.factors.prologue? slot.name).map .line)

theorem residualMethod_eq (hanalytical : plan.solver.capabilities.isAnalytical = true)
    (integrator : Option String) :
    plan.residualMethod integrator derivatives =
      [.block ["bool ", .define (.method .residual), "()"]
        (MatrixCode.reset.map (fun code => .line code.line) ++ plan.beforeIntegrator derivatives ++
          integrator.toList.map (fun code => .block [] [.code code]) ++
          plan.layout.slots.filterMap
            (fun slot => (plan.draft.factors.epilogue? slot.name).map .line) ++
          (plan.scalings derivatives).map (fun scaling => .line scaling.code.line) ++
          [.line ["return true;"]])] := by
  have hreset : plan.solver.capabilities.requiresJacobianReset = true :=
    ((Bool.and_eq_true _ _).mp hanalytical).2
  have hscalings :
      derivatives.filterMap (fun d => (plan.draft.factors.scaleBlock? d).map Stmt.line) =
      (plan.scalings derivatives).map fun scaling => .line scaling.code.line := by
    rw [scalings, List.map_filterMap]
    refine List.filterMap_congr fun d _ => ?_
    rw [Factors.scaleBlock?_eq, Option.map_map]
    rfl
  unfold residualMethod beforeIntegrator
  simp only [hreset, hscalings, MatrixCode.resetJacobian_eq, onlyIf, if_true, List.append_assoc]

/-- Where the statements of the method are executed. -/
def matrixScope (plan : Blueprint) (derivatives : List Derivative) (evaluate : Evaluator K) :
    MatrixScope K :=
  ⟨plan.layout.constants, derivatives, evaluate⟩

/-- What makes the statements do what they are for. -/
structure CleanScaling (plan : Blueprint) (derivatives : List Derivative) (evaluate : Evaluator K)
    (value : String → Option (Quantity K)) : Prop where
  /-- The number of unknowns fits into 16 bits. -/
  fits : plan.layout.total < UInt16.size
  /-- No two views have one name. -/
  named : (derivatives.map Derivative.name).Nodup
  /-- Factors have values that do not change. -/
  steady : ∀ name side s, plan.draft.factors.get? name side = some s →
    ∀ env cells, evaluate env cells s = value s
  /-- Code divides the factors as numbers are divided. -/
  divides : ∀ d ∈ derivatives, plan.draft.factors.Divides value d.residual.name d.unknown.name

/-- Scales the cells of a block by the factors of its variables. -/
def scaleBlock (plan : Blueprint) (value : String → Option (Quantity K)) (cells : Cells K)
    (scaling : BlockScaling) : Cells K :=
  scaling.block.scaleAll (plan.draft.factors.jacobianFactor value scaling.block.residual.name
    scaling.block.unknown.name) cells

/-- The Jacobian after scaling all blocks. -/
def jacobianAfter (plan : Blueprint) (value : String → Option (Quantity K))
    (derivatives : List Derivative) (cells : Cells K) : Cells K :=
  (plan.scalings derivatives).foldl (plan.scaleBlock value) cells

/-- The factor of the variable that an index belongs to. -/
def factorAt (plan : Blueprint) (value : String → Option (Quantity K)) (side : Side) (index : Nat) :
    K :=
  match plan.layout.locate index with
  | some place => plan.draft.factors.valueOf value place.name side
  | none => 1

/-! ## The blocks of an accepted description -/

/-- What is known about the derivatives that a class addresses. -/
structure Addressing (plan : Blueprint) (derivatives : List Derivative) : Prop where
  ordered : plan.layout.Ordered
  complete : ∀ i < plan.layout.total, ∃ slot ∈ plan.layout.slots, slot.Contains i
  distinct : plan.layout.NamesDistinct
  sized : ∀ slot ∈ plan.layout.slots, 1 ≤ slot.arraySize
  bounded : ∀ slot ∈ plan.layout.slots, slot.arraySize ≤ plan.layout.total
  placed : ∀ d ∈ derivatives, plan.layout.derivative d.residual.name d.unknown.name = .ok d
  once : (derivatives.map Derivative.names).Nodup
  diagonal : ∀ name, plan.draft.factors.isNormalised name = true →
    (name, name) ∈ derivatives.map Derivative.names

theorem addressing_of_blueprint {compiler : Compiler} {description : Description}
    {hypothesis : Hypothesis}
    (hplan : (compiler.blueprint description hypothesis).outcome = .ok plan)
    (hanalytical : plan.solver.capabilities.isAnalytical = true) {integrator : Option String}
    (hderivatives : plan.derivatives integrator = .ok derivatives) :
    plan.Addressing derivatives := by
  obtain ⟨draft, solver, hdraft, -, rfl⟩ := Compiler.blueprint_eq_ok_iff.mp hplan
  have hsound := Description.sound_of_draft_eq_ok hdraft
  have hnames := map_names_derivatives hanalytical hderivatives
  refine ⟨Layout.plan_ordered _ _, fun i hi => Layout.exists_contains_of_lt_total hi,
    Layout.plan_namesDistinct _ hsound.wellNamed.nodup, fun slot hslot => ?_,
    fun slot hslot => Layout.arraySize_le_total hslot, fun d hd =>
      derivative_of_mem hanalytical hderivatives hd, ?_, fun name hname => ?_⟩
  · exact hsound.wellNamed.sized _ (Layout.owner_mem_of_mem_plan hslot)
  · rw [hnames]
    exact nodup_blockNames _ _
  · rw [hnames]
    exact mem_blockNames_of_isNormalised hname

namespace Addressing

variable (h : plan.Addressing derivatives) {value : String → Option (Quantity K)}
  {evaluate : Evaluator K} {d d' : Derivative}
  {r u : Slot} {row column : Nat}

include h

theorem mem_slots (hd : d ∈ derivatives) :
    d.residual ∈ plan.layout.slots ∧ d.unknown ∈ plan.layout.slots := by
  obtain ⟨hr, hu⟩ := Layout.slot?_of_derivative_eq_ok (h.placed d hd)
  exact ⟨((Layout.slot?_eq_some_iff h.distinct).mp hr).1,
    ((Layout.slot?_eq_some_iff h.distinct).mp hu).1⟩

theorem sized_of_mem (hd : d ∈ derivatives) : d.Sized :=
  ⟨h.sized _ (h.mem_slots hd).1, h.sized _ (h.mem_slots hd).2⟩

/-- The derivative that is addressed for the slots of a row and a column, if there is one, is the
one that covers the cell. -/
theorem eq_of_covers (hr : r ∈ plan.layout.slots) (hu : u ∈ plan.layout.slots)
    (hrow : r.Contains row)
    (hcolumn : u.Contains column) (hd : d ∈ derivatives) (hcovers : d.Covers row column) :
    d = ⟨r, u⟩ := by
  obtain ⟨hdr, hdu⟩ := h.mem_slots hd
  rw [← h.ordered.eq_of_contains hdr hr hcovers.1 hrow,
    ← h.ordered.eq_of_contains hdu hu hcovers.2 hcolumn]

theorem eq_of_names (hr : r ∈ plan.layout.slots) (hu : u ∈ plan.layout.slots) (hd : d ∈ derivatives)
    (hnames : d.names = (r.name, u.name)) : d = ⟨r, u⟩ := by
  obtain ⟨hresidual, hunknown⟩ := Prod.mk.inj hnames
  obtain ⟨hdr, hdu⟩ := h.mem_slots hd
  rw [← List.inj_on_of_nodup_map h.distinct hdr hr hresidual,
    ← List.inj_on_of_nodup_map h.distinct hdu hu hunknown]

/-- A pair of names is addressed once or not at all. -/
theorem filter_names (pair : String × String) :
    (∃ d ∈ derivatives, d.names = pair ∧ derivatives.filter (·.names = pair) = [d]) ∨
      (∀ d ∈ derivatives, d.names ≠ pair) ∧ derivatives.filter (·.names = pair) = [] := by
  by_cases haddressed : ∃ d ∈ derivatives, d.names = pair
  · obtain ⟨d, hd, rfl⟩ := haddressed
    exact Or.inl ⟨d, hd, rfl, filter_eq_singleton h.once hd⟩
  · have hnone : ∀ d ∈ derivatives, d.names ≠ pair := fun d hd hnames =>
      haddressed ⟨d, hd, hnames⟩
    refine Or.inr ⟨hnone, List.filter_eq_nil_iff.mpr fun d hd => ?_⟩
    simpa using hnone d hd

/-- Variables whose diagonal block is not addressed have no factors. -/
theorem get?_eq_none {name : String} (hnone : ∀ d ∈ derivatives, d.names ≠ (name, name)) :
    plan.draft.factors.get? name .unknown = none ∧
      plan.draft.factors.get? name .residual = none := by
  have hfree : plan.draft.factors.isNormalised name = false := by
    rw [Bool.eq_false_iff]
    intro hnormalised
    obtain ⟨d, hd, hnames⟩ := List.mem_map.mp (h.diagonal name hnormalised)
    exact hnone d hd hnames
  simpa [Factors.isNormalised] using hfree

/-- Statements for different blocks have no cell in common. -/
theorem scalings_disjoint : (plan.scalings derivatives).Pairwise fun s t =>
    ∀ row column, s.block.Covers row column → ¬ t.block.Covers row column := by
  have hpairwise : derivatives.Pairwise fun d d' => d.names ≠ d'.names :=
    List.pairwise_map.mp h.once
  refine List.Pairwise.filterMap _ ?_ (List.Pairwise.and_mem.mp hpairwise)
  rintro d d' ⟨hd, hd', hne⟩ s hs t ht row column hcovers hcovers'
  obtain ⟨_, -, rfl⟩ := Option.map_eq_some_iff.mp hs
  obtain ⟨_, -, rfl⟩ := Option.map_eq_some_iff.mp ht
  have hsame : d' = d :=
    h.eq_of_covers (h.mem_slots hd).1 (h.mem_slots hd).2 hcovers.1 hcovers.2 hd' hcovers'
  exact hne (congrArg Derivative.names hsame.symm)

/-! ## Cell by cell -/

theorem jacobianAfter_scaled (value : String → Option (Quantity K)) (cells : Cells K)
    (row column : Nat) :
    (∀ s ∈ plan.scalings derivatives, s.block.Covers row column →
      plan.jacobianAfter value derivatives cells row column =
        cells row column * plan.draft.factors.jacobianFactor value s.block.residual.name
          s.block.unknown.name) ∧
    ((∀ s ∈ plan.scalings derivatives, ¬ s.block.Covers row column) →
      plan.jacobianAfter value derivatives cells row column = cells row column) :=
  foldl_scalesOn
    (fun _ hs => Derivative.scaleAll_scalesOn (h.sized_of_mem (mem_scalings.mp hs).1) _)
    h.scalings_disjoint cells row column

theorem factorAt_of_contains {slot : Slot} (hslot : slot ∈ plan.layout.slots) {i : Nat}
    (hi : slot.Contains i) (value : String → Option (Quantity K)) (side : Side) :
    plan.factorAt value side i = plan.draft.factors.valueOf value slot.name side := by
  obtain ⟨element, helement, component, hcomponent, rfl⟩ := Slot.exists_index_of_contains hi
  rw [factorAt, h.ordered.locate_index hslot helement hcomponent]

/-- A cell of an addressed block is multiplied by the factors of the block. -/
theorem jacobianAfter_of_addressed (cells : Cells K) (hr : r ∈ plan.layout.slots)
    (hu : u ∈ plan.layout.slots) (hrow : r.Contains row) (hcolumn : u.Contains column)
    (hd : (⟨r, u⟩ : Derivative) ∈ derivatives) :
    plan.jacobianAfter value derivatives cells row column =
      cells row column * plan.draft.factors.jacobianFactor value r.name u.name := by
  obtain ⟨hscaled, hunscaled⟩ := h.jacobianAfter_scaled value cells row column
  cases hscale : plan.draft.factors.jacobianScale? r.name u.name with
  | some scale => exact hscaled ⟨⟨r, u⟩, scale⟩ (mem_scalings.mpr ⟨hd, hscale⟩) ⟨hrow, hcolumn⟩
  | none =>
      -- there is no statement for this block, and those for others leave the cell alone
      obtain ⟨hunknown, hresidual⟩ := Factors.jacobianScale?_eq_none_iff.mp hscale
      rw [hunscaled ?_, Factors.jacobianFactor, Factors.valueOf_of_none hunknown,
        Factors.valueOf_of_none hresidual, div_one, mul_one]
      intro s hs hcovers
      obtain ⟨hblock, hsome⟩ := mem_scalings.mp hs
      rw [h.eq_of_covers hr hu hrow hcolumn hblock hcovers, hscale] at hsome
      cases hsome

/-- A cell of a block that is not addressed keeps what it had. -/
theorem jacobianAfter_of_not_addressed (value : String → Option (Quantity K))
    {integrator : Cells K → Cells K} (hwrites : WritesThrough derivatives integrator)
    (hr : r ∈ plan.layout.slots) (hu : u ∈ plan.layout.slots) (hrow : r.Contains row)
    (hcolumn : u.Contains column) (hd : (⟨r, u⟩ : Derivative) ∉ derivatives) (cells : Cells K) :
    plan.jacobianAfter value derivatives (integrator cells) row column = cells row column ∧
      integrator cells row column = cells row column := by
  -- a derivative that covers the cell would be the one of its row and its column
  have hnone : ∀ d ∈ derivatives, ¬ d.Covers row column := by
    intro d hmem hcovers
    rw [h.eq_of_covers hr hu hrow hcolumn hmem hcovers] at hmem
    exact hd hmem
  have hwritten := hwrites cells row column hnone
  refine ⟨?_, hwritten⟩
  rw [(h.jacobianAfter_scaled value _ row column).2 fun s hs => hnone _ (mem_scalings.mp hs).1,
    hwritten]

/-- Whether or not its block is addressed, a cell is divided by the factor of its row and multiplied
by that of its column. -/
theorem jacobianAfter_apply (value : String → Option (Quantity K)) {integrator : Cells K → Cells K}
    (hwrites : WritesThrough derivatives integrator) (hrow : row < plan.layout.total)
    (hcolumn : column < plan.layout.total) :
    plan.jacobianAfter value derivatives (integrator (Cells.reset plan.layout.total)) row column =
      (plan.factorAt value .residual row)⁻¹ *
        integrator (Cells.reset plan.layout.total) row column *
        plan.factorAt value .unknown column := by
  obtain ⟨r, hr, hrow⟩ := h.complete row hrow
  obtain ⟨u, hu, hcolumn⟩ := h.complete column hcolumn
  rw [h.factorAt_of_contains hr hrow, h.factorAt_of_contains hu hcolumn]
  by_cases hd : (⟨r, u⟩ : Derivative) ∈ derivatives
  · calc
      plan.jacobianAfter value derivatives (integrator (Cells.reset plan.layout.total)) row column
          = integrator (Cells.reset plan.layout.total) row column *
              plan.draft.factors.jacobianFactor value r.name u.name :=
            h.jacobianAfter_of_addressed _ hr hu hrow hcolumn hd
      _ = (plan.draft.factors.valueOf value r.name .residual)⁻¹ *
              integrator (Cells.reset plan.layout.total) row column *
              plan.draft.factors.valueOf value u.name .unknown := by
            rw [Factors.jacobianFactor]
            ring
  · obtain ⟨hafter, hwritten⟩ :=
      h.jacobianAfter_of_not_addressed value hwrites hr hu hrow hcolumn hd
      (Cells.reset plan.layout.total)
    rw [hafter, hwritten, Cells.reset_apply]
    by_cases hsame : row = column
    · -- the block is on the diagonal, so its variable has no factors
      subst hsame
      obtain rfl := h.ordered.eq_of_contains hr hu hrow hcolumn
      have hnone : ∀ d ∈ derivatives, d.names ≠ (r.name, r.name) := by
        intro d hmem hnames
        rw [h.eq_of_names hr hr hmem hnames] at hmem
        exact hd hmem
      obtain ⟨hunknown, hresidual⟩ := h.get?_eq_none hnone
      simp [Factors.valueOf_of_none hunknown, Factors.valueOf_of_none hresidual]
    · simp [hsame]

/-! ## Running the statements -/

/-- A scaling statement has one outcome: its own block is scaled. -/
theorem runs_scaling_iff (hclean : plan.CleanScaling derivatives evaluate value) {s : BlockScaling}
    (hs : s ∈ plan.scalings derivatives) {before after : Cells K} :
    MatrixCode.Runs (plan.matrixScope derivatives evaluate) s.code (fun _ => none) before after ↔
      after = plan.scaleBlock value before s := by
  obtain ⟨hd, hscale⟩ := mem_scalings.mp hs
  obtain ⟨hr, hu⟩ := h.mem_slots hd
  have hview : (plan.matrixScope derivatives evaluate).view? s.block.name = some s.block :=
    MatrixScope.view?_of_mem hclean.named hd
  have hfits : ∀ entry ∈ s.block.loops, entry.2 < UInt16.size :=
    Derivative.lt_of_mem_loops (Nat.lt_of_le_of_lt (h.bounded _ hr) hclean.fits)
      (Nat.lt_of_le_of_lt (h.bounded _ hu) hclean.fits)
  rcases Factors.jacobianScale?_cases (hclean.divides _ hd) with
    ⟨scale, k, hscale', -, hvalue, hk⟩ | ⟨hnone, -⟩
  · obtain rfl := Option.some.inj (hscale.symm.trans hscale')
    have hsteady : ∀ env cells, s.scale.value? Int.cast (evaluate env cells) = some k := by
      intro env cells
      rw [Factors.value?_congr
        (fun name side t ht => hclean.steady name side t ht env cells) hscale, hvalue]
    refine (Derivative.runs_code_iff hview hsteady hfits).trans ?_
    rw [hk]
    rfl
  · rw [hnone] at hscale
    cases hscale

/-- All scaling statements together have one outcome. -/
theorem runsAll_scalings_iff (hclean : plan.CleanScaling derivatives evaluate value)
    {before after : Cells K} :
    MatrixCode.RunsAll (plan.matrixScope derivatives evaluate)
        ((plan.scalings derivatives).map BlockScaling.code) before after ↔
      after = plan.jacobianAfter value derivatives before :=
  MatrixCode.runsAll_map_iff fun _ hs _ _ => h.runs_scaling_iff hclean hs

end Addressing

/-! ## Pair by pair -/

/-- A pair of variables is addressed once.  If there are factors, exactly one statement is made for
its block, and its loops go through all array indices that the accessor is a function of.  Otherwise
there is none. -/
def ScaledOnce (plan : Blueprint) (derivatives : List Derivative) (r u : String) : Prop :=
  let factors := plan.draft.factors
  let statements := (plan.scalings derivatives).filter (·.block.names = (r, u))
  ∃ d, plan.layout.derivative r u = .ok d ∧ derivatives.filter (·.names = (r, u)) = [d] ∧
    ((factors.get? u .unknown).isSome ∨ (factors.get? r .residual).isSome →
      ∃ scaling, statements = [scaling] ∧ scaling.block = d ∧
        d.loops.map (·.1) = d.parameters ∧
        d.loops.map (·.2) = d.arguments d.residual.arraySize d.unknown.arraySize) ∧
    (factors.get? u .unknown = none ∧ factors.get? r .residual = none → statements = [])

/-- A pair of variables is not addressed, and does not need to be: its block is off the diagonal or
has no factors. -/
def LeftAlone (plan : Blueprint) (derivatives : List Derivative) (r u : String) : Prop :=
  derivatives.filter (·.names = (r, u)) = [] ∧
    (plan.scalings derivatives).filter (·.block.names = (r, u)) = [] ∧
    (r ≠ u ∨ plan.draft.factors.get? r .unknown = none ∧ plan.draft.factors.get? r .residual = none)

theorem Addressing.scaledOnce_or_leftAlone (h : plan.Addressing derivatives) (r u : String) :
    plan.ScaledOnce derivatives r u ∨ plan.LeftAlone derivatives r u := by
  unfold ScaledOnce LeftAlone
  rw [filter_scalings]
  rcases h.filter_names (r, u) with ⟨d, hd, hnames, hfilter⟩ | ⟨hnone, hfilter⟩
  · left
    obtain ⟨rfl, rfl⟩ := Prod.mk.inj hnames
    refine ⟨d, h.placed d hd, hfilter, ?_⟩
    rw [hfilter]
    cases hscale : plan.draft.factors.jacobianScale? d.residual.name d.unknown.name with
    | some scale =>
        refine ⟨fun _ => ⟨⟨d, scale⟩, ?_, rfl, d.map_fst_loops, d.map_snd_loops⟩,
          fun hnofactor => ?_⟩
        · simp [scalings, Factors.blockScaling?, hscale]
        · rw [Factors.jacobianScale?_eq_none_iff.mpr hnofactor] at hscale
          cases hscale
    | none =>
        obtain ⟨hunknown, hresidual⟩ := Factors.jacobianScale?_eq_none_iff.mp hscale
        refine ⟨fun hfactor => ?_, fun _ => ?_⟩
        · rw [hunknown, hresidual] at hfactor
          simp at hfactor
        · simp [scalings, Factors.blockScaling?, hscale]
  · right
    refine ⟨hfilter, by rw [hfilter]; rfl, ?_⟩
    by_cases hsame : r = u
    · right
      subst hsame
      exact h.get?_eq_none hnone
    · exact Or.inl hsame

/-- Views have different names unless a piece of the residual of one of them can be moved to its
unknown. -/
theorem Addressing.nodup_names_iff (h : plan.Addressing derivatives) :
    (derivatives.map Derivative.name).Nodup ↔
      ¬ ∃ d ∈ derivatives, ∃ d' ∈ derivatives, ∃ m,
        d'.residual.name = d.residual.name ++ "_dd" ++ m ∧
          d.unknown.name = m ++ "_dd" ++ d'.unknown.name := by
  constructor
  · rintro hnodup ⟨d, hd, d', hd', m, hresidual, hunknown⟩
    have hname : d.name = d'.name :=
      blockName_eq_iff.mpr (Or.inr (Or.inl ⟨m, hresidual, hunknown⟩))
    obtain rfl := List.inj_on_of_nodup_map hnodup hd hd' hname
    exact absurd (congrArg String.length hresidual)
      (Nat.ne_of_lt (Roster.length_lt_append_separator _ m))
  · intro hnone
    refine List.Nodup.map_on (fun d hd d' hd' hname => ?_) (List.Nodup.of_map _ h.once)
    rcases blockName_eq_iff.mp hname with ⟨hr, hu⟩ | ⟨m, hr, hu⟩ | ⟨m, hr, hu⟩
    · exact h.eq_of_names (h.mem_slots hd').1 (h.mem_slots hd').2 hd (Prod.ext hr hu)
    · exact absurd ⟨d, hd, d', hd', m, hr, hu⟩ hnone
    · exact absurd ⟨d', hd', d, hd, m, hr, hu⟩ hnone

end Blueprint

namespace Compiler

open Blueprint in
/-- **Normalisation of the Jacobian.**  Let a description be accepted with a solver whose Jacobian
comes from code.  The method resets the Jacobian, runs the integrator between the declarations of
the views and the scaling statements, and returns.  Each pair of declared variables is addressed
once, with one statement if there are factors, or is left alone because scaling it changes nothing.

If the number of unknowns fits, the views have different names, and the factors do not change and
are divided by code as numbers are divided, then each statement is the only one that names its view,
and it multiplies each cell of its block once.  The reset makes the Jacobian the identity.  So
whatever the integrator writes into the blocks it addresses, all statements together have one
outcome: the identity overwritten by the integrator, with its rows divided by the factors of the
residuals and its columns multiplied by those of the unknowns. -/
theorem jacobian_normalised_if_clean {compiler : Compiler} {description : Description}
    {hypothesis : Hypothesis} {generated : GeneratedClass} {plan : Blueprint}
    (hcompile : (compiler.compile description hypothesis).outcome = .ok generated)
    (hplan : (compiler.blueprint description hypothesis).outcome = .ok plan)
    (hanalytical : plan.solver.capabilities.isAnalytical = true) :
    let code := plan.code? .integrator
    let n := plan.layout.total
    ∃ derivatives, plan.derivatives code = .ok derivatives ∧
      generated.section? .residual = some (plan.sectionOf .residual
        [.block ["bool ", .define (.method .residual), "()"]
          (MatrixCode.reset.map (fun code => .line code.line) ++
              plan.beforeIntegrator derivatives ++
            code.toList.map (fun code => .block [] [.code code]) ++
            plan.layout.slots.filterMap (fun slot =>
              (plan.draft.factors.epilogue? slot.name).map .line) ++
            (plan.scalings derivatives).map (fun scaling => .line scaling.code.line) ++
            [.line ["return true;"]])]).text ∧
      (∀ r ∈ plan.draft.roster.vars, ∀ u ∈ plan.draft.roster.vars,
        plan.ScaledOnce derivatives r.name u.name ∨ plan.LeftAlone derivatives r.name u.name) ∧
      ((derivatives.map Derivative.name).Nodup ↔
        ¬ ∃ d ∈ derivatives, ∃ d' ∈ derivatives, ∃ m,
          d'.residual.name = d.residual.name ++ "_dd" ++ m ∧
            d.unknown.name = m ++ "_dd" ++ d'.unknown.name) ∧
      ∀ (evaluate : Evaluator K) value, plan.CleanScaling derivatives evaluate value →
        let scope := plan.matrixScope derivatives evaluate
        let statements := (plan.scalings derivatives).map BlockScaling.code
        (∀ s ∈ plan.scalings derivatives,
          statements.filter (·.target? = some s.block.name) = [s.code] ∧
          ∀ before, ∃ after, (∀ x, s.code.Runs scope (fun _ => none) before x ↔ x = after) ∧
            ScalesOn s.block.Covers (plan.draft.factors.jacobianFactor value
              s.block.residual.name s.block.unknown.name) before after) ∧
        ∃ identity : Cells K, identity.toMatrix n = 1 ∧
          (∀ before x, MatrixCode.RunsAll scope MatrixCode.reset before x ↔ x = identity) ∧
          ∀ integrator : Cells K → Cells K, WritesThrough derivatives integrator →
            ∃ after,
            (∀ x, MatrixCode.RunsAll scope statements (integrator identity) x ↔ x = after) ∧
              after.toMatrix n =
                Matrix.diagonal (fun i : Fin n => (plan.factorAt value .residual i)⁻¹) *
                  (integrator identity).toMatrix n *
                  Matrix.diagonal fun i : Fin n => plan.factorAt value .unknown i := by
  intro code n
  obtain ⟨derivatives, hderivatives, hsection⟩ := section?_residual_of_compile hcompile hplan
  have haddressing := addressing_of_blueprint hplan hanalytical hderivatives
  rw [residualMethod_eq hanalytical] at hsection
  refine ⟨derivatives, hderivatives, hsection,
    fun r _ u _ => haddressing.scaledOnce_or_leftAlone r.name u.name, haddressing.nodup_names_iff,
    fun evaluate value hclean => ?_⟩
  intro scope statements
  refine ⟨fun s hs => ⟨filter_target hclean.named hs, fun before => ?_⟩, ?_⟩
  · refine ⟨_, fun x => haddressing.runs_scaling_iff hclean hs, ?_⟩
    exact Derivative.scaleAll_scalesOn (haddressing.sized_of_mem (mem_scalings.mp hs).1) _ before
  · refine ⟨Cells.reset n, Cells.toMatrix_reset n, fun before x => ?_, fun integrator hwrites => ?_⟩
    · have hconstants : scope.constants = plan.layout.constants := rfl
      refine (MatrixCode.runsAll_reset_iff hconstants).trans ?_
      rw [Nat.mod_eq_of_lt hclean.fits]
    · refine ⟨_, fun x => haddressing.runsAll_scalings_iff hclean, ?_⟩
      ext i j
      rw [Matrix.mul_diagonal, Matrix.diagonal_mul]
      exact haddressing.jacobianAfter_apply value hwrites i.isLt j.isLt

/-- Values that are real, and not zero, are divided as numbers are. -/
theorem divides_of_real (factors : Factors) {x : K} (hx : x ≠ 0) (residual unknown : String) :
    factors.Divides (fun _ => some (.real x)) residual unknown := by
  have hvalue : ∀ name side, ∃ y : K, y ≠ 0 ∧
      factors.quantity? (fun _ => some (.real x)) name side = some (.real y) := by
    intro name side
    unfold Factors.quantity?
    cases factors.get? name side with
    | none => exact ⟨1, one_ne_zero, rfl⟩
    | some s => exact ⟨x, hx, rfl⟩
  obtain ⟨s, -, hs⟩ := hvalue unknown .unknown
  obtain ⟨r, hr, hresidual⟩ := hvalue residual .residual
  exact ⟨_, _, hs, hresidual, rfl, hr⟩

/-- A description is accepted, with a solver whose Jacobian comes from code. -/
structure Accepts (description : Description) (generated : GeneratedClass) (plan : Blueprint)
    (derivatives : List Derivative) : Prop where
  compile : (({} : Compiler).compile description .tridimensional).outcome = .ok generated
  blueprint : (({} : Compiler).blueprint description .tridimensional).outcome = .ok plan
  analytical : plan.solver.capabilities.isAnalytical = true
  derivatives : plan.derivatives (plan.code? .integrator) = .ok derivatives

/-- The variables, factors and code of a description tell which derivatives its class addresses. -/
theorem exists_accepts (description : Description) (vars : List Variable) (factors : Factors)
    (text : String) (pairs : List (String × String)) (derivatives : List Derivative)
    (hchecked : (({} : Compiler).blueprint description .tridimensional).outcome.toOption.any
      (fun plan =>
      plan.solver.capabilities.isAnalytical && plan.draft.inverseBlocks.isEmpty &&
        plan.draft.roster.vars = vars && plan.draft.factors = factors &&
        plan.code? .integrator = some text) = true)
    (hpairs : sortedPairs (blocksUsed (fun name => vars.any (·.name == name)) text ++
      factors.names.map fun name => (name, name)) = pairs)
    (hderivatives : pairs.mapM (fun pair => (Layout.plan .three vars).derivative pair.1 pair.2) =
      .ok derivatives)
    (hranks : ∀ v ∈ vars, v.rank ≠ .symmetricTensor) :
    ∃ generated plan, Accepts description generated plan derivatives ∧
      plan.layout = Layout.plan .three vars ∧ plan.draft.factors = factors := by
  obtain ⟨plan, hplan, hchecked⟩ := (Option.any_eq_true _ _).mp hchecked
  have hplan : (({} : Compiler).blueprint description .tridimensional).outcome = .ok plan := by
    cases houtcome : (({} : Compiler).blueprint description .tridimensional).outcome with
    | error fault =>
        rw [houtcome] at hplan
        cases hplan
    | ok found =>
        rw [houtcome] at hplan
        exact congrArg Except.ok (Option.some.inj hplan)
  simp only [Bool.and_eq_true, decide_eq_true_eq, List.isEmpty_iff] at hchecked
  obtain ⟨⟨⟨⟨hanalytical, hblocks⟩, rfl⟩, rfl⟩, htext⟩ := hchecked
  have hlayout := (grounded_of_blueprint hplan).layout_eq
  obtain ⟨generated, hcompile⟩ := exists_compile_eq_ok hplan hblocks
    fun r hr _ _ _ hshape => hranks r hr hshape.1
  refine ⟨generated, plan, ⟨hcompile, hplan, hanalytical, ?_⟩, hlayout, rfl⟩
  have hnames : plan.blockNames (some text) = pairs := hpairs
  rw [htext, Blueprint.derivatives, if_pos hanalytical, hnames, hlayout]
  exact hderivatives

/-- A scalar and an array of vectors with factors on different sides, and an integrator that fills
one block. -/
def scaledArray : Description where
  className := "ScaledArray"
  events :=
    [{ declaration := .integrationVariable "p" .scalar 1 },
      { declaration := .integrationVariable "q" .vector 2 },
      { declaration := .normalisationFactor "p" .unknown (.text "young") },
      { declaration := .normalisationFactor "q" .residual (.text "young") },
      { declaration := .code .integrator "dfq_ddp(0) = n;" }]

/-- Factors that are real divide and multiply the rows and columns of what was written. -/
theorem jacobian_normalised_if_clean_scaledArray :
    ∃ generated plan derivatives, Accepts scaledArray generated plan derivatives ∧
      plan.CleanScaling derivatives (fun _ _ _ => some (.real (2 : ℚ)))
        (fun _ => some (.real (2 : ℚ))) ∧
      ∀ integrator : Cells ℚ → Cells ℚ, WritesThrough derivatives integrator →
        ∃ identity after : Cells ℚ, identity.toMatrix plan.layout.total = 1 ∧
          after.toMatrix plan.layout.total =
            Matrix.diagonal (fun i : Fin plan.layout.total =>
                (plan.factorAt (fun _ => some (.real (2 : ℚ))) .residual i)⁻¹) *
              (integrator identity).toMatrix plan.layout.total *
              Matrix.diagonal fun i : Fin plan.layout.total =>
                plan.factorAt (fun _ => some (.real (2 : ℚ))) .unknown i := by
  let p : Slot := ⟨⟨"p", .scalar, 1⟩, 0, 1⟩
  let q : Slot := ⟨⟨"q", .vector, 2⟩, 1, 3⟩
  obtain ⟨generated, plan, haccepts, hlayout, -⟩ := exists_accepts scaledArray
    [⟨"p", .scalar, 1⟩, ⟨"q", .vector, 2⟩]
    ⟨[(("p", .unknown), "young"), (("q", .residual), "young")], true⟩ "dfq_ddp(0) = n;"
    [("p", "p"), ("q", "p"), ("q", "q")] [⟨p, p⟩, ⟨q, p⟩, ⟨q, q⟩]
    (by decide +kernel) (by cbv) rfl (by decide)
  have hclean : plan.CleanScaling [⟨p, p⟩, ⟨q, p⟩, ⟨q, q⟩] (fun _ _ _ => some (.real (2 : ℚ)))
      (fun _ => some (.real (2 : ℚ))) :=
    ⟨by rw [hlayout]; decide, by decide, fun _ _ _ _ _ _ => rfl,
      fun d _ => divides_of_real _ two_ne_zero _ _⟩
  obtain ⟨found, hfound, -, -, -, hruns⟩ := jacobian_normalised_if_clean (K := ℚ) haccepts.compile
    haccepts.blueprint haccepts.analytical
  obtain rfl := Except.ok.inj (haccepts.derivatives.symm.trans hfound)
  obtain ⟨-, identity, hidentity, -, hafter⟩ := hruns _ _ hclean
  refine ⟨generated, plan, _, haccepts, hclean, fun integrator hwrites => ?_⟩
  obtain ⟨after, -, hmatrix⟩ := hafter integrator hwrites
  exact ⟨identity, after, hidentity, hmatrix⟩

/-- Two pairs of variables have one block name: `a` with `a_dda_dda`, and `a_dda` with itself. -/
def clashing : Description where
  className := "Clashing"
  events :=
    [{ declaration := .integrationVariable "a" .scalar 1 },
      { declaration := .integrationVariable "a_dda" .scalar 1 },
      { declaration := .integrationVariable "a_dda_dda" .scalar 1 },
      { declaration := .normalisationFactor "a_dda" .unknown (.text "2.0") },
      { declaration := .normalisationFactor "a_dda_dda" .unknown (.text "3.0") },
      { declaration := .code .integrator "dfa_dda_dda_dda = 1;" }]

/-- One unknown more than 16 bits can count. -/
def overfull : Description where
  className := "Overfull"
  events :=
    [{ declaration := .integrationVariable "x" .scalar 65535 },
      { declaration := .integrationVariable "y" .scalar 1 },
      { declaration := .code .integrator "fy -= 1;" }]

/-- A residual and an unknown with factors that are whole numbers. -/
def wholeFactors : Description where
  className := "WholeFactors"
  events :=
    [{ declaration := .integrationVariable "a" .scalar 1 },
      { declaration := .integrationVariable "b" .scalar 1 },
      { declaration := .normalisationFactor "b" .unknown (.text "2") },
      { declaration := .normalisationFactor "a" .residual (.text "3") },
      { declaration := .code .integrator "dfa_ddb = 1;" }]

/-- Two statements of the clashing description name one view, and nothing runs. -/
theorem clashing_never_runs :
    ∃ generated plan derivatives, Accepts clashing generated plan derivatives ∧
      ((plan.scalings derivatives).map BlockScaling.code).filter
          (·.target? = some "dfa_dda_dda_dda") =
        [.multiply "dfa_dda_dda_dda" [] (.times "3.0"),
          .multiply "dfa_dda_dda_dda" [] (.times "2.0")] ∧
      ∀ (evaluate : Evaluator ℚ) before after,
        ¬ MatrixCode.RunsAll (plan.matrixScope derivatives evaluate)
          ((plan.scalings derivatives).map BlockScaling.code) before after := by
  let a : Slot := ⟨⟨"a", .scalar, 1⟩, 0, 1⟩
  let b : Slot := ⟨⟨"a_dda", .scalar, 1⟩, 1, 1⟩
  let c : Slot := ⟨⟨"a_dda_dda", .scalar, 1⟩, 2, 1⟩
  obtain ⟨generated, plan, haccepts, -, hfactors⟩ := exists_accepts clashing
    [⟨"a", .scalar, 1⟩, ⟨"a_dda", .scalar, 1⟩, ⟨"a_dda_dda", .scalar, 1⟩]
    ⟨[(("a_dda", .unknown), "2.0"), (("a_dda_dda", .unknown), "3.0")], true⟩ "dfa_dda_dda_dda = 1;"
    [("a", "a_dda_dda"), ("a_dda", "a_dda"), ("a_dda_dda", "a_dda_dda")] [⟨a, c⟩, ⟨b, b⟩, ⟨c, c⟩]
    (by decide +kernel) (by cbv) rfl (by decide)
  have hscalings : (plan.scalings [⟨a, c⟩, ⟨b, b⟩, ⟨c, c⟩]).map BlockScaling.code =
      [.multiply "dfa_dda_dda_dda" [] (.times "3.0"), .multiply "dfa_dda_dda_dda" [] (.times "2.0"),
        .multiply "dfa_dda_dda_dda_dda_dda" [] (.times "3.0")] := by
    unfold Blueprint.scalings
    rw [hfactors]
    decide
  refine ⟨generated, plan, _, haccepts, by rw [hscalings]; decide,
    fun evaluate before after hruns => ?_⟩
  rw [hscalings] at hruns
  obtain ⟨between, hfirst, -⟩ := hruns
  obtain ⟨d, hd⟩ := MatrixCode.exists_view?_of_runs hfirst
  have hclash : ¬ ([⟨a, c⟩, ⟨b, b⟩, ⟨c, c⟩].map Derivative.name).Nodup := by decide
  have hnone :
      (plan.matrixScope [⟨a, c⟩, ⟨b, b⟩, ⟨c, c⟩] evaluate).view? "dfa_dda_dda_dda" = none :=
    if_neg hclash
  rw [hnone] at hd
  cases hd

/-- The reset of the overfull description sets nothing on the diagonal. -/
theorem overfull_leaves_zeros :
    ∃ generated plan derivatives, Accepts overfull generated plan derivatives ∧
      ∀ (evaluate : Evaluator ℚ) before, ∃ after,
        (∀ x,
          MatrixCode.RunsAll (plan.matrixScope derivatives evaluate) MatrixCode.reset before x ↔
            x = after) ∧
        after 0 0 = 0 := by
  obtain ⟨generated, plan, haccepts, hlayout, -⟩ := exists_accepts overfull
    [⟨"x", .scalar, 65535⟩, ⟨"y", .scalar, 1⟩] ⟨[], true⟩ "fy -= 1;" [] []
    (by decide +kernel) (by cbv) rfl (by decide)
  refine ⟨generated, plan, [], haccepts, fun evaluate before => ⟨Cells.reset 0, fun x => ?_, ?_⟩⟩
  · have hconstants : (plan.matrixScope [] evaluate).constants = plan.layout.constants := rfl
    have hzero : plan.layout.total % UInt16.size = 0 := by
      rw [hlayout]
      rfl
    rw [MatrixCode.runsAll_reset_iff hconstants, hzero]
  · rw [Cells.reset_apply, if_neg (by simp)]

/-- Code multiplies a block by zero instead of two thirds. -/
theorem wholeFactors_clear_block :
    ∃ generated plan derivatives, Accepts wholeFactors generated plan derivatives ∧
      ∀ value : String → Option (Quantity ℚ), value "2" = some (.whole 2) →
        value "3" = some (.whole 3) →
          plan.draft.factors.jacobianFactor value "a" "b" = 2 / 3 ∧
          ∀ before, ∃ after,
            (∀ x, MatrixCode.RunsAll (plan.matrixScope derivatives fun _ _ => value)
              ((plan.scalings derivatives).map BlockScaling.code) before x ↔ x = after) ∧
            after 0 1 = 0 := by
  let a : Slot := ⟨⟨"a", .scalar, 1⟩, 0, 1⟩
  let b : Slot := ⟨⟨"b", .scalar, 1⟩, 1, 1⟩
  obtain ⟨generated, plan, haccepts, -, hfactors⟩ := exists_accepts wholeFactors
    [⟨"a", .scalar, 1⟩, ⟨"b", .scalar, 1⟩]
    ⟨[(("b", .unknown), "2"), (("a", .residual), "3")], true⟩ "dfa_ddb = 1;"
    [("a", "a"), ("a", "b"), ("b", "b")] [⟨a, a⟩, ⟨a, b⟩, ⟨b, b⟩]
    (by decide +kernel) (by cbv) rfl (by decide)
  have hscalings : plan.scalings [⟨a, a⟩, ⟨a, b⟩, ⟨b, b⟩] =
      [⟨⟨a, a⟩, .reciprocal "3"⟩, ⟨⟨a, b⟩, .ratio "2" "3"⟩, ⟨⟨b, b⟩, .times "2"⟩] := by
    unfold Blueprint.scalings
    rw [hfactors]
    decide
  refine ⟨generated, plan, _, haccepts, fun value htwo hthree => ⟨?_, fun before => ?_⟩⟩
  · have hunknown : plan.draft.factors.get? "b" .unknown = some "2" := by
      rw [hfactors]
      decide
    have hresidual : plan.draft.factors.get? "a" .residual = some "3" := by
      rw [hfactors]
      decide
    simp [Factors.jacobianFactor, Factors.valueOf, Factors.quantity?, hunknown, hresidual,
      htwo, hthree, Quantity.toReal]
  · -- the quotient of the middle statement is cut to zero
    let factor : Scale → ℚ := fun scale =>
      ((scale.value? Int.cast value).map (·.toReal Int.cast)).getD 1
    have hcut : factor (.ratio "2" "3") = 0 := by
      simp [factor, Scale.value?, htwo, hthree, Quantity.div?, Quantity.toReal]
    have hruns : ∀ s ∈ plan.scalings [⟨a, a⟩, ⟨a, b⟩, ⟨b, b⟩], ∀ before after,
        MatrixCode.Runs (plan.matrixScope [⟨a, a⟩, ⟨a, b⟩, ⟨b, b⟩] fun _ _ => value) s.code
          (fun _ => none) before after ↔ after = s.block.scaleAll (factor s.scale) before := by
      intro s hs before after
      have hblock := (Blueprint.mem_scalings.mp hs).1
      have hnamed : ([⟨a, a⟩, ⟨a, b⟩, ⟨b, b⟩].map Derivative.name).Nodup := by decide
      have hview : (plan.matrixScope [⟨a, a⟩, ⟨a, b⟩, ⟨b, b⟩] fun _ _ => value).view?
          s.block.name = some s.block :=
        MatrixScope.view?_of_mem hnamed hblock
      obtain ⟨k, hk⟩ : ∃ k, s.scale.value? Int.cast value = some k := by
        rw [hscalings] at hs
        simp only [List.mem_cons, List.not_mem_nil, or_false] at hs
        rcases hs with rfl | rfl | rfl
        · simp [Scale.value?, hthree, Quantity.div?]
        · simp [Scale.value?, htwo, hthree, Quantity.div?]
        · exact ⟨_, htwo⟩
      have hfactor : factor s.scale = k.toReal Int.cast := by
        simp [factor, hk]
      have hfits : ∀ d ∈ [(⟨a, a⟩ : Derivative), ⟨a, b⟩, ⟨b, b⟩], ∀ entry ∈ d.loops,
          entry.2 < UInt16.size := by
        decide
      rw [hfactor]
      exact Derivative.runs_code_iff hview (fun _ _ => hk) (hfits _ hblock)
    refine ⟨_, fun x => MatrixCode.runsAll_map_iff hruns, ?_⟩
    rw [hscalings]
    have hin : (⟨a, b⟩ : Derivative).Covers 0 1 := ⟨⟨by decide, by decide⟩, by decide, by decide⟩
    have hout : ¬ (⟨b, b⟩ : Derivative).Covers 0 1 := fun hcovers => absurd hcovers.1.1 (by decide)
    have hsized : ∀ d ∈ [(⟨a, b⟩ : Derivative), ⟨b, b⟩], d.Sized := by
      unfold Derivative.Sized
      decide
    simp only [List.foldl_cons, List.foldl_nil]
    rw [(Derivative.scaleAll_scalesOn (hsized _ (by simp)) _ _ 0 1).2 hout,
      (Derivative.scaleAll_scalesOn (hsized _ (by simp)) _ _ 0 1).1 hin, hcut, mul_zero]

/-- An accepted class can have two statements that scale one view, so that nothing runs.  Its reset
can leave zeros on the diagonal.  And its code can multiply a block by zero where the quotient of
the factors is not zero. -/
theorem scalings_can_miss_their_blocks :
    (∃ generated plan derivatives, Accepts clashing generated plan derivatives ∧
      ((plan.scalings derivatives).map BlockScaling.code).filter
          (·.target? = some "dfa_dda_dda_dda") =
        [.multiply "dfa_dda_dda_dda" [] (.times "3.0"),
          .multiply "dfa_dda_dda_dda" [] (.times "2.0")] ∧
      ∀ (evaluate : Evaluator ℚ) before after,
        ¬ MatrixCode.RunsAll (plan.matrixScope derivatives evaluate)
          ((plan.scalings derivatives).map BlockScaling.code) before after) ∧
      (∃ generated plan derivatives, Accepts overfull generated plan derivatives ∧
        ∀ (evaluate : Evaluator ℚ) before, ∃ after,
          (∀ x,
            MatrixCode.RunsAll (plan.matrixScope derivatives evaluate) MatrixCode.reset before x ↔
              x = after) ∧
          after 0 0 = 0) ∧
      ∃ generated plan derivatives, Accepts wholeFactors generated plan derivatives ∧
        ∀ value : String → Option (Quantity ℚ), value "2" = some (.whole 2) →
          value "3" = some (.whole 3) →
            plan.draft.factors.jacobianFactor value "a" "b" = 2 / 3 ∧
            ∀ before, ∃ after,
              (∀ x, MatrixCode.RunsAll (plan.matrixScope derivatives fun _ _ => value)
                ((plan.scalings derivatives).map BlockScaling.code) before x ↔ x = after) ∧
              after 0 1 = 0 :=
  ⟨clashing_never_runs, overfull_leaves_zeros, wholeFactors_clear_block⟩

end Compiler

end Constitutive
