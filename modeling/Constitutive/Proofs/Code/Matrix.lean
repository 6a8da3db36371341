import Constitutive.Proofs.Code.Arithmetic
import Constitutive.Proofs.Code.IndexLoops
import Constitutive.Proofs.Unknowns.Tiling
import Mathlib.Algebra.Field.Basic

/-!
# Code that works on the Jacobian

`MatrixCode` are the statements by which generated code sets and scales cells of the Jacobian, and
`MatrixCode.line` is their text.  `MatrixCode.Runs` executes them as the text says.

* A name means the view that is declared under it, and calling the view binds its parameters.  Where
  two views are declared under one name, no view is called at all (`MatrixScope.view?`).
* Indices have 16 bits, and so has the number of unknowns.  A loop is left when its index equals its
  bound; a loop whose bound is larger than any index has no run.
* Scales are quotients of whole or real numbers (`Scale.value?`).

The value of an expression of the description may depend on the indices of the loops around it, and
on the Jacobian itself.  Cells are over a field, so real numbers are exact.
-/

namespace Constitutive

/-! ## Views -/

namespace Derivative

/-- The values of the parameters of a view when it is called. -/
def bind (d : Derivative) (arguments : List Nat) (name : String) : Nat :=
  ((d.parameters.zip arguments).lookup name).getD 0

theorem parameters_cases (d : Derivative) :
    d.parameters = [] ∨ d.parameters = ["idx"] ∨ d.parameters = ["idx", "idx2"] := by
  unfold parameters
  cases d.indexing with
  | none => exact Or.inl rfl
  | residual size => exact Or.inr (Or.inl rfl)
  | unknown size => exact Or.inr (Or.inl rfl)
  | both residual unknown => exact Or.inr (Or.inr rfl)

theorem map_bind {d : Derivative} {arguments : List Nat}
    (h : arguments.length = d.parameters.length) :
    d.parameters.map (d.bind arguments) = arguments := by
  unfold bind
  rcases d.parameters_cases with hparameters | hparameters | hparameters
  · rw [hparameters] at h ⊢
    exact (List.eq_nil_of_length_eq_zero h).symm
  · rw [hparameters] at h ⊢
    obtain ⟨i, rfl⟩ := List.length_eq_one_iff.mp h
    rfl
  · rw [hparameters] at h ⊢
    obtain ⟨i, j, rfl⟩ := List.length_eq_two.mp h
    rfl

end Derivative

variable {K : Type}

/-- The cells of a matrix. -/
abbrev Cells (K : Type) : Type := Nat → Nat → K

/-- The values of expressions, given the indices of loops and the cells. -/
abbrev Evaluator (K : Type) : Type :=
  (String → Option UInt16) → Cells K → String → Option (Quantity K)

/-- Where statements are executed: the constants, the views that are declared, each under the name
of its derivative, and the values of expressions. -/
structure MatrixScope (K : Type) where
  constants : List (Constant × Nat)
  views : List Derivative
  evaluate : Evaluator K

/-- The view that a name means.  No name can be declared twice. -/
def MatrixScope.view? (scope : MatrixScope K) (name : String) : Option Derivative :=
  if (scope.views.map Derivative.name).Nodup then scope.views.find? (·.name = name) else none

theorem MatrixScope.view?_of_mem {scope : MatrixScope K}
    (hnames : (scope.views.map Derivative.name).Nodup)
    {d : Derivative} (hd : d ∈ scope.views) : scope.view? d.name = some d := by
  rw [view?, if_pos hnames]
  cases hfind : scope.views.find? (·.name = d.name) with
  | none =>
      have hnone := List.find?_eq_none.mp hfind d hd
      simp at hnone
  | some other =>
      have hname : other.name = d.name := by simpa using List.find?_some hfind
      rw [List.inj_on_of_nodup_map hnames (List.mem_of_find?_eq_some hfind) hd hname]

/-! ## Cells -/

variable [Field K]

namespace Cells

/-- A matrix with one cell replaced. -/
def set (row column : Nat) (x : K) (cells : Cells K) : Cells K := fun i j =>
  if i = row ∧ j = column then x else cells i j

/-- Multiplies the cells of some rows and columns. -/
def scale (row rows column columns : Nat) (k : K) (cells : Cells K) : Cells K := fun i j =>
  if (row ≤ i ∧ i < row + rows) ∧ column ≤ j ∧ j < column + columns then cells i j * k
  else cells i j

/-- A matrix filled with zeros, and then with ones in the first cells of its diagonal. -/
def reset (n : Nat) : Cells K :=
  (List.range n).foldl (fun cells i => cells.set i i 1) (fun _ _ => 0)

theorem reset_apply (n row column : Nat) :
    (reset n : Cells K) row column = if row = column ∧ row < n then 1 else 0 := by
  unfold reset
  induction n with
  | zero => simp
  | succ n ih =>
      rw [List.range_succ, List.foldl_append]
      simp only [List.foldl_cons, List.foldl_nil, set, ih]
      grind

end Cells

/-- Multiplies the view at given indices. -/
def Derivative.scaleView (d : Derivative) (k : K) (env : String → Nat) (cells : Cells K) :
    Cells K :=
  cells.scale (d.rowIndex.valueIn env) d.residual.components (d.columnIndex.valueIn env)
    d.unknown.components k

/-! ## Statements -/

/-- Statements that work on the Jacobian. -/
inductive MatrixCode where
  | clear
  | setOne (index : String)
  | multiply (view : String) (indices : List String) (scale : Scale)
  | loop (index : String) (bound : Piece) (body : MatrixCode)
  deriving DecidableEq

namespace MatrixCode

/-- The text of a statement. -/
def line : MatrixCode → Line
  | clear => ["std::fill(", Member.jacobian, ".begin(), ", Member.jacobian, ".end(), real(0));"]
  | setOne index => [Member.jacobian, "(" ++ index ++ ", " ++ index ++ ") = real(1);"]
  | multiply view indices scale =>
    .concat [[view, if indices = [] then "" else "(" ++ ", ".intercalate indices ++ ")"], [" *= "],
      scale.line, [";"]]
  | loop index bound body => .inBraces (.forBelow index [bound]) body.line

/-- The name of the view that is scaled. -/
def target? : MatrixCode → Option String
  | clear => none
  | setOne _ => none
  | multiply view _ _ => some view
  | loop _ _ body => body.target?

/-- The code that makes the Jacobian the identity. -/
def reset : List MatrixCode :=
  [clear, loop "idx" Constant.size (setOne "idx")]

theorem resetJacobian_eq : resetJacobian = reset.map fun code => .line code.line := rfl

/-- Executing a statement turns a matrix into another, while names are bound to indices. -/
inductive Runs (scope : MatrixScope K) :
    MatrixCode → (String → Option UInt16) → Cells K → Cells K → Prop
  | clear {env : String → Option UInt16} {cells : Cells K} :
      Runs scope clear env cells fun _ _ => 0
  | setOne {index : String} {env : String → Option UInt16} {i : UInt16} {cells : Cells K}
      (hindex : env index = some i) :
      Runs scope (setOne index) env cells (cells.set i.toNat i.toNat 1)
  | multiply {view : String} {indices : List String} {scale : Scale}
      {env : String → Option UInt16} {d : Derivative} {arguments : List UInt16} {k : Quantity K}
      {cells : Cells K} (hview : scope.view? view = some d)
      (harguments : indices.mapM env = some arguments)
      (hcount : arguments.length = d.parameters.length)
      (hvalue : scale.value? Int.cast (scope.evaluate env cells) = some k) :
      Runs scope (multiply view indices scale) env cells
        (d.scaleView (k.toReal Int.cast) (d.bind (arguments.map UInt16.toNat)) cells)
  | loop {index : String} {bound : Piece} {body : MatrixCode} {env : String → Option UInt16}
      {stop count : Nat} (cells : Nat → Cells K)
      (hbound : Line.value? scope.constants [bound] = some stop) (hends : EndsAfter 0 stop count)
      (hpasses : ∀ k < count,
        Runs scope body (Function.update env index (some (.ofNat k))) (cells k) (cells (k + 1))) :
      Runs scope (loop index bound body) env (cells 0) (cells count)

/-- Executing statements one after the other. -/
def RunsAll (scope : MatrixScope K) : List MatrixCode → Cells K → Cells K → Prop
  | [], before, after => after = before
  | code :: rest, before, after =>
    ∃ between, Runs scope code (fun _ => none) before between ∧ RunsAll scope rest between after

variable {scope : MatrixScope K} {env : String → Option UInt16} {before after : Cells K}

theorem runs_clear_iff : Runs scope clear env before after ↔ after = fun _ _ => 0 := by
  constructor
  · rintro ⟨⟩
    rfl
  · rintro rfl
    exact .clear

theorem runs_setOne_iff {index : String} {i : UInt16} (hindex : env index = some i) :
    Runs scope (setOne index) env before after ↔ after = before.set i.toNat i.toNat 1 := by
  constructor
  · rintro (_ | hindex')
    obtain rfl := Option.some.inj (hindex.symm.trans hindex')
    rfl
  · rintro rfl
    exact .setOne hindex

theorem runs_multiply_iff {view : String} {indices : List String} {scale : Scale} {d : Derivative}
    {arguments : List UInt16} {k : Quantity K} (hview : scope.view? view = some d)
    (harguments : indices.mapM env = some arguments)
    (hcount : arguments.length = d.parameters.length)
    (hvalue : scale.value? Int.cast (scope.evaluate env before) = some k) :
    Runs scope (multiply view indices scale) env before after ↔
      after = d.scaleView (k.toReal Int.cast) (d.bind (arguments.map UInt16.toNat)) before := by
  constructor
  · rintro (_ | _ | ⟨hview', harguments', -, hvalue'⟩)
    obtain rfl := Option.some.inj (hview.symm.trans hview')
    obtain rfl := Option.some.inj (harguments.symm.trans harguments')
    obtain rfl := Option.some.inj (hvalue.symm.trans hvalue')
    rfl
  · rintro rfl
    exact .multiply hview harguments hcount hvalue

/-- A statement runs only where its view is declared. -/
theorem exists_view?_of_runs {view : String} {indices : List String} {scale : Scale}
    (h : Runs scope (multiply view indices scale) env before after) :
    ∃ d, scope.view? view = some d := by
  cases h with
  | multiply hview _ _ _ => exact ⟨_, hview⟩

/-- A loop whose bound fits runs its body for all indices below, in order. -/
theorem runs_loop_iff {index : String} {bound : Piece} {body : MatrixCode} {stop : Nat}
    {step : Nat → Cells K → Cells K} (hbound : Line.value? scope.constants [bound] = some stop)
    (hstop : stop < UInt16.size)
    (hbody : ∀ k < stop, ∀ before after,
      Runs scope body (Function.update env index (some (.ofNat k))) before after ↔
        after = step k before) :
    Runs scope (loop index bound body) env before after ↔
      after = (List.range stop).foldl (fun cells k => step k cells) before := by
  have hends : EndsAfter 0 stop stop := endsAfter_of_le (Nat.zero_le stop) hstop
  constructor
  · rintro (_ | _ | _ | ⟨cells, hbound', hends', hpasses⟩)
    rename_i count
    obtain rfl := Option.some.inj (hbound.symm.trans hbound')
    obtain rfl := hends'.unique hends
    -- the matrix after some passes
    have hcells : ∀ k ≤ count,
        cells k = (List.range k).foldl (fun cells k => step k cells) (cells 0) := by
      intro k
      induction k with
      | zero => exact fun _ => rfl
      | succ k ih =>
          intro hk
          rw [List.range_succ, List.foldl_append, ← ih (by omega)]
          exact (hbody k hk _ _).mp (hpasses k hk)
    exact hcells count (Nat.le_refl _)
  · rintro rfl
    refine Runs.loop (fun k => (List.range k).foldl (fun cells k => step k cells) before) hbound
      hends fun k hk => (hbody k hk _ _).mpr ?_
    rw [List.range_succ, List.foldl_append]
    rfl

/-- The reset puts ones into as many cells of the diagonal as the number of unknowns has in 16
bits. -/
theorem runsAll_reset_iff {layout : Layout} (hconstants : scope.constants = layout.constants) :
    RunsAll scope reset before after ↔ after = Cells.reset (layout.total % UInt16.size) := by
  have hbound :
      Line.value? scope.constants [Constant.size] = some (layout.total % UInt16.size) := by
    rw [hconstants]
    exact value?_size layout
  have hstop : layout.total % UInt16.size < UInt16.size := Nat.mod_lt _ (by decide)
  have hloop : ∀ before after : Cells K,
      Runs scope (loop "idx" Constant.size (setOne "idx")) (fun _ => none) before after ↔
        after = (List.range (layout.total % UInt16.size)).foldl
          (fun cells i => cells.set i i 1) before := by
    intro before after
    refine runs_loop_iff hbound hstop fun k hk before after => ?_
    rw [runs_setOne_iff (Function.update_self ..), toNat_ofNat,
      Nat.mod_eq_of_lt (Nat.lt_trans hk hstop)]
  simp only [reset, RunsAll, runs_clear_iff, hloop, exists_eq_left]
  rfl

end MatrixCode

end Constitutive
