import Constitutive.Proofs.Closed
import Constitutive.Proofs.Code.IndexLoops
import Constitutive.Proofs.Scheme.Numbers
import Constitutive.Proofs.Unknowns.Tiling

/-!
# The widths of generated numbers

Array sizes are checked variable by variable.  What generated code needs to hold in 16 bits are sums
of sizes: the offset of a variable, and the number of all unknowns.  Nothing checks the sums, so a
class can be generated whose constants are not the numbers that are written for them, and whose
loops do not end (`wide_loop_never_ends`).

## Strategy

* **Loops.**  Every section is `Sized`: each loop goes over all unknowns, over one slot, or up to a
  number that is no more than that of all unknowns (`Blueprint.measured_of_mem_parts`).  Lines of
  the strategy are left out here; those of a built-in one are sized too.
* **Numbers.**  The constants are read from the lines that define them (`Layout.constants_eq`), and
  the bounds of loops are evaluated with them.  A loop ends if its bound fits (`IndexRange.passes`),
  and only then (`exists_endsAfter_iff`).
-/

namespace Constitutive

open Stmt

/-! ## Texts -/

namespace Line

theorem residualName_ne_loopStart {name : String} (hname : isVariableName name = true) :
    residualName name ≠ "for(unsigned short " := by
  refine ne_loopStart_of_not_mem fun hmem => ?_
  rw [residualName, String.toList_append, List.mem_append] at hmem
  rcases hmem with hmem | hmem
  · exact absurd hmem (by decide)
  · exact absurd (isWordChar_of_isVariableName hname _ hmem) (by decide)

theorem ne_loopStart_of_head? {s : String} {c : Char} (hs : s.toList.head? = some c)
    (hc : c ≠ 'f') :
    s ≠ "for(unsigned short " := by
  rintro rfl
  exact hc (Option.some.inj hs).symm

/-- For literals with something after them. -/
theorem ofList_append_ne_loopStart {c : Char} {cs : List Char} (hc : c ≠ 'f') (t : String) :
    String.ofList (c :: cs) ++ t ≠ "for(unsigned short " := by
  refine ne_loopStart_of_head? ?_ hc
  rw [String.toList_append, String.toList_ofList, List.cons_append, List.head?_cons]

theorem blockName_ne_loopStart (a b : String) : blockName a b ≠ "for(unsigned short " := by
  unfold blockName
  rw [String.append_assoc, String.append_assoc]
  exact ofList_append_ne_loopStart (by decide) _

theorem argumentName_ne_loopStart (block : InverseBlock) :
    block.argumentName ≠ "for(unsigned short " := by
  unfold InverseBlock.argumentName
  rw [String.append_assoc, String.append_assoc]
  exact ofList_append_ne_loopStart (by decide) _

theorem typeName_ne_loopStart (rank : Rank) : rank.typeName ≠ "for(unsigned short " := by
  cases rank <;> decide

/-- Rows and columns begin with a digit. -/
theorem render_ne_loopStart (index : Index) : index.render ≠ "for(unsigned short " := by
  cases index with
  | fixed offset => exact repr_ne_loopStart offset
  | strided offset index stride =>
      obtain ⟨c, rest, hdigits, hc, -⟩ := Text.exists_toDigits_eq_cons offset
      refine ne_loopStart_of_head? (?_ : _ = some c) ?_
      · rw [Index.toList_render_strided, hdigits]
        rfl
      · rintro rfl
        exact absurd hc (by decide)

end Line

/-! ## Sections -/

section Sections

variable {layout : Layout}

theorem sized_offsetConstants : AllLines (Line.Sized layout) layout.offsetConstants := by
  simp [Layout.offsetConstants]

theorem sized_vectorView {label : Piece} (hlabel : Line.Plain [label]) (slot : Slot)
    (vector : Member) :
    AllLines (Line.Sized layout) [vectorView label slot vector] := by
  have hterm : ∀ l : Line, Line.Sized layout (label :: l) ↔ Line.Sized layout l :=
    fun l => Line.sized_append_of_plain hlabel
  unfold vectorView
  split
  · simp [Line.concat, hterm, Line.typeName_ne_loopStart]
  · simp [Line.concat, hterm, Line.typeName_ne_loopStart]

theorem plain_view {matrix : Piece} (hmatrix : Line.Plain [matrix]) (d : Derivative) :
    Line.Plain (d.view matrix) := by
  have hpiece := (Line.plain_cons.mp hmatrix).1
  unfold Derivative.view
  split
  · simp [hpiece, Line.render_ne_loopStart]
  · simp [hpiece, Line.render_ne_loopStart, Line.typeName_ne_loopStart]

theorem plain_accessor {matrix : Piece} (hmatrix : Line.Plain [matrix]) (d : Derivative)
    {label : String}
    (hlabel : label ≠ "for(unsigned short ") : Line.Plain (d.accessor label matrix) := by
  have hpiece := (Line.plain_cons.mp hmatrix).1
  have hview := plain_view hmatrix d
  unfold Derivative.accessor
  split
  · split
    · simp [hview, hlabel]
    · simp [hpiece, hlabel, Line.render_ne_loopStart, Line.typeName_ne_loopStart]
  · simp [hview, hlabel]
  · simp [hview, hlabel]
  · simp [hview, hlabel]

theorem plain_scale (scale : Scale) : Line.Plain scale.line := by
  cases scale with
  | times s => simp [Scale.line]
  | reciprocal r => simp [Scale.line]
  | ratio s r => simp [Scale.line]

/-- Array indices of a block go up to the numbers of elements. -/
theorem Derivative.indexing_bounds (d : Derivative) :
    match d.indexing with
    | .none => True
    | .residual size => size = d.residual.arraySize
    | .unknown size => size = d.unknown.arraySize
    | .both residual unknown =>
        residual = d.residual.arraySize ∧ unknown = d.unknown.arraySize := by
  unfold indexing
  cases d.residual.isArray <;> cases d.unknown.isArray <;> simp

theorem sized_scaleBlock {factors : Factors} {d : Derivative}
    (hresidual : d.residual.arraySize ≤ layout.total)
    (hunknown : d.unknown.arraySize ≤ layout.total) {l : Line}
    (h : factors.scaleBlock? d = some l) :
    Line.Sized layout l := by
  obtain ⟨scale, -, rfl⟩ := Option.map_eq_some_iff.mp h
  have hname := Line.blockName_ne_loopStart d.residual.name d.unknown.name
  have hbounds := d.indexing_bounds
  -- the assignment in the loops has no loop itself
  have hbody : ∀ (indices : String) (rest : Line), indices ≠ "for(unsigned short " →
      Line.Plain rest →
      Line.Sized layout (.concat [[.text d.name, .text indices, .text " *= "], scale.line,
        [.text ";"]] ++ rest) := by
    intro indices rest hindices hrest
    exact Line.Plain.sized (by simp [Derivative.name, hname, hindices, plain_scale, hrest])
  dsimp only
  split
  · simpa using hbody "" [] (by decide) (by simp)
  · rename_i size hindexing
    rw [hindexing] at hbounds
    exact Line.sized_inBraces (by decide) (.below (hbounds ▸ hresidual))
      (hbody "(idx)" _ (by decide) (by simp))
  · rename_i size hindexing
    rw [hindexing] at hbounds
    exact Line.sized_inBraces (by decide) (.below (hbounds ▸ hunknown))
      (hbody "(idx)" _ (by decide) (by simp))
  · rename_i residual unknown hindexing
    rw [hindexing] at hbounds
    obtain ⟨rfl, rfl⟩ := hbounds
    have hassignment := hbody "(idx, idx2)" [.text " \x7d", .text " \x7d"] (by decide) (by simp)
    have hbrace : Line.Sized layout (.text "\x7b " :: _) :=
      (Line.sized_cons_text (by decide)).mpr hassignment
    have hinner : Line.Sized layout
        (.forIndex "idx2" [.text "0"] [.text (toString d.unknown.arraySize)] ++ _) :=
      Line.sized_forIndex_append (by decide) (.below hunknown) hbrace
    refine Line.sized_inBraces (by decide) (.below hresidual) ?_
    simpa [Line.inBraces, Line.forBelow, Line.concat] using hinner

/-- A loop over a slot. -/
theorem allLines_forSlot {index : String} (hindex : index ≠ "for(unsigned short ") {slot : Slot}
    (hslot : slot ∈ layout.slots) {body rest : List Stmt} :
    AllLines (Line.Sized layout) (forSlot index slot body :: rest) ↔
      AllLines (Line.Sized layout) body ∧ AllLines (Line.Sized layout) rest := by
  rw [forSlot, allLines_cons_block, and_iff_right (Line.sized_forIndex hindex (.slot hslot))]

theorem sized_clamp (limits : Limits) (factors : Factors) :
    AllLines (Line.Sized layout) (limits.clamp layout factors) := by
  unfold Limits.clamp
  rw [allLines_append, allLines_flatMap]
  refine ⟨fun slot hslot => ?_, ?_⟩
  · unfold Limits.clampSlot
    split
    · simp
    · refine (allLines_forSlot (by decide) hslot).mpr ⟨?_, allLines_nil⟩
      cases factors.get? slot.name .unknown with
      | none => simp [Limits.clampComponent, Line.concat]
      | some s => simp [Limits.clampComponent, Line.concat]
  · split
    · simp
    · refine (allLines_forAllUnknowns (by decide)).mpr ⟨?_, allLines_nil⟩
      simp [Limits.clampComponent, Line.concat]

theorem sized_jacobianComparison : AllLines (Line.Sized layout) (jacobianComparison layout) := by
  have hprint : ∀ r u : Slot, AllLines (Line.Sized layout) (printBlock layout r u) := by
    intro r u
    unfold printBlock
    split
    · simp
    · split
      · simp
      · have hname := Line.blockName_ne_loopStart r.name u.name
        have hnumerical : "n" ++ blockName r.name u.name ≠ "for(unsigned short " :=
          Line.ofList_append_ne_loopStart (by decide) _
        rename_i d _ _
        have hjacobian : Line.Plain (d.accessor _ Member.jacobian) :=
          plain_accessor (by simp) d hname
        have hnjacobian : Line.Plain (d.accessor _ "njacobian") :=
          plain_accessor (by simp) d hnumerical
        simp [hjacobian.sized, hnjacobian.sized, hname, hnumerical]
  have hblock : ∀ r ∈ layout.slots, ∀ u ∈ layout.slots,
      AllLines (Line.Sized layout) [compareBlock layout r u] := by
    intro r hr u hu
    have hname := Line.blockName_ne_loopStart r.name u.name
    have hrows : "idx" ≠ "for(unsigned short " := by decide
    have hcolumns : "idx2" ≠ "for(unsigned short " := by decide
    simp only [compareBlock, allLines_cons_block, allLines_cons_line, allLines_nil, and_true,
      allLines_forSlot hrows hr, allLines_forSlot hcolumns hu]
    exact ⟨by simp, by simp, by simp [raiseToDifference], by simp, by simp [hname], hprint r u⟩
  unfold jacobianComparison
  simp only [allLines_cons_block, allLines_append, allLines_flatMap, allLines_map,
    allLines_nil, and_true]
  refine ⟨by simp, ?_, hblock⟩
  simp [fail, raiseToDifference, matrixType, Line.concat]

theorem sized_numericalJacobianMethod :
    AllLines (Line.Sized layout) (numericalJacobianMethod Member.numericalJacobianEpsilon) := by
  simp [numericalJacobianMethod, evaluateOrRestore, localValue, localCopy, vectorType, matrixType,
    Line.concat]

theorem sized_copy {p : PlacedBlock} (hunknown : p.unknown.size ≤ layout.total)
    (hresidual : p.residual.size ≤ layout.total) : AllLines (Line.Sized layout) [p.copy] := by
  unfold PlacedBlock.copy
  rw [allLines_forBelow (by decide) hunknown, allLines_forBelow (by decide) hresidual]
  simp [Line.argumentName_ne_loopStart]

/-- The column of a basis vector is compared with the ends of a slot. -/
theorem sized_collect {p : PlacedBlock} (hresidual : p.residual ∈ layout.slots)
    (hunknown : p.unknown.size ≤ layout.total) : AllLines (Line.Sized layout) [p.collect] := by
  have hsum : Line.Sized layout [.use (.constant (.offset p.residual.name)), .text " + ",
      .text (toString p.residual.size), .text "))"] := by
    refine ⟨nofun, ?_, by simp⟩
    rintro name after heq
    obtain ⟨rfl, rfl⟩ : p.residual.name = name ∧ _ = after := by simpa using heq
    exact ⟨p.residual, hresidual, _, rfl, rfl⟩
  unfold PlacedBlock.collect
  dsimp only
  rw [allLines_cons_block, allLines_forBelow (by decide) hunknown]
  refine ⟨?_, by simp [Line.argumentName_ne_loopStart], by simp⟩
  simpa using hsum

end Sections

namespace Blueprint

variable {plan : Blueprint} {dim : Dimension}

/-- The lines keep to the sizes of the layout, or come from the strategy. -/
def Measured (plan : Blueprint) (body : List Stmt) : Prop :=
  AllLines (fun l => l.Sized plan.layout ∨
    l ∈ linesIn (plan.solver.ownCode plan.solverContext)) body

theorem measured_of_sized {body : List Stmt} (h : AllLines (Line.Sized plan.layout) body) :
    plan.Measured body :=
  h.mono fun _ hl => Or.inl hl

/-- The four parts of a strategy. -/
theorem measured_ownCode (plan : Blueprint) :
    plan.Measured (plan.solver.members plan.solverContext) ∧
      plan.Measured (plan.solver.initialisation plan.solverContext) ∧
      plan.Measured (plan.solver.correction plan.solverContext) ∧
        plan.Measured (plan.solver.afterUpdate plan.solverContext) := by
  have hown : plan.Measured (plan.solver.ownCode plan.solverContext) := fun l hl => Or.inr hl
  simp only [Strategy.ownCode, Measured, allLines_append] at hown
  obtain ⟨⟨⟨hmembers, hinitialisation⟩, hcorrection⟩, hafter⟩ := hown
  exact ⟨hmembers, hinitialisation, hcorrection, hafter⟩

theorem Grounded.size_le_total (hplan : plan.Grounded dim) {slot : Slot}
    (hslot : slot ∈ plan.layout.slots) :
    slot.size ≤ plan.layout.total := by
  rw [hplan.layout_eq] at hslot ⊢
  have hstop := Layout.stop_le_total hslot
  unfold Slot.stop at hstop
  omega

theorem Grounded.arraySize_le_total (hplan : plan.Grounded dim) {slot : Slot}
    (hslot : slot ∈ plan.layout.slots) :
    slot.arraySize ≤ plan.layout.total := by
  rw [hplan.layout_eq] at hslot ⊢
  exact Layout.arraySize_le_total hslot

theorem measured_members (build : plan.Build) : plan.Measured build.members := by
  obtain ⟨hown, -, -, -⟩ := plan.measured_ownCode
  have htolerances : AllLines (Line.Sized plan.layout) plan.draft.tolerances.members := by
    unfold Tolerances.members
    simp only [allLines_append]
    refine ⟨⟨by simp [Tolerances.parameterMember], ?_⟩, ?_⟩
    · split
      · simp [Tolerances.parameterMember]
      · simp
    · split
      · simp [Tolerances.parameterMember]
      · simp
  have hlimits : AllLines (Line.Sized plan.layout) plan.draft.limits.members := by
    unfold Limits.members
    split
    · simp
    · simp
  have hstate : AllLines (Line.Sized plan.layout) [.comment "solver state",
      .line ["static constexpr bool ", .define (.constant .success), " = true;"],
      .line ["static constexpr bool ", .define (.constant .failure), " = false;"],
      plainMember vectorType .zeros, plainMember vectorType .zeros1, plainMember vectorType .fzeros,
      plainMember matrixType .jacobian,
      .line ["unsigned short ", .define (.member .iter), " = 0;"]] := by
    simp [plainMember, vectorType, matrixType, Line.concat]
  have hblocks : AllLines (Line.Sized plan.layout)
      (build.placed.map fun p => plainMember p.type (.inverseBlock p.block)) := by
    rw [allLines_map]
    intro p _
    simp [plainMember, PlacedBlock.type, Line.concat]
  rw [build.members_eq_append, Build.ownMembers]
  simp only [Measured, allLines_append]
  exact ⟨⟨⟨⟨measured_of_sized hstate, measured_of_sized htolerances⟩, measured_of_sized hlimits⟩,
    hown⟩, measured_of_sized hblocks⟩

theorem sized_views (plan : Blueprint) : AllLines (Line.Sized plan.layout) plan.views := by
  unfold views
  simp only [allLines_cons_comment, allLines_map]
  exact fun slot _ => sized_vectorView (by simp) slot .zeros

theorem sized_predictorMethod (plan : Blueprint) (code : String) :
    AllLines (Line.Sized plan.layout) (plan.predictorMethod code) := by
  unfold predictorMethod normaliseIncrements
  simp only [allLines_cons_block, allLines_cons_code, allLines_map, allLines_nil, and_true,
    List.mem_filterMap]
  refine ⟨by simp, by simp, trivial, ?_⟩
  rintro l ⟨v, -, hl⟩
  obtain ⟨s, -, rfl⟩ := Option.map_eq_some_iff.mp hl
  simp

theorem sized_residualMethod (hplan : plan.Grounded dim) (build : plan.Build) :
    AllLines (Line.Sized plan.layout)
      (plan.residualMethod (plan.code? .integrator) build.derivatives) := by
  have hnames : ∀ slot ∈ plan.layout.slots, residualName slot.name ≠ "for(unsigned short " :=
    fun slot hslot =>
    Line.residualName_ne_loopStart
      (hplan.sound.wellNamed.identifiers slot.name (Build.name_mem_of_mem_slots hplan hslot))
  have hprologue : ∀ slot ∈ plan.layout.slots,
      ∀ stmt ∈ (plan.draft.factors.prologue? slot.name).map Stmt.line,
      AllLines (Line.Sized plan.layout) [stmt] := by
    intro slot hslot stmt hstmt
    obtain ⟨l, hl, rfl⟩ := Option.map_eq_some_iff.mp hstmt
    obtain ⟨s, -, rfl⟩ := Option.map_eq_some_iff.mp hl
    simp [hnames slot hslot]
  have hepilogue : ∀ slot ∈ plan.layout.slots,
      ∀ stmt ∈ (plan.draft.factors.epilogue? slot.name).map Stmt.line,
      AllLines (Line.Sized plan.layout) [stmt] := by
    intro slot hslot stmt hstmt
    obtain ⟨l, hl, rfl⟩ := Option.map_eq_some_iff.mp hstmt
    obtain ⟨s, -, rfl⟩ := Option.map_eq_some_iff.mp hl
    simp [hnames slot hslot]
  have hscale : ∀ d ∈ build.derivatives, ∀ stmt ∈ (plan.draft.factors.scaleBlock? d).map Stmt.line,
      AllLines (Line.Sized plan.layout) [stmt] := by
    intro d hd stmt hstmt
    obtain ⟨l, hl, rfl⟩ := Option.map_eq_some_iff.mp hstmt
    obtain ⟨hresidual, hunknown⟩ := mem_slots_of_derivative build hd
    rw [allLines_cons_line, and_iff_left allLines_nil]
    exact sized_scaleBlock (hplan.arraySize_le_total hresidual)
      (hplan.arraySize_le_total hunknown) hl
  unfold residualMethod
  simp only [allLines_cons_block, allLines_append, allLines_map, allLines_filterMap,
    allLines_onlyIf, allLines_cons_line, allLines_nil, and_true]
  refine ⟨by simp, ⟨⟨⟨⟨⟨⟨⟨⟨⟨fun _ => sized_resetJacobian, by simp⟩, ?_⟩, ?_⟩, by simp⟩, hprologue⟩,
    by simp⟩, hepilogue⟩, hscale⟩, by simp⟩⟩
  · exact fun slot hslot => sized_vectorView (by simpa using hnames slot hslot) slot .fzeros
  · exact fun d _ => (plain_accessor (by simp) d (Line.blockName_ne_loopStart _ _)).sized

theorem sized_updateMethod (plan : Blueprint) :
    AllLines (Line.Sized plan.layout) plan.updateMethod := by
  unfold updateMethod
  simp

theorem sized_inverse (hplan : plan.Grounded dim) (build : plan.Build) :
    AllLines (Line.Sized plan.layout) build.inverse := by
  obtain ⟨undo, hundo, hinverse⟩ := build.exists_inverse_eq
  have hslots : ∀ p ∈ build.placed, p.unknown ∈ plan.layout.slots ∧
      p.residual ∈ plan.layout.slots :=
    fun p hp => Fits.mem_slots_of_placed build hp
  have hcopy : ∀ p ∈ build.placed, AllLines (Line.Sized plan.layout) [p.copy] := fun p hp =>
    sized_copy (hplan.size_le_total (hslots p hp).1) (hplan.size_le_total (hslots p hp).2)
  have hcollect : ∀ p ∈ build.placed, AllLines (Line.Sized plan.layout) [p.collect] := fun p hp =>
    sized_collect (hslots p hp).2 (hplan.size_le_total (hslots p hp).1)
  have hextraction : AllLines (Line.Sized plan.layout)
      (if plan.solver.capabilities.usesJacobianInvert then build.placed.map PlacedBlock.copy
        else collectBlocks build.placed) := by
    split
    · simpa using hcopy
    · simpa [collectBlocks, vectorType, Line.concat] using hcollect
  have hlines : AllLines (Line.Sized plan.layout) undo := by
    obtain ⟨-, -, heq⟩ := (undoBlocks_eq_ok_iff (named_of_placeBlocks build.placed_eq)).mp hundo
    rw [heq, allLines_map]
    intro l hl
    obtain ⟨block, -, hline⟩ := List.mem_filterMap.mp hl
    obtain ⟨scale, -, rfl⟩ := Option.map_eq_some_iff.mp hline
    have hplain : Line.Plain
        (.concat [[.text block.argumentName, .text " *= "], scale.line, [.text ";"]]) := by
      simp [Line.argumentName_ne_loopStart, plain_scale]
    simpa using hplain.sized
  have hhead : Line.Plain (.concat [["bool ", .define (.method .inverseBlocks), "("],
      .joinWith ", " (build.placed.map fun p => .concat [p.type, ["& ", p.block.argumentName]]),
      [")"]]) := by
    have harguments := Line.plain_joinWith (by decide : ", " ≠ "for(unsigned short ")
      (List.forall_mem_map.mpr fun (p : PlacedBlock) (_ : p ∈ build.placed) =>
        (by simp [PlacedBlock.type, Line.argumentName_ne_loopStart] :
          Line.Plain (.concat [p.type, ["& ", .text p.block.argumentName]])))
    simp [harguments]
  rw [hinverse]
  unfold handOut
  simp only [allLines_cons_block, allLines_append, allLines_nil, and_true]
  exact ⟨hhead.sized, ⟨hextraction, hlines⟩, by simp⟩

theorem sized_call (build : plan.Build) : AllLines (Line.Sized plan.layout) build.call := by
  have hhead : Line.Plain (callLine build.placed) := by
    have harguments := Line.plain_joinWith (by decide : ", " ≠ "for(unsigned short ")
      (List.forall_mem_map.mpr fun (p : PlacedBlock) (_ : p ∈ build.placed) =>
        (by simp : Line.Plain [.use (.member (.inverseBlock p.block))]))
    simp [callLine, harguments]
  rw [build.call_eq_callFor, callFor, allLines_cons_block]
  exact ⟨hhead.sized, by simp [fail], allLines_nil⟩

theorem sized_undoIncrements {layout : Layout} {factors : Factors} {undone : Undone}
    {slots : List Slot}
    {body : List Stmt} (h : undoIncrements factors undone slots = .ok body) :
    AllLines (Line.Sized layout) body := by
  induction slots generalizing undone body with
  | nil =>
      obtain rfl := Except.ok.inj h
      exact allLines_nil
  | cons slot rest ih =>
      unfold undoIncrements at h
      obtain ⟨⟨line?, noted⟩, hline, h⟩ := bind_eq_ok_iff.mp h
      obtain ⟨tail, htail, h⟩ := bind_eq_ok_iff.mp h
      obtain rfl := Except.ok.inj h
      refine allLines_append.mpr ⟨?_, ih htail⟩
      unfold Undone.increment at hline
      split at hline
      · obtain ⟨rfl, -⟩ := Prod.mk.inj (Except.ok.inj hline)
        simp
      · obtain ⟨_, -, hline⟩ := bind_eq_ok_iff.mp hline
        obtain ⟨rfl, -⟩ := Prod.mk.inj (Except.ok.inj hline)
        simp

theorem measured_correct (plan : Blueprint) (comparison call : Option String) :
    plan.Measured (plan.loop comparison call).correct := by
  obtain ⟨-, -, hcorrection, hafter⟩ := plan.measured_ownCode
  have hclamp : plan.Measured (plan.draft.limits.clamp plan.layout plan.draft.factors) :=
    measured_of_sized (sized_clamp _ _)
  simp only [Measured, Loop.correct, allLines_append, allLines_onlyIf]
    at hcorrection hafter hclamp ⊢
  refine ⟨⟨⟨⟨⟨fun _ => measured_of_sized ?_, hcorrection⟩, hclamp⟩, measured_of_sized ?_⟩, hafter⟩,
    fun _ => measured_of_sized ?_⟩
  · simp [Loop.computeJacobian, fail]
  · simp
  · simp [Loop.relax]

theorem measured_iteration (plan : Blueprint) (comparison call : Option String) :
    plan.Measured ((plan.loop comparison call).iteration
      (onlyIf plan.compares (jacobianComparison plan.layout))) := by
  have hcorrect := plan.measured_correct comparison call
  simp only [Measured, Loop.iteration, allLines_append, allLines_onlyIf, allLines_cons_block]
    at hcorrect ⊢
  refine ⟨⟨⟨⟨⟨measured_of_sized ?_, measured_of_sized ?_⟩,
    fun _ => measured_of_sized sized_jacobianComparison⟩, measured_of_sized ?_⟩, fun _ =>
      measured_of_sized ?_⟩, Or.inl (by simp), hcorrect, allLines_nil⟩
  · simp
  · simp [Loop.evaluate, fail]
  · simp [Loop.test, localValue, Line.concat]
  · simp [Loop.computeJacobian, fail]

theorem measured_loop (build : plan.Build) : plan.Measured build.loop := by
  obtain ⟨-, hinitialisation, -, -⟩ := plan.measured_ownCode
  have hiteration := plan.measured_iteration (Build.comparisonText plan) build.callText
  have hconclude : AllLines (Line.Sized plan.layout)
      ((plan.loop (Build.comparisonText plan) build.callText).conclude
      build.undoIncrements (onlyIf (plan.draft.inverseBlocks ≠ []) build.call)) := by
    simp only [Loop.conclude, allLines_append, allLines_onlyIf]
    refine ⟨⟨⟨⟨⟨⟨?_, sized_undoIncrements build.undoIncrements_eq⟩, ?_⟩, fun _ => ?_⟩,
      fun _ => sized_call build⟩, fun _ => ?_⟩, ?_⟩
    · simp [fail]
    · simp
    · simp
    · simp
    · simp
  simp only [Measured, Build.loop, Build.loopWith, Loop.body, allLines_cons_block, allLines_append,
    allLines_onlyIf, allLines_cons_line, allLines_nil, and_true] at hinitialisation hiteration ⊢
  refine ⟨Or.inl (by simp),
    ⟨⟨fun _ => Or.inl (by simp), hinitialisation⟩, Or.inl (by simp), Or.inl (by simp),
    Or.inl (by simp), hiteration⟩, measured_of_sized hconclude⟩

/-- All sections keep to the sizes of the layout, the code of the strategy apart. -/
theorem measured_of_mem_parts (hplan : plan.Grounded dim) (build : plan.Build) :
    ∀ part ∈ build.parts, plan.Measured part.2 := by
  unfold Build.parts
  simp only [List.forall_mem_append, List.forall_mem_cons, List.forall_mem_map, List.not_mem_nil,
    false_implies, implies_true, and_true, Option.mem_toList]
  refine ⟨⟨⟨⟨⟨⟨⟨⟨⟨measured_of_sized sized_offsetConstants, measured_members build,
    measured_of_sized plan.sized_views⟩, ?_⟩, ?_⟩, measured_of_sized (sized_residualMethod hplan
    build)⟩, ?_⟩, measured_of_sized plan.sized_updateMethod⟩, ?_⟩, ?_⟩, measured_loop build⟩
  · exact fun code _ => measured_of_sized (plan.sized_predictorMethod code)
  · exact fun code _ => measured_of_sized (by simp [plainMethod])
  · split
    · exact List.forall_mem_singleton.mpr (measured_of_sized sized_numericalJacobianMethod)
    · exact fun _ h => absurd h List.not_mem_nil
  · exact fun code _ => measured_of_sized (by simp [plainMethod])
  · split
    · exact fun _ h => absurd h List.not_mem_nil
    · exact List.forall_mem_singleton.mpr (measured_of_sized (sized_inverse hplan build))

end Blueprint

/-- The comparison has a loop over every slot. -/
theorem mem_linesIn_jacobianComparison {layout : Layout} {slot : Slot}
    (hslot : slot ∈ layout.slots) :
    .forIndex "idx" [Constant.offset slot.name] [Constant.offset slot.name, " + ",
      toString slot.size] ∈ linesIn (jacobianComparison layout) := by
  have hblock : .forIndex "idx" [Constant.offset slot.name] [Constant.offset slot.name, " + ",
      toString slot.size] ∈ lines (compareBlock layout slot slot) := by
    simp [compareBlock, forSlot, lines, linesIn]
  unfold jacobianComparison
  simp only [linesIn, lines, List.append_nil]
  refine List.mem_cons_of_mem _ (mem_linesIn.mpr ⟨_, List.mem_append_right _ ?_, hblock⟩)
  exact List.mem_flatMap.mpr ⟨slot, hslot, List.mem_map_of_mem hslot⟩

theorem Blueprint.mem_linesIn_loop {plan : Blueprint} {build : plan.Build}
    (hcompares : plan.compares = true) {l : Line}
    (h : l ∈ linesIn (jacobianComparison plan.layout)) : l ∈ linesIn build.loop := by
  simp only [Build.loop, Build.loopWith, Loop.body, Loop.iteration, hcompares, onlyIf, if_true,
    linesIn, lines, linesIn_append, List.mem_append, List.mem_cons]
  grind

/-! ## Numbers -/

namespace Layout

variable {layout : Layout}

theorem lookup_offset (hdistinct : layout.NamesDistinct) {slot : Slot}
    (hslot : slot ∈ layout.slots) :
    layout.constants.lookup (.offset slot.name) = some slot.offset := by
  obtain ⟨before, after, hslots⟩ := List.append_of_mem hslot
  -- no slot before it has the same name
  have hbefore : ∀ other ∈ before, slot.name ≠ other.name := by
    unfold NamesDistinct at hdistinct
    rw [hslots, List.map_append, List.map_cons, List.nodup_append] at hdistinct
    intro other hother hname
    exact hdistinct.2.2 _ (List.mem_map_of_mem hother) _ (List.mem_cons_self ..) hname.symm
  rw [constants_eq, hslots, List.map_append, List.map_cons, List.append_assoc, List.cons_append,
    List.lookup_eq_some_iff]
  exact ⟨_, _, rfl, List.forall_mem_map.mpr fun other hother => by simpa using hbefore other hother⟩

theorem offset_le_total {dim : Dimension} {vars : List Variable} {slot : Slot}
    (h : slot ∈ (plan dim vars).slots) :
    slot.offset ≤ (plan dim vars).total := by
  have hstop := stop_le_total h
  unfold Slot.stop at hstop
  omega

end Layout

section Ranges

variable {dim : Dimension} {vars : List Variable}

/-- The bounds of a range over a slot. -/
theorem value?_slot (hnames : (vars.map (·.name)).Nodup) {slot : Slot}
    (hslot : slot ∈ (Layout.plan dim vars).slots) :
    Line.value? (Layout.plan dim vars).constants [Constant.offset slot.name] =
      some (slot.offset % UInt16.size) ∧
      Line.value? (Layout.plan dim vars).constants [Constant.offset slot.name, " + ",
        toString slot.size] =
        some (slot.offset % UInt16.size + slot.size) := by
  have hvalue : shortValue? (Layout.plan dim vars).constants (.offset slot.name) =
      some (.ofNat slot.offset) := by
    rw [shortValue?, Layout.lookup_offset (Layout.plan_namesDistinct dim hnames) hslot,
      Option.map_some]
  simp [Line.value?, hvalue, UInt16.size]

/-- If the number of unknowns fits, a loop over a range makes as many passes as the range is
long. -/
theorem IndexRange.passes (hnames : (vars.map (·.name)).Nodup) {start stop : Line} {length : Nat}
    (h : IndexRange (.plan dim vars) start stop length) :
    ∃ first last, start.value? (Layout.plan dim vars).constants = some first ∧
      stop.value? (Layout.plan dim vars).constants = some last ∧
      ((Layout.plan dim vars).total < UInt16.size → EndsAfter (.ofNat first) last length) := by
  cases h with
  | all =>
      refine ⟨0, _, value?_number _ 0, value?_size _, fun htotal => ?_⟩
      rw [Nat.mod_eq_of_lt htotal]
      exact endsAfter_of_le (Nat.zero_le _) htotal
  | slot hslot =>
      rename_i slot
      obtain ⟨hfirst, hlast⟩ := value?_slot hnames hslot
      refine ⟨_, _, hfirst, hlast, fun htotal => ?_⟩
      have hstop := Layout.stop_le_total hslot
      unfold Slot.stop at hstop
      have hfits : slot.offset % UInt16.size = slot.offset := Nat.mod_eq_of_lt (by omega)
      have hstart : (UInt16.ofNat slot.offset).toNat = slot.offset := by rw [toNat_ofNat, hfits]
      have hpasses : EndsAfter (.ofNat slot.offset) (slot.offset + slot.size)
          (slot.offset + slot.size - (UInt16.ofNat slot.offset).toNat) :=
          endsAfter_of_le (by omega) (by omega)
      rw [hstart, Nat.add_sub_cancel_left] at hpasses
      rwa [hfits]
  | below hbound =>
      exact ⟨0, _, value?_number _ 0, value?_number _ _, fun htotal =>
        endsAfter_of_le (Nat.zero_le _) (Nat.lt_of_le_of_lt hbound htotal)⟩

end Ranges

namespace Compiler

open Blueprint

variable {compiler : Compiler} {description : Description} {hypothesis : Hypothesis}
  {plan : Blueprint}

/-- The constants of 16 bits are the offsets and the number of unknowns, and all of them fit exactly
if the last one does.  No sum of an offset and a size is larger than it.  All loops of the class,
those of a built-in strategy among them, go through ranges of the layout.  A loop ends if and only
if its bound fits, and if the number of unknowns fits, it makes as many passes as its range is
long. -/
theorem sizes_fit_iff_unknowns_fit {generated : GeneratedClass}
    (hcompile : (compiler.compile description hypothesis).outcome = .ok generated)
    (hplan : (compiler.blueprint description hypothesis).outcome = .ok plan) :
    generated.layout = plan.layout ∧
      plan.layout.constants =
        plan.layout.slots.map (fun slot => (.offset slot.name, slot.offset)) ++
          [(.size, plan.layout.total)] ∧
      ((∀ constant ∈ plan.layout.constants, constant.2 < UInt16.size) ↔ plan.layout.total <
        UInt16.size) ∧
      (∀ slot ∈ plan.layout.slots, slot.stop ≤ plan.layout.total) ∧
      (∃ build : plan.Build, generated.sections =
        build.parts.map (fun part => plan.sectionOf part.1 part.2) ∧
        ∀ part ∈ build.parts, ∀ l ∈ linesIn part.2,
          l.Sized plan.layout ∨ l ∈ linesIn (plan.solver.ownCode plan.solverContext)) ∧
      (∀ name, Solvers.builtin.get? name = some plan.solver →
        ∀ l ∈ linesIn (plan.solver.ownCode plan.solverContext), l.Sized plan.layout) ∧
      ∀ start stop length, IndexRange plan.layout start stop length →
        ∃ first last, start.value? plan.layout.constants = some first ∧
          stop.value? plan.layout.constants = some last ∧
          ((∃ count, EndsAfter (.ofNat first) last count) ↔ last < UInt16.size) ∧
          (plan.layout.total < UInt16.size → EndsAfter (.ofNat first) last length) := by
  have hgrounded := grounded_of_blueprint hplan
  have hnames := hgrounded.sound.wellNamed.nodup
  obtain ⟨build, hsections⟩ := exists_build hcompile hplan
  obtain ⟨plan', _, hplan', -, rfl⟩ := compile_eq_ok_iff.mp hcompile
  obtain rfl : plan = plan' := Except.ok.inj (hplan.symm.trans hplan')
  refine ⟨rfl, plan.layout.constants_eq, ?_, ?_,
    ⟨build, hsections, measured_of_mem_parts hgrounded build⟩, ?_, ?_⟩
  · rw [plan.layout.constants_eq, hgrounded.layout_eq]
    constructor
    · intro h
      exact h _ (List.mem_append_right _ (List.mem_singleton_self _))
    · intro htotal
      rw [List.forall_mem_append, List.forall_mem_map, List.forall_mem_singleton]
      exact ⟨fun slot hslot => Nat.lt_of_le_of_lt (Layout.offset_le_total hslot) htotal, htotal⟩
  · rw [hgrounded.layout_eq]
    exact fun slot hslot => Layout.stop_le_total hslot
  · exact fun name hname => (Strategy.loopsOver_of_builtin hname).sized plan.solverContext
  · rw [hgrounded.layout_eq]
    intro start stop length hrange
    obtain ⟨first, last, hfirst, hlast, hpasses⟩ := hrange.passes hnames
    exact ⟨first, last, hfirst, hlast, exists_endsAfter_iff, hpasses⟩

/-- Two variables that have one unknown more than 16 bits can count. -/
def wide : Description where
  className := "Wide"
  events :=
    [{ declaration := .integrationVariable "x" .scalar 65535 },
      { declaration := .integrationVariable "y" .scalar 1 },
      { declaration := .compareToNumericalJacobian true }]

theorem wide_plan :
    ∃ plan, (({} : Compiler).blueprint wide .tridimensional).outcome = .ok plan ∧
      plan.draft.roster.vars = [⟨"x", .scalar, 65535⟩, ⟨"y", .scalar, 1⟩] ∧
      plan.draft.inverseBlocks = [] ∧
      plan.compares = true := by
  have hchecked : (match (({} : Compiler).blueprint wide .tridimensional).outcome with
      | .error _ => false
      | .ok plan => plan.draft.roster.vars = [⟨"x", .scalar, 65535⟩, ⟨"y", .scalar, 1⟩] &&
        plan.draft.inverseBlocks = [] && plan.compares) = true := by
    decide +kernel
  split at hchecked
  · cases hchecked
  · rename_i plan hplan
    simp only [Bool.and_eq_true, decide_eq_true_eq] at hchecked
    exact ⟨plan, hplan, hchecked.1.1, hchecked.1.2, hchecked.2⟩

theorem wide_compile {plan : Blueprint}
    (hplan : (({} : Compiler).blueprint wide .tridimensional).outcome = .ok plan)
    (hvars : plan.draft.roster.vars = [⟨"x", .scalar, 65535⟩, ⟨"y", .scalar, 1⟩])
    (hblocks : plan.draft.inverseBlocks = []) :
    ∃ generated, (({} : Compiler).compile wide .tridimensional).outcome = .ok generated := by
  refine exists_compile_eq_ok hplan hblocks ?_
  rw [hvars]
  rintro r hr u - - ⟨hrank, -⟩
  simp only [List.mem_cons, List.not_mem_nil, or_false] at hr
  rcases hr with rfl | rfl
  · cases hrank
  · cases hrank

/-- A class can be generated whose number of unknowns does not fit, and with a loop that goes on for
ever. -/
theorem wide_loop_never_ends :
    ∃ generated plan, (({} : Compiler).compile wide .tridimensional).outcome = .ok generated ∧
      (({} : Compiler).blueprint wide .tridimensional).outcome = .ok plan ∧
      (Constant.size, 65536) ∈ plan.layout.constants ∧
      ∃ build : plan.Build, generated.sections =
        build.parts.map (fun part => plan.sectionOf part.1 part.2) ∧
        ∃ body start stop, (SectionKind.integrate, body) ∈ build.parts ∧
          .forIndex "idx" start stop ∈ linesIn body ∧
          start.value? plan.layout.constants = some 65535 ∧ stop.value? plan.layout.constants =
            some 65536 ∧
          ¬ ∃ count, EndsAfter (.ofNat 65535) 65536 count := by
  obtain ⟨plan, hplan, hvars, hblocks, hcompares⟩ := wide_plan
  obtain ⟨generated, hcompile⟩ := wide_compile hplan hvars hblocks
  obtain ⟨build, hsections⟩ := exists_build hcompile hplan
  have hgrounded := grounded_of_blueprint hplan
  have hlayout : plan.layout = Layout.plan .three [⟨"x", .scalar, 65535⟩, ⟨"y", .scalar, 1⟩] := by
    rw [hgrounded.layout_eq, hvars]
    rfl
  have hslot : (⟨⟨"y", .scalar, 1⟩, 65535, 1⟩ : Slot) ∈ plan.layout.slots := by
    rw [hlayout]
    decide
  obtain ⟨hfirst, hlast⟩ :=
    value?_slot hgrounded.sound.wellNamed.nodup (hgrounded.layout_eq ▸ hslot)
  refine ⟨generated, plan, hcompile, hplan, ?_, build, hsections, build.loop, _, _,
    build.integrate_mem, mem_linesIn_loop hcompares (mem_linesIn_jacobianComparison hslot),
    hgrounded.layout_eq ▸ hfirst, hgrounded.layout_eq ▸ hlast, ?_⟩
  · rw [Layout.constants_eq, hlayout]
    decide
  · rw [exists_endsAfter_iff]
    decide

theorem sizes_fit_iff_unknowns_fit_wide :
    ∃ generated plan, (({} : Compiler).compile wide .tridimensional).outcome = .ok generated ∧
      (({} : Compiler).blueprint wide .tridimensional).outcome = .ok plan ∧
      plan.layout.total = 65536 ∧
      ¬ ∀ constant ∈ plan.layout.constants, constant.2 < UInt16.size := by
  obtain ⟨plan, hplan, hvars, hblocks, -⟩ := wide_plan
  obtain ⟨generated, hcompile⟩ := wide_compile hplan hvars hblocks
  obtain ⟨-, -, hfit, -⟩ := sizes_fit_iff_unknowns_fit hcompile hplan
  have htotal : plan.layout.total = 65536 := by
    rw [(grounded_of_blueprint hplan).layout_eq, hvars]
    rfl
  refine ⟨generated, plan, hcompile, hplan, htotal, ?_⟩
  rw [hfit, htotal]
  decide

end Compiler

end Constitutive
