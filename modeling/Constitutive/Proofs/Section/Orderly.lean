import Constitutive.Proofs.Closed
import Constitutive.Proofs.Code.Frames

/-!
# Sections are orderly

Names of variables are identifiers, so nothing that is made from them has braces.  Numbers have none
either.  What is left are the texts of the sections themselves, and they are checked section by
section: every line closes the braces that it opens (`orderlyIn_of_mem_parts`).
-/

namespace Constitutive

open Stmt Line Text

/-! ## Names -/

section Names

variable {a b : String}

theorem tame_residualName (ha : Tame a) : Tame (residualName a) :=
  tame_append.mpr ⟨tame_ofList rfl, ha⟩

theorem tame_incrementName (ha : Tame a) : Tame (incrementName a) :=
  tame_append.mpr ⟨tame_ofList rfl, ha⟩

theorem tame_offset (ha : Tame a) : Tame (Symbol.constant (.offset a)).name :=
  tame_append.mpr ⟨ha, tame_ofList rfl⟩

theorem tame_blockName (ha : Tame a) (hb : Tame b) : Tame (blockName a b) := by
  unfold blockName
  simp only [tame_append]
  exact ⟨⟨⟨tame_ofList rfl, ha⟩, tame_ofList rfl⟩, hb⟩

theorem tame_argumentName {block : InverseBlock} (hunknown : Tame block.unknown)
    (hresidual : Tame block.residual) :
    Tame block.argumentName := by
  unfold InverseBlock.argumentName
  simp only [tame_append]
  exact ⟨⟨⟨tame_ofList rfl, hunknown⟩, tame_ofList rfl⟩, hresidual⟩

theorem tame_memberName {block : InverseBlock} (hunknown : Tame block.unknown)
    (hresidual : Tame block.residual) :
    Tame block.memberName := by
  unfold InverseBlock.memberName
  simp only [tame_append]
  exact ⟨⟨⟨tame_ofList rfl, hunknown⟩, tame_ofList rfl⟩, hresidual⟩

theorem tame_typeName (rank : Rank) : Tame rank.typeName := by
  cases rank with
  | scalar => exact tame_ofList rfl
  | vector => exact tame_ofList rfl
  | symmetricTensor => exact tame_ofList rfl

theorem tame_strided (offset : Nat) {index : String} (hindex : Tame index) (stride : Nat) :
    Tame (Index.strided offset index stride).render := by
  have htext : ∀ text : String, toString text = text := fun _ => rfl
  by_cases hstride : stride = 1
  · simp only [Index.render, hstride, if_true, htext, tame_append]
    exact ⟨⟨tame_repr offset, tame_ofList rfl⟩, hindex⟩
  · simp only [Index.render, hstride, if_false, htext, tame_append]
    exact ⟨⟨⟨⟨tame_repr offset, tame_ofList rfl⟩, hindex⟩, tame_ofList rfl⟩, tame_repr stride⟩

theorem tame_rowIndex (d : Derivative) : Tame d.rowIndex.render := by
  unfold Derivative.rowIndex
  split
  · exact tame_strided _ (tame_ofList rfl) _
  · exact tame_strided _ (tame_ofList rfl) _
  · exact tame_repr _

theorem tame_columnIndex (d : Derivative) : Tame d.columnIndex.render := by
  unfold Derivative.columnIndex
  split
  · exact tame_strided _ (tame_ofList rfl) _
  · exact tame_strided _ (tame_ofList rfl) _
  · exact tame_repr _

theorem tame_title (kind : SectionKind) : Tame kind.title := by
  cases kind <;> exact tame_ofList rfl

end Names

/-! ## Lines -/

theorem orderly_vectorView {label : Piece} (hlabel : Closes [label]) (slot : Slot)
    (vector : Member) :
    Orderly (vectorView label slot vector) := by
  have hpiece : ∀ depth l, after depth (label :: l) = after depth l :=
    fun _ _ => hlabel.after_append
  have htype := tame_typeName slot.rank
  have hsize := tame_repr slot.arraySize
  unfold vectorView
  split
  · simp (disch := exact tame_ofList rfl) [Closes, concat, hpiece, after_text htype,
      after_text hsize]
  · simp (disch := exact tame_ofList rfl) [Closes, concat, hpiece, after_text htype]

theorem closes_view {matrix : Piece} (hmatrix : Closes [matrix]) (d : Derivative) :
    Closes (d.view matrix) := by
  have hpiece : ∀ depth l, after depth (matrix :: l) = after depth l :=
    fun _ _ => hmatrix.after_append
  have hrow := tame_rowIndex d
  have hcolumn := tame_columnIndex d
  have hresidual := tame_typeName d.residual.rank
  have hunknown := tame_typeName d.unknown.rank
  unfold Derivative.view
  split
  · simp (disch := exact tame_ofList rfl) [Closes, hpiece, after_text hrow, after_text hcolumn]
  · simp (disch := exact tame_ofList rfl) [Closes, hpiece, after_text hrow, after_text hcolumn,
      after_text hresidual, after_text hunknown]

/-- The functions of array indices that give a block. -/
theorem after_openFunction {depth : Nat} {l : Line} :
    after depth (.text " = [&](const unsigned short idx) -> decltype(auto) \x7b return " :: l) =
      after (depth + 1) l :=
  after_ofList (a := 0) (b := 1) rfl

theorem after_openFunction₂ {depth : Nat} {l : Line} :
    after depth (.text
      " = [&](const unsigned short idx, const unsigned short idx2) -> decltype(auto) \x7b return "
      :: l) = after (depth + 1) l :=
  after_ofList (a := 0) (b := 1) (by decide +kernel)

theorem after_closeFunction {depth : Nat} {l : Line} :
    after (depth + 1) (.text "; \x7d;" :: l) = after depth l :=
  after_ofList (a := 1) (b := 0) rfl

theorem closes_accessor {matrix : Piece} (hmatrix : Closes [matrix]) (d : Derivative)
    {label : String} (hlabel : Tame label) :
    Closes (d.accessor label matrix) := by
  have hpiece : ∀ depth l, after depth (matrix :: l) = after depth l :=
    fun _ _ => hmatrix.after_append
  have hview := closes_view hmatrix d
  have hrow := tame_rowIndex d
  have hcolumn := tame_columnIndex d
  have hresidual := tame_typeName d.residual.rank
  have hunknown := tame_typeName d.unknown.rank
  unfold Derivative.accessor
  split
  · split
    · simp (disch := exact tame_ofList rfl) [Closes, concat, after_text hlabel, hview.after_append]
    · simp (disch := exact tame_ofList rfl) [Closes, hpiece, after_text hlabel, after_text hrow,
        after_text hcolumn, after_text hresidual, after_text hunknown]
  · simp (disch := exact tame_ofList rfl) [Closes, concat, after_text hlabel, hview.after_append,
      after_openFunction, after_closeFunction]
  · simp (disch := exact tame_ofList rfl) [Closes, concat, after_text hlabel, hview.after_append,
      after_openFunction, after_closeFunction]
  · simp (disch := exact tame_ofList rfl) [Closes, concat, after_text hlabel, hview.after_append,
      after_openFunction₂, after_closeFunction]

theorem closes_scale (scale : Scale) : Closes scale.line := by
  cases scale with
  | times s => simp (disch := exact tame_ofList rfl) [Scale.line, Closes]
  | reciprocal r => simp (disch := exact tame_ofList rfl) [Scale.line, Closes]
  | ratio s r => simp (disch := exact tame_ofList rfl) [Scale.line, Closes]

section Scaling

variable {factors : Factors}

theorem closes_prologue {name : String} (hname : Tame (residualName name)) :
    ∀ l ∈ factors.prologue? name, Closes l := by
  intro l h
  obtain ⟨s, -, rfl⟩ := Option.map_eq_some_iff.mp h
  simp (disch := exact tame_ofList rfl) [Closes, after_text hname]

theorem closes_epilogue {name : String} (hname : Tame (residualName name)) :
    ∀ l ∈ factors.epilogue? name, Closes l := by
  intro l h
  obtain ⟨s, -, rfl⟩ := Option.map_eq_some_iff.mp h
  simp (disch := exact tame_ofList rfl) [Closes, after_text hname]

theorem closes_scaleBlock {d : Derivative} (hname : Tame d.name) :
    ∀ l ∈ factors.scaleBlock? d, Closes l := by
  intro l h
  obtain ⟨scale, -, rfl⟩ := Option.map_eq_some_iff.mp h
  have hscale := closes_scale scale
  have hbody : ∀ indices : String, Tame indices →
      Closes (.concat [[.text d.name, .text indices, .text " *= "], scale.line, [.text ";"]]) := by
    intro indices hindices
    simp (disch := exact tame_ofList rfl) [Closes, concat, after_text hname, after_text hindices,
      hscale.after_append]
  dsimp only
  split
  · exact hbody "" (tame_ofList rfl)
  · exact closes_inBraces (closes_forBelow_repr (tame_ofList rfl) _)
      (hbody "(idx)" (tame_ofList rfl))
  · exact closes_inBraces (closes_forBelow_repr (tame_ofList rfl) _)
      (hbody "(idx)" (tame_ofList rfl))
  · exact closes_inBraces (closes_forBelow_repr (tame_ofList rfl) _)
      (closes_inBraces (closes_forBelow_repr (tame_ofList rfl) _)
        (hbody "(idx, idx2)" (tame_ofList rfl)))

theorem orderly_of_mem_map {l? : Option Line} (h : ∀ l ∈ l?, Closes l) :
    ∀ stmt ∈ l?.map Stmt.line, Orderly stmt := by
  intro stmt hstmt
  obtain ⟨l, hl, rfl⟩ := Option.map_eq_some_iff.mp hstmt
  exact h l hl

end Scaling

/-! ## Sections -/

section Sections

variable {layout : Layout}

theorem orderlyIn_offsetConstants (hnames : ∀ slot ∈ layout.slots, Tame slot.name) :
    OrderlyIn layout.offsetConstants := by
  have hsize : Tame (Symbol.constant .size).name := tame_ofList rfl
  have htotal := tame_repr layout.total
  unfold Layout.offsetConstants
  simp only [orderlyIn_append, orderlyIn_cons, orderlyIn_map]
  refine ⟨⟨tame_ofList rfl, fun slot hslot => ?_⟩, ?_, trivial⟩
  · have hoffset := tame_repr slot.offset
    have hname := tame_offset (hnames slot hslot)
    simp (disch := exact tame_ofList rfl) [Closes, after_define hname, after_text hoffset]
  · simp (disch := exact tame_ofList rfl) [Closes, after_define hsize, after_text htotal]

theorem orderly_parameterMember {type value : String} (htype : Tame type) {member : Member}
    (hmember : Tame member.name)
    (hvalue : Tame value) : Orderly (Tolerances.parameterMember type member value) := by
  have hname : Tame (Symbol.member member).name := hmember
  simp (disch := exact tame_ofList rfl) [Tolerances.parameterMember, Closes, after_text htype,
    after_define hname, after_text hvalue]

theorem orderlyIn_tolerances (tolerances : Tolerances) : OrderlyIn tolerances.members := by
  have hreal : ∀ (member : Member) (x : Float), Tame member.name →
      Orderly (Tolerances.parameterMember "real" member (Decimal.literal x)) :=
    fun member x hmember => orderly_parameterMember (tame_ofList rfl) hmember (tame_literal x)
  have hshort : ∀ (member : Member) (n : Nat), Tame member.name →
      Orderly (Tolerances.parameterMember "unsigned short" member (toString n)) :=
    fun member n hmember => orderly_parameterMember (tame_ofList rfl) hmember (tame_repr n)
  unfold Tolerances.members
  simp only [orderlyIn_append]
  refine ⟨⟨⟨hreal _ _ (tame_ofList rfl), hreal _ _ (tame_ofList rfl), hshort _ _ (tame_ofList rfl),
    hreal _ _ (tame_ofList rfl), trivial⟩, ?_⟩, ?_⟩
  · split
    · exact ⟨hreal _ _ (tame_ofList rfl), trivial⟩
    · trivial
  · split
    · exact ⟨hshort _ _ (tame_ofList rfl), hreal _ _ (tame_ofList rfl), trivial⟩
    · trivial

theorem orderlyIn_limits (limits : Limits) : OrderlyIn limits.members := by
  unfold Limits.members
  split
  · trivial
  · rename_i value _
    have hname : Tame (Symbol.member .maximumIncrement).name := tame_ofList rfl
    have hvalue := tame_literal value
    simp (disch := exact tame_ofList rfl) [Closes, after_define hname, after_text hvalue]

theorem orderly_clampComponent {bound : Line} (hbound : Closes bound) :
    Orderly (Limits.clampComponent bound) := by
  simp (disch := exact tame_ofList rfl) [Limits.clampComponent, Closes, concat, hbound.after_append]

theorem closes_forSlot {index : String} (hindex : Tame index) (slot : Slot) :
    Closes (.forIndex index [Constant.offset slot.name] [Constant.offset slot.name, " + ",
      toString slot.size]) := by
  have hsize := tame_repr slot.size
  have hstop : Closes [Constant.offset slot.name, " + ", toString slot.size] := by
    simp (disch := exact tame_ofList rfl) [Closes, after_text hsize]
  exact closes_forIndex hindex (fun _ => after_use) hstop

theorem orderlyIn_clamp (limits : Limits) (factors : Factors) :
    OrderlyIn (limits.clamp layout factors) := by
  unfold Limits.clamp
  rw [orderlyIn_append, orderlyIn_flatMap]
  refine ⟨fun slot _ => ?_, ?_⟩
  · unfold Limits.clampSlot
    split
    · trivial
    · rename_i limit _
      have hlimit := tame_literal limit
      refine ⟨⟨closes_forSlot (tame_ofList rfl) slot, orderly_clampComponent ?_, trivial⟩, trivial⟩
      split
      · simp (disch := exact tame_ofList rfl) [Closes, after_text hlimit]
      · exact fun _ => after_text hlimit
  · split
    · trivial
    · exact ⟨(orderly_forAllUnknowns (tame_ofList rfl)).mpr
        ⟨orderly_clampComponent fun _ => after_use, trivial⟩, trivial⟩

theorem orderly_raiseToDifference {maximum : String} (hmaximum : Tame maximum) :
    Orderly (raiseToDifference maximum) := by
  simp (disch := exact tame_ofList rfl) [raiseToDifference, Closes, after_text hmaximum]

theorem orderlyIn_printBlock {r u : Slot} (hr : Tame r.name) (hu : Tame u.name) :
    OrderlyIn (printBlock layout r u) := by
  unfold printBlock
  split
  · trivial
  · rename_i d _
    split
    · trivial
    · have hname := tame_blockName hr hu
      have hnumerical : Tame ("n" ++ blockName r.name u.name) :=
        tame_append.mpr ⟨tame_ofList rfl, hname⟩
      have hnjacobian : Closes ["njacobian"] := fun _ => after_text (tame_ofList rfl)
      refine ⟨closes_accessor (fun _ => after_use) d hname, closes_accessor hnjacobian d hnumerical,
        ?_, trivial⟩
      simp (disch := exact tame_ofList rfl) [Closes, after_text hname, after_text hnumerical]

theorem orderly_compareBlock {r u : Slot} (hr : Tame r.name) (hu : Tame u.name) :
    Orderly (compareBlock layout r u) := by
  have hname := tame_blockName hr hu
  have hrows := tame_repr r.components
  have hcolumns := tame_repr u.components
  have hraise := orderly_raiseToDifference (tame_ofList rfl : Tame "block_error")
  refine ⟨fun _ => after_nil, ?_,
    ⟨closes_forSlot (tame_ofList rfl) r, ⟨closes_forSlot (tame_ofList rfl) u, hraise, trivial⟩,
    trivial⟩, ⟨?_, ?_, orderlyIn_printBlock hr hu⟩, trivial⟩
  · exact fun _ => after_text (tame_ofList rfl)
  · simp (disch := exact tame_ofList rfl) [Closes, after_text hrows, after_text hcolumns]
  · simp (disch := exact tame_ofList rfl) [Closes, after_text hname]

theorem orderlyIn_jacobianComparison (hnames : ∀ slot ∈ layout.slots, Tame slot.name) :
    OrderlyIn (jacobianComparison layout) := by
  have hraise := orderly_raiseToDifference (tame_ofList rfl : Tame "jacobian_error")
  have hloops : Orderly
      (forAllUnknowns "idx" [forAllUnknowns "idx2" [raiseToDifference "jacobian_error"]]) := by
    rw [orderly_forAllUnknowns (tame_ofList rfl), orderlyIn_cons,
      orderly_forAllUnknowns (tame_ofList rfl)]
    exact ⟨⟨hraise, trivial⟩, trivial⟩
  have hblocks : OrderlyIn (layout.slots.flatMap fun r => layout.slots.map fun u =>
      compareBlock layout r u) := by
    simp only [orderlyIn_flatMap, orderlyIn_map]
    exact fun r hr u hu => orderly_compareBlock (hnames r hr) (hnames u hu)
  have hmatrix := closes_matrixType
  unfold jacobianComparison
  simpa (disch := exact tame_ofList rfl) [Closes, concat, orderly_fail, hmatrix.after_append,
    hloops] using hblocks

theorem orderlyIn_numericalJacobianMethod :
    OrderlyIn (numericalJacobianMethod Member.numericalJacobianEpsilon) := by
  have hname : Tame (Symbol.method .numericalJacobian).name := tame_ofList rfl
  have hvector := closes_vectorType
  have hmatrix := closes_matrixType
  have hevaluate : Orderly evaluateOrRestore := by
    simp (disch := exact tame_ofList rfl) [evaluateOrRestore, Closes]
  simp (disch := exact tame_ofList rfl) [numericalJacobianMethod, localValue, localCopy, Closes,
    concat, after_define hname, hvector.after_append, hmatrix.after_append, hevaluate]

theorem closes_placedType (p : PlacedBlock) : Closes p.type := by
  have hrows := tame_repr p.unknown.size
  have hcolumns := tame_repr p.residual.size
  simp (disch := exact tame_ofList rfl) [PlacedBlock.type, Closes, after_text hrows,
    after_text hcolumns]

theorem orderly_copy {p : PlacedBlock} (hname : Tame p.block.argumentName) : Orderly p.copy := by
  refine ⟨closes_forBelow_repr (tame_ofList rfl) _,
    ⟨closes_forBelow_repr (tame_ofList rfl) _, ?_, trivial⟩, trivial⟩
  simp (disch := exact tame_ofList rfl) [Closes, after_text hname]

theorem orderly_collect {p : PlacedBlock} (hname : Tame p.block.argumentName) :
    Orderly p.collect := by
  have hcolumns := tame_repr p.residual.size
  refine ⟨?_, ⟨closes_forBelow_repr (tame_ofList rfl) _, ?_, trivial⟩, trivial⟩
  · simp (disch := exact tame_ofList rfl) [Closes, after_text hcolumns]
  · simp (disch := exact tame_ofList rfl) [Closes, after_text hname]

theorem orderlyIn_collectBlocks {placed : List PlacedBlock}
    (hnames : ∀ p ∈ placed, Tame p.block.argumentName) :
    OrderlyIn (collectBlocks placed) := by
  have hvector := closes_vectorType
  have hcollect : ∀ p ∈ placed, Orderly p.collect := fun p hp => orderly_collect (hnames p hp)
  simpa (disch := exact tame_ofList rfl) [collectBlocks, Closes, concat, hvector.after_append]
    using hcollect

theorem orderlyIn_undoIncrements {factors : Factors} {undone : Undone} {slots : List Slot}
    {body : List Stmt} (h : undoIncrements factors undone slots = .ok body) : OrderlyIn body := by
  induction slots generalizing undone body with
  | nil =>
      obtain rfl := Except.ok.inj h
      trivial
  | cons slot rest ih =>
      unfold undoIncrements at h
      obtain ⟨⟨line?, noted⟩, hline, h⟩ := bind_eq_ok_iff.mp h
      obtain ⟨tail, htail, h⟩ := bind_eq_ok_iff.mp h
      obtain rfl := Except.ok.inj h
      refine orderlyIn_append.mpr ⟨?_, ih htail⟩
      unfold Undone.increment at hline
      split at hline
      · obtain ⟨rfl, -⟩ := Prod.mk.inj (Except.ok.inj hline)
        trivial
      · obtain ⟨_, -, hline⟩ := bind_eq_ok_iff.mp hline
        obtain ⟨rfl, -⟩ := Prod.mk.inj (Except.ok.inj hline)
        simp (disch := exact tame_ofList rfl) [Closes]

end Sections

namespace Blueprint

variable {plan : Blueprint} {dim : Dimension}

theorem tame_of_mem_names (hplan : plan.Grounded dim) {name : String}
    (h : name ∈ plan.draft.roster.names) : Tame name :=
  tame_of_isVariableName (hplan.sound.wellNamed.identifiers name h)

theorem tame_of_mem_slots (hplan : plan.Grounded dim) :
    ∀ slot ∈ plan.layout.slots, Tame slot.name :=
  fun _ hslot => tame_of_mem_names hplan (Build.name_mem_of_mem_slots hplan hslot)

/-- The variables of a block that is handed out. -/
theorem tame_of_placed (hplan : plan.Grounded dim) (build : plan.Build) {p : PlacedBlock}
    (hp : p ∈ build.placed) :
    Tame p.block.unknown ∧ Tame p.block.residual := by
  have hblock : p.block ∈ plan.draft.inverseBlocks :=
    map_block_of_placeBlocks build.placed_eq ▸ List.mem_map_of_mem hp
  obtain ⟨hunknown, hresidual⟩ := hplan.requests.declared p.block hblock
  exact ⟨tame_of_mem_names hplan hunknown, tame_of_mem_names hplan hresidual⟩

theorem orderlyIn_members (hplan : plan.Grounded dim) (hsolver : plan.solver.BuiltIn)
    (build : plan.Build) :
    OrderlyIn build.members := by
  have hflag : ∀ (c : Constant) (value : String), Tame c.name → Tame value →
      Orderly (.line [.text "static constexpr bool ", .define (.constant c), .text value]) := by
    intro c value hc hvalue
    have hname : Tame (Symbol.constant c).name := hc
    simp (disch := exact tame_ofList rfl) [Closes, after_define hname, after_text hvalue]
  have hiter : Orderly (.line ["unsigned short ", .define (.member .iter), " = 0;"]) := by
    have hname : Tame (Symbol.member .iter).name := tame_ofList rfl
    simp (disch := exact tame_ofList rfl) [Closes, after_define hname]
  have hblocks : ∀ p ∈ build.placed, Orderly (plainMember p.type (.inverseBlock p.block)) := by
    intro p hp
    obtain ⟨hunknown, hresidual⟩ := tame_of_placed hplan build hp
    exact orderly_plainMember (closes_placedType p) (tame_memberName hunknown hresidual)
  rw [build.members_eq_append, Build.ownMembers]
  simp only [orderlyIn_append, orderlyIn_map]
  exact ⟨⟨⟨⟨⟨tame_ofList rfl, hflag _ _ (tame_ofList rfl) (tame_ofList rfl),
    hflag _ _ (tame_ofList rfl) (tame_ofList rfl),
    orderly_plainMember closes_vectorType (tame_ofList rfl),
    orderly_plainMember closes_vectorType (tame_ofList rfl),
    orderly_plainMember closes_vectorType (tame_ofList rfl),
    orderly_plainMember closes_matrixType (tame_ofList rfl), hiter,
    trivial⟩, orderlyIn_tolerances _⟩, orderlyIn_limits _⟩, hsolver.orderlyIn_members _⟩, hblocks⟩

theorem orderlyIn_views (hplan : plan.Grounded dim) : OrderlyIn plan.views := by
  refine ⟨tame_ofList rfl,
    orderlyIn_map.mpr fun slot hslot => orderly_vectorView (fun _ => after_define ?_) slot .zeros⟩
  exact tame_incrementName (tame_of_mem_slots hplan slot hslot)

/-- The head of a method without parameters. -/
theorem closes_methodHead {type : String} (htype : Tame type) {method : Method}
    (hmethod : Tame method.name) :
    Closes [type, .define (.method method), "()"] := by
  have hname : Tame (Symbol.method method).name := hmethod
  simp (disch := exact tame_ofList rfl) [Closes, after_text htype, after_define hname]

theorem orderlyIn_predictorMethod (plan : Blueprint) (code : String) :
    OrderlyIn (plan.predictorMethod code) := by
  refine ⟨⟨closes_methodHead (tame_ofList rfl) (tame_ofList rfl),
    ⟨fun _ => after_nil, trivial, trivial⟩, ?_⟩, trivial⟩
  rw [orderlyIn_map, normaliseIncrements]
  intro l hl
  obtain ⟨v, -, hl⟩ := List.mem_filterMap.mp hl
  obtain ⟨s, -, rfl⟩ := Option.map_eq_some_iff.mp hl
  simp (disch := exact tame_ofList rfl) [Closes]

theorem orderlyIn_plainMethod {method : Method} (hmethod : Tame method.name) (code : String) :
    OrderlyIn (plainMethod method code) :=
  ⟨⟨closes_methodHead (tame_ofList rfl) hmethod, trivial, trivial⟩, trivial⟩

theorem orderlyIn_residualMethod (hplan : plan.Grounded dim) (build : plan.Build) :
    OrderlyIn (plan.residualMethod (plan.code? .integrator) build.derivatives) := by
  have hnames : ∀ slot ∈ plan.layout.slots, Tame (residualName slot.name) :=
    fun slot hslot => tame_residualName (tame_of_mem_slots hplan slot hslot)
  have hblocks : ∀ d ∈ build.derivatives, Tame d.name := by
    intro d hd
    obtain ⟨hresidual, hunknown⟩ := mem_slots_of_derivative build hd
    exact tame_blockName (tame_of_mem_slots hplan _ hresidual) (tame_of_mem_slots hplan _ hunknown)
  have hprologue : ∀ slot ∈ plan.layout.slots,
      ∀ stmt ∈ (plan.draft.factors.prologue? slot.name).map Stmt.line, Orderly stmt :=
    fun slot hslot => orderly_of_mem_map (closes_prologue (hnames slot hslot))
  have hepilogue : ∀ slot ∈ plan.layout.slots,
      ∀ stmt ∈ (plan.draft.factors.epilogue? slot.name).map Stmt.line, Orderly stmt :=
    fun slot hslot => orderly_of_mem_map (closes_epilogue (hnames slot hslot))
  have hscale : ∀ d ∈ build.derivatives, ∀ stmt ∈ (plan.draft.factors.scaleBlock? d).map Stmt.line,
      Orderly stmt :=
    fun d hd => orderly_of_mem_map (closes_scaleBlock (hblocks d hd))
  unfold residualMethod
  simp only [orderlyIn_cons, orderly_block, orderlyIn_append, orderlyIn_map, orderlyIn_filterMap,
    orderlyIn_onlyIf]
  refine ⟨⟨closes_methodHead (tame_ofList rfl) (tame_ofList rfl),
    ⟨⟨⟨⟨⟨⟨⟨⟨⟨fun _ => orderlyIn_resetJacobian, ?_⟩, ?_⟩, ?_⟩, ?_⟩,
    hprologue⟩, ?_⟩, hepilogue⟩, hscale⟩, ?_⟩⟩, trivial⟩
  · simp (disch := exact tame_ofList rfl) [Closes]
  · exact fun slot hslot =>
      orderly_vectorView (fun _ => after_text (hnames slot hslot)) slot .fzeros
  · exact fun d hd => closes_accessor (fun _ => after_use) d (hblocks d hd)
  · simp (disch := exact tame_ofList rfl) [Closes]
  · simp [Closes]
  · simp (disch := exact tame_ofList rfl) [Closes]

theorem orderlyIn_updateMethod (plan : Blueprint) : OrderlyIn plan.updateMethod := by
  refine ⟨⟨closes_methodHead (tame_ofList rfl) (tame_ofList rfl), orderlyIn_map.mpr fun v _ => ?_⟩,
    trivial⟩
  simp (disch := exact tame_ofList rfl) [Closes]

theorem orderlyIn_inverse (hplan : plan.Grounded dim) (build : plan.Build) :
    OrderlyIn build.inverse := by
  obtain ⟨undo, hundo, hinverse⟩ := build.exists_inverse_eq
  have hnames : ∀ p ∈ build.placed, Tame p.block.argumentName := by
    intro p hp
    obtain ⟨hunknown, hresidual⟩ := tame_of_placed hplan build hp
    exact tame_argumentName hunknown hresidual
  have hextraction : OrderlyIn (if plan.solver.capabilities.usesJacobianInvert
      then build.placed.map PlacedBlock.copy else collectBlocks build.placed) := by
    split
    · exact orderlyIn_map.mpr fun p hp => orderly_copy (hnames p hp)
    · exact orderlyIn_collectBlocks hnames
  have hlines : OrderlyIn undo := by
    obtain ⟨-, -, heq⟩ := (undoBlocks_eq_ok_iff (named_of_placeBlocks build.placed_eq)).mp hundo
    rw [heq, orderlyIn_map]
    intro l hl
    obtain ⟨block, hblock, hline⟩ := List.mem_filterMap.mp hl
    obtain ⟨scale, -, rfl⟩ := Option.map_eq_some_iff.mp hline
    have hscale := closes_scale scale
    obtain ⟨p, hp, rfl⟩ := List.mem_map.mp hblock
    have hname := hnames p hp
    simp (disch := exact tame_ofList rfl) [Closes, concat, after_text hname, hscale.after_append]
  have hparameters : Closes (.joinWith ", "
      (build.placed.map fun p => .concat [p.type, ["& ", p.block.argumentName]])) := by
    refine closes_joinWith (tame_ofList rfl) (List.forall_mem_map.mpr fun p hp => ?_)
    have htype := closes_placedType p
    have hname := hnames p hp
    simp (disch := exact tame_ofList rfl) [Closes, concat, htype.after_append, after_text hname]
  have hmethod : Tame (Symbol.method .inverseBlocks).name := tame_ofList rfl
  rw [hinverse]
  unfold handOut
  simp only [orderlyIn_cons, orderly_block, orderlyIn_append]
  refine ⟨⟨?_, ⟨hextraction, hlines⟩, ?_⟩, trivial⟩
  · generalize Line.joinWith ", " _ = parameters at hparameters ⊢
    simp (disch := exact tame_ofList rfl) [Closes, concat, after_define hmethod,
      hparameters.after_append]
  · simp (disch := exact tame_ofList rfl) [Closes]

theorem orderlyIn_call (build : plan.Build) : OrderlyIn build.call := by
  have harguments : Closes
      (.joinWith ", " (build.placed.map fun p => [.use (.member (.inverseBlock p.block))])) :=
    closes_joinWith (tame_ofList rfl) (List.forall_mem_map.mpr fun _ _ _ => after_use)
  rw [build.call_eq_callFor]
  refine ⟨⟨?_, orderly_fail, trivial⟩, trivial⟩
  simp (disch := exact tame_ofList rfl) [Closes, concat, harguments.after_append]

theorem orderlyIn_computeJacobian : OrderlyIn Loop.computeJacobian := by
  simp (disch := exact tame_ofList rfl) [Loop.computeJacobian, Closes, orderly_fail]

theorem orderlyIn_correct (hsolver : plan.solver.BuiltIn) (comparison call : Option String) :
    OrderlyIn (plan.loop comparison call).correct := by
  have hcorrection : OrderlyIn (plan.solver.correction plan.solverContext) :=
    hsolver.orderlyIn_correction _
  have hafter : OrderlyIn (plan.solver.afterUpdate plan.solverContext) :=
    hsolver.orderlyIn_afterUpdate _
  simp only [Loop.correct, orderlyIn_append, orderlyIn_onlyIf]
  refine ⟨⟨⟨⟨⟨fun _ => orderlyIn_computeJacobian, hcorrection⟩, orderlyIn_clamp _ _⟩, ?_⟩, hafter⟩,
    fun _ => ?_⟩
  · simp (disch := exact tame_ofList rfl) [Closes]
  · simp (disch := exact tame_ofList rfl) [Loop.relax, Closes]

theorem orderlyIn_iteration (hplan : plan.Grounded dim) (hsolver : plan.solver.BuiltIn)
    (comparison call : Option String) :
    OrderlyIn ((plan.loop comparison call).iteration
      (onlyIf plan.compares (jacobianComparison plan.layout))) := by
  simp only [Loop.iteration, orderlyIn_append, orderlyIn_onlyIf, orderlyIn_cons, orderly_block]
  refine ⟨⟨⟨⟨⟨⟨?_, trivial⟩, ?_⟩, fun _ => orderlyIn_jacobianComparison (tame_of_mem_slots hplan)⟩,
    ?_⟩, fun _ => orderlyIn_computeJacobian⟩, ⟨?_,
    orderlyIn_correct hsolver comparison call⟩, trivial⟩
  · simp (disch := exact tame_ofList rfl) [Closes]
  · simp (disch := exact tame_ofList rfl) [Loop.evaluate, Closes, orderly_fail]
  · simp (disch := exact tame_ofList rfl) [Loop.test, localValue, Closes, concat]
  · exact fun _ => after_text (tame_ofList rfl)

theorem orderlyIn_conclude (build : plan.Build) (comparison call : Option String)
    {inverse : List Stmt} (hinverse : OrderlyIn inverse) :
    OrderlyIn ((plan.loop comparison call).conclude build.undoIncrements inverse) := by
  have hundo := orderlyIn_undoIncrements build.undoIncrements_eq
  simp only [Loop.conclude, orderlyIn_append, orderlyIn_onlyIf]
  refine ⟨⟨⟨⟨⟨⟨?_, hundo⟩, ?_⟩, fun _ => ?_⟩, hinverse⟩, fun _ => ?_⟩, ?_⟩
  · simp (disch := exact tame_ofList rfl) [Closes, orderly_fail]
  · simp (disch := exact tame_ofList rfl) [Closes]
  · simp (disch := exact tame_ofList rfl) [Closes]
  · simp (disch := exact tame_ofList rfl) [Closes]
  · simp (disch := exact tame_ofList rfl) [Closes]

theorem orderlyIn_loop (hplan : plan.Grounded dim) (hsolver : plan.solver.BuiltIn)
    (build : plan.Build) :
    OrderlyIn build.loop := by
  have hinitialisation : OrderlyIn (plan.solver.initialisation plan.solverContext) :=
    hsolver.orderlyIn_initialisation _
  unfold Build.loop Build.loopWith Loop.body
  simp only [orderlyIn_cons, orderly_block, orderlyIn_append, orderlyIn_onlyIf]
  refine ⟨⟨closes_methodHead (tame_ofList rfl) (tame_ofList rfl),
    ⟨⟨fun _ => ⟨?_, trivial⟩, hinitialisation⟩, ?_, ?_,
      ⟨?_, orderlyIn_iteration hplan hsolver _ _⟩, trivial⟩,
      orderlyIn_conclude build _ _ (orderlyIn_onlyIf.mpr fun _ => orderlyIn_call build)⟩, trivial⟩
  · simp (disch := exact tame_ofList rfl) [Closes]
  · exact fun _ => after_text (tame_ofList rfl)
  · simp (disch := exact tame_ofList rfl) [Closes]
  · simp (disch := exact tame_ofList rfl) [Closes]

/-- All sections are orderly. -/
theorem orderlyIn_of_mem_parts (hplan : plan.Grounded dim) (hsolver : plan.solver.BuiltIn)
    (build : plan.Build) :
    ∀ part ∈ build.parts, OrderlyIn part.2 := by
  have hstress : Tame Method.stress.name := tame_ofList rfl
  have hfinalStress : Tame Method.finalStress.name := tame_ofList rfl
  unfold Build.parts
  simp only [List.forall_mem_append, List.forall_mem_cons, List.forall_mem_map, List.not_mem_nil,
    false_implies, implies_true, and_true]
  refine ⟨⟨⟨⟨⟨⟨⟨⟨⟨orderlyIn_offsetConstants (tame_of_mem_slots hplan),
    orderlyIn_members hplan hsolver build, orderlyIn_views hplan⟩, ?_⟩, ?_⟩,
    orderlyIn_residualMethod hplan build⟩, ?_⟩, plan.orderlyIn_updateMethod⟩, ?_⟩, ?_⟩,
    orderlyIn_loop hplan hsolver build⟩
  · exact fun code _ => plan.orderlyIn_predictorMethod code
  · exact fun code _ => orderlyIn_plainMethod hstress code
  · split
    · exact List.forall_mem_singleton.mpr orderlyIn_numericalJacobianMethod
    · exact fun _ h => absurd h List.not_mem_nil
  · exact fun code _ => orderlyIn_plainMethod hfinalStress code
  · split
    · exact fun _ h => absurd h List.not_mem_nil
    · exact List.forall_mem_singleton.mpr (orderlyIn_inverse hplan build)

end Blueprint

end Constitutive
