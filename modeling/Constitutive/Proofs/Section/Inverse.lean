import Constitutive.Proofs.Scheme.Requests
import Constitutive.Proofs.Section.Blocks

/-!
# Mapping blocks of the inverse back

A block of the inverse is received by an argument and by a member whose names join the names of its
two variables by `_`.  Names of variables may hold that character themselves, so the joined text can
be cut in several places: two blocks have one name exactly if one is the other with the cut moved
(`argumentName_eq_iff`).

Blocks without factors are left alone.  Those with factors are mapped back in order, and this works
out exactly if their arguments have different names: then every such block gets one line
(`undoBlocks_eq_ok_iff`), and otherwise the second block of a name is refused
(`exists_clash_of_undoBlocks_eq_error`).
-/

namespace Constitutive

namespace InverseBlock

variable {p q : InverseBlock}

/-! ## Names of blocks -/

/-- The names of `q` joined are those of `p` joined, cut further to the right. -/
def CutMoved (p q : InverseBlock) : Prop :=
  ∃ m, q.unknown = p.unknown ++ "_" ++ m ∧ p.residual = m ++ "_" ++ q.residual

/-- Two cuts of one text at `_`, the first one further left. -/
theorem exists_between_underscores {a b c e : List Char} (heq : a ++ '_' :: b = c ++ '_' :: e)
    (hlt : a.length < c.length) : ∃ m, c = a ++ '_' :: m ∧ b = m ++ '_' :: e := by
  obtain ⟨gap, rfl, hgap⟩ | ⟨gap, rfl, hgap⟩ := List.append_eq_append_iff.mp heq
  · cases gap with
    | nil => simp at hlt
    | cons x m =>
        obtain ⟨rfl, rfl⟩ := List.cons.inj hgap
        exact ⟨m, rfl, rfl⟩
  · rw [List.length_append] at hlt
    omega

theorem cutMoved_of_joined_eq
    (heq : p.unknown.toList ++ '_' :: p.residual.toList = q.unknown.toList ++ '_' ::
      q.residual.toList)
    (hlt : p.unknown.toList.length < q.unknown.toList.length) : p.CutMoved q := by
  obtain ⟨m, hunknown, hresidual⟩ := exists_between_underscores heq hlt
  refine ⟨String.ofList m, ?_, ?_⟩
  · rw [← String.toList_inj, hunknown]
    simp
  · rw [← String.toList_inj, hresidual]
    simp

theorem CutMoved.joined_eq (h : p.CutMoved q) :
    p.unknown.toList ++ '_' :: p.residual.toList = q.unknown.toList ++ '_' ::
      q.residual.toList := by
  obtain ⟨m, hunknown, hresidual⟩ := h
  rw [hunknown, hresidual]
  simp

/-- The names of two blocks join to one text only if the blocks are equal or a cut has been
moved. -/
theorem joined_eq_iff :
    p.unknown.toList ++ '_' :: p.residual.toList = q.unknown.toList ++ '_' :: q.residual.toList ↔
      p = q ∨ p.CutMoved q ∨ q.CutMoved p := by
  constructor
  · intro heq
    rcases Nat.lt_trichotomy p.unknown.toList.length q.unknown.toList.length with hlt | hsame | hgt
    · exact Or.inr (Or.inl (cutMoved_of_joined_eq heq hlt))
    · obtain ⟨hunknown, hresidual⟩ := List.append_inj heq hsame
      have hunknown : p.unknown = q.unknown := String.toList_inj.mp hunknown
      have hresidual : p.residual = q.residual := String.toList_inj.mp (List.cons.inj hresidual).2
      exact Or.inl (congrArg₂ InverseBlock.mk hunknown hresidual)
    · exact Or.inr (Or.inr (cutMoved_of_joined_eq heq.symm hgt))
  · rintro (rfl | h | h)
    · rfl
    · exact h.joined_eq
    · exact h.joined_eq.symm

/-- The same under a common label. -/
theorem labelled_eq_iff (label : String) :
    label ++ p.unknown ++ "_" ++ p.residual = label ++ q.unknown ++ "_" ++ q.residual ↔
      p = q ∨ p.CutMoved q ∨ q.CutMoved p := by
  have hjoint : "_".toList = ['_'] := rfl
  rw [← joined_eq_iff, ← String.toList_inj]
  simp only [String.toList_append, List.append_assoc, hjoint, List.singleton_append,
    List.append_cancel_left_eq]

theorem argumentName_eq_iff :
    p.argumentName = q.argumentName ↔ p = q ∨ p.CutMoved q ∨ q.CutMoved p :=
  labelled_eq_iff "partial_jacobian_"

theorem memberName_eq_iff : p.memberName = q.memberName ↔ p = q ∨ p.CutMoved q ∨ q.CutMoved p :=
  labelled_eq_iff "iJ_"

/-! ## Blocks with factors -/

/-- The scale that maps a block back, if its variables have factors. -/
def scale? (factors : Factors) (block : InverseBlock) : Option Scale :=
  factors.inverseScale? block.unknown block.residual

/-- The line that maps a block back. -/
def undoLine? (factors : Factors) (block : InverseBlock) : Option Line :=
  (block.scale? factors).map fun scale => .concat [[block.argumentName, " *= "], scale.line, [";"]]

/-- The blocks that have to be mapped back. -/
def scaled (factors : Factors) (blocks : List InverseBlock) : List InverseBlock :=
  blocks.filter fun block => (block.scale? factors).isSome

theorem scaled_cons_of_none {factors : Factors} {block : InverseBlock} (rest : List InverseBlock)
    (h : block.scale? factors = none) : scaled factors (block :: rest) = scaled factors rest :=
  List.filter_cons_of_neg (by simp [h])

theorem scaled_cons_of_some {factors : Factors} {block : InverseBlock} {scale : Scale}
    (rest : List InverseBlock)
    (h : block.scale? factors = some scale) :
    scaled factors (block :: rest) = block :: scaled factors rest :=
  List.filter_cons_of_pos (by simp [h])

end InverseBlock

open InverseBlock

/-! ## Placed blocks -/

namespace PlacedBlock

/-- The slots are those of the block's variables. -/
def Named (placed : PlacedBlock) : Prop :=
  placed.unknown.name = placed.block.unknown ∧ placed.residual.name = placed.block.residual

theorem of_eq_ok_iff {layout : Layout} {block : InverseBlock} {placed : PlacedBlock} :
    PlacedBlock.of layout block = .ok placed ↔ placed.block = block ∧
      layout.slot? block.unknown = some placed.unknown ∧ layout.slot? block.residual =
        some placed.residual := by
  unfold PlacedBlock.of
  split
  · rename_i unknown residual hunknown hresidual
    rw [hunknown, hresidual]
    constructor
    · intro h
      obtain rfl := Except.ok.inj h
      exact ⟨rfl, rfl, rfl⟩
    · obtain ⟨block', unknown', residual'⟩ := placed
      rintro ⟨rfl, hu, hr⟩
      obtain rfl := Option.some.inj hu
      obtain rfl := Option.some.inj hr
      rfl
  · rename_i hnone
    constructor
    · exact nofun
    · rintro ⟨-, hu, hr⟩
      exact absurd hr (hnone _ _ hu)

end PlacedBlock

theorem placeBlocks_eq_ok_iff {layout : Layout} {blocks : List InverseBlock}
    {placed : List PlacedBlock} :
    placeBlocks layout blocks = .ok placed ↔
      List.Forall₂ (fun block p => PlacedBlock.of layout block = .ok p) blocks placed :=
  mapM_eq_ok_iff

theorem map_block_of_placeBlocks {layout : Layout} {blocks : List InverseBlock}
    {placed : List PlacedBlock}
    (h : placeBlocks layout blocks = .ok placed) : placed.map PlacedBlock.block = blocks := by
  have hblocks : List.Forall₂ (· = ·) blocks (placed.map PlacedBlock.block) :=
    List.forall₂_map_right_iff.mpr
      ((placeBlocks_eq_ok_iff.mp h).imp fun _ _ hp => (PlacedBlock.of_eq_ok_iff.mp hp).1.symm)
  rw [List.forall₂_eq_eq_eq] at hblocks
  exact hblocks.symm

theorem named_of_placeBlocks {layout : Layout} {blocks : List InverseBlock}
    {placed : List PlacedBlock}
    (h : placeBlocks layout blocks = .ok placed) : ∀ p ∈ placed, p.Named := by
  intro p hp
  obtain ⟨block, hblock⟩ := exists_of_mem_right (placeBlocks_eq_ok_iff.mp h) hp
  obtain ⟨rfl, hunknown, hresidual⟩ := PlacedBlock.of_eq_ok_iff.mp hblock
  exact ⟨Layout.name_of_slot?_eq_some hunknown, Layout.name_of_slot?_eq_some hresidual⟩

/-- Blocks of declared variables have their places. -/
theorem exists_placeBlocks_eq_ok (dim : Dimension) {vars : List Variable}
    (hnames : (vars.map (·.name)).Nodup) {blocks : List InverseBlock}
    (hdeclared : ∀ block ∈ blocks, block.unknown ∈ vars.map (·.name) ∧
      block.residual ∈ vars.map (·.name)) :
    ∃ placed, placeBlocks (Layout.plan dim vars) blocks = .ok placed := by
  have hslot : ∀ name ∈ vars.map (·.name), ∃ slot,
      (Layout.plan dim vars).slot? name = some slot := by
    intro name hname
    obtain ⟨v, hv, rfl⟩ := List.mem_map.mp hname
    obtain ⟨slot, hslot, rfl⟩ := Layout.exists_slot_of_mem dim hv
    exact ⟨slot, (Layout.slot?_eq_some_iff (Layout.plan_namesDistinct dim hnames)).mpr ⟨hslot, rfl⟩⟩
  refine exists_mapM_eq_ok fun block hblock => ?_
  obtain ⟨hunknown, hresidual⟩ := hdeclared block hblock
  obtain ⟨unknown, hu⟩ := hslot _ hunknown
  obtain ⟨residual, hr⟩ := hslot _ hresidual
  exact ⟨⟨block, unknown, residual⟩, PlacedBlock.of_eq_ok_iff.mpr ⟨rfl, hu, hr⟩⟩

/-! ## One block after the other -/

namespace Undone

variable {undone : Undone} {factors : Factors} {p : PlacedBlock}

theorem inverseBlock_of_none (hnamed : p.Named) (hscale : p.block.scale? factors = none) :
    undone.inverseBlock factors p.block.argumentName p.unknown.name p.residual.name =
      .ok (none, undone) := by
  unfold inverseBlock
  rw [hnamed.1, hnamed.2, show factors.inverseScale? p.block.unknown p.block.residual = none
    from hscale]

theorem inverseBlock_of_some (hnamed : p.Named) {scale : Scale}
    (hscale : p.block.scale? factors = some scale) :
    undone.inverseBlock factors p.block.argumentName p.unknown.name p.residual.name =
      if p.block.argumentName ∈ undone then .error (.undoneTwice p.block.argumentName)
      else .ok (p.block.undoLine? factors, p.block.argumentName :: undone) := by
  unfold inverseBlock
  rw [hnamed.1, hnamed.2, show factors.inverseScale? p.block.unknown p.block.residual = some scale
    from hscale, undoLine?, hscale]
  by_cases hmem : p.block.argumentName ∈ undone
  · rw [if_pos hmem]
    simp [note, hmem, bind, Except.bind]
  · rw [if_neg hmem]
    simp [note, hmem, bind, Except.bind, pure, Except.pure]

end Undone

section Undo

variable {factors : Factors} {placed : List PlacedBlock}

/-- The first of the blocks is mapped back and its name noted, then the others are. -/
theorem undoBlocks_cons_eq_ok_iff {undone : Undone} {p : PlacedBlock} {body : List Stmt} :
    undoBlocks factors undone (p :: placed) = .ok body ↔
      ∃ line noted rest,
        undone.inverseBlock factors p.block.argumentName p.unknown.name p.residual.name =
          .ok (line, noted) ∧
        undoBlocks factors noted placed = .ok rest ∧ body = line.toList.map .line ++ rest := by
  rw [undoBlocks, bind_eq_ok_iff]
  constructor
  · rintro ⟨⟨line, noted⟩, hline, h⟩
    obtain ⟨rest, hrest, h⟩ := bind_eq_ok_iff.mp h
    exact ⟨line, noted, rest, hline, hrest, (Except.ok.inj h).symm⟩
  · rintro ⟨line, noted, rest, hline, hrest, rfl⟩
    exact ⟨(line, noted), hline, bind_eq_ok_iff.mpr ⟨rest, hrest, rfl⟩⟩

/-- Blocks are mapped back by one line each exactly if their names are different, and different from
those noted. -/
theorem undoBlocks_eq_ok_iff {undone : Undone} {body : List Stmt} (hnamed : ∀ p ∈ placed, p.Named) :
    undoBlocks factors undone placed = .ok body ↔
      ((scaled factors (placed.map (·.block))).map argumentName).Nodup ∧
        (∀ block ∈ scaled factors (placed.map (·.block)), block.argumentName ∉ undone) ∧
        body = ((placed.map (·.block)).filterMap (undoLine? factors)).map .line := by
  induction placed generalizing undone body with
  | nil =>
      constructor
      · intro h
        exact ⟨List.nodup_nil, fun _ hblock => absurd hblock List.not_mem_nil,
          (Except.ok.inj h).symm⟩
      · rintro ⟨-, -, rfl⟩
        rfl
  | cons p rest ih =>
      have hp : p.Named := hnamed p (List.mem_cons_self ..)
      have hrest : ∀ p ∈ rest, p.Named := fun p hmem => hnamed p (List.mem_cons_of_mem _ hmem)
      rw [undoBlocks_cons_eq_ok_iff, List.map_cons]
      cases hscale : p.block.scale? factors with
      | none =>
          rw [Undone.inverseBlock_of_none hp hscale, scaled_cons_of_none _ hscale,
            List.filterMap_cons_none (by rw [undoLine?, hscale]; rfl), ← ih hrest]
          constructor
          · rintro ⟨line, noted, tail, hline, htail, rfl⟩
            obtain ⟨rfl, rfl⟩ := Prod.mk.inj (Except.ok.inj hline)
            exact htail
          · intro htail
            exact ⟨none, undone, body, rfl, htail, rfl⟩
      | some scale =>
          have hline : p.block.undoLine? factors =
              some (.concat [[p.block.argumentName, " *= "], scale.line, [";"]]) := by
            rw [undoLine?, hscale]
            rfl
          rw [Undone.inverseBlock_of_some hp hscale, scaled_cons_of_some _ hscale,
            List.filterMap_cons_some hline, List.map_cons, List.nodup_cons, List.forall_mem_cons,
            List.map_cons, hline]
          constructor
          · rintro ⟨line, noted, tail, hstep, htail, rfl⟩
            split at hstep
            · cases hstep
            · rename_i hnew
              obtain ⟨rfl, rfl⟩ := Prod.mk.inj (Except.ok.inj hstep)
              obtain ⟨hdistinct, hfresh, rfl⟩ := (ih hrest).mp htail
              -- a later block of this name would have found it noted
              refine ⟨⟨fun hmem => ?_, hdistinct⟩, ⟨hnew, fun block hblock hmem => ?_⟩, rfl⟩
              · obtain ⟨block, hblock, heq⟩ := List.mem_map.mp hmem
                exact hfresh block hblock (heq ▸ List.mem_cons_self ..)
              · exact hfresh block hblock (List.mem_cons_of_mem _ hmem)
          · rintro ⟨⟨hfirst, hdistinct⟩, ⟨hnew, hfresh⟩, rfl⟩
            rw [if_neg hnew]
            refine ⟨_, _, _, rfl, (ih hrest).mpr ⟨hdistinct, fun block hblock hmem => ?_, rfl⟩, rfl⟩
            rcases List.mem_cons.mp hmem with heq | hmem
            · exact hfirst (heq ▸ List.mem_map_of_mem hblock)
            · exact hfresh block hblock hmem

/-- A block is refused only if its name has been noted, or if an earlier block has that name. -/
theorem exists_clash_of_undoBlocks_eq_error {undone : Undone} {fault : InternalFault}
    (hnamed : ∀ p ∈ placed, p.Named) (h : undoBlocks factors undone placed = .error fault) :
    ∃ before block after, scaled factors (placed.map (·.block)) = before ++ block :: after ∧
      fault = .undoneTwice block.argumentName ∧
      (block.argumentName ∈ undone ∨ ∃ other ∈ before, other.argumentName =
        block.argumentName) := by
  induction placed generalizing undone with
  | nil => cases h
  | cons p rest ih =>
      have hp : p.Named := hnamed p (List.mem_cons_self ..)
      have hrest : ∀ p ∈ rest, p.Named := fun p hmem => hnamed p (List.mem_cons_of_mem _ hmem)
      rw [List.map_cons]
      unfold undoBlocks at h
      cases hscale : p.block.scale? factors with
      | none =>
          rw [Undone.inverseBlock_of_none hp hscale] at h
          rw [scaled_cons_of_none _ hscale]
          rcases bind_eq_error_iff.mp h with h | ⟨_, hstep, h⟩
          · cases h
          · obtain rfl := Except.ok.inj hstep
            rcases bind_eq_error_iff.mp h with h | ⟨_, -, h⟩
            · exact ih hrest h
            · cases h
      | some scale =>
          rw [Undone.inverseBlock_of_some hp hscale] at h
          rw [scaled_cons_of_some _ hscale]
          by_cases hmem : p.block.argumentName ∈ undone
          · rw [if_pos hmem] at h
            rcases bind_eq_error_iff.mp h with h | ⟨_, hstep, -⟩
            · exact ⟨[], p.block, _, rfl, (Except.error.inj h).symm, Or.inl hmem⟩
            · cases hstep
          · rw [if_neg hmem] at h
            rcases bind_eq_error_iff.mp h with h | ⟨_, hstep, h⟩
            · cases h
            · obtain rfl := Except.ok.inj hstep
              rcases bind_eq_error_iff.mp h with h | ⟨_, -, h⟩
              · -- what was noted since is the name of this very block
                obtain ⟨before, block, after, heq, hfault, hclash⟩ := ih hrest h
                refine ⟨p.block :: before, block, after, by rw [heq, List.cons_append], hfault, ?_⟩
                rcases hclash with hclash | ⟨other, hother, hname⟩
                · rcases List.mem_cons.mp hclash with hname | hclash
                  · exact Or.inr ⟨p.block, List.mem_cons_self .., hname.symm⟩
                  · exact Or.inl hclash
                · exact Or.inr ⟨other, List.mem_cons_of_mem _ hother, hname⟩
              · cases h

end Undo

/-! ## When blocks clash -/

/-- Two different blocks with factors have this name. -/
def ClashAt (factors : Factors) (blocks : List InverseBlock) (target : String) : Prop :=
  ∃ p ∈ scaled factors blocks, ∃ q ∈ scaled factors blocks, p ≠ q ∧ p.argumentName = target ∧
    q.argumentName = target

theorem not_nodup_of_clashAt {factors : Factors} {blocks : List InverseBlock} {target : String}
    (h : ClashAt factors blocks target) : ¬ ((scaled factors blocks).map argumentName).Nodup := by
  obtain ⟨p, hp, q, hq, hne, hptarget, hqtarget⟩ := h
  intro hnodup
  exact hne (List.inj_on_of_nodup_map hnodup hp hq (hptarget.trans hqtarget.symm))

/-- Without a clash every block with factors gets its line; with one, a name on which blocks clash
is reported. -/
theorem undoBlocks_cases (factors : Factors) {placed : List PlacedBlock}
    (hnamed : ∀ p ∈ placed, p.Named) (honce : (placed.map (·.block)).Nodup) :
    (∃ target, ClashAt factors (placed.map (·.block)) target ∧
        undoBlocks factors [] placed = .error (.undoneTwice target)) ∨
      ((¬ ∃ target, ClashAt factors (placed.map (·.block)) target) ∧
        undoBlocks factors [] placed =
          .ok (((placed.map (·.block)).filterMap (undoLine? factors)).map .line)) := by
  cases hundo : undoBlocks factors [] placed with
  | ok body =>
      obtain ⟨hdistinct, -, rfl⟩ := (undoBlocks_eq_ok_iff hnamed).mp hundo
      exact Or.inr ⟨fun ⟨_, hclash⟩ => not_nodup_of_clashAt hclash hdistinct, rfl⟩
  | error fault =>
      obtain ⟨before, block, after, heq, rfl, hclash⟩ :=
        exists_clash_of_undoBlocks_eq_error hnamed hundo
      refine Or.inl ⟨block.argumentName, ?_, rfl⟩
      rcases hclash with hclash | ⟨other, hother, hname⟩
      · exact absurd hclash List.not_mem_nil
      · have hscaled : (scaled factors (placed.map (·.block))).Nodup := honce.filter _
        rw [heq] at hscaled
        have hne : other ≠ block :=
          (List.nodup_append.mp hscaled).2.2 other hother block (List.mem_cons_self ..)
        refine ⟨other, heq ▸ List.mem_append_left _ hother, block, ?_, hne, hname, rfl⟩
        rw [heq]
        exact List.mem_append_right _ (List.mem_cons_self ..)

end Constitutive
