import Constitutive.Proofs.Compiler
import Constitutive.Proofs.Scheme.CodeText
import Constitutive.Proofs.Unknowns.Tiling
import Mathlib.Data.List.Forall2

/-!
# The blocks that are addressed

The blocks that a class addresses are those that its integrator mentions, and the diagonal blocks of
normalised variables.  Their names form a list without repetition, and the derivatives are in the
order of that list (`map_names_derivatives`), so a pair of variables is addressed at most once.  All
of them are pairs of declared variables, and only a symmetric tensor with respect to a vector has no
derivative (`exists_derivatives_eq_ok`).
-/

namespace Constitutive

/-! ## Computing a list entry by entry -/

theorem mapM_eq_ok_iff {ε α β : Type} {f : α → Except ε β} {xs : List α} {ys : List β} :
    xs.mapM f = .ok ys ↔ List.Forall₂ (fun x y => f x = .ok y) xs ys := by
  induction xs generalizing ys with
  | nil =>
      rw [List.mapM_nil, List.forall₂_nil_left_iff]
      exact ⟨fun h => (Except.ok.inj h).symm, fun h => congrArg Except.ok h.symm⟩
  | cons x rest ih =>
      rw [List.mapM_cons, bind_eq_ok_iff, List.forall₂_cons_left_iff]
      constructor
      · rintro ⟨y, hy, h⟩
        obtain ⟨tail, htail, h⟩ := bind_eq_ok_iff.mp h
        exact ⟨y, tail, hy, ih.mp htail, (Except.ok.inj h).symm⟩
      · rintro ⟨y, tail, hy, htail, rfl⟩
        exact ⟨y, hy, bind_eq_ok_iff.mpr ⟨tail, ih.mpr htail, rfl⟩⟩

theorem exists_mapM_eq_ok {ε α β : Type} {f : α → Except ε β} {xs : List α}
    (h : ∀ x ∈ xs, ∃ y, f x = .ok y) :
    ∃ ys, xs.mapM f = .ok ys := by
  induction xs with
  | nil => exact ⟨[], rfl⟩
  | cons x rest ih =>
      obtain ⟨y, hy⟩ := h x (List.mem_cons_self ..)
      obtain ⟨tail, htail⟩ := ih fun z hz => h z (List.mem_cons_of_mem _ hz)
      exact ⟨y :: tail, mapM_eq_ok_iff.mpr (.cons hy (mapM_eq_ok_iff.mp htail))⟩

theorem exists_of_mem_right {α β : Type} {R : α → β → Prop} {xs : List α} {ys : List β}
    (h : List.Forall₂ R xs ys) {y : β} (hy : y ∈ ys) : ∃ x, R x y := by
  induction h with
  | nil => exact absurd hy List.not_mem_nil
  | cons hfirst _ ih =>
      rcases List.mem_cons.mp hy with rfl | hy
      · exact ⟨_, hfirst⟩
      · exact ih hy

/-! ## The names of blocks -/

namespace Factors

variable {factors : Factors} {name : String}

theorem isSome_get?_iff {side : Side} :
    (factors.get? name side).isSome = true ↔ ∃ expression, ((name, side), expression) ∈
      factors.entries := by
  unfold get?
  constructor
  · intro h
    obtain ⟨expression, hfound⟩ := Option.isSome_iff_exists.mp h
    obtain ⟨before, after, heq, -⟩ := List.lookup_eq_some_iff.mp hfound
    exact ⟨expression, heq ▸ List.mem_append_right _ (List.mem_cons_self ..)⟩
  · rintro ⟨expression, hmem⟩
    exact List.lookup_isSome_iff.mpr ⟨_, hmem, beq_self_eq_true _⟩

theorem mem_names_iff : name ∈ factors.names ↔ factors.isNormalised name = true := by
  rw [names, List.mem_mergeSort, List.mem_eraseDups, isNormalised, Bool.or_eq_true, isSome_get?_iff,
    isSome_get?_iff]
  constructor
  · intro h
    obtain ⟨⟨⟨owner, side⟩, expression⟩, hmem, rfl⟩ := List.mem_map.mp h
    cases side with
    | unknown => exact Or.inl ⟨expression, hmem⟩
    | residual => exact Or.inr ⟨expression, hmem⟩
  · rintro (⟨expression, hmem⟩ | ⟨expression, hmem⟩)
    · exact List.mem_map.mpr ⟨_, hmem, rfl⟩
    · exact List.mem_map.mpr ⟨_, hmem, rfl⟩

end Factors

theorem known_of_mem_blocksNamed {known : String → Bool} {before : List Char}
    {lexemes : List Text.Lexeme} {a b : String}
    (h : (a, b) ∈ blocksNamed known before lexemes) : known a = true ∧ known b = true := by
  induction lexemes generalizing before with
  | nil => exact absurd h List.not_mem_nil
  | cons lexeme rest ih =>
      -- a pair comes from the first lexeme or from a later one
      rcases List.mem_append.mp h with hhere | hrest
      · have hsplit : ∃ name, splitBlockName? known name = some (a, b) := by
          rw [Option.mem_toList] at hhere
          cases lexeme with
          | other cs => cases hhere
          | word cs =>
              simp only at hhere
              split at hhere
              · cases hhere
              · exact ⟨_, hhere⟩
        obtain ⟨name, hsplit⟩ := hsplit
        obtain ⟨hblock, -⟩ := splitBlockName?_eq_some_iff.mp hsplit
        exact ⟨hblock.first_known, hblock.second_known⟩
      · exact ih hrest

namespace Blueprint

variable {plan : Blueprint} {integrator : Option String}

theorem nodup_blockNames (plan : Blueprint) (integrator : Option String) :
    (plan.blockNames integrator).Nodup :=
  nodup_sortedPairs _

theorem mem_blockNames_of_isNormalised {name : String}
    (h : plan.draft.factors.isNormalised name = true) :
    (name, name) ∈ plan.blockNames integrator :=
  mem_sortedPairs.mpr
    (List.mem_append_right _ (List.mem_map.mpr ⟨name, Factors.mem_names_iff.mpr h, rfl⟩))

/-- Blocks belong to declared variables. -/
theorem mem_names_of_mem_blockNames (hsound : plan.draft.Sound) {a b : String}
    (h : (a, b) ∈ plan.blockNames integrator) :
    a ∈ plan.draft.roster.names ∧ b ∈ plan.draft.roster.names := by
  rcases List.mem_append.mp (mem_sortedPairs.mp h) with hmentioned | hnormalised
  · cases integrator with
    | none => exact absurd hmentioned List.not_mem_nil
    | some text =>
        obtain ⟨ha, hb⟩ := known_of_mem_blocksNamed (mem_sortedPairs.mp hmentioned)
        exact ⟨Roster.contains_iff.mp ha, Roster.contains_iff.mp hb⟩
  · obtain ⟨name, hname, heq⟩ := List.mem_map.mp hnormalised
    obtain ⟨rfl, rfl⟩ := Prod.mk.inj heq
    rw [Factors.mem_names_iff, Factors.isNormalised, Bool.or_eq_true, Factors.isSome_get?_iff,
      Factors.isSome_get?_iff] at hname
    rcases hname with ⟨expression, hmem⟩ | ⟨expression, hmem⟩
    · exact ⟨hsound.factors_declared _ hmem, hsound.factors_declared _ hmem⟩
    · exact ⟨hsound.factors_declared _ hmem, hsound.factors_declared _ hmem⟩

end Blueprint

/-! ## The derivatives -/

/-- The variable of the residual and that of the unknown. -/
def Derivative.names (d : Derivative) : String × String :=
  (d.residual.name, d.unknown.name)

namespace Layout

variable {layout : Layout}

theorem name_of_slot?_eq_some {name : String} {slot : Slot} (h : layout.slot? name = some slot) :
    slot.name = name := by
  simpa using List.find?_some h

theorem slot?_of_derivative_eq_ok {a b : String} {d : Derivative}
    (h : layout.derivative a b = .ok d) :
    layout.slot? a = some d.residual ∧ layout.slot? b = some d.unknown := by
  unfold derivative at h
  split at h
  · cases h
  · split at h
    · cases h
    · rename_i _ r hr _ u hu
      split at h
      · cases h
      · obtain rfl := Except.ok.inj h
        exact ⟨hr, hu⟩

theorem names_of_derivative_eq_ok {a b : String} {d : Derivative}
    (h : layout.derivative a b = .ok d) :
    d.names = (a, b) := by
  obtain ⟨hr, hu⟩ := slot?_of_derivative_eq_ok h
  rw [Derivative.names, name_of_slot?_eq_some hr, name_of_slot?_eq_some hu]

end Layout

namespace Blueprint

variable {plan : Blueprint} {integrator : Option String} {derivatives : List Derivative}

theorem forall₂_derivatives (hanalytical : plan.solver.capabilities.isAnalytical = true)
    (h : plan.derivatives integrator = .ok derivatives) :
    List.Forall₂ (fun pair d => plan.layout.derivative pair.1 pair.2 = .ok d)
      (plan.blockNames integrator) derivatives := by
  rw [Blueprint.derivatives, if_pos hanalytical] at h
  exact mapM_eq_ok_iff.mp h

theorem map_names_derivatives (hanalytical : plan.solver.capabilities.isAnalytical = true)
    (h : plan.derivatives integrator = .ok derivatives) :
    derivatives.map Derivative.names = plan.blockNames integrator := by
  have hnames :
      List.Forall₂ (· = ·) (plan.blockNames integrator) (derivatives.map Derivative.names) :=
    List.forall₂_map_right_iff.mpr
      ((forall₂_derivatives hanalytical h).imp fun _ _ hd =>
        (Layout.names_of_derivative_eq_ok hd).symm)
  rw [List.forall₂_eq_eq_eq] at hnames
  exact hnames.symm

theorem derivative_of_mem (hanalytical : plan.solver.capabilities.isAnalytical = true)
    (h : plan.derivatives integrator = .ok derivatives) {d : Derivative} (hd : d ∈ derivatives) :
    plan.layout.derivative d.residual.name d.unknown.name = .ok d := by
  obtain ⟨⟨a, b⟩, hab⟩ := exists_of_mem_right (forall₂_derivatives hanalytical h) hd
  obtain ⟨rfl, rfl⟩ := Prod.mk.inj (Layout.names_of_derivative_eq_ok hab)
  exact hab

/-- All blocks have derivatives, unless one is that of a symmetric tensor with respect to a
vector. -/
theorem exists_derivatives_eq_ok {dim : Dimension} (hsound : plan.draft.Sound)
    (hlayout : plan.layout = Layout.plan dim plan.draft.roster.vars)
    (hranks : ∀ r ∈ plan.draft.roster.vars, ∀ u ∈ plan.draft.roster.vars,
      (r.name, u.name) ∈ plan.blockNames integrator →
        ¬ (r.rank = .symmetricTensor ∧ u.rank = .vector)) :
    ∃ derivatives, plan.derivatives integrator = .ok derivatives := by
  unfold Blueprint.derivatives
  split
  · refine exists_mapM_eq_ok fun ⟨a, b⟩ hab => ?_
    obtain ⟨ha, hb⟩ := mem_names_of_mem_blockNames hsound hab
    obtain ⟨r, hr, rfl⟩ := List.mem_map.mp ha
    obtain ⟨u, hu, rfl⟩ := List.mem_map.mp hb
    obtain ⟨sr, -, su, -, -, -, hderivative⟩ :=
      Layout.derivative_of_mem dim hsound.wellNamed.nodup hr hu
    rw [if_neg (hranks r hr u hu hab), ← hlayout] at hderivative
    exact ⟨_, hderivative⟩
  · exact ⟨[], rfl⟩

end Blueprint

/-- A description without requests for the inverse is accepted, unless it addresses a derivative
without a view. -/
theorem Compiler.exists_compile_eq_ok {compiler : Compiler} {description : Description}
    {hypothesis : Hypothesis}
    {plan : Blueprint} (hplan : (compiler.blueprint description hypothesis).outcome = .ok plan)
    (hblocks : plan.draft.inverseBlocks = [])
    (hranks : ∀ r ∈ plan.draft.roster.vars, ∀ u ∈ plan.draft.roster.vars,
      (r.name, u.name) ∈ plan.blockNames (plan.code? .integrator) →
        ¬ (r.rank = .symmetricTensor ∧ u.rank = .vector)) :
    ∃ generated, (compiler.compile description hypothesis).outcome = .ok generated := by
  obtain ⟨draft, solver, hdraft, -, rfl⟩ := blueprint_eq_ok_iff.mp hplan
  have hsound := Description.sound_of_draft_eq_ok hdraft
  obtain ⟨derivatives, hderivatives⟩ := Blueprint.exists_derivatives_eq_ok hsound rfl hranks
  obtain ⟨sections, hsections⟩ := Blueprint.exists_sections_eq_ok
    (Layout.plan_namesDistinct _ hsound.wellNamed.nodup) hblocks hderivatives
  exact ⟨_, compile_eq_ok_iff.mpr ⟨_, sections, hplan, hsections, rfl⟩⟩

end Constitutive
