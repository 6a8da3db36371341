import Constitutive.Proofs.Section.Inverse

/-!
# What compilation fails with

A description that cannot be drafted is at fault itself.  Once there is a blueprint only two things
are left that can fail: a derivative that has no view, and a block of the inverse whose name has
been used (`sections_eq_error_iff`).  The members cannot fail because requested blocks belong to
declared variables, and the loop cannot because variables have different names.

## Strategy

* **Derivatives** are taken in the order of their names, so the first that fails is the least pair
  without a view.  Diagonal blocks always have a view, hence that pair is one that the integrator
  mentions (`derivatives_eq_error_iff`).
* **Blocks of the inverse** fail as `undoBlocks_cases` says, after all derivatives have been found.
-/

namespace Constitutive

/-! ## The first that fails -/

theorem mapM_eq_error_iff {ε α β : Type} {f : α → Except ε β} {xs : List α} {e : ε} :
    xs.mapM f = .error e ↔
      ∃ before x after, xs = before ++ x :: after ∧ (∀ y ∈ before, ∃ b, f y = .ok b) ∧
        f x = .error e := by
  induction xs with
  | nil =>
      constructor
      · exact nofun
      · rintro ⟨before, x, after, heq, -⟩
        simp at heq
  | cons first rest ih =>
      rw [List.mapM_cons, bind_eq_error_iff]
      constructor
      · rintro (hfirst | ⟨b, hfirst, h⟩)
        · exact ⟨[], first, rest, rfl, fun _ hy => absurd hy List.not_mem_nil, hfirst⟩
        · rcases bind_eq_error_iff.mp h with h | ⟨_, -, h⟩
          · obtain ⟨before, x, after, rfl, hbefore, hx⟩ := ih.mp h
            exact ⟨first :: before, x, after, rfl,
              List.forall_mem_cons.mpr ⟨⟨b, hfirst⟩, hbefore⟩, hx⟩
          · cases h
      · rintro ⟨before, x, after, heq, hbefore, hx⟩
        cases before with
        | nil =>
            obtain ⟨rfl, rfl⟩ := List.cons.inj heq
            exact Or.inl hx
        | cons first' before =>
            obtain ⟨rfl, rfl⟩ := List.cons.inj heq
            obtain ⟨⟨b, hfirst⟩, hbefore⟩ := List.forall_mem_cons.mp hbefore
            exact Or.inr ⟨b, hfirst,
              bind_eq_error_iff.mpr (Or.inl (ih.mpr ⟨before, x, after, rfl, hbefore, hx⟩))⟩

/-! ## The order of pairs -/

theorem pairLe_iff {p q : String × String} :
    pairLe p q = true ↔ p.1 < q.1 ∨ p.1 = q.1 ∧ p.2 ≤ q.2 := by
  simp [pairLe]

theorem pairLe_refl (p : String × String) : pairLe p p = true :=
  pairLe_iff.mpr (Or.inr ⟨rfl, String.le_refl p.2⟩)

theorem pairLe_trans (p q r : String × String) (hpq : pairLe p q = true) (hqr : pairLe q r = true) :
    pairLe p r = true := by
  rw [pairLe_iff] at hpq hqr ⊢
  rcases hpq with hpq | ⟨hpq, hpq'⟩
  · rcases hqr with hqr | ⟨hqr, -⟩
    · exact Or.inl (String.lt_trans hpq hqr)
    · exact Or.inl (hqr ▸ hpq)
  · rcases hqr with hqr | ⟨hqr, hqr'⟩
    · exact Or.inl (hpq ▸ hqr)
    · exact Or.inr ⟨hpq.trans hqr, String.le_trans hpq' hqr'⟩

theorem pairLe_total (p q : String × String) : (pairLe p q || pairLe q p) = true := by
  rw [Bool.or_eq_true, pairLe_iff, pairLe_iff]
  by_cases hlt : p.1 < q.1
  · exact Or.inl (Or.inl hlt)
  · by_cases hgt : q.1 < p.1
    · exact Or.inr (Or.inl hgt)
    · have heq : p.1 = q.1 := String.le_antisymm (String.not_lt.mp hgt) (String.not_lt.mp hlt)
      rcases String.le_total p.2 q.2 with hle | hle
      · exact Or.inl (Or.inr ⟨heq, hle⟩)
      · exact Or.inr (Or.inr ⟨heq.symm, hle⟩)

theorem pairwise_sortedPairs (pairs : List (String × String)) :
    (sortedPairs pairs).Pairwise fun p q => pairLe p q = true := by
  rw [sortedPairs]
  exact List.pairwise_mergeSort pairLe_trans pairLe_total pairs.eraseDups

theorem pairLe_antisymm {p q : String × String} (hpq : pairLe p q = true)
    (hqp : pairLe q p = true) : p = q := by
  rw [pairLe_iff] at hpq hqp
  rcases hpq with hpq | ⟨hpq, hpq'⟩
  · rcases hqp with hqp | ⟨hqp, -⟩
    · exact absurd hqp (String.lt_asymm hpq)
    · exact absurd (hqp ▸ hpq) (String.lt_irrefl _)
  · rcases hqp with hqp | ⟨-, hqp'⟩
    · exact absurd (hpq ▸ hqp) (String.lt_irrefl _)
    · exact Prod.ext hpq (String.le_antisymm hpq' hqp')

/-! ## What a blueprint builds on -/

namespace Blueprint

variable {plan : Blueprint} {dim : Dimension}

/-- What holds of the blueprints that the compiler makes. -/
structure Grounded (dim : Dimension) (plan : Blueprint) : Prop where
  sound : plan.draft.Sound
  requests : plan.draft.Requests
  layout_eq : plan.layout = Layout.plan dim plan.draft.roster.vars

namespace Grounded

theorem namesDistinct (hplan : plan.Grounded dim) : plan.layout.NamesDistinct := by
  rw [hplan.layout_eq]
  exact Layout.plan_namesDistinct dim hplan.sound.wellNamed.nodup

/-- Requested blocks have their places. -/
theorem exists_placed (hplan : plan.Grounded dim) :
    ∃ placed, placeBlocks plan.layout plan.draft.inverseBlocks = .ok placed := by
  rw [hplan.layout_eq]
  exact exists_placeBlocks_eq_ok dim hplan.sound.wellNamed.nodup hplan.requests.declared

theorem exists_members (hplan : plan.Grounded dim) : ∃ members, plan.members = .ok members := by
  obtain ⟨placed, hplaced⟩ := hplan.exists_placed
  unfold Blueprint.members inverseMembers
  rw [hplaced]
  exact ⟨_, rfl⟩

/-- The loop can be written whatever it compares and asks for. -/
theorem exists_loopSection (hplan : plan.Grounded dim) (comparison call : Option String) :
    ∃ loop, plan.loopSection comparison call = .ok loop := by
  obtain ⟨undo, hundo⟩ := exists_undoIncrements_eq_ok plan.draft.factors hplan.namesDistinct
    (fun _ _ => List.not_mem_nil : ∀ slot ∈ plan.layout.slots,
      incrementName slot.name ∉ ([] : Undone))
  exact ⟨_, loopSection_eq_of_undoIncrements hundo comparison call⟩

end Grounded

/-! ## The blocks of the inverse -/

/-- The method that hands out placed blocks, with the statements that map them back. -/
def handOut (capabilities : Capabilities) (placed : List PlacedBlock) (undo : List Stmt) :
    List Stmt :=
  [.block
    (.concat [["bool ", .define (.method .inverseBlocks), "("],
      .joinWith ", " (placed.map fun p => .concat [p.type, ["& ", p.block.argumentName]]), [")"]])
    ((if capabilities.usesJacobianInvert then placed.map PlacedBlock.copy
      else collectBlocks placed) ++ undo ++ [.line ["return true;"]])]

theorem inverseMethod_eq {layout : Layout} {blocks : List InverseBlock} {placed : List PlacedBlock}
    (hplaced : placeBlocks layout blocks = .ok placed) (factors : Factors)
    (capabilities : Capabilities) :
    inverseMethod layout factors capabilities blocks =
      (undoBlocks factors [] placed).map (handOut capabilities placed) := by
  unfold inverseMethod
  rw [hplaced]
  cases hundo : undoBlocks factors [] placed with
  | error fault => simp [bind, Except.bind, hundo, Except.map]
  | ok undo => simp [bind, Except.bind, hundo, Except.map, pure, Except.pure, handOut]

/-- The call that asks for placed blocks. -/
def callFor (placed : List PlacedBlock) : List Stmt :=
  [.block (.concat [["if(!", Method.inverseBlocks, "("],
    .joinWith ", " (placed.map fun p => [.use (.member (.inverseBlock p.block))]), ["))"]]) [fail]]

theorem inverseSection_eq_of_ne_nil {placed : List PlacedBlock}
    (hplaced : placeBlocks plan.layout plan.draft.inverseBlocks = .ok placed)
    (hne : plan.draft.inverseBlocks ≠ []) :
    plan.inverseSection = (undoBlocks plan.draft.factors [] placed).map fun undo =>
      ([plan.sectionOf .inverseBlocks (handOut plan.solver.capabilities placed undo)],
        some (plan.render (callFor placed))) := by
  unfold inverseSection inverseCall
  rw [if_neg hne, inverseMethod_eq hplaced, hplaced]
  cases undoBlocks plan.draft.factors [] placed with
  | error fault => rfl
  | ok undo => rfl

/-- Placed blocks are handed out unless they cannot be mapped back. -/
theorem inverseSection_eq_error_iff {placed : List PlacedBlock}
    (hplaced : placeBlocks plan.layout plan.draft.inverseBlocks = .ok placed)
    {cause : InternalFault} :
    plan.inverseSection = .error cause ↔ undoBlocks plan.draft.factors [] placed =
      .error cause := by
  by_cases hempty : plan.draft.inverseBlocks = []
  · -- nothing is asked for, and nothing has to be mapped back
    have hblocks := map_block_of_placeBlocks hplaced
    rw [hempty, List.map_eq_nil_iff] at hblocks
    unfold inverseSection
    rw [if_pos hempty, hblocks]
    exact ⟨nofun, nofun⟩
  · rw [inverseSection_eq_of_ne_nil hplaced hempty]
    cases undoBlocks plan.draft.factors [] placed with
    | error fault => simp [Except.map]
    | ok undo => simp [Except.map]

/-! ## All sections -/

theorem residualSection_eq_error_iff {integrator : Option String} {fault : Fault} :
    (plan.residualSection integrator).outcome = .error fault ↔
      ∃ cause, plan.derivatives integrator = .error cause ∧ fault = .internal cause := by
  unfold residualSection
  simp only [Traced.outcome_bind, Traced.outcome_tell, Traced.outcome_ofExcept, Traced.outcome_pure]
  cases plan.derivatives integrator with
  | error cause => simp [bind, Except.bind, Except.mapError, eq_comm]
  | ok derivatives => simp [bind, Except.bind, Except.mapError]

theorem sections_of_derivatives_eq_error (hplan : plan.Grounded dim) {cause : InternalFault}
    (h : plan.derivatives (plan.code? .integrator) = .error cause) :
    plan.sections.outcome = .error (.internal cause) := by
  obtain ⟨members, hmembers⟩ := hplan.exists_members
  have hresidual : (plan.residualSection (plan.code? .integrator)).outcome =
      .error (.internal cause) :=
    residualSection_eq_error_iff.mpr ⟨cause, h, rfl⟩
  unfold Blueprint.sections
  simp only [Traced.outcome_bind, Traced.outcome_tell, Traced.outcome_ofExcept, hmembers, hresidual]
  rfl

theorem sections_of_inverseSection_eq_error (hplan : plan.Grounded dim)
    {derivatives : List Derivative}
    (hderivatives : plan.derivatives (plan.code? .integrator) = .ok derivatives)
    {cause : InternalFault}
    (h : plan.inverseSection = .error cause) :
    plan.sections.outcome = .error (.internal cause) := by
  obtain ⟨members, hmembers⟩ := hplan.exists_members
  obtain ⟨numericalJacobian, hnumerical⟩ := plan.exists_numericalJacobianSection_eq_ok
  have hresidual := residualSection_eq_ok_iff.mpr ⟨derivatives, hderivatives, rfl⟩
  unfold Blueprint.sections
  simp only [Traced.outcome_bind, Traced.outcome_tell, Traced.outcome_ofExcept, hmembers, hresidual,
    hnumerical, h]
  rfl

theorem exists_sections_of_parts (hplan : plan.Grounded dim) {derivatives : List Derivative}
    (hderivatives : plan.derivatives (plan.code? .integrator) = .ok derivatives)
    {inverse : List CodeSection × Option String} (hinverse : plan.inverseSection = .ok inverse) :
    ∃ sections, plan.sections.outcome = .ok sections := by
  obtain ⟨members, hmembers⟩ := hplan.exists_members
  obtain ⟨numericalJacobian, hnumerical⟩ := plan.exists_numericalJacobianSection_eq_ok
  obtain ⟨comparison, hcomparison⟩ := plan.exists_comparison_eq_ok
  obtain ⟨loop, hloop⟩ := hplan.exists_loopSection comparison inverse.2
  exact ⟨_, sections_eq_ok_iff.mpr ⟨members, derivatives, numericalJacobian, inverse.1, inverse.2,
    comparison, loop, hmembers, hderivatives, hnumerical, hinverse, hcomparison, hloop, rfl⟩⟩

/-- Only derivatives and blocks of the inverse can fail, in this order. -/
theorem sections_eq_error_iff (hplan : plan.Grounded dim) {fault : Fault} :
    plan.sections.outcome = .error fault ↔
      ∃ cause, fault = .internal cause ∧
        (plan.derivatives (plan.code? .integrator) = .error cause ∨
          (∃ derivatives, plan.derivatives (plan.code? .integrator) = .ok derivatives) ∧
            plan.inverseSection = .error cause) := by
  constructor
  · intro h
    cases hderivatives : plan.derivatives (plan.code? .integrator) with
    | error cause =>
        rw [sections_of_derivatives_eq_error hplan hderivatives] at h
        exact ⟨cause, (Except.error.inj h).symm, Or.inl rfl⟩
    | ok derivatives =>
        cases hinverse : plan.inverseSection with
        | error cause =>
            rw [sections_of_inverseSection_eq_error hplan hderivatives hinverse] at h
            exact ⟨cause, (Except.error.inj h).symm, Or.inr ⟨⟨derivatives, rfl⟩, rfl⟩⟩
        | ok inverse =>
            obtain ⟨sections, hsections⟩ := exists_sections_of_parts hplan hderivatives hinverse
            rw [hsections] at h
            cases h
  · rintro ⟨cause, rfl, h | ⟨⟨derivatives, hderivatives⟩, h⟩⟩
    · exact sections_of_derivatives_eq_error hplan h
    · exact sections_of_inverseSection_eq_error hplan hderivatives h

/-! ## Derivatives without a view -/

/-- A declared symmetric tensor and a declared vector: the one has no derivative with respect to the
other. -/
def WithoutView (plan : Blueprint) (residual unknown : String) : Prop :=
  (∃ r ∈ plan.draft.roster.vars, r.name = residual ∧ r.rank = .symmetricTensor) ∧
    ∃ u ∈ plan.draft.roster.vars, u.name = unknown ∧ u.rank = .vector

/-- The integrator, as it is put into the class, mentions a block without a view. -/
def MentionsWithoutView (plan : Blueprint) (residual unknown : String) : Prop :=
  (∃ text, plan.code? .integrator = some text ∧
    (residual, unknown) ∈ blocksUsed plan.draft.roster.contains text) ∧
    plan.WithoutView residual unknown

theorem withoutView_iff (hplan : plan.Grounded dim) {r u : Variable}
    (hr : r ∈ plan.draft.roster.vars) (hu : u ∈ plan.draft.roster.vars) :
    plan.WithoutView r.name u.name ↔ r.rank = .symmetricTensor ∧ u.rank = .vector := by
  have hnames : (plan.draft.roster.vars.map (·.name)).Nodup := hplan.sound.wellNamed.nodup
  constructor
  · rintro ⟨⟨r', hr', hname, hrank⟩, u', hu', hname', hrank'⟩
    obtain rfl : r' = r := List.inj_on_of_nodup_map hnames hr' hr hname
    obtain rfl : u' = u := List.inj_on_of_nodup_map hnames hu' hu hname'
    exact ⟨hrank, hrank'⟩
  · rintro ⟨hrank, hrank'⟩
    exact ⟨⟨r, hr, rfl, hrank⟩, u, hu, rfl, hrank'⟩

theorem not_withoutView_diagonal (hplan : plan.Grounded dim) (name : String) :
    ¬ plan.WithoutView name name := by
  rintro ⟨⟨r, hr, rfl, hrank⟩, u, hu, hname, hrank'⟩
  have hnames : (plan.draft.roster.vars.map (·.name)).Nodup := hplan.sound.wellNamed.nodup
  obtain rfl : u = r := List.inj_on_of_nodup_map hnames hu hr hname
  rw [hrank] at hrank'
  cases hrank'

theorem derivative_eq_error_iff (hplan : plan.Grounded dim) {a b : String}
    (ha : a ∈ plan.draft.roster.names) (hb : b ∈ plan.draft.roster.names) {cause : InternalFault} :
    plan.layout.derivative a b = .error cause ↔
      plan.WithoutView a b ∧ cause = .unsupportedDerivative a b .symmetricTensor .vector := by
  obtain ⟨r, hr, rfl⟩ := List.mem_map.mp ha
  obtain ⟨u, hu, rfl⟩ := List.mem_map.mp hb
  obtain ⟨sr, -, su, -, -, -, hderivative⟩ :=
    Layout.derivative_of_mem dim hplan.sound.wellNamed.nodup hr hu
  rw [withoutView_iff hplan hr hu, hplan.layout_eq, hderivative]
  split
  · rename_i hranks
    exact ⟨fun h => ⟨hranks, (Except.error.inj h).symm⟩, fun h => congrArg Except.error h.2.symm⟩
  · rename_i hranks
    exact ⟨nofun, fun h => absurd h.1 hranks⟩

/-- Among the blocks that are addressed, those without a view are mentioned by the integrator. -/
theorem mentionsWithoutView_iff (hplan : plan.Grounded dim) {a b : String} :
    plan.MentionsWithoutView a b ↔ (a, b) ∈ plan.blockNames (plan.code? .integrator) ∧
      plan.WithoutView a b := by
  refine and_congr_left fun hview => ?_
  unfold blockNames
  dsimp only
  rw [mem_sortedPairs]
  constructor
  · rintro ⟨text, htext, hmem⟩
    rw [htext]
    exact List.mem_append_left _ hmem
  · intro hmem
    rcases List.mem_append.mp hmem with hmem | hmem
    · cases htext : plan.code? .integrator with
      | none =>
          rw [htext] at hmem
          exact absurd hmem List.not_mem_nil
      | some text =>
          rw [htext] at hmem
          exact ⟨text, rfl, hmem⟩
    · -- the other blocks are diagonal
      obtain ⟨name, -, heq⟩ := List.mem_map.mp hmem
      obtain ⟨rfl, rfl⟩ := Prod.mk.inj heq
      exact absurd hview (not_withoutView_diagonal hplan name)

/-- The derivative that fails is that of the least pair without a view. -/
theorem least_of_derivatives_eq_error (hplan : plan.Grounded dim) {cause : InternalFault}
    (hanalytical : plan.solver.capabilities.isAnalytical = true)
    (h : plan.derivatives (plan.code? .integrator) = .error cause) :
    ∃ a b, plan.MentionsWithoutView a b ∧
      (∀ a' b', plan.MentionsWithoutView a' b' → pairLe (a, b) (a', b') = true) ∧
      cause = .unsupportedDerivative a b .symmetricTensor .vector := by
  rw [derivatives, if_pos hanalytical] at h
  obtain ⟨before, ⟨a, b⟩, after, heq, hbefore, hfails⟩ := mapM_eq_error_iff.mp h
  have hmem : (a, b) ∈ plan.blockNames (plan.code? .integrator) := by
    rw [heq]
    exact List.mem_append_right _ (List.mem_cons_self ..)
  obtain ⟨ha, hb⟩ := mem_names_of_mem_blockNames hplan.sound hmem
  obtain ⟨hview, hcause⟩ := (derivative_eq_error_iff hplan ha hb).mp hfails
  refine ⟨a, b, (mentionsWithoutView_iff hplan).mpr ⟨hmem, hview⟩,
    fun a' b' hmentions => ?_, hcause⟩
  obtain ⟨hmem', hview'⟩ := (mentionsWithoutView_iff hplan).mp hmentions
  obtain ⟨ha', hb'⟩ := mem_names_of_mem_blockNames hplan.sound hmem'
  have hfails' := (derivative_eq_error_iff hplan ha' hb').mpr ⟨hview', rfl⟩
  have hsorted : (before ++ (a, b) :: after).Pairwise fun p q => pairLe p q = true := by
    rw [← heq]
    exact pairwise_sortedPairs _
  -- the other pair does not stand in front, since it fails as well
  rw [heq] at hmem'
  rcases List.mem_append.mp hmem' with hmem' | hmem'
  · obtain ⟨d, hd⟩ := hbefore _ hmem'
    cases hd.symm.trans hfails'
  · rcases List.mem_cons.mp hmem' with hsame | hmem'
    · rw [hsame]
      exact pairLe_refl _
    · exact (List.pairwise_cons.mp (List.pairwise_append.mp hsorted).2.1).1 _ hmem'

/-- If all derivatives are found, no pair without a view is mentioned. -/
theorem not_mentionsWithoutView (hplan : plan.Grounded dim) {derivatives : List Derivative}
    (hanalytical : plan.solver.capabilities.isAnalytical = true)
    (hderivatives : plan.derivatives (plan.code? .integrator) = .ok derivatives) (a b : String) :
    ¬ plan.MentionsWithoutView a b := by
  intro hmentions
  obtain ⟨hmem, hview⟩ := (mentionsWithoutView_iff hplan).mp hmentions
  obtain ⟨ha, hb⟩ := mem_names_of_mem_blockNames hplan.sound hmem
  have hfails := (derivative_eq_error_iff hplan ha hb).mpr ⟨hview, rfl⟩
  rw [← map_names_derivatives hanalytical hderivatives] at hmem
  obtain ⟨d, hd, heq⟩ := List.mem_map.mp hmem
  obtain ⟨rfl, rfl⟩ := Prod.mk.inj heq
  exact absurd ((derivative_of_mem hanalytical hderivatives hd).symm.trans hfails) nofun

theorem derivatives_eq_error_iff (hplan : plan.Grounded dim) {cause : InternalFault}
    (hanalytical : plan.solver.capabilities.isAnalytical = true) :
    plan.derivatives (plan.code? .integrator) = .error cause ↔
      ∃ a b, plan.MentionsWithoutView a b ∧
        (∀ a' b', plan.MentionsWithoutView a' b' → pairLe (a, b) (a', b') = true) ∧
        cause = .unsupportedDerivative a b .symmetricTensor .vector := by
  refine ⟨least_of_derivatives_eq_error hplan hanalytical, ?_⟩
  rintro ⟨a, b, hmentions, hleast, rfl⟩
  cases hderivatives : plan.derivatives (plan.code? .integrator) with
  | error cause =>
      obtain ⟨a', b', hmentions', hleast', rfl⟩ :=
        least_of_derivatives_eq_error hplan hanalytical hderivatives
      obtain ⟨rfl, rfl⟩ :=
        Prod.mk.inj (pairLe_antisymm (hleast a' b' hmentions') (hleast' a b hmentions))
      rfl
  | ok derivatives =>
      exact absurd hmentions (not_mentionsWithoutView hplan hanalytical hderivatives a b)

/-- Without an analytical Jacobian no derivative is addressed. -/
theorem derivatives_of_not_isAnalytical
    (hanalytical : plan.solver.capabilities.isAnalytical = false)
    (integrator : Option String) : plan.derivatives integrator = .ok [] := by
  rw [derivatives, hanalytical, if_neg Bool.false_ne_true]

end Blueprint

/-! ## Whole compilations -/

namespace Compiler

open Blueprint InverseBlock

variable {compiler : Compiler} {description : Description} {hypothesis : Hypothesis}
  {plan : Blueprint}

theorem grounded_of_blueprint
    (hplan : (compiler.blueprint description hypothesis).outcome = .ok plan) :
    plan.Grounded hypothesis.dimension := by
  obtain ⟨draft, solver, hdraft, -, rfl⟩ := blueprint_eq_ok_iff.mp hplan
  exact ⟨Description.sound_of_draft_eq_ok hdraft, Description.requests_of_draft_eq_ok hdraft, rfl⟩

/-- Without a blueprint the description is at fault. -/
theorem blueprint_failsWith (compiler : Compiler) (description : Description)
    (hypothesis : Hypothesis) :
    FailsWith Fault.OfEvent (compiler.blueprint description hypothesis).outcome := by
  unfold blueprint
  rw [Traced.outcome_bind]
  refine FailsWith.bind (Description.draft_failsWith description _ _ hypothesis) fun draft => ?_
  rw [Traced.outcome_bind]
  refine FailsWith.bind (.ok _) fun _ => ?_
  split
  · exact .error nofun
  · exact .ok _

theorem compile_eq_error_iff {fault : Fault} :
    (compiler.compile description hypothesis).outcome = .error fault ↔
      (compiler.blueprint description hypothesis).outcome = .error fault ∨
        ∃ plan, (compiler.blueprint description hypothesis).outcome = .ok plan ∧
          plan.sections.outcome = .error fault := by
  unfold compile
  rw [Traced.outcome_bind, bind_eq_error_iff]
  refine or_congr_right (exists_congr fun plan => and_congr_right fun _ => ?_)
  rw [Traced.outcome_bind, bind_eq_error_iff]
  refine ⟨?_, Or.inl⟩
  rintro (h | ⟨_, -, h⟩)
  · exact h
  · cases h

/-- An internal fault comes from the derivatives or from the blocks of the inverse. -/
theorem internal_fault_iff (hplan : (compiler.blueprint description hypothesis).outcome = .ok plan)
    {cause : InternalFault} :
    (compiler.compile description hypothesis).outcome = .error (.internal cause) ↔
      plan.derivatives (plan.code? .integrator) = .error cause ∨
        (∃ derivatives, plan.derivatives (plan.code? .integrator) = .ok derivatives) ∧
          plan.inverseSection = .error cause := by
  rw [compile_eq_error_iff]
  constructor
  · rintro (h | ⟨plan', hplan', h⟩)
    · cases hplan.symm.trans h
    · obtain rfl : plan = plan' := Except.ok.inj (hplan.symm.trans hplan')
      obtain ⟨cause', heq, h⟩ := (sections_eq_error_iff (grounded_of_blueprint hplan)).mp h
      obtain rfl := Fault.internal.inj heq
      exact h
  · intro h
    exact Or.inr ⟨plan, hplan,
      (sections_eq_error_iff (grounded_of_blueprint hplan)).mpr ⟨cause, rfl, h⟩⟩

/-- Blocks of the inverse fail exactly if two of them clash, on a name on which they do. -/
theorem inverseSection_cases (hplan : plan.Grounded hypothesis.dimension) :
    (∃ target, ClashAt plan.draft.factors plan.draft.inverseBlocks target ∧
        plan.inverseSection = .error (.undoneTwice target)) ∨
      ((¬ ∃ target, ClashAt plan.draft.factors plan.draft.inverseBlocks target) ∧
        ∀ cause, plan.inverseSection ≠ .error cause) := by
  obtain ⟨placed, hplaced⟩ := hplan.exists_placed
  have hblocks := map_block_of_placeBlocks hplaced
  have honce : (placed.map (·.block)).Nodup := hblocks ▸ hplan.requests.once
  have hcases := undoBlocks_cases plan.draft.factors (named_of_placeBlocks hplaced) honce
  rw [hblocks] at hcases
  rcases hcases with ⟨target, hclash, hundo⟩ | ⟨hnone, hundo⟩
  · exact Or.inl ⟨target, hclash, (inverseSection_eq_error_iff hplaced).mpr hundo⟩
  · refine Or.inr ⟨hnone, fun cause h => ?_⟩
    exact absurd (hundo.symm.trans ((inverseSection_eq_error_iff hplaced).mp h)) nofun

theorem undoneTwice_of_inverseSection_eq_error (hplan : plan.Grounded hypothesis.dimension)
    {cause : InternalFault} (h : plan.inverseSection = .error cause) :
    ∃ target, cause = .undoneTwice target ∧
      ClashAt plan.draft.factors plan.draft.inverseBlocks target := by
  rcases inverseSection_cases hplan with ⟨target, hclash, htarget⟩ | ⟨-, hnone⟩
  · exact ⟨target, Except.error.inj (h.symm.trans htarget), hclash⟩
  · exact absurd h (hnone cause)

theorem derivatives_eq_error_cases (hplan : plan.Grounded hypothesis.dimension)
    {cause : InternalFault} (h : plan.derivatives (plan.code? .integrator) = .error cause) :
    ∃ a b, cause = .unsupportedDerivative a b .symmetricTensor .vector := by
  cases hanalytical : plan.solver.capabilities.isAnalytical with
  | true =>
      obtain ⟨a, b, -, -, hcause⟩ := (derivatives_eq_error_iff hplan hanalytical).mp h
      exact ⟨a, b, hcause⟩
  | false =>
      rw [derivatives_of_not_isAnalytical hanalytical] at h
      cases h

/-- The internal faults of compilations. -/
theorem internal_fault_cases {cause : InternalFault}
    (h : (compiler.compile description hypothesis).outcome = .error (.internal cause)) :
    (∃ a b, cause = .unsupportedDerivative a b .symmetricTensor .vector) ∨ ∃ target,
      cause = .undoneTwice target := by
  rcases compile_eq_error_iff.mp h with h' | ⟨plan, hplan, -⟩
  · exact absurd (blueprint_failsWith compiler description hypothesis _ h') id
  · have hgrounded := grounded_of_blueprint hplan
    rcases (internal_fault_iff hplan).mp h with h | ⟨-, h⟩
    · exact Or.inl (derivatives_eq_error_cases hgrounded h)
    · obtain ⟨target, hcause, -⟩ := undoneTwice_of_inverseSection_eq_error hgrounded h
      exact Or.inr ⟨target, hcause⟩

theorem unsupportedDerivative_iff
    (hplan : (compiler.blueprint description hypothesis).outcome = .ok plan)
    {s g : String} {rs rg : Rank} :
    (compiler.compile description hypothesis).outcome =
      .error (.internal (.unsupportedDerivative s g rs rg)) ↔
      plan.derivatives (plan.code? .integrator) = .error (.unsupportedDerivative s g rs rg) := by
  rw [internal_fault_iff hplan]
  refine ⟨?_, Or.inl⟩
  rintro (h | ⟨-, h⟩)
  · exact h
  · obtain ⟨target, hcause, -⟩ :=
      undoneTwice_of_inverseSection_eq_error (grounded_of_blueprint hplan) h
    cases hcause

/-- With an analytical Jacobian the derivative that is reported is the least pair without a view. -/
theorem unsupportedDerivative_iff_least
    (hplan : (compiler.blueprint description hypothesis).outcome = .ok plan)
    (hanalytical : plan.solver.capabilities.isAnalytical = true) (s g : String) (rs rg : Rank) :
    (compiler.compile description hypothesis).outcome =
      .error (.internal (.unsupportedDerivative s g rs rg)) ↔
      rs = .symmetricTensor ∧ rg = .vector ∧ plan.MentionsWithoutView s g ∧
        ∀ s' g', plan.MentionsWithoutView s' g' → s < s' ∨ s = s' ∧ g ≤ g' := by
  rw [unsupportedDerivative_iff hplan,
    derivatives_eq_error_iff (grounded_of_blueprint hplan) hanalytical]
  simp only [pairLe_iff]
  constructor
  · rintro ⟨a, b, hmentions, hleast, hcause⟩
    obtain ⟨rfl, rfl, rfl, rfl⟩ := InternalFault.unsupportedDerivative.inj hcause
    exact ⟨rfl, rfl, hmentions, hleast⟩
  · rintro ⟨rfl, rfl, hmentions, hleast⟩
    exact ⟨s, g, hmentions, hleast, rfl⟩

theorem exists_unsupportedDerivative_iff
    (hplan : (compiler.blueprint description hypothesis).outcome = .ok plan)
    (hanalytical : plan.solver.capabilities.isAnalytical = true) :
    (∃ s g rs rg,
      (compiler.compile description hypothesis).outcome =
        .error (.internal (.unsupportedDerivative s g rs rg))) ↔
      ∃ s g, plan.MentionsWithoutView s g := by
  have hgrounded := grounded_of_blueprint hplan
  constructor
  · rintro ⟨s, g, rs, rg, h⟩
    obtain ⟨-, -, hmentions, -⟩ :=
      (unsupportedDerivative_iff_least hplan hanalytical s g rs rg).mp h
    exact ⟨s, g, hmentions⟩
  · rintro ⟨s, g, hmentions⟩
    cases hderivatives : plan.derivatives (plan.code? .integrator) with
    | error cause =>
        obtain ⟨a, b, rfl⟩ := derivatives_eq_error_cases hgrounded hderivatives
        exact ⟨a, b, _, _, (unsupportedDerivative_iff hplan).mpr hderivatives⟩
    | ok derivatives =>
        exact absurd hmentions (not_mentionsWithoutView hgrounded hanalytical hderivatives s g)

theorem dimension_supported (compiler : Compiler) (description : Description)
    (hypothesis : Hypothesis) (dimension : Nat) (location : Option Location) :
    (compiler.compile description hypothesis).outcome ≠
      .error (.declaration (.unsupportedDimension dimension) location) := by
  intro h
  rcases compile_eq_error_iff.mp h with h | ⟨plan, hplan, h⟩
  · exact blueprint_failsWith compiler description hypothesis _ h dimension rfl
  · obtain ⟨cause, heq, -⟩ := (sections_eq_error_iff (grounded_of_blueprint hplan)).mp h
    cases heq

/-- **Faults of compilations.**  Whatever the solvers, the options, the description and the
hypothesis are: no variable and no block of the inverse is unknown to the compiler, no factor is set
too late, and the dimension of the hypothesis is supported.  With a blueprint and an analytical
Jacobian, a derivative without a view is reported exactly if the integrator mentions one, and it is
the least of them; without an analytical Jacobian none is reported. -/
theorem faults_of_compilation (compiler : Compiler) (description : Description)
    (hypothesis : Hypothesis) :
    let outcome := (compiler.compile description hypothesis).outcome
    (∀ name, outcome ≠ .error (.internal (.unknownVariable name))) ∧
      (∀ block, outcome ≠ .error (.internal (.unknownInverseBlock block))) ∧
      outcome ≠ .error (.internal .frozen) ∧
      (∀ dimension location,
        outcome ≠ .error (.declaration (.unsupportedDimension dimension) location)) ∧
      ∀ plan, (compiler.blueprint description hypothesis).outcome = .ok plan →
        Layout.plan? hypothesis.dimension.toNat plan.draft.roster.vars = .ok plan.layout ∧
        (plan.solver.capabilities.isAnalytical = true →
          ((∃ s g rs rg, outcome = .error (.internal (.unsupportedDerivative s g rs rg))) ↔
            ∃ s g, plan.MentionsWithoutView s g) ∧
          ∀ s g rs rg, outcome = .error (.internal (.unsupportedDerivative s g rs rg)) ↔
            rs = .symmetricTensor ∧ rg = .vector ∧ plan.MentionsWithoutView s g ∧
              ∀ s' g', plan.MentionsWithoutView s' g' → s < s' ∨ s = s' ∧ g ≤ g') ∧
        (plan.solver.capabilities.isAnalytical = false →
          ∀ s g rs rg, outcome ≠ .error (.internal (.unsupportedDerivative s g rs rg))) := by
  intro outcome
  refine ⟨fun name h => ?_, fun block h => ?_, fun h => ?_,
    dimension_supported compiler description hypothesis, fun plan hplan =>
      ⟨?_, fun hanalytical => ⟨?_, ?_⟩, fun hanalytical s g rs rg h => ?_⟩⟩
  · rcases internal_fault_cases h with ⟨_, _, hcause⟩ | ⟨_, hcause⟩
    · cases hcause
    · cases hcause
  · rcases internal_fault_cases h with ⟨_, _, hcause⟩ | ⟨_, hcause⟩
    · cases hcause
    · cases hcause
  · rcases internal_fault_cases h with ⟨_, _, hcause⟩ | ⟨_, hcause⟩
    · cases hcause
    · cases hcause
  · rw [Layout.plan?, Dimension.ofNat?_toNat, (grounded_of_blueprint hplan).layout_eq]
  · exact exists_unsupportedDerivative_iff hplan hanalytical
  · exact unsupportedDerivative_iff_least hplan hanalytical
  · have hderivatives := (unsupportedDerivative_iff hplan).mp h
    rw [derivatives_of_not_isAnalytical hanalytical] at hderivatives
    cases hderivatives

/-- A description that mentions three derivatives without a view. -/
def tensorsByVectors : Description where
  className := "TensorsByVectors"
  events :=
    [{ declaration := .integrationVariable "h" .symmetricTensor 1 },
      { declaration := .integrationVariable "e" .symmetricTensor 1 },
      { declaration := .integrationVariable "n" .vector 1 },
      { declaration := .integrationVariable "m" .vector 1 },
      { declaration := .code .integrator "dfh_ddm = a; dfe_ddn = b; dfe_ddm = c; dfh_ddh = d;" }]

theorem tensorsByVectors_plan :
    ∃ plan text, (({} : Compiler).blueprint tensorsByVectors .tridimensional).outcome = .ok plan ∧
      plan.solver.capabilities.isAnalytical = true ∧ plan.code? .integrator = some text ∧
      blocksNamed plan.draft.roster.contains [] (Text.lex text.toList) =
        [("h", "m"), ("e", "n"), ("e", "m"), ("h", "h")] ∧
      plan.draft.roster.vars =
        [⟨"h", .symmetricTensor, 1⟩, ⟨"e", .symmetricTensor, 1⟩, ⟨"n", .vector, 1⟩,
          ⟨"m", .vector, 1⟩] := by
  have hchecked : (match (({} : Compiler).blueprint tensorsByVectors .tridimensional).outcome with
      | .error _ => false
      | .ok plan => plan.solver.capabilities.isAnalytical &&
        (plan.code? .integrator).any (fun text =>
          blocksNamed plan.draft.roster.contains [] (Text.lex text.toList) =
            [("h", "m"), ("e", "n"), ("e", "m"), ("h", "h")]) &&
        plan.draft.roster.vars =
          [⟨"h", .symmetricTensor, 1⟩, ⟨"e", .symmetricTensor, 1⟩, ⟨"n", .vector, 1⟩,
              ⟨"m", .vector, 1⟩]) = true := by
    decide +kernel
  split at hchecked
  · cases hchecked
  · rename_i plan hplan
    simp only [Bool.and_eq_true, Option.any_eq_true, decide_eq_true_eq] at hchecked
    obtain ⟨⟨hanalytical, text, htext, hblocks⟩, hvars⟩ := hchecked
    exact ⟨plan, text, hplan, hanalytical, htext, hblocks, hvars⟩

theorem faults_of_compilation_tensorsByVectors :
    ∃ plan, (({} : Compiler).blueprint tensorsByVectors .tridimensional).outcome = .ok plan ∧
      plan.solver.capabilities.isAnalytical = true ∧ plan.MentionsWithoutView "h" "m" ∧
      (({} : Compiler).compile tensorsByVectors .tridimensional).outcome =
        .error (.internal (.unsupportedDerivative "e" "m" .symmetricTensor .vector)) := by
  obtain ⟨plan, text, hplan, hanalytical, htext, hblocks, hvars⟩ := tensorsByVectors_plan
  have hmem : ∀ a b, (a, b) ∈ blocksUsed plan.draft.roster.contains text ↔
      (a, b) ∈ [("h", "m"), ("e", "n"), ("e", "m"), ("h", "h")] := by
    intro a b
    rw [blocksUsed, mem_sortedPairs, hblocks]
  have hview : ∀ a ∈ ["h", "e"], plan.WithoutView a "m" := by
    intro a ha
    unfold WithoutView
    rw [hvars]
    exact ⟨⟨⟨a, .symmetricTensor, 1⟩, by simpa using ha, rfl, rfl⟩, ⟨"m", .vector, 1⟩,
      by simp, rfl, rfl⟩
  obtain ⟨-, -, -, -, hfaults⟩ := faults_of_compilation {} tensorsByVectors .tridimensional
  obtain ⟨-, hreported, -⟩ := hfaults plan hplan
  refine ⟨plan, hplan, hanalytical, ⟨⟨text, htext, (hmem _ _).mpr (by simp)⟩, hview _ (by simp)⟩,
    ((hreported hanalytical).2 "e" "m" _ _).mpr
      ⟨rfl, rfl, ⟨⟨text, htext, (hmem _ _).mpr (by simp)⟩, hview _ (by simp)⟩, ?_⟩⟩
  rintro s' g' ⟨⟨text', htext', hmem'⟩, -⟩
  obtain rfl : text = text' := Option.some.inj (htext.symm.trans htext')
  have hpair := (hmem s' g').mp hmem'
  simp only [List.mem_cons, Prod.mk.injEq, List.not_mem_nil, or_false] at hpair
  rcases hpair with ⟨rfl, rfl⟩ | ⟨rfl, rfl⟩ | ⟨rfl, rfl⟩ | ⟨rfl, rfl⟩
  · exact Or.inl (by decide)
  · exact Or.inr ⟨rfl, by decide⟩
  · exact Or.inr ⟨rfl, by decide⟩
  · exact Or.inl (by decide)

/-! ## Blocks of the inverse that clash -/

theorem find?_numericalJacobianSection {numericalJacobian : List CodeSection}
    (h : plan.numericalJacobianSection.outcome = .ok numericalJacobian) :
    numericalJacobian.find? (·.kind == .inverseBlocks) = none := by
  unfold numericalJacobianSection at h
  split at h
  · obtain rfl := Except.ok.inj h
    rfl
  · obtain rfl := Except.ok.inj h
    rfl

/-- The class of an accepted description hands out the requested blocks, each mapped back by its own
line. -/
theorem section?_inverseBlocks_of_compile {generated : GeneratedClass} {placed : List PlacedBlock}
    (hcompile : (compiler.compile description hypothesis).outcome = .ok generated)
    (hplan : (compiler.blueprint description hypothesis).outcome = .ok plan)
    (hblocks : plan.draft.inverseBlocks ≠ [])
    (hplaced : placeBlocks plan.layout plan.draft.inverseBlocks = .ok placed) :
    ∃ undo, undoBlocks plan.draft.factors [] placed = .ok undo ∧
      generated.section? .inverseBlocks =
        some (plan.sectionOf .inverseBlocks
          (handOut plan.solver.capabilities placed undo)).text := by
  obtain ⟨plan', sections, hplan', hsections, rfl⟩ := compile_eq_ok_iff.mp hcompile
  obtain rfl : plan = plan' := Except.ok.inj (hplan.symm.trans hplan')
  obtain ⟨members, derivatives, numericalJacobian, inverse, call, comparison, loop, -, -,
    hnumerical, hinverse, -, -, rfl⟩ := sections_eq_ok_iff.mp hsections
  rw [inverseSection_eq_of_ne_nil hplaced hblocks] at hinverse
  cases hundo : undoBlocks plan.draft.factors [] placed with
  | error fault =>
      rw [hundo] at hinverse
      cases hinverse
  | ok undo =>
      rw [hundo] at hinverse
      obtain ⟨rfl, -⟩ := Prod.mk.inj (Except.ok.inj hinverse)
      refine ⟨undo, rfl, ?_⟩
      -- the sections in front of it are of other kinds
      have hpredictor : SectionKind.predictor ≠ .inverseBlocks := by decide
      have hstress : SectionKind.stress ≠ .inverseBlocks := by decide
      have hfinal : SectionKind.finalStress ≠ .inverseBlocks := by decide
      unfold GeneratedClass.section?
      simp only [List.append_assoc, List.find?_append, find?_sectionFor hpredictor,
        find?_sectionFor hstress, find?_sectionFor hfinal,
        find?_numericalJacobianSection hnumerical]
      rfl

theorem undoneTwice_iff (hplan : (compiler.blueprint description hypothesis).outcome = .ok plan)
    {target : String} :
    (compiler.compile description hypothesis).outcome = .error (.internal (.undoneTwice target)) ↔
      (∃ derivatives, plan.derivatives (plan.code? .integrator) = .ok derivatives) ∧
        plan.inverseSection = .error (.undoneTwice target) := by
  rw [internal_fault_iff hplan]
  refine ⟨?_, Or.inr⟩
  rintro (h | h)
  · obtain ⟨_, _, hcause⟩ := derivatives_eq_error_cases (grounded_of_blueprint hplan) h
    cases hcause
  · exact h

/-- **Names of blocks.**  The requested blocks are different blocks of declared variables.  Their
arguments, and likewise their members, have one name if a cut between the names of the variables can
be moved, and only then.  If two blocks with factors have one name the compilation fails, once the
derivatives have been found, and it reports such a name; this is the only way to map something back
twice.  In the class of an accepted description the blocks with factors have different names, and
each is mapped back by one line. -/
theorem blocks_undone_once_unless_names_clash
    (hplan : (compiler.blueprint description hypothesis).outcome = .ok plan) :
    let blocks := plan.draft.inverseBlocks
    let factors := plan.draft.factors
    let outcome := (compiler.compile description hypothesis).outcome
    (blocks.Nodup ∧ ∀ p ∈ blocks, p.unknown ∈ plan.draft.roster.names ∧
        p.residual ∈ plan.draft.roster.names) ∧
      (∀ p ∈ blocks, ∀ q ∈ blocks,
        (p.argumentName = q.argumentName ↔ p = q ∨ p.CutMoved q ∨ q.CutMoved p) ∧
        (p.memberName = q.memberName ↔ p = q ∨ p.CutMoved q ∨ q.CutMoved p)) ∧
      ((∃ target, outcome = .error (.internal (.undoneTwice target))) ↔
        (∃ derivatives, plan.derivatives (plan.code? .integrator) = .ok derivatives) ∧
          ∃ target, ClashAt factors blocks target) ∧
      (∀ target, outcome = .error (.internal (.undoneTwice target)) →
        ClashAt factors blocks target) ∧
      ∀ generated, outcome = .ok generated → blocks ≠ [] →
        ((scaled factors blocks).map argumentName).Nodup ∧
          ∃ placed, placeBlocks plan.layout blocks = .ok placed ∧
            generated.section? .inverseBlocks = some (plan.sectionOf .inverseBlocks
              (handOut plan.solver.capabilities placed
                  ((blocks.filterMap (undoLine? factors)).map .line))).text := by
  intro blocks factors outcome
  have hgrounded := grounded_of_blueprint hplan
  refine ⟨⟨hgrounded.requests.once, hgrounded.requests.declared⟩,
    fun p _ q _ => ⟨argumentName_eq_iff, memberName_eq_iff⟩, ⟨?_, ?_⟩, fun target h => ?_,
    fun generated hcompile hblocks => ?_⟩
  · rintro ⟨target, h⟩
    obtain ⟨hderivatives, hinverse⟩ := (undoneTwice_iff hplan).mp h
    obtain ⟨target', -, hclash⟩ := undoneTwice_of_inverseSection_eq_error hgrounded hinverse
    exact ⟨hderivatives, target', hclash⟩
  · rintro ⟨hderivatives, hclash⟩
    rcases inverseSection_cases hgrounded with ⟨target, -, htarget⟩ | ⟨hnone, -⟩
    · exact ⟨target, (undoneTwice_iff hplan).mpr ⟨hderivatives, htarget⟩⟩
    · exact absurd hclash hnone
  · obtain ⟨-, hinverse⟩ := (undoneTwice_iff hplan).mp h
    obtain ⟨target', hsame, hclash⟩ := undoneTwice_of_inverseSection_eq_error hgrounded hinverse
    obtain rfl := InternalFault.undoneTwice.inj hsame
    exact hclash
  · obtain ⟨placed, hplaced⟩ := hgrounded.exists_placed
    have hinverse := section?_inverseBlocks_of_compile hcompile hplan hblocks hplaced
    obtain ⟨undo, hundo, hsection⟩ := hinverse
    obtain ⟨hdistinct, -, rfl⟩ := (undoBlocks_eq_ok_iff (named_of_placeBlocks hplaced)).mp hundo
    rw [map_block_of_placeBlocks hplaced] at hdistinct hsection
    exact ⟨hdistinct, placed, hplaced, hsection⟩

/-- Four variables and two blocks, whose names differ in where they are cut. -/
def clashingBlocks : Description where
  className := "Clash"
  events :=
    [{ declaration := .integrationVariable "a" .scalar 1 },
      { declaration := .integrationVariable "b_c" .scalar 1 },
      { declaration := .integrationVariable "a_b" .scalar 1 },
      { declaration := .integrationVariable "c" .scalar 1 },
      { declaration := .normalisationFactor "a" .unknown (.text "2.0") },
      { declaration := .normalisationFactor "a_b" .unknown (.text "3.0") },
      { declaration := .tangentBlocks [⟨"a", "b_c"⟩, ⟨"a_b", "c"⟩] }]

theorem clashingBlocks_plan :
    ∃ plan, (({} : Compiler).blueprint clashingBlocks .tridimensional).outcome = .ok plan ∧
      (∃ derivatives, plan.derivatives (plan.code? .integrator) = .ok derivatives) ∧
      scaled plan.draft.factors plan.draft.inverseBlocks = [⟨"a", "b_c"⟩, ⟨"a_b", "c"⟩] := by
  have hchecked : (match (({} : Compiler).blueprint clashingBlocks .tridimensional).outcome with
      | .error _ => false
      | .ok plan => plan.draft.roster.vars.all (·.rank ≠ .symmetricTensor) &&
        scaled plan.draft.factors plan.draft.inverseBlocks =
        [⟨"a", "b_c"⟩, ⟨"a_b", "c"⟩]) = true := by
    decide +kernel
  split at hchecked
  · cases hchecked
  · rename_i plan hplan
    simp only [Bool.and_eq_true, List.all_eq_true, decide_eq_true_eq] at hchecked
    obtain ⟨hranks, hscaled⟩ := hchecked
    have hgrounded := grounded_of_blueprint hplan
    exact ⟨plan, hplan, exists_derivatives_eq_ok hgrounded.sound hgrounded.layout_eq
      fun r hr _ _ _ hshape => hranks r hr hshape.1, hscaled⟩

/-- The two blocks have one name. -/
theorem clashAt_of_scaled_eq {factors : Factors} {blocks : List InverseBlock}
    (hscaled : scaled factors blocks = [⟨"a", "b_c"⟩, ⟨"a_b", "c"⟩]) :
    ClashAt factors blocks "partial_jacobian_a_b_c" := by
  refine ⟨⟨"a", "b_c"⟩, ?_, ⟨"a_b", "c"⟩, ?_, by decide, by decide, by decide⟩
  · rw [hscaled]
    decide
  · rw [hscaled]
    decide

/-- Requested blocks can clash, and then one of them would be mapped back twice. -/
theorem clashingBlocks_undone_twice :
    (({} : Compiler).compile clashingBlocks .tridimensional).outcome =
      .error (.internal (.undoneTwice "partial_jacobian_a_b_c")) := by
  obtain ⟨plan, hplan, hderivatives, hscaled⟩ := clashingBlocks_plan
  have hnames : ∀ block ∈ scaled plan.draft.factors plan.draft.inverseBlocks,
      block.argumentName = "partial_jacobian_a_b_c" := by
    rw [hscaled]
    decide
  rcases inverseSection_cases (grounded_of_blueprint hplan)
    with ⟨target, hclash, hinverse⟩ | ⟨hnone, -⟩
  · obtain ⟨p, hp, _, _, _, htarget, _⟩ := hclash
    rw [(undoneTwice_iff hplan).mpr ⟨hderivatives, hinverse⟩, ← htarget, hnames p hp]
  · exact absurd ⟨_, clashAt_of_scaled_eq hscaled⟩ hnone

theorem blocks_undone_once_unless_names_clash_clashingBlocks :
    ∃ plan target, (({} : Compiler).blueprint clashingBlocks .tridimensional).outcome = .ok plan ∧
      scaled plan.draft.factors plan.draft.inverseBlocks = [⟨"a", "b_c"⟩, ⟨"a_b", "c"⟩] ∧
      (({} : Compiler).compile clashingBlocks .tridimensional).outcome =
        .error (.internal (.undoneTwice target)) := by
  obtain ⟨plan, hplan, hderivatives, hscaled⟩ := clashingBlocks_plan
  obtain ⟨-, -, hfails, -⟩ := blocks_undone_once_unless_names_clash hplan
  obtain ⟨target, h⟩ := hfails.mpr ⟨hderivatives, _, clashAt_of_scaled_eq hscaled⟩
  exact ⟨plan, target, hplan, hscaled, h⟩

end Compiler

end Constitutive
