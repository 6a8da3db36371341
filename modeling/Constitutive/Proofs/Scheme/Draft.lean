import Constitutive.Proofs.Unknowns.Roster
import Constitutive.Scheme.Draft

/-!
# What holds of every draft

A draft is built by events, and each event changes one part of it: `applyDeclaration_cases` says
which, once and for all declarations.  Whatever the events are and however they end, the roster
stays well named and factors belong to declared variables (`Sound`).  Both are kept by one event
(`Sound.apply`), by the end of the draft (`Sound.finish`), and so by the whole description
(`sound_of_draft_eq_ok`).
-/

namespace Constitutive

/-! ## Computations that succeed -/

theorem bind_eq_ok_iff {ε α β : Type} {x : Except ε α} {f : α → Except ε β} {b : β} :
    x >>= f = .ok b ↔ ∃ a, x = .ok a ∧ f a = .ok b := by
  cases x with
  | error e => simp [bind, Except.bind]
  | ok a => simp [bind, Except.bind]

theorem mapError_eq_ok_iff {ε ε' α : Type} {x : Except ε α} {f : ε → ε'} {a : α} :
    x.mapError f = .ok a ↔ x = .ok a := by
  cases x with
  | error e => exact ⟨nofun, nofun⟩
  | ok b => exact ⟨fun h => congrArg Except.ok (Except.ok.inj h),
        fun h => congrArg Except.ok (Except.ok.inj h)⟩

/-- What one step of a fold keeps, the whole fold keeps, if it succeeds. -/
theorem foldlM_keeps {ε σ α : Type} {P : σ → Prop} {step : σ → α → Traced ε σ} {xs : List α}
    (hstep : ∀ s, ∀ a ∈ xs, ∀ t, P s → (step s a).outcome = .ok t → P t) {s t : σ} (hs : P s)
    (h : (xs.foldlM step s).outcome = .ok t) : P t := by
  induction xs generalizing s with
  | nil =>
      rw [List.foldlM_nil, Traced.outcome_pure] at h
      rwa [← Except.ok.inj h]
  | cons a rest ih =>
      rw [List.foldlM_cons, Traced.outcome_bind, bind_eq_ok_iff] at h
      obtain ⟨next, hnext, hrest⟩ := h
      have hs' : P next := hstep s a (List.mem_cons_self ..) next hs hnext
      exact ih (fun s a ha => hstep s a (List.mem_cons_of_mem _ ha)) hs' hrest

theorem Applied.traced_eq_ok_iff {applied : Applied} {draft : Draft} :
    applied.traced.outcome = .ok draft ↔ applied.fault = none ∧ applied.draft = draft := by
  unfold Applied.traced
  cases applied.fault with
  | none => simp
  | some fault => simp

namespace Draft

variable {draft : Draft} {solvers : Solvers}

/-! ## What one event changes -/

/-- Two drafts with the same variables and factors. -/
def SameUnknowns (next draft : Draft) : Prop :=
  next.roster = draft.roster ∧ next.factors = draft.factors

theorem update_sameUnknowns {α : Type} (part : Except DeclarationFault α) {put : α → Draft}
    (hput : ∀ a, (put a).SameUnknowns draft) :
    (draft.update part put).draft.SameUnknowns draft := by
  cases part with
  | error fault => exact ⟨rfl, rfl⟩
  | ok a => exact hput a

theorem chooseAlgorithm_sameUnknowns (solvers : Solvers) (name : String) (draft : Draft) :
    (draft.chooseAlgorithm solvers name).draft.SameUnknowns draft := by
  unfold chooseAlgorithm
  split
  · exact ⟨rfl, rfl⟩
  · split
    · exact ⟨rfl, rfl⟩
    · exact ⟨rfl, rfl⟩

theorem requestBlocks_sameUnknowns (blocks : List InverseBlock) (draft : Draft) :
    (requestBlocks blocks draft).draft.SameUnknowns draft := by
  induction blocks generalizing draft with
  | nil => exact ⟨rfl, rfl⟩
  | cons block rest ih =>
      unfold requestBlocks
      split
      · exact ⟨rfl, rfl⟩
      · exact ⟨rfl, rfl⟩
      · split
        · exact ih draft
        · exact ih { draft with inverseBlocks := draft.inverseBlocks ++ [block] }

theorem mem_names_of_require_eq_ok {name : String} (h : draft.require name = .ok ()) :
    name ∈ draft.roster.names := by
  unfold require at h
  split at h
  · rename_i hcontains
    exact Roster.contains_iff.mp hcontains
  · cases h

/-- A factor that is accepted belongs to a declared variable and is put after the others. -/
theorem addFactor_eq_ok {name : String} {side : Side} {factor : Setting} {factors : Factors}
    (h : draft.addFactor name side factor = .ok factors) :
    name ∈ draft.roster.names ∧ ∃ expression,
      factors = { draft.factors with entries := draft.factors.entries ++
        [((name, side), expression)] } := by
  unfold addFactor at h
  split at h
  · cases h
  · cases h
  · rename_i expression hrequire hexpression
    refine ⟨mem_names_of_require_eq_ok hrequire, expression, ?_⟩
    unfold Factors.set at h
    split at h
    · cases h
    · split at h
      · cases h
      · exact (Except.ok.inj h).symm

/-- The variables and factors after a declaration: a variable may be added, or a factor of a
declared variable. -/
theorem applyDeclaration_cases (solvers : Solvers) (location : Location) (draft : Draft)
    (declaration : Declaration) :
    let next := (draft.applyDeclaration solvers location declaration).draft
    next.SameUnknowns draft ∨
      (∃ name rank arraySize, draft.roster.declare name rank arraySize = .ok next.roster ∧
        next.factors = draft.factors) ∨
      ∃ name side expression, name ∈ draft.roster.names ∧ next.roster = draft.roster ∧
        next.factors = { draft.factors with entries :=
            draft.factors.entries ++ [((name, side), expression)] } := by
  cases declaration with
  | integrationVariable name rank arraySize =>
      simp only [applyDeclaration]
      cases hok : draft.roster.declare name rank arraySize with
      | error fault => exact Or.inl ⟨rfl, rfl⟩
      | ok roster => exact Or.inr (Or.inl ⟨name, rank, arraySize, hok, rfl⟩)
  | algorithm name => exact Or.inl (chooseAlgorithm_sameUnknowns solvers name draft)
  | parameter name value => exact Or.inl (update_sameUnknowns _ fun _ => ⟨rfl, rfl⟩)
  | compareToNumericalJacobian compare => exact Or.inl ⟨rfl, rfl⟩
  | normalisationFactor name side factor =>
      simp only [applyDeclaration]
      split
      · rename_i factors hok
        obtain ⟨hname, expression, heq⟩ := addFactor_eq_ok hok
        exact Or.inr (Or.inr ⟨name, side, expression, hname, rfl, heq⟩)
      · exact Or.inl ⟨rfl, rfl⟩
  | incrementLimit name value => exact Or.inl (update_sameUnknowns _ fun _ => ⟨rfl, rfl⟩)
  | code role text => exact Or.inl (update_sameUnknowns _ fun _ => ⟨rfl, rfl⟩)
  | tangentBlocks blocks => exact Or.inl (requestBlocks_sameUnknowns blocks draft)

/-! ## What all events keep -/

/-- The variables are well named, and each factor belongs to one of them. -/
structure Sound (draft : Draft) : Prop where
  wellNamed : draft.roster.WellNamed
  factors_declared : ∀ entry ∈ draft.factors.entries, entry.1.1 ∈ draft.roster.names

theorem sound_initial (hypothesis : Hypothesis) : Sound { hypothesis := hypothesis } :=
  ⟨Roster.wellNamed_of_vars_eq_nil rfl, fun _ hentry => absurd hentry List.not_mem_nil⟩

theorem Sound.of_sameUnknowns (h : draft.Sound) {next : Draft} (hsame : next.SameUnknowns draft) :
    next.Sound := by
  obtain ⟨hroster, hfactors⟩ := hsame
  refine ⟨hroster ▸ h.wellNamed, ?_⟩
  rw [hroster, hfactors]
  exact h.factors_declared

theorem Sound.applyDeclaration (h : draft.Sound) (location : Location) (declaration : Declaration) :
    (draft.applyDeclaration solvers location declaration).draft.Sound := by
  obtain hsame | ⟨name, rank, arraySize, hok, hfactors⟩ | ⟨name, side, expression, hname, hroster,
      hfactors⟩ :=
    applyDeclaration_cases solvers location draft declaration
  · exact h.of_sameUnknowns hsame
  · refine ⟨h.wellNamed.declare hok, ?_⟩
    -- a declared name stays declared
    obtain ⟨-, -, hnext⟩ := Roster.declare_eq_ok_iff.mp hok
    rw [hfactors, hnext]
    intro entry hentry
    have hdeclared := h.factors_declared entry hentry
    simp only [Roster.names, List.map_append, List.mem_append] at hdeclared ⊢
    exact Or.inl hdeclared
  · refine ⟨hroster ▸ h.wellNamed, ?_⟩
    rw [hroster, hfactors]
    intro entry hentry
    rcases List.mem_append.mp hentry with hentry | hentry
    · exact h.factors_declared entry hentry
    · obtain rfl := List.mem_singleton.mp hentry
      exact hname

theorem Sound.apply (h : draft.Sound) (event : Event) :
    (draft.apply solvers event).draft.Sound := by
  unfold Draft.apply
  split
  · exact h.applyDeclaration event.location event.declaration
  · exact h

theorem Sound.finish (h : draft.Sound) (defaultAlgorithm : String) :
    (draft.finish solvers defaultAlgorithm).draft.Sound := by
  have hchosen : (if draft.algorithm.isNone then draft.chooseAlgorithm solvers defaultAlgorithm
      else { draft := draft }).draft.Sound := by
    split
    · exact h.of_sameUnknowns (chooseAlgorithm_sameUnknowns solvers defaultAlgorithm draft)
    · exact h
  unfold Draft.finish
  generalize (if draft.algorithm.isNone then draft.chooseAlgorithm solvers defaultAlgorithm
    else { draft := draft }) = chosen at hchosen ⊢
  dsimp only
  split
  · exact hchosen
  · exact hchosen
  · -- freezing keeps the entries
    exact ⟨hchosen.wellNamed, hchosen.factors_declared⟩

end Draft

theorem Description.sound_of_draft_eq_ok {description : Description} {solvers : Solvers}
    {defaultAlgorithm : String} {hypothesis : Hypothesis} {draft : Draft}
    (h : (description.draft solvers defaultAlgorithm hypothesis).outcome = .ok draft) :
    draft.Sound := by
  rw [Description.draft, Traced.outcome_bind, bind_eq_ok_iff] at h
  obtain ⟨collected, hcollected, hfinished⟩ := h
  have hsound : collected.Sound := by
    refine foldlM_keeps (fun s event _ t hs hstep => ?_) (Draft.sound_initial hypothesis) hcollected
    rw [← (Applied.traced_eq_ok_iff.mp hstep).2]
    exact hs.apply event
  rw [← (Applied.traced_eq_ok_iff.mp hfinished).2]
  exact hsound.finish defaultAlgorithm

end Constitutive
