import Constitutive.Proofs.Scheme.Draft

/-!
# What a draft asks for, and what its events can fail with

Blocks of the inverse are asked for by the names of variables.  Whatever the events are, the blocks
of a draft belong to declared variables, and none of them is asked for twice (`Requests`).  The
strategy of a draft is a registered one (`registered_of_draft_eq_ok`).

Events fail with faults of the description only: factors are not frozen before the draft ends, and
no event has to do with the space dimension (`draft_failsWith`).
-/

namespace Constitutive

/-! ## Computations that fail -/

theorem bind_eq_error_iff {ε α β : Type} {x : Except ε α} {f : α → Except ε β} {e : ε} :
    x >>= f = .error e ↔ x = .error e ∨ ∃ a, x = .ok a ∧ f a = .error e := by
  cases x with
  | error e' => simp [bind, Except.bind]
  | ok a => simp [bind, Except.bind]

/-- All faults that a computation can have are of a given kind. -/
def FailsWith {ε α : Type} (P : ε → Prop) (x : Except ε α) : Prop :=
  ∀ e, x = .error e → P e

namespace FailsWith

variable {ε α β : Type} {P : ε → Prop}

theorem ok (a : α) : FailsWith P (.ok a : Except ε α) := by
  intro e h
  cases h

theorem error {e : ε} (h : P e) : FailsWith P (.error e : Except ε α) := by
  intro e' h'
  cases h'
  exact h

theorem bind {x : Except ε α} {f : α → Except ε β} (hx : FailsWith P x)
    (hf : ∀ a, FailsWith P (f a)) :
    FailsWith P (x >>= f) := by
  intro e h
  rcases bind_eq_error_iff.mp h with h | ⟨a, -, h⟩
  · exact hx e h
  · exact hf a e h

theorem ite {c : Prop} [Decidable c] {x y : Except ε α} (hx : FailsWith P x) (hy : FailsWith P y) :
    FailsWith P (if c then x else y) := by
  split
  · exact hx
  · exact hy

end FailsWith

/-- What every step keeps and every fault satisfies, in a fold that fails. -/
theorem foldlM_failsWith {ε σ α : Type} {P : σ → Prop} {Q : ε → Prop} {step : σ → α → Traced ε σ}
    (hstep : ∀ s a t, P s → (step s a).outcome = .ok t → P t)
    (hfails : ∀ s a, P s → FailsWith Q (step s a).outcome)
    {xs : List α} {s : σ} (hs : P s) : FailsWith Q (xs.foldlM step s).outcome := by
  induction xs generalizing s with
  | nil => exact FailsWith.ok s
  | cons a rest ih =>
      intro e h
      rw [List.foldlM_cons, Traced.outcome_bind, bind_eq_error_iff] at h
      rcases h with h | ⟨next, hnext, h⟩
      · exact hfails s a hs e h
      · exact ih (hstep s a next hs hnext) e h

theorem Applied.traced_eq_error_iff {applied : Applied} {fault : Fault} :
    applied.traced.outcome = .error fault ↔ applied.fault = some fault := by
  unfold Applied.traced
  cases applied.fault with
  | none => simp
  | some fault => simp

namespace Draft

variable {draft : Draft} {solvers : Solvers}

/-! ## The requested blocks -/

/-- The blocks of the inverse belong to declared variables, and none is asked for twice. -/
structure Requests (draft : Draft) : Prop where
  declared : ∀ block ∈ draft.inverseBlocks,
    block.unknown ∈ draft.roster.names ∧ block.residual ∈ draft.roster.names
  once : draft.inverseBlocks.Nodup

theorem requests_initial (hypothesis : Hypothesis) : Requests { hypothesis := hypothesis } :=
  ⟨fun _ hblock => absurd hblock List.not_mem_nil, List.nodup_nil⟩

/-- Requests stay as they are when variables are added and blocks are not. -/
theorem Requests.of_names (h : draft.Requests) {next : Draft}
    (hblocks : next.inverseBlocks = draft.inverseBlocks)
    (hnames : ∀ name ∈ draft.roster.names, name ∈ next.roster.names) : next.Requests := by
  refine ⟨fun block hblock => ?_, hblocks ▸ h.once⟩
  rw [hblocks] at hblock
  obtain ⟨hunknown, hresidual⟩ := h.declared block hblock
  exact ⟨hnames _ hunknown, hnames _ hresidual⟩

theorem Requests.requestBlocks (blocks : List InverseBlock) (h : draft.Requests) :
    (requestBlocks blocks draft).draft.Requests := by
  induction blocks generalizing draft with
  | nil => exact h
  | cons block rest ih =>
      unfold Draft.requestBlocks
      split
      · exact h
      · exact h
      · rename_i hunknown hresidual
        split
        · exact ih h
        · rename_i hnew
          -- a new block is put after the others
          apply ih
          refine ⟨fun other hother => ?_, ?_⟩
          · rcases List.mem_append.mp hother with hother | hother
            · exact h.declared other hother
            · obtain rfl := List.mem_singleton.mp hother
              exact ⟨mem_names_of_require_eq_ok hunknown, mem_names_of_require_eq_ok hresidual⟩
          · have hfresh : block ∉ draft.inverseBlocks := by simpa using hnew
            refine List.nodup_append.mpr ⟨h.once, List.pairwise_singleton _ _, ?_⟩
            rintro other hother _ hlast rfl
            exact hfresh (List.mem_singleton.mp hlast ▸ hother)

/-- What no replacement changes is as it was. -/
theorem update_keeps {α β : Type} (field : Draft → β) (part : Except DeclarationFault α)
    {put : α → Draft}
    (hput : ∀ a, field (put a) = field draft) :
    field (draft.update part put).draft = field draft := by
  cases part with
  | error fault => rfl
  | ok a => exact hput a

theorem inverseBlocks_chooseAlgorithm (solvers : Solvers) (name : String) (draft : Draft) :
    (draft.chooseAlgorithm solvers name).draft.inverseBlocks = draft.inverseBlocks := by
  unfold chooseAlgorithm
  split
  · rfl
  · split
    · rfl
    · rfl

/-- A declaration keeps the declared names. -/
theorem names_applyDeclaration (solvers : Solvers) (location : Location) (draft : Draft)
    (declaration : Declaration) :
    ∀ name ∈ draft.roster.names,
      name ∈ (draft.applyDeclaration solvers location declaration).draft.roster.names := by
  intro name hname
  obtain hsame | ⟨_, _, _, hok, -⟩ | ⟨_, _, _, -, hroster, -⟩ :=
    applyDeclaration_cases solvers location draft declaration
  · rwa [hsame.1]
  · obtain ⟨-, -, hnext⟩ := Roster.declare_eq_ok_iff.mp hok
    rw [hnext]
    simp only [Roster.names, List.map_append, List.mem_append] at hname ⊢
    exact Or.inl hname
  · rwa [hroster]

theorem Requests.applyDeclaration (h : draft.Requests) (location : Location)
    (declaration : Declaration) :
    (draft.applyDeclaration solvers location declaration).draft.Requests := by
  have hnames := names_applyDeclaration solvers location draft declaration
  cases declaration with
  | integrationVariable name rank arraySize =>
      exact h.of_names (update_keeps inverseBlocks _ fun _ => rfl) hnames
  | algorithm name => exact h.of_names (inverseBlocks_chooseAlgorithm solvers name draft) hnames
  | parameter name value => exact h.of_names (update_keeps inverseBlocks _ fun _ => rfl) hnames
  | compareToNumericalJacobian compare => exact h.of_names rfl hnames
  | normalisationFactor name side factor =>
      refine h.of_names ?_ hnames
      simp only [Draft.applyDeclaration]
      split
      · rfl
      · rfl
  | incrementLimit name value => exact h.of_names (update_keeps inverseBlocks _ fun _ => rfl) hnames
  | code role text => exact h.of_names (update_keeps inverseBlocks _ fun _ => rfl) hnames
  | tangentBlocks blocks => exact h.requestBlocks blocks

theorem Requests.apply (h : draft.Requests) (event : Event) :
    (draft.apply solvers event).draft.Requests := by
  unfold Draft.apply
  split
  · exact h.applyDeclaration event.location event.declaration
  · exact h

/-! ## The algorithm -/

/-- The algorithm, if it has been chosen, is the registered one of its name. -/
def Registered (solvers : Solvers) (draft : Draft) : Prop :=
  ∀ chosen, draft.algorithm = some chosen → solvers.get? chosen.1 = some chosen.2

theorem registered_initial (solvers : Solvers) (hypothesis : Hypothesis) :
    Registered solvers { hypothesis := hypothesis } := by
  intro chosen h
  cases h

theorem Registered.of_algorithm (h : draft.Registered solvers) {next : Draft}
    (hsame : next.algorithm = draft.algorithm) :
    next.Registered solvers := by
  intro chosen hchosen
  exact h chosen (hsame ▸ hchosen)

theorem Registered.chooseAlgorithm (h : draft.Registered solvers) (name : String) :
    (draft.chooseAlgorithm solvers name).draft.Registered solvers := by
  unfold Draft.chooseAlgorithm
  split
  · exact h
  · split
    · exact h
    · rename_i strategy hfound
      intro chosen hchosen
      obtain rfl := Option.some.inj hchosen
      exact hfound

theorem algorithm_requestBlocks (blocks : List InverseBlock) (draft : Draft) :
    (requestBlocks blocks draft).draft.algorithm = draft.algorithm := by
  induction blocks generalizing draft with
  | nil => rfl
  | cons block rest ih =>
      unfold requestBlocks
      split
      · rfl
      · rfl
      · split
        · exact ih draft
        · exact ih { draft with inverseBlocks := draft.inverseBlocks ++ [block] }

theorem Registered.applyDeclaration (h : draft.Registered solvers) (location : Location)
    (declaration : Declaration) :
    (draft.applyDeclaration solvers location declaration).draft.Registered solvers := by
  cases declaration with
  | integrationVariable name rank arraySize =>
      exact h.of_algorithm (update_keeps algorithm _ fun _ => rfl)
  | algorithm name => exact h.chooseAlgorithm name
  | parameter name value => exact h.of_algorithm (update_keeps algorithm _ fun _ => rfl)
  | compareToNumericalJacobian compare => exact h
  | normalisationFactor name side factor =>
      simp only [Draft.applyDeclaration]
      split
      · exact h
      · exact h
  | incrementLimit name value => exact h.of_algorithm (update_keeps algorithm _ fun _ => rfl)
  | code role text => exact h.of_algorithm (update_keeps algorithm _ fun _ => rfl)
  | tangentBlocks blocks => exact h.of_algorithm (algorithm_requestBlocks blocks draft)

theorem Registered.apply (h : draft.Registered solvers) (event : Event) :
    (draft.apply solvers event).draft.Registered solvers := by
  unfold Draft.apply
  split
  · exact h.applyDeclaration event.location event.declaration
  · exact h

/-! ## The end of a draft -/

/-- A draft that is ended without a fault has an algorithm, and is otherwise as before but for the
factors, which are frozen. -/
theorem finish_eq {defaultAlgorithm : String}
    (h : (draft.finish solvers defaultAlgorithm).fault = none) :
    ∃ chosen, (draft.algorithm = some chosen ∨ solvers.get? chosen.1 = some chosen.2) ∧
      (draft.finish solvers defaultAlgorithm).draft =
        { draft with algorithm := some chosen, factors := draft.factors.freeze } := by
  unfold finish at h ⊢
  cases halgorithm : draft.algorithm with
  | some chosen =>
      simp only [halgorithm, Option.isNone_some, Bool.false_eq_true, if_false] at h ⊢
      cases hvalid : draft.tolerances.validate with
      | error fault => simp [hvalid] at h
      | ok _ => exact ⟨chosen, Or.inl rfl, by simp [← halgorithm]⟩
  | none =>
      simp only [halgorithm, Option.isNone_none, if_true, chooseAlgorithm, Option.isSome_none,
        Bool.false_eq_true, if_false] at h ⊢
      cases hfound : solvers.get? defaultAlgorithm with
      | none => simp [hfound] at h
      | some strategy =>
          cases hvalid : draft.tolerances.validate with
          | error fault => simp [hfound, hvalid] at h
          | ok _ => exact ⟨(defaultAlgorithm, strategy), Or.inr hfound, by simp⟩

end Draft

/-! ## What events fail with -/

namespace DeclarationFault

/-- A fault that has nothing to do with the space dimension. -/
def OfEvent (fault : DeclarationFault) : Prop :=
  ∀ dimension, fault ≠ .unsupportedDimension dimension

end DeclarationFault

/-- A fault of the description that has nothing to do with the space dimension. -/
def Fault.OfEvent : Fault → Prop
  | .declaration cause _ => cause.OfEvent
  | .internal _ => False

theorem Fault.OfEvent.located {fault : Fault} (h : fault.OfEvent) (location : Location) :
    (fault.located location).OfEvent := by
  cases fault with
  | declaration cause place => exact h
  | internal cause => exact h

theorem Roster.declare_failsWith (roster : Roster) (name : String) (rank : Rank) (arraySize : Nat) :
    FailsWith DeclarationFault.OfEvent (roster.declare name rank arraySize) := by
  unfold Roster.declare
  refine .ite (.error nofun) (.ite (.error nofun) (.ite (.error nofun) (.ite (.error nofun) ?_)))
  split
  · exact .error nofun
  · exact .ok _

namespace Tolerances

theorem typed_failsWith {α : Type} (name expected : String) (read : Setting → Option α)
    (value : Setting) :
    FailsWith DeclarationFault.OfEvent (typed name expected read value) := by
  unfold typed
  split
  · exact .ok _
  · exact .error nofun

theorem nonNegative_failsWith (name : String) (value : Float) :
    FailsWith DeclarationFault.OfEvent (nonNegative name value) :=
  .ite (.ok _) (.error nofun)

theorem set_failsWith (t : Tolerances) (name : String) (value : Setting) :
    FailsWith DeclarationFault.OfEvent (t.set name value) := by
  have hnumber : FailsWith DeclarationFault.OfEvent (numberOf name value) := typed_failsWith _ _ _ _
  have hflag : FailsWith DeclarationFault.OfEvent (flagOf name value) := typed_failsWith _ _ _ _
  have hword : FailsWith DeclarationFault.OfEvent (wordOf name value) := typed_failsWith _ _ _ _
  have hchecked : ∀ x, FailsWith DeclarationFault.OfEvent (nonNegative name x) :=
    nonNegative_failsWith name
  unfold Tolerances.set
  split
  · exact hnumber.bind fun x => (hchecked x).bind fun _ => .ok _
  · exact hnumber.bind fun _ => .ite (.ok _) (.error nofun)
  · exact hword.bind fun _ => .ite (.error nofun) (.ok _)
  · exact hnumber.bind fun x => (hchecked x).bind fun _ => .ok _
  · exact hflag.bind fun _ => .ok _
  · exact hnumber.bind fun x => .ite (.error nofun) ((hchecked x).bind fun _ => .ok _)
  · exact hnumber.bind fun x => (hchecked x).bind fun _ => .ok _
  · exact hflag.bind fun _ => .ok _
  · exact hword.bind fun _ => .ok _
  · exact hnumber.bind fun x => .ite (.error nofun) ((hchecked x).bind fun _ => .ok _)
  · exact .error nofun

theorem validate_failsWith (t : Tolerances) : FailsWith DeclarationFault.OfEvent t.validate :=
  .ite (.error nofun) (.ok _)

end Tolerances

namespace Draft

variable {draft : Draft} {solvers : Solvers}

theorem require_failsWith (draft : Draft) (name : String) :
    FailsWith DeclarationFault.OfEvent (draft.require name) :=
  .ite (.ok _) (.error nofun)

theorem factorExpression_failsWith (name : String) (factor : Setting) :
    FailsWith DeclarationFault.OfEvent (factorExpression name factor) := by
  cases factor with
  | number x => exact .ite (.ok _) (.error nofun)
  | text s => exact .ite (.ok _) (.error nofun)
  | flag b => exact .error nofun

/-- As long as factors can be changed, a factor is refused for what the description says. -/
theorem addFactor_failsWith (hopen : draft.factors.frozen = false) (name : String) (side : Side)
    (factor : Setting) :
    FailsWith Fault.OfEvent (draft.addFactor name side factor) := by
  unfold addFactor
  split
  · rename_i fault hrequire
    exact .error (require_failsWith draft name fault hrequire)
  · rename_i fault hexpression _
    exact .error (factorExpression_failsWith name factor fault hexpression)
  · unfold Factors.set
    rw [hopen, if_neg Bool.false_ne_true]
    exact .ite (.error nofun) (.ok _)

theorem addLimit_failsWith (draft : Draft) (name : Option String) (value : Float) :
    FailsWith DeclarationFault.OfEvent (draft.addLimit name value) := by
  cases name with
  | none => exact .ite (.error nofun) (.ite (.error nofun) (.ok _))
  | some name =>
      exact (require_failsWith draft name).bind fun _ =>
        .ite (.error nofun) (.ite (.error nofun) (.ok _))

theorem addCode_failsWith (draft : Draft) (role : Role) (code : CodeText) :
    FailsWith DeclarationFault.OfEvent (draft.addCode role code) := by
  have hallows : FailsWith DeclarationFault.OfEvent (draft.allowsCode role) := by
    unfold allowsCode
    -- two roles depend on the algorithm, with it or without it
    cases draft.solver? with
    | none =>
        dsimp only
        split
        · exact .error nofun
        · exact .error nofun
        · exact .ok _
    | some solver =>
        dsimp only
        split
        · exact .ite (.ok _) (.error nofun)
        · exact .ite (.ok _) (.error nofun)
        · exact .ok _
  exact hallows.bind fun _ => .ite (.error nofun) (.ok _)

theorem ofEvent_of_update {α : Type} {part : Except DeclarationFault α} {put : α → Draft}
    {fault : Fault}
    (hpart : FailsWith DeclarationFault.OfEvent part)
    (h : (draft.update part put).fault = some fault) :
    fault.OfEvent := by
  cases part with
  | error cause =>
      obtain rfl := Option.some.inj h
      exact hpart cause rfl
  | ok a => cases h

theorem ofEvent_of_chooseAlgorithm {name : String} {fault : Fault}
    (h : (draft.chooseAlgorithm solvers name).fault = some fault) : fault.OfEvent := by
  unfold chooseAlgorithm at h
  split at h
  · obtain rfl := Option.some.inj h
    exact nofun
  · split at h
    · obtain rfl := Option.some.inj h
      exact nofun
    · cases h

theorem ofEvent_of_requestBlocks {blocks : List InverseBlock} {fault : Fault}
    (h : (requestBlocks blocks draft).fault = some fault) : fault.OfEvent := by
  induction blocks generalizing draft with
  | nil => cases h
  | cons block rest ih =>
      unfold requestBlocks at h
      split at h
      · rename_i cause hunknown
        obtain rfl := Option.some.inj h
        exact require_failsWith draft _ cause hunknown
      · rename_i cause hresidual _
        obtain rfl := Option.some.inj h
        exact require_failsWith draft _ cause hresidual
      · split at h
        · exact ih h
        · exact ih h

theorem ofEvent_of_apply (hopen : draft.factors.frozen = false) {event : Event} {fault : Fault}
    (h : (draft.apply solvers event).fault = some fault) : fault.OfEvent := by
  unfold Draft.apply at h
  split at h
  · obtain ⟨cause, hcause, rfl⟩ := Option.map_eq_some_iff.mp h
    refine Fault.OfEvent.located ?_ event.location
    cases hdeclaration : event.declaration with
    | integrationVariable name rank arraySize =>
        rw [hdeclaration] at hcause
        exact ofEvent_of_update (Roster.declare_failsWith draft.roster name rank arraySize) hcause
    | algorithm name =>
        rw [hdeclaration] at hcause
        exact ofEvent_of_chooseAlgorithm hcause
    | parameter name value =>
        rw [hdeclaration] at hcause
        exact ofEvent_of_update (Tolerances.set_failsWith draft.tolerances name value) hcause
    | compareToNumericalJacobian compare =>
        rw [hdeclaration] at hcause
        cases hcause
    | normalisationFactor name side factor =>
        rw [hdeclaration] at hcause
        simp only [Draft.applyDeclaration] at hcause
        split at hcause
        · cases hcause
        · rename_i reason hreason
          obtain rfl := Option.some.inj hcause
          exact addFactor_failsWith hopen name side factor reason hreason
    | incrementLimit name value =>
        rw [hdeclaration] at hcause
        exact ofEvent_of_update (addLimit_failsWith draft name value) hcause
    | code role text =>
        rw [hdeclaration] at hcause
        exact ofEvent_of_update (addCode_failsWith draft role _) hcause
    | tangentBlocks blocks =>
        rw [hdeclaration] at hcause
        exact ofEvent_of_requestBlocks hcause
  · cases h

theorem ofEvent_of_finish {defaultAlgorithm : String} {fault : Fault}
    (h : (draft.finish solvers defaultAlgorithm).fault = some fault) : fault.OfEvent := by
  have hchosen : ∀ cause,
      (if draft.algorithm.isNone then draft.chooseAlgorithm solvers defaultAlgorithm
      else { draft := draft }).fault = some cause → cause.OfEvent := by
    intro cause hcause
    split at hcause
    · exact ofEvent_of_chooseAlgorithm hcause
    · cases hcause
  unfold Draft.finish at h
  generalize (if draft.algorithm.isNone then draft.chooseAlgorithm solvers defaultAlgorithm
    else { draft := draft }) = chosen at hchosen h
  dsimp only at h
  split at h
  · exact hchosen fault h
  · rename_i cause _ hvalid
    obtain rfl := Option.some.inj h
    exact Tolerances.validate_failsWith _ cause hvalid
  · rename_i hnone _
    exact absurd (hnone.symm.trans h) nofun

/-- Events do not freeze the factors. -/
theorem frozen_apply (event : Event) :
    (draft.apply solvers event).draft.factors.frozen = draft.factors.frozen := by
  unfold Draft.apply
  split
  · obtain ⟨-, hfactors⟩ | ⟨_, _, _, -, hfactors⟩ | ⟨_, _, _, -, -, hfactors⟩ :=
      applyDeclaration_cases solvers event.location draft event.declaration
    · exact congrArg Factors.frozen hfactors
    · exact congrArg Factors.frozen hfactors
    · show (draft.applyDeclaration solvers event.location event.declaration).draft.factors.frozen =
        _
      rw [hfactors]
  · rfl

end Draft

/-! ## Whole descriptions -/

namespace Description

variable {description : Description} {solvers : Solvers} {defaultAlgorithm : String}
  {hypothesis : Hypothesis}

theorem draft_eq_ok_iff {draft : Draft} :
    (description.draft solvers defaultAlgorithm hypothesis).outcome = .ok draft ↔
      ∃ collected : Draft,
        (description.events.foldlM (fun draft event => (Draft.apply solvers event draft).traced)
          ({ hypothesis := hypothesis } : Draft)).outcome = .ok collected ∧
        (collected.finish solvers defaultAlgorithm).fault = none ∧
        (collected.finish solvers defaultAlgorithm).draft = draft := by
  rw [Description.draft, Traced.outcome_bind, bind_eq_ok_iff]
  simp only [Applied.traced_eq_ok_iff]

theorem requests_of_draft_eq_ok {draft : Draft}
    (h : (description.draft solvers defaultAlgorithm hypothesis).outcome = .ok draft) :
    draft.Requests := by
  obtain ⟨collected, hcollected, hfault, rfl⟩ := draft_eq_ok_iff.mp h
  have hrequests : collected.Requests := by
    refine foldlM_keeps (fun s event _ t hs hstep => ?_)
      (Draft.requests_initial hypothesis) hcollected
    rw [← (Applied.traced_eq_ok_iff.mp hstep).2]
    exact hs.apply event
  obtain ⟨chosen, -, hdraft⟩ := Draft.finish_eq hfault
  rw [hdraft]
  exact ⟨hrequests.declared, hrequests.once⟩

/-- The strategy of a draft that has been ended is a registered one. -/
theorem registered_of_draft_eq_ok {draft : Draft}
    (h : (description.draft solvers defaultAlgorithm hypothesis).outcome = .ok draft) :
    draft.Registered solvers := by
  obtain ⟨collected, hcollected, hfault, rfl⟩ := draft_eq_ok_iff.mp h
  have hregistered : collected.Registered solvers := by
    refine foldlM_keeps (fun s event _ t hs hstep => ?_)
      (Draft.registered_initial solvers hypothesis) hcollected
    rw [← (Applied.traced_eq_ok_iff.mp hstep).2]
    exact hs.apply event
  obtain ⟨chosen, hchosen, hdraft⟩ := Draft.finish_eq hfault
  rw [hdraft]
  intro chosen' heq
  obtain rfl := Option.some.inj heq
  exact hchosen.elim (hregistered chosen) id

/-- A description that cannot be drafted is at fault itself. -/
theorem draft_failsWith (description : Description) (solvers : Solvers) (defaultAlgorithm : String)
    (hypothesis : Hypothesis) :
    FailsWith Fault.OfEvent (description.draft solvers defaultAlgorithm hypothesis).outcome := by
  rw [Description.draft, Traced.outcome_bind]
  refine FailsWith.bind ?_ fun collected fault hfault => ?_
  · -- the factors stay open from one event to the next
    refine foldlM_failsWith (P := fun draft => draft.factors.frozen = false) ?_ ?_ rfl
    · intro draft event next hopen hnext
      rw [← (Applied.traced_eq_ok_iff.mp hnext).2, Draft.frozen_apply, hopen]
    · intro draft event hopen fault hfault
      exact Draft.ofEvent_of_apply hopen (Applied.traced_eq_error_iff.mp hfault)
  · exact Draft.ofEvent_of_finish (Applied.traced_eq_error_iff.mp hfault)

end Description

end Constitutive
