import Constitutive.Proofs.Scheme.Parameters

/-!
# Drafts that have been finished

The end of a draft chooses an algorithm, checks the parameters and freezes the factors.  From then
on no event can choose another algorithm or set a factor.  All other events do what they would have
done before (`apply_freeze`): variables, limits, code and requests can still be added, and
parameters can still be set.

So the algorithm and the factors of a finished draft are final, whatever is applied to it
(`applyCalls_final`), but what was checked about the parameters is not: it is kept only as long as
no event sets one of the three parameters that are compared (`inTime_applyCalls`).
-/

namespace Constitutive

/-! ## Parameters -/

namespace Tolerances

variable {t next : Tolerances}

/-- If there is relaxation, it sets in before the last iteration. -/
def InTime (t : Tolerances) : Prop :=
  t.useRelaxation = true → t.relaxationTrigger + 1 < t.iterMax

theorem validate_eq_ok_iff : t.validate = .ok () ↔ t.InTime := by
  unfold validate InTime
  split
  · rename_i hlate
    refine ⟨nofun, fun h => ?_⟩
    have := h hlate.1
    omega
  · rename_i hfine
    refine ⟨fun _ huse => ?_, fun _ => rfl⟩
    by_contra hlate
    exact hfine ⟨huse, by omega⟩

/-- The parameters that are compared with each other. -/
def comparedNames : List String := ["useRelaxation", "relaxationTrigger", "iterMax"]

theorem InTime.sets (h : t.InTime) {name : String} {value : Setting}
    (hsets : t.Sets name value next) (hname : name ∉ comparedNames) : next.InTime := by
  cases hsets with
  | useRelaxation _ | relaxationTrigger _ | iterMax _ _ => exact absurd (by decide) hname
  | epsilon _ | theta _ | jacobianEpsilon _ | compare _ | criterion _ _ | trustRegionSize _
  | relaxationCoefficient _ _ => exact h

end Tolerances

namespace Declaration

/-- Declarations of what is final once a draft is finished. -/
def IsFinal : Declaration → Prop
  | .algorithm _ => True
  | .normalisationFactor _ _ _ => True
  | _ => False

/-- Declarations that set one of the parameters compared with each other. -/
def SetsCompared : Declaration → Prop
  | .parameter name _ => name ∈ Tolerances.comparedNames
  | _ => False

end Declaration

namespace Draft

variable {draft : Draft} {solvers : Solvers}

/-! ## One event after the end -/

theorem tolerances_chooseAlgorithm (name : String) :
    (draft.chooseAlgorithm solvers name).draft.tolerances = draft.tolerances := by
  unfold chooseAlgorithm
  split
  · rfl
  · split
    · rfl
    · rfl

theorem validate_of_finish {defaultAlgorithm : String}
    (h : (draft.finish solvers defaultAlgorithm).fault = none) :
    draft.tolerances.validate = .ok () := by
  have hchosen : (if draft.algorithm.isNone then draft.chooseAlgorithm solvers defaultAlgorithm
      else { draft := draft }).draft.tolerances = draft.tolerances := by
    split
    · exact tolerances_chooseAlgorithm defaultAlgorithm
    · rfl
  unfold finish at h
  rw [← hchosen]
  generalize (if draft.algorithm.isNone then draft.chooseAlgorithm solvers defaultAlgorithm
    else { draft := draft }) = chosen at h ⊢
  dsimp only at h
  split at h
  · rename_i hfault
    exact absurd (hfault.symm.trans h) nofun
  · cases h
  · rename_i hvalid
    exact hvalid

/-- The draft with factors that cannot be changed. -/
def freeze (draft : Draft) : Draft :=
  { draft with factors := draft.factors.freeze }

theorem update_freeze {α : Type} (part : Except DeclarationFault α) {put frozenPut : α → Draft}
    (hput : ∀ a, frozenPut a = (put a).freeze) :
    draft.freeze.update part frozenPut =
      { draft.update part put with draft := (draft.update part put).draft.freeze } := by
  cases part with
  | error fault => rfl
  | ok a => simp only [update, hput]

theorem chooseAlgorithm_freeze (name : String) :
    draft.freeze.chooseAlgorithm solvers name =
      { draft.chooseAlgorithm solvers name with draft :=
        (draft.chooseAlgorithm solvers name).draft.freeze } := by
  unfold chooseAlgorithm
  show (if draft.algorithm.isSome then _ else _) = _
  split
  · rfl
  · split
    · rfl
    · rfl

/-- An event that is not about a factor does the same to a frozen draft as to one that is not
frozen. -/
theorem apply_freeze {event : Event}
    (hother : ∀ name side factor, event.declaration ≠ .normalisationFactor name side factor) :
    draft.freeze.apply solvers event =
      { draft.apply solvers event with draft := (draft.apply solvers event).draft.freeze } := by
  have hdeclaration : draft.freeze.applyDeclaration solvers event.location event.declaration =
      { draft.applyDeclaration solvers event.location event.declaration with
        draft :=
      (draft.applyDeclaration solvers event.location event.declaration).draft.freeze } := by
    cases hkind : event.declaration with
    | integrationVariable name rank arraySize => exact update_freeze _ fun _ => rfl
    | algorithm name => exact chooseAlgorithm_freeze name
    | parameter name value => exact update_freeze _ fun _ => rfl
    | compareToNumericalJacobian compare => rfl
    | normalisationFactor name side factor => exact absurd hkind (hother name side factor)
    | incrementLimit name value => exact update_freeze _ fun _ => rfl
    | code role text => exact update_freeze _ fun _ => rfl
    | tangentBlocks blocks =>
        simp only [applyDeclaration, requestBlocks_eq]
        rfl
  unfold apply
  show (if event.appliesTo draft.hypothesis then _ else _) = _
  split
  · rw [hdeclaration]
  · rfl

/-- Once there is an algorithm, no other one can be chosen. -/
theorem apply_algorithm_of_isSome (hchosen : draft.algorithm.isSome = true) {event : Event}
    {name : String}
    (happlies : event.appliesTo draft.hypothesis = true)
    (hkind : event.declaration = .algorithm name) :
    draft.apply solvers event =
      { draft := draft,
        fault := some (.declaration .algorithmAlreadyDefined (some event.location)) } := by
  unfold apply
  rw [if_pos happlies, hkind, applyDeclaration, chooseAlgorithm, if_pos hchosen]
  rfl

theorem addFactor_of_frozen (hfrozen : draft.factors.frozen = true) (name : String) (side : Side)
    (factor : Setting) :
    ∃ fault, draft.addFactor name side factor = .error fault := by
  unfold addFactor
  split
  · exact ⟨_, rfl⟩
  · exact ⟨_, rfl⟩
  · refine ⟨.internal .frozen, ?_⟩
    rw [Factors.set, if_pos hfrozen]

/-- Once the factors are frozen, none can be set. -/
theorem apply_factor_of_frozen (solvers : Solvers) (hfrozen : draft.factors.frozen = true)
    {event : Event}
    {name : String} {side : Side} {factor : Setting}
    (happlies : event.appliesTo draft.hypothesis = true)
    (hkind : event.declaration = .normalisationFactor name side factor) :
    ∃ fault, draft.apply solvers event = { draft := draft, fault := some fault } := by
  obtain ⟨fault, hfault⟩ := addFactor_of_frozen hfrozen name side factor
  refine ⟨fault.located event.location, ?_⟩
  unfold apply
  rw [if_pos happlies, hkind, applyDeclaration, hfault]
  rfl

/-! ## Any calls after the end -/

/-- The draft after events, each applied with some registered algorithms, whatever their
outcomes. -/
def applyCalls (calls : List (Solvers × Event)) (draft : Draft) : Draft :=
  calls.foldl (fun draft call => (draft.apply call.1 call.2).draft) draft

/-- What one event keeps, a sequence of calls keeps. -/
theorem applyCalls_keeps {P : Draft → Prop} {calls : List (Solvers × Event)}
    (hstep : ∀ draft, ∀ call ∈ calls, P draft → P (apply call.1 call.2 draft).draft)
    (hdraft : P draft) :
    P (draft.applyCalls calls) := by
  induction calls generalizing draft with
  | nil => exact hdraft
  | cons call rest ih =>
      have hnext : P (draft.apply call.1 call.2).draft :=
        hstep draft call (List.mem_cons_self ..) hdraft
      exact ih (fun draft call hcall => hstep draft call (List.mem_cons_of_mem _ hcall)) hnext

/-- Only events about factors change the factors. -/
theorem factors_apply {event : Event}
    (hother : ∀ name side factor, event.declaration ≠ .normalisationFactor name side factor) :
    (draft.apply solvers event).draft.factors = draft.factors := by
  unfold apply
  split
  · show (draft.applyDeclaration solvers event.location event.declaration).draft.factors = _
    cases hkind : event.declaration with
    | integrationVariable name rank arraySize => exact update_keeps Draft.factors _ fun _ => rfl
    | algorithm name => exact (chooseAlgorithm_sameUnknowns solvers name draft).2
    | parameter name value => exact update_keeps Draft.factors _ fun _ => rfl
    | compareToNumericalJacobian compare => rfl
    | normalisationFactor name side factor => exact absurd hkind (hother name side factor)
    | incrementLimit name value => exact update_keeps Draft.factors _ fun _ => rfl
    | code role text => exact update_keeps Draft.factors _ fun _ => rfl
    | tangentBlocks blocks => exact (requestBlocks_sameUnknowns blocks draft).2
  · rfl

theorem factors_apply_of_frozen (hfrozen : draft.factors.frozen = true) (event : Event) :
    (draft.apply solvers event).draft.factors = draft.factors := by
  by_cases hfactor : ∃ name side factor, event.declaration = .normalisationFactor name side factor
  · obtain ⟨name, side, factor, hkind⟩ := hfactor
    by_cases happlies : event.appliesTo draft.hypothesis = true
    · obtain ⟨fault, hfault⟩ := apply_factor_of_frozen solvers hfrozen happlies hkind
      rw [hfault]
    · rw [apply_of_not_appliesTo solvers (by simpa using happlies)]
  · exact factors_apply fun name side factor hkind => hfactor ⟨name, side, factor, hkind⟩

/-- The algorithm and the factors that a finished draft has, it has for good. -/
theorem applyCalls_final (draft : Draft) {chosen : String × Strategy}
    (hchosen : draft.algorithm = some chosen)
    (hfrozen : draft.factors.frozen = true) (calls : List (Solvers × Event)) :
    (draft.applyCalls calls).algorithm = some chosen ∧ (draft.applyCalls calls).factors =
      draft.factors := by
  refine applyCalls_keeps (P := fun later => later.algorithm = some chosen ∧
    later.factors = draft.factors) (fun later call _ hlater => ?_) ⟨hchosen, rfl⟩
  refine ⟨(Grows.apply call.1 later call.2).algorithm chosen hlater.1, ?_⟩
  rw [factors_apply_of_frozen (hlater.2 ▸ hfrozen), hlater.2]

/-- The parameters after an event: as before, or with one that the event sets, or with the
comparison switched. -/
theorem tolerances_apply (solvers : Solvers) (draft : Draft) (event : Event) :
    let next := (draft.apply solvers event).draft.tolerances
    next = draft.tolerances ∨
      (event.appliesTo draft.hypothesis = true ∧
        ∃ name value, event.declaration = .parameter name value ∧
        draft.tolerances.Sets name value next) ∨
      ∃ compare, next = { draft.tolerances with compareToNumericalJacobian := compare } := by
  unfold apply
  split
  · rename_i happlies
    show let next :=
      (draft.applyDeclaration solvers event.location event.declaration).draft.tolerances; _
    cases hkind : event.declaration with
    | integrationVariable name rank arraySize =>
        exact Or.inl (update_keeps Draft.tolerances _ fun _ => rfl)
    | algorithm name => exact Or.inl (tolerances_chooseAlgorithm name)
    | parameter name value =>
        simp only [applyDeclaration]
        cases hset : draft.tolerances.set name value with
        | error fault => exact Or.inl rfl
        | ok tolerances =>
            exact Or.inr (Or.inl ⟨happlies, name, value, rfl, Tolerances.sets_of_set_eq_ok hset⟩)
    | compareToNumericalJacobian compare => exact Or.inr (Or.inr ⟨compare, rfl⟩)
    | normalisationFactor name side factor =>
        simp only [applyDeclaration]
        split
        · exact Or.inl rfl
        · exact Or.inl rfl
    | incrementLimit name value => exact Or.inl (update_keeps Draft.tolerances _ fun _ => rfl)
    | code role text => exact Or.inl (update_keeps Draft.tolerances _ fun _ => rfl)
    | tangentBlocks blocks =>
        rw [applyDeclaration, requestBlocks_eq]
        exact Or.inl rfl
  · exact Or.inl rfl

/-- Relaxation stays in time as long as no event sets a parameter that is compared. -/
theorem inTime_applyCalls (h : draft.tolerances.InTime) {calls : List (Solvers × Event)}
    (hcalls : ∀ call ∈ calls, call.2.appliesTo draft.hypothesis = true →
      ¬ call.2.declaration.SetsCompared) :
    (draft.applyCalls calls).tolerances.InTime := by
  refine (applyCalls_keeps (P := fun later => later.hypothesis = draft.hypothesis ∧
    later.tolerances.InTime) (fun later call hcall hlater => ?_) ⟨rfl, h⟩).2
  obtain ⟨hhypothesis, hintime⟩ := hlater
  refine ⟨(Grows.apply call.1 later call.2).hypothesis.trans hhypothesis, ?_⟩
  obtain hsame | ⟨happlies, name, value, hkind, hsets⟩ | ⟨compare, hswitched⟩ :=
    tolerances_apply call.1 later call.2
  · rwa [hsame]
  · have hname := hcalls call hcall (hhypothesis ▸ happlies)
    rw [hkind] at hname
    exact hintime.sets hsets hname
  · rw [hswitched]
    exact hintime

/-- What the end of a draft closes.  A draft that has been finished has an algorithm, frozen
factors, and a relaxation that sets in early enough.  Events that would choose an algorithm or set a
factor fail and change nothing; all other events do what they would have done before the factors
were frozen.  So after any calls, with any registered algorithms, the algorithm and the factors are
still the same, and relaxation sets in early enough unless an event has set a parameter that this
depends on. -/
theorem finish_closes_algorithm_and_factors {defaultAlgorithm : String}
    (h : (draft.finish solvers defaultAlgorithm).fault = none) :
    let finished := (draft.finish solvers defaultAlgorithm).draft
    ∃ chosen, (draft.algorithm = some chosen ∨ solvers.get? chosen.1 = some chosen.2) ∧
      finished = ({ draft with algorithm := some chosen } : Draft).freeze ∧
      finished.tolerances.InTime ∧
      (∀ (registered : Solvers) (event : Event), event.appliesTo finished.hypothesis = true →
        (event.declaration.IsFinal →
          ∃ fault, finished.apply registered event = { draft := finished, fault := some fault }) ∧
        (¬ event.declaration.IsFinal →
          let before := ({ draft with algorithm := some chosen } : Draft).apply registered event
          finished.apply registered event = { before with draft := before.draft.freeze })) ∧
      ∀ calls : List (Solvers × Event),
        (finished.applyCalls calls).algorithm = some chosen ∧
        (finished.applyCalls calls).factors = draft.factors.freeze ∧
        ((∀ call ∈ calls, call.2.appliesTo finished.hypothesis = true →
            ¬ call.2.declaration.SetsCompared) →
          (finished.applyCalls calls).tolerances.InTime) := by
  intro finished
  obtain ⟨chosen, hchosen, hfinished⟩ := finish_eq h
  have hfinished : finished = ({ draft with algorithm := some chosen } : Draft).freeze := hfinished
  have hintime : finished.tolerances.InTime := by
    rw [hfinished]
    exact Tolerances.validate_eq_ok_iff.mp (validate_of_finish h :)
  refine ⟨chosen, hchosen, hfinished, hintime,
    fun registered event happlies => ⟨fun hfinal => ?_, fun hother => ?_⟩, fun calls => ?_⟩
  · rw [hfinished] at happlies ⊢
    cases hkind : event.declaration with
    | algorithm name => exact ⟨_, apply_algorithm_of_isSome rfl happlies hkind⟩
    | normalisationFactor name side factor =>
        exact apply_factor_of_frozen registered rfl happlies hkind
    | integrationVariable _ _ _ | parameter _ _ | compareToNumericalJacobian _
    | incrementLimit _ _ | code _ _ | tangentBlocks _ =>
        rw [hkind] at hfinal
        exact hfinal.elim
  · rw [hfinished]
    refine apply_freeze fun name side factor hkind => hother ?_
    rw [hkind]
    trivial
  · rw [hfinished]
    obtain ⟨halgorithm, hfactors⟩ :=
      applyCalls_final (freeze { draft with algorithm := some chosen }) rfl rfl calls
    exact ⟨halgorithm, hfactors, fun hcalls => inTime_applyCalls (hfinished ▸ hintime) hcalls⟩

/-- A draft with relaxation, which sets in at the tenth of at most a hundred iterations. -/
def relaxed : Draft :=
  (apply .builtin { location := ⟨1, 1⟩, declaration := .parameter "useRelaxation" (.flag true) }
    { hypothesis := .tridimensional }).draft

/-- No more than five iterations. -/
def fewIterations : Event where
  location := ⟨2, 1⟩
  declaration := .parameter "iterMax" (.number 5)

/-- One more scalar. -/
def oneMoreScalar : Event where
  location := ⟨3, 1⟩
  declaration := .integrationVariable "x" .scalar 1

/-- Another algorithm. -/
def otherAlgorithm : Event where
  location := ⟨4, 1⟩
  declaration := .algorithm "Broyden"

theorem relaxed_finishes : (relaxed.finish .builtin "NewtonRaphson").fault = none := by
  rfl

/-- A finished draft takes further events without a fault, and its relaxation can then be too
late. -/
theorem finished_draft_takes_events :
    let finished := (relaxed.finish .builtin "NewtonRaphson").draft
    (relaxed.finish .builtin "NewtonRaphson").fault = none ∧ finished.tolerances.InTime ∧
      (finished.apply .builtin fewIterations).fault = none ∧
      ¬ (finished.apply .builtin fewIterations).draft.tolerances.InTime ∧
      (finished.apply .builtin oneMoreScalar).fault = none ∧
      (finished.apply .builtin oneMoreScalar).draft.roster.names = ["x"] := by
  intro finished
  refine ⟨relaxed_finishes, Tolerances.validate_eq_ok_iff.mp rfl, by decide +kernel,
    fun hintime => ?_, rfl, rfl⟩
  exact absurd (hintime rfl) (by decide +kernel)

theorem finish_closes_algorithm_and_factors_relaxed :
    let finished := (relaxed.finish .builtin "NewtonRaphson").draft
    finished.tolerances.InTime ∧
      (∃ fault,
        finished.apply .builtin otherAlgorithm = { draft := finished, fault := some fault }) ∧
      (finished.applyCalls [(.builtin, oneMoreScalar),
          (.builtin, otherAlgorithm)]).tolerances.InTime := by
  intro finished
  obtain ⟨chosen, -, -, hintime, hevents, hcalls⟩ :=
    finish_closes_algorithm_and_factors relaxed_finishes
  refine ⟨hintime, (hevents .builtin otherAlgorithm rfl).1 trivial, (hcalls _).2.2 ?_⟩
  intro call hcall _
  simp only [List.mem_cons, List.not_mem_nil, or_false] at hcall
  rcases hcall with rfl | rfl
  · exact id
  · exact id

end Draft

end Constitutive
