import Constitutive.Proofs.Scheme.Exchange

/-!
# Where the texts of a draft come from

A draft has no factors and codes but those that were declared by an event that counts for its
hypothesis (`Draft.DeclaredBy`, `Description.declaredBy_of_draft_eq_ok`).
-/

namespace Constitutive

namespace Draft

variable {draft next : Draft} {solvers : Solvers}

/-- The declaration of a factor or a code. -/
def Item.DeclaredIn (declaration : Declaration) : Item → Prop
  | .factor name side expression =>
    ∃ factor, declaration = .normalisationFactor name side factor ∧
      factorExpression name factor = .ok expression
  | .code role given => declaration = .code role given.text
  | _ => True

theorem declaredIn_of_item? {location : Location} {declaration : Declaration} {item : Item}
    (h : draft.item? location declaration = some item) : item.DeclaredIn declaration := by
  unfold item? at h
  split at h
  · rename_i name side factor
    split at h
    · obtain ⟨expression, hexpression, rfl⟩ := Option.map_eq_some_iff.mp h
      refine ⟨factor, rfl, ?_⟩
      cases hfactor : factorExpression name factor with
      | error fault => simp [hfactor, Except.toOption] at hexpression
      | ok _ => simpa [hfactor, Except.toOption] using hexpression
    · cases h
  · split at h
    · cases h
      trivial
    · cases h
  · split at h
    · cases h
      trivial
    · cases h
  · obtain ⟨_, -, rfl⟩ := Option.map_eq_some_iff.mp h
    rfl
  · cases h

/-- Every factor and every code was declared by an event that counts for the hypothesis. -/
structure DeclaredBy (events : List Event) (hypothesis : Hypothesis) (draft : Draft) : Prop where
  hypothesis_eq : draft.hypothesis = hypothesis
  factors : ∀ entry ∈ draft.factors.entries, ∃ event ∈ events, event.appliesTo hypothesis = true ∧
    (Item.factor entry.1.1 entry.1.2 entry.2).DeclaredIn event.declaration
  codes : ∀ entry ∈ draft.codes, ∃ event ∈ events, event.appliesTo hypothesis = true ∧
    (Item.code entry.1 entry.2).DeclaredIn event.declaration

/-- Other declarations store neither factors nor codes. -/
theorem items_of_not_addsItem (solvers : Solvers) (location : Location) (draft : Draft)
    {declaration : Declaration} (h : declaration.addsItem = false) :
    (draft.applyDeclaration solvers location declaration).draft.factors = draft.factors ∧
      (draft.applyDeclaration solvers location declaration).draft.codes = draft.codes := by
  have hupdate : ∀ {α : Type} (part : Except DeclarationFault α) (put : α → Draft),
      (∀ a, (put a).factors = draft.factors ∧ (put a).codes = draft.codes) →
        (draft.update part put).draft.factors = draft.factors ∧
        (draft.update part put).draft.codes = draft.codes := by
    intro α part put hput
    cases part with
    | error fault => exact ⟨rfl, rfl⟩
    | ok a => exact hput a
  cases declaration with
  | integrationVariable name rank arraySize => exact hupdate _ _ fun _ => ⟨rfl, rfl⟩
  | algorithm name =>
      simp only [applyDeclaration, chooseAlgorithm]
      split
      · exact ⟨rfl, rfl⟩
      · split
        · exact ⟨rfl, rfl⟩
        · exact ⟨rfl, rfl⟩
  | parameter name value => exact hupdate _ _ fun _ => ⟨rfl, rfl⟩
  | compareToNumericalJacobian compare => exact ⟨rfl, rfl⟩
  | tangentBlocks blocks =>
      simp only [applyDeclaration, requestBlocks_eq]
      exact ⟨trivial, trivial⟩
  | normalisationFactor name side factor => cases h
  | incrementLimit name value => cases h
  | code role text => cases h

/-- One event adds no texts but its own. -/
theorem DeclaredBy.apply {events : List Event} {hypothesis : Hypothesis}
    (h : draft.DeclaredBy events hypothesis)
    {event : Event} (hevent : event ∈ events)
    (happly : (draft.apply solvers event).traced.outcome = .ok next) :
    next.DeclaredBy events hypothesis := by
  have hhypothesis : next.hypothesis = hypothesis :=
    (hypothesis_of_apply_eq_ok happly).trans h.hypothesis_eq
  cases happlies : event.appliesTo draft.hypothesis with
  | false =>
      rw [apply_of_not_appliesTo solvers happlies] at happly
      rwa [← (Applied.traced_eq_ok_iff.mp happly).2]
  | true =>
      rw [traced_apply_of_appliesTo happlies] at happly
      rw [h.hypothesis_eq] at happlies
      cases hadds : event.declaration.addsItem with
      | false =>
          obtain ⟨hfactors, hcodes⟩ := items_of_not_addsItem solvers event.location draft hadds
          rw [(Applied.traced_eq_ok_iff.mp happly).2] at hfactors hcodes
          exact ⟨hhypothesis, hfactors ▸ h.factors, hcodes ▸ h.codes⟩
      | true =>
          obtain ⟨item, hitem, -, rfl⟩ := (traced_applyDeclaration_eq_ok_iff hadds).mp happly
          cases item with
          | factor name side expression =>
              refine ⟨hhypothesis, fun entry hentry => ?_, h.codes⟩
              rcases List.mem_append.mp hentry with hentry | hentry
              · exact h.factors entry hentry
              · obtain rfl := List.mem_singleton.mp hentry
                exact ⟨event, hevent, happlies, declaredIn_of_item? hitem⟩
          | limit name value => exact ⟨hhypothesis, h.factors, h.codes⟩
          | overallLimit value => exact ⟨hhypothesis, h.factors, h.codes⟩
          | code role code =>
              refine ⟨hhypothesis, h.factors, fun entry hentry => ?_⟩
              rcases List.mem_append.mp hentry with hentry | hentry
              · exact h.codes entry hentry
              · obtain rfl := List.mem_singleton.mp hentry
                exact ⟨event, hevent, happlies, declaredIn_of_item? hitem⟩

end Draft

theorem Description.declaredBy_of_draft_eq_ok {description : Description} {solvers : Solvers}
    {defaultAlgorithm : String} {hypothesis : Hypothesis} {draft : Draft}
    (h : (description.draft solvers defaultAlgorithm hypothesis).outcome = .ok draft) :
    draft.DeclaredBy description.events hypothesis := by
  rw [Description.draft, Traced.outcome_bind, bind_eq_ok_iff] at h
  obtain ⟨collected, hcollected, hfinished⟩ := h
  have hinitial : Draft.DeclaredBy description.events hypothesis { hypothesis := hypothesis } :=
    ⟨rfl, fun _ h => absurd h List.not_mem_nil, fun _ h => absurd h List.not_mem_nil⟩
  have hdeclared : collected.DeclaredBy description.events hypothesis :=
    foldlM_keeps (fun _ event hevent _ hs hstep => hs.apply hevent hstep) hinitial hcollected
  obtain ⟨chosen, -, -, rfl⟩ := Draft.finish_eq_ok_iff.mp hfinished
  exact ⟨hdeclared.hypothesis_eq, hdeclared.factors, hdeclared.codes⟩

end Constitutive
