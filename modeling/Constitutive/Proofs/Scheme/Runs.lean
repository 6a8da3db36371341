import Constitutive.Proofs.Scheme.Changes

/-!
# Runs of events

Events are applied one after the other, those after a failing one too.  Whatever they are, a draft
only grows: lists get longer at their ends, and what was stored stays as it is (`Grows`).  This is
read off the ways to change a draft, for one event, and follows for a run by transitivity
(`Grows.applyAll`).

Because nothing is taken back, what was checked when it was stored is still right later.  So all
that a draft names has been declared, its algorithm is a registered one, and code that depends on
the algorithm fits it (`Coherent`).  An event that succeeds has stored what it declares (`Stores`),
which stays stored.
-/

namespace Constitutive

/-- What is found in an association list is found in a longer one. -/
theorem lookup_append_of_eq_some {α β : Type} [BEq α] {entries : List (α × β)} {key : α} {value : β}
    (h : entries.lookup key = some value) (more : List (α × β)) :
    (entries ++ more).lookup key = some value := by
  rw [List.lookup_append, h, Option.some_or]

/-- What was not found is found where it has been put at the end. -/
theorem lookup_append_singleton {α β : Type} [BEq α] [LawfulBEq α] {entries : List (α × β)}
    {key : α} (value : β)
    (h : ¬ (entries.lookup key).isSome = true) :
    (entries ++ [(key, value)]).lookup key = some value := by
  rw [List.lookup_append, Option.not_isSome_iff_eq_none.mp h, Option.none_or, List.lookup_cons_self]

namespace Draft

variable {draft next last : Draft} {solvers : Solvers}

theorem apply_of_not_appliesTo {event : Event} (solvers : Solvers)
    (h : event.appliesTo draft.hypothesis = false) :
    draft.apply solvers event = { draft := draft } := by
  rw [Draft.apply, h, if_neg Bool.false_ne_true]

/-- The draft after a run of events, whatever their outcomes. -/
def applyAll (solvers : Solvers) (events : List Event) (draft : Draft) : Draft :=
  events.foldl (fun draft event => (draft.apply solvers event).draft) draft

/-- What one event keeps, a run of events keeps. -/
theorem applyAll_keeps {P : Draft → Prop}
    (hstep : ∀ draft event, P draft → P (apply solvers event draft).draft)
    (events : List Event) (hdraft : P draft) : P (draft.applyAll solvers events) := by
  induction events generalizing draft with
  | nil => exact hdraft
  | cons event rest ih => exact ih (hstep draft event hdraft)

/-! ## Drafts grow -/

/-- A draft that has all that another one has, in the same order. -/
structure Grows (draft next : Draft) : Prop where
  hypothesis : next.hypothesis = draft.hypothesis
  vars : draft.roster.vars <+: next.roster.vars
  inverseBlocks : draft.inverseBlocks <+: next.inverseBlocks
  algorithm : ∀ chosen, draft.algorithm = some chosen → next.algorithm = some chosen
  factors : ∀ name side expression,
    draft.factors.get? name side = some expression → next.factors.get? name side = some expression
  limits : ∀ name value, draft.limits.get? name = some value → next.limits.get? name = some value
  overallLimit : ∀ value, draft.limits.overall = some value → next.limits.overall = some value
  codes : ∀ role code, draft.code? role = some code → next.code? role = some code

namespace Grows

theorem refl (draft : Draft) : Grows draft draft where
  hypothesis := rfl
  vars := List.prefix_refl _
  inverseBlocks := List.prefix_refl _
  algorithm _ h := h
  factors _ _ _ h := h
  limits _ _ h := h
  overallLimit _ h := h
  codes _ _ h := h

theorem trans (h : Grows draft next) (h' : Grows next last) : Grows draft last where
  hypothesis := h'.hypothesis.trans h.hypothesis
  vars := h.vars.trans h'.vars
  inverseBlocks := h.inverseBlocks.trans h'.inverseBlocks
  algorithm chosen hchosen := h'.algorithm chosen (h.algorithm chosen hchosen)
  factors name side expression hfactor :=
    h'.factors name side expression (h.factors name side expression hfactor)
  limits name value hlimit := h'.limits name value (h.limits name value hlimit)
  overallLimit value hlimit := h'.overallLimit value (h.overallLimit value hlimit)
  codes role code hcode := h'.codes role code (h.codes role code hcode)

/-- Declared names stay declared. -/
theorem mem_names (h : Grows draft next) {name : String} (hname : name ∈ draft.roster.names) :
    name ∈ next.roster.names := by
  obtain ⟨more, hvars⟩ := h.vars
  simp only [Roster.names, ← hvars, List.map_append, List.mem_append] at hname ⊢
  exact Or.inl hname

/-- Code that is allowed stays allowed, because the algorithm stays the same. -/
theorem allowsCode (h : Grows draft next) {role : Role}
    (hallowed : draft.allowsCode role = .ok ()) :
    next.allowsCode role = .ok () := by
  cases halgorithm : draft.algorithm with
  | some chosen =>
      have hsolver : next.solver? = draft.solver? := by
        rw [solver?, solver?, h.algorithm chosen halgorithm, halgorithm]
      simpa only [Draft.allowsCode, hsolver] using hallowed
  | none =>
      -- without an algorithm, only code that does not depend on it is allowed
      have hsolver : draft.solver? = none := by rw [solver?, halgorithm, Option.map_none]
      simp only [Draft.allowsCode, hsolver] at hallowed ⊢
      split at hallowed
      · cases hallowed
      · cases hallowed
      · rfl

end Grows

theorem Change.grows (h : Change solvers draft next) : Grows draft next := by
  cases h with
  | nothing => exact .refl draft
  | declare hdeclare =>
      obtain ⟨-, -, rfl⟩ := Roster.declare_eq_ok_iff.mp hdeclare
      exact { Grows.refl draft with vars := List.prefix_append _ _ }
  | algorithm hfirst hfound =>
      refine { Grows.refl draft with algorithm := fun chosen hchosen => ?_ }
      rw [hfirst] at hchosen
      cases hchosen
  | tolerances tolerances => exact { Grows.refl draft with }
  | factor side expression hname =>
      exact { Grows.refl draft with factors := fun _ _ _ h => lookup_append_of_eq_some h _ }
  | limit value hname =>
      exact { Grows.refl draft with limits := fun _ _ h => lookup_append_of_eq_some h _ }
  | overallLimit value hfirst =>
      refine { Grows.refl draft with overallLimit := fun other hother => ?_ }
      rw [hfirst] at hother
      cases hother
  | code code hallowed =>
      exact { Grows.refl draft with codes := fun _ _ h => lookup_append_of_eq_some h _ }
  | blocks requested hdeclared =>
      exact { Grows.refl draft with inverseBlocks := List.prefix_append _ _ }

theorem Grows.apply (solvers : Solvers) (draft : Draft) (event : Event) :
    Grows draft (draft.apply solvers event).draft :=
  (change_apply solvers event draft).grows

theorem hypothesis_of_apply_eq_ok {event : Event}
    (h : (draft.apply solvers event).traced.outcome = .ok next) :
    next.hypothesis = draft.hypothesis := by
  rw [← (Applied.traced_eq_ok_iff.mp h).2, (Grows.apply solvers draft event).hypothesis]

theorem Grows.applyAll (solvers : Solvers) (draft : Draft) (events : List Event) :
    Grows draft (draft.applyAll solvers events) :=
  applyAll_keeps (fun middle event h => h.trans (Grows.apply solvers middle event)) events
    (Grows.refl draft)

/-! ## What all drafts satisfy -/

/-- Limits belong to declared variables. -/
def LimitsDeclared (draft : Draft) : Prop :=
  ∀ entry ∈ draft.limits.entries, entry.1 ∈ draft.roster.names

/-- All codes are allowed under the algorithm. -/
def CodesAllowed (draft : Draft) : Prop :=
  ∀ entry ∈ draft.codes, draft.allowsCode entry.1 = .ok ()

theorem LimitsDeclared.apply (h : draft.LimitsDeclared) (event : Event) :
    (draft.apply solvers event).draft.LimitsDeclared := by
  have hgrows := Grows.apply solvers draft event
  intro entry hentry
  refine hgrows.mem_names ?_
  -- an entry is an old one, or a new one of a declared variable
  generalize hnext : (draft.apply solvers event).draft = next at hentry
  cases hnext ▸ change_apply solvers event draft with
  | limit value hname =>
      rcases List.mem_append.mp hentry with hentry | hentry
      · exact h entry hentry
      · obtain rfl := List.mem_singleton.mp hentry
        exact hname
  | nothing | declare _ | algorithm _ _ | tolerances _ | factor _ _ _ | overallLimit _ _
  | code _ _ | blocks _ _ =>
      exact h entry hentry

theorem CodesAllowed.apply (h : draft.CodesAllowed) (event : Event) :
    (draft.apply solvers event).draft.CodesAllowed := by
  have hgrows := Grows.apply solvers draft event
  intro entry hentry
  refine hgrows.allowsCode ?_
  generalize hnext : (draft.apply solvers event).draft = next at hentry
  cases hnext ▸ change_apply solvers event draft with
  | code code hallowed =>
      rcases List.mem_append.mp hentry with hentry | hentry
      · exact h entry hentry
      · obtain rfl := List.mem_singleton.mp hentry
        exact hallowed
  | nothing | declare _ | algorithm _ _ | tolerances _ | factor _ _ _ | limit _ _
  | overallLimit _ _ | blocks _ _ =>
      exact h entry hentry

/-- All that a draft names has been declared or registered, and its codes fit its algorithm. -/
structure Coherent (solvers : Solvers) (draft : Draft) : Prop where
  factors_declared : ∀ name side, (draft.factors.get? name side).isSome = true →
    draft.roster.contains name = true
  limits_declared : ∀ name, (draft.limits.get? name).isSome = true →
    draft.roster.contains name = true
  blocks_declared : ∀ block ∈ draft.inverseBlocks,
    draft.roster.contains block.unknown = true ∧ draft.roster.contains block.residual = true
  blocks_once : draft.inverseBlocks.Nodup
  /-- The strategy is that of the algorithm, and the registered one of its name. -/
  solver_registered : ∀ strategy, draft.solver? = some strategy ↔
    ∃ name, draft.algorithm = some (name, strategy) ∧ solvers.get? name = some strategy
  jacobian_allowed : (draft.code? .initializeJacobian).isSome = true →
    ∃ strategy, draft.solver? = some strategy ∧
    strategy.capabilities.allowsJacobianInitialisation = true
  inverse_allowed : (draft.code? .initializeJacobianInvert).isSome = true →
    ∃ strategy, draft.solver? = some strategy ∧
    strategy.capabilities.allowsJacobianInvertInitialisation = true

theorem exists_mem_of_isSome_lookup {α β : Type} [BEq α] [LawfulBEq α]
    {entries : List (α × β)} {key : α}
    (h : (entries.lookup key).isSome = true) : ∃ entry ∈ entries, entry.1 = key := by
  obtain ⟨value, hvalue⟩ := Option.isSome_iff_exists.mp h
  obtain ⟨front, back, rfl, -⟩ := List.lookup_eq_some_iff.mp hvalue
  exact ⟨(key, value), by simp, rfl⟩

theorem CodesAllowed.allowsCode (h : draft.CodesAllowed) {role : Role}
    (hcode : (draft.code? role).isSome = true) :
    draft.allowsCode role = .ok () := by
  obtain ⟨entry, hentry, rfl⟩ := exists_mem_of_isSome_lookup hcode
  exact h entry hentry

/-- A strategy that must allow something is there, and allows it. -/
theorem exists_solver_of_allowed {allowed : Capabilities → Bool} {missing : DeclarationFault}
    {refused : Strategy → DeclarationFault}
    (h : (match draft.solver? with
      | none => .error missing
      | some solver =>
          if allowed solver.capabilities then .ok () else .error (refused solver)) = Except.ok ()) :
    ∃ solver, draft.solver? = some solver ∧ allowed solver.capabilities = true := by
  split at h
  · cases h
  · rename_i solver hsolver
    refine ⟨solver, hsolver, ?_⟩
    by_contra hnot
    rw [if_neg hnot] at h
    cases h

theorem coherent_of (hsound : draft.Sound) (hrequests : draft.Requests)
    (hregistered : draft.Registered solvers)
    (hlimits : draft.LimitsDeclared) (hcodes : draft.CodesAllowed) : Coherent solvers draft where
  factors_declared name side h := by
    obtain ⟨entry, hentry, hkey⟩ := exists_mem_of_isSome_lookup h
    exact Roster.contains_iff.mpr (hkey ▸ hsound.factors_declared entry hentry :)
  limits_declared name h := by
    obtain ⟨entry, hentry, rfl⟩ := exists_mem_of_isSome_lookup h
    exact Roster.contains_iff.mpr (hlimits entry hentry)
  blocks_declared block hblock := by
    obtain ⟨hunknown, hresidual⟩ := hrequests.declared block hblock
    exact ⟨Roster.contains_iff.mpr hunknown, Roster.contains_iff.mpr hresidual⟩
  blocks_once := hrequests.once
  solver_registered strategy := by
    constructor
    · intro h
      obtain ⟨⟨name, _⟩, halgorithm, rfl⟩ := Option.map_eq_some_iff.mp h
      exact ⟨name, halgorithm, hregistered _ halgorithm⟩
    · rintro ⟨name, halgorithm, -⟩
      rw [solver?, halgorithm, Option.map_some]
  jacobian_allowed h := exists_solver_of_allowed (hcodes.allowsCode h)
  inverse_allowed h := exists_solver_of_allowed (hcodes.allowsCode h)

theorem coherent_applyAll (solvers : Solvers) (hypothesis : Hypothesis) (events : List Event) :
    Coherent solvers (applyAll solvers events { hypothesis := hypothesis }) :=
  coherent_of (applyAll_keeps (fun _ event h => h.apply event) events (sound_initial hypothesis))
    (applyAll_keeps (fun _ event h => h.apply event) events (requests_initial hypothesis))
    (applyAll_keeps (fun _ event h => h.apply event) events (registered_initial solvers hypothesis))
    (applyAll_keeps (fun _ event h => h.apply event) events fun _ hentry =>
      absurd hentry List.not_mem_nil)
    (applyAll_keeps (fun _ event h => h.apply event) events fun _ hentry =>
      absurd hentry List.not_mem_nil)

/-! ## What a declaration stores -/

/-- The draft has what a declaration at some place stores, the parameters apart. -/
def Stores (location : Location) (draft : Draft) : Declaration → Prop
  | .integrationVariable name rank arraySize => ⟨name, rank, arraySize⟩ ∈ draft.roster.vars
  | .algorithm name => ∃ strategy, draft.algorithm = some (name, strategy)
  | .parameter _ _ => True
  | .compareToNumericalJacobian _ => True
  | .normalisationFactor name side factor =>
    ∃ expression, factorExpression name factor = .ok expression ∧
      draft.factors.get? name side = some expression
  | .incrementLimit none value => draft.limits.overall = some value
  | .incrementLimit (some name) value => draft.limits.get? name = some value
  | .code role text => draft.code? role = some ⟨text, location⟩
  | .tangentBlocks blocks => ∀ block ∈ blocks, block ∈ draft.inverseBlocks

theorem Grows.stores (h : Grows draft next) {location : Location} {declaration : Declaration}
    (hstores : draft.Stores location declaration) : next.Stores location declaration := by
  cases declaration with
  | integrationVariable name rank arraySize => exact h.vars.mem hstores
  | algorithm name => exact hstores.imp fun strategy halgorithm => h.algorithm _ halgorithm
  | parameter name value => trivial
  | compareToNumericalJacobian compare => trivial
  | normalisationFactor name side factor =>
      obtain ⟨expression, hexpression, hfactor⟩ := hstores
      exact ⟨expression, hexpression, h.factors name side expression hfactor⟩
  | incrementLimit name value =>
      cases name with
      | none => exact h.overallLimit value hstores
      | some name => exact h.limits name value hstores
  | code role text => exact h.codes role _ hstores
  | tangentBlocks blocks => exact fun block hblock => h.inverseBlocks.mem (hstores block hblock)

theorem update_of_fault_eq_none {α : Type} {part : Except DeclarationFault α} {put : α → Draft}
    (h : (draft.update part put).fault = none) :
    ∃ a, part = .ok a ∧ (draft.update part put).draft = put a := by
  cases part with
  | error cause => cases h
  | ok a => exact ⟨a, rfl, rfl⟩

theorem algorithm_of_chooseAlgorithm {name : String}
    (h : (draft.chooseAlgorithm solvers name).fault = none) :
    ∃ strategy, (draft.chooseAlgorithm solvers name).draft.algorithm = some (name, strategy) := by
  unfold chooseAlgorithm at h ⊢
  split at h
  · cases h
  · rename_i hfree
    rw [if_neg hfree]
    split at h
    · cases h
    · rename_i strategy hfound
      exact ⟨strategy, rfl⟩

theorem get?_of_addFactor_eq_ok {name : String} {side : Side} {factor : Setting} {factors : Factors}
    (h : draft.addFactor name side factor = .ok factors) :
    ∃ expression, factorExpression name factor = .ok expression ∧ factors.get? name side =
      some expression := by
  unfold addFactor at h
  split at h
  · cases h
  · cases h
  · rename_i expression _ hexpression
    refine ⟨expression, hexpression, ?_⟩
    unfold Factors.set at h
    split at h
    · cases h
    · split at h
      · cases h
      · rename_i hnew
        obtain rfl := Except.ok.inj h
        exact lookup_append_singleton expression hnew

theorem stores_of_addLimit_eq_ok {location : Location} {name : Option String} {value : Float}
    {limits : Limits} (h : draft.addLimit name value = .ok limits) :
    Stores location { draft with limits := limits } (.incrementLimit name value) := by
  cases name with
  | none =>
      simp only [addLimit] at h
      unfold Limits.setOverall at h
      split at h
      · cases h
      · split at h
        · cases h
        · obtain rfl := Except.ok.inj h
          rfl
  | some name =>
      obtain ⟨_, -, h⟩ := bind_eq_ok_iff.mp h
      unfold Limits.set at h
      split at h
      · cases h
      · split at h
        · cases h
        · rename_i hnew
          obtain rfl := Except.ok.inj h
          exact lookup_append_singleton value hnew

theorem stores_of_addCode_eq_ok {location : Location} {role : Role} {text : String}
    {codes : List (Role × CodeText)} (h : draft.addCode role ⟨text, location⟩ = .ok codes) :
    Stores location { draft with codes := codes } (.code role text) := by
  obtain ⟨_, -, h⟩ := bind_eq_ok_iff.mp h
  split at h
  · cases h
  · rename_i hnew
    obtain rfl := Except.ok.inj h
    exact lookup_append_singleton _ hnew

theorem mem_of_requestBlocks {blocks : List InverseBlock}
    (h : (requestBlocks blocks draft).fault = none)
    {block : InverseBlock} (hblock : block ∈ blocks) :
    block ∈ (requestBlocks blocks draft).draft.inverseBlocks := by
  rw [requestBlocks_eq] at h ⊢
  -- no block has an undeclared variable, so the request goes to its end
  have hnone : ∀ other ∈ blocks, draft.undeclared? other = none :=
    List.findSome?_eq_none_iff.mp (Option.map_eq_none_iff.mp h)
  have hall : blocks.takeWhile draft.declaresBoth = blocks :=
    List.takeWhile_eq_self_iff.mpr fun other hother =>
      declaresBoth_of_undeclared?_eq_none (hnone other hother)
  simp only [hall]
  exact InverseBlock.mem_append_fresh hblock

/-- A declaration that succeeds stores what it declares. -/
theorem stores_applyDeclaration {location : Location} {declaration : Declaration}
    (h : (draft.applyDeclaration solvers location declaration).fault = none) :
    (draft.applyDeclaration solvers location declaration).draft.Stores location declaration := by
  cases declaration with
  | integrationVariable name rank arraySize =>
      obtain ⟨roster, hok, hnext⟩ := update_of_fault_eq_none h
      obtain ⟨-, -, rfl⟩ := Roster.declare_eq_ok_iff.mp hok
      rw [applyDeclaration, hnext]
      exact List.mem_append_right _ (List.mem_singleton_self _)
  | algorithm name => exact algorithm_of_chooseAlgorithm h
  | parameter name value => trivial
  | compareToNumericalJacobian compare => trivial
  | normalisationFactor name side factor =>
      simp only [applyDeclaration] at h ⊢
      split at h
      · rename_i factors hok
        exact get?_of_addFactor_eq_ok hok
      · cases h
  | incrementLimit name value =>
      obtain ⟨limits, hok, hnext⟩ := update_of_fault_eq_none h
      rw [applyDeclaration, hnext]
      exact stores_of_addLimit_eq_ok hok
  | code role text =>
      obtain ⟨codes, hok, hnext⟩ := update_of_fault_eq_none h
      rw [applyDeclaration, hnext]
      exact stores_of_addCode_eq_ok hok
  | tangentBlocks blocks => exact fun block hblock => mem_of_requestBlocks h hblock

theorem stores_apply {event : Event} (happlies : event.appliesTo draft.hypothesis = true)
    (h : (draft.apply solvers event).fault = none) :
    (draft.apply solvers event).draft.Stores event.location event.declaration := by
  unfold apply at h ⊢
  rw [if_pos happlies] at h ⊢
  exact stores_applyDeclaration (Option.map_eq_none_iff.mp h)

/-- After any run of events the draft is coherent.  The next event, whatever its outcome, and all
later ones only add to it, and what an event stores when it succeeds stays stored. -/
theorem runs_coherent_and_growing (solvers : Solvers) (hypothesis : Hypothesis)
    (events : List Event) :
    let draft := applyAll solvers events { hypothesis := hypothesis }
    Coherent solvers draft ∧
      ∀ event later,
        Grows draft (draft.apply solvers event).draft ∧
        Grows draft ((draft.apply solvers event).draft.applyAll solvers later) ∧
        (event.appliesTo hypothesis = true → (draft.apply solvers event).fault = none →
          ((draft.apply solvers event).draft.applyAll solvers later).Stores event.location
          event.declaration) := by
  intro draft
  refine ⟨coherent_applyAll solvers hypothesis events, fun event later => ?_⟩
  have hstep := Grows.apply solvers draft event
  have hlater := Grows.applyAll solvers (draft.apply solvers event).draft later
  refine ⟨hstep, hstep.trans hlater, fun happlies hfault => hlater.stores (stores_apply ?_ hfault)⟩
  rwa [(Grows.applyAll solvers { hypothesis := hypothesis } events).hypothesis]

/-- A factor is kept by a request that fails. -/
theorem runs_coherent_and_growing_halfDeclared :
    ((oneScalar.apply .builtin
        { declaration := .normalisationFactor "x" .unknown (.text " 2.0 ") }).draft.applyAll
          .builtin [halfDeclared]).factors.get? "x" .unknown = some "2.0" := by
  obtain ⟨-, hruns⟩ := runs_coherent_and_growing .builtin .tridimensional
    [{ location := ⟨1, 1⟩, declaration := .integrationVariable "x" .scalar 1 }]
  obtain ⟨-, -, hstores⟩ :=
    hruns { declaration := .normalisationFactor "x" .unknown (.text " 2.0 ") } [halfDeclared]
  obtain ⟨expression, hexpression, hfactor⟩ := hstores rfl rfl
  obtain rfl : "2.0" = expression := Except.ok.inj hexpression
  exact hfactor

end Draft

end Constitutive
