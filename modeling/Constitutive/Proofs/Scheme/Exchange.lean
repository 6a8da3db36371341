import Constitutive.Proofs.Scheme.Runs

/-!
# Exchanging declarations

Factors, limits and codes are stored under keys, and a place that is taken is not overwritten.
Whether such an item can be stored depends on the variables, the algorithm and the place, but not on
other items (`traced_applyDeclaration_eq_ok_iff`).  So two declarations of items can be exchanged
(`exists_exchange`).  The drafts are not equal afterwards, because the items were put behind each
other in another order, but they hold the same (`Alike`), and whatever events follow cannot tell
them apart (`Alike.apply`).
-/

namespace Constitutive

/-- What was put at the end is found under its key, unless something else is found there. -/
theorem lookup_append_entry {α β : Type} [BEq α] [LawfulBEq α] [DecidableEq α]
    (entries : List (α × β)) (key other : α) (value : β) :
    (entries ++ [(key, value)]).lookup other =
      (entries.lookup other).or (if other = key then some value else none) := by
  rw [List.lookup_append]
  congr 1
  by_cases h : other = key
  · rw [h, if_pos rfl, List.lookup_cons_self]
  · rw [if_neg h, List.lookup_cons, beq_eq_false_iff_ne.mpr h]
    rfl

/-- Entries with different keys can be exchanged. -/
theorem lookup_append_comm {α β : Type} [BEq α] [LawfulBEq α] [DecidableEq α]
    (entries : List (α × β)) {key key' : α} (h : key ≠ key') (value value' : β) (other : α) :
    ((entries ++ [(key, value)]) ++ [(key', value')]).lookup other =
      ((entries ++ [(key', value')]) ++ [(key, value)]).lookup other := by
  simp only [lookup_append_entry, Option.or_assoc]
  congr 1
  by_cases hother : other = key
  · rw [hother, if_pos rfl, if_neg h]
    rfl
  · rw [if_neg hother, Option.none_or, Option.or_none]

/-- A declaration of a factor, a limit or a code. -/
def Declaration.addsItem : Declaration → Bool
  | .normalisationFactor .. | .incrementLimit .. | .code .. => true
  | _ => false

namespace Draft

variable {draft first second next last : Draft} {solvers : Solvers}

/-! ## Items and their places -/

/-- Where a draft can hold an item. -/
inductive Place where
  | factor (name : String) (side : Side)
  | limit (name : String)
  | overallLimit
  | code (role : Role)
  deriving DecidableEq

/-- A factor, a limit or a code. -/
inductive Item where
  | factor (name : String) (side : Side) (expression : String)
  | limit (name : String) (value : Float)
  | overallLimit (value : Float)
  | code (role : Role) (code : CodeText)

/-- The place of an item. -/
def Item.place : Item → Place
  | factor name side _ => .factor name side
  | limit name _ => .limit name
  | overallLimit _ => .overallLimit
  | code role _ => .code role

/-- Whether a place is taken. -/
def holds (draft : Draft) : Place → Bool
  | .factor name side => (draft.factors.get? name side).isSome
  | .limit name => (draft.limits.get? name).isSome
  | .overallLimit => draft.limits.overall.isSome
  | .code role => (draft.code? role).isSome

/-- The draft with an item more. -/
def store (draft : Draft) : Item → Draft
  | .factor name side expression => { draft with factors :=
      { draft.factors with entries := draft.factors.entries ++ [((name, side), expression)] } }
  | .limit name value => { draft with limits :=
      { draft.limits with entries := draft.limits.entries ++ [(name, value)] } }
  | .overallLimit value => { draft with limits := { draft.limits with overall := some value } }
  | .code role code => { draft with codes := draft.codes ++ [(role, code)] }

/-- The item of a declaration, if nothing is wrong with it besides that its place may be taken. -/
def item? (draft : Draft) (location : Location) : Declaration → Option Item
  | .normalisationFactor name side factor =>
    if draft.roster.contains name && !draft.factors.frozen then
      (factorExpression name factor).toOption.map (.factor name side)
    else none
  | .incrementLimit none value => if Limits.isValid value then some (.overallLimit value) else none
  | .incrementLimit (some name) value =>
    if draft.roster.contains name && Limits.isValid value then some (.limit name value) else none
  | .code role text => (draft.allowsCode role).toOption.map fun () => .code role ⟨text, location⟩
  | _ => none

theorem holds_store (draft : Draft) (item : Item) (place : Place) :
    (draft.store item).holds place = (draft.holds place || decide (place = item.place)) := by
  cases item <;> cases place <;>
    simp [store, holds, Item.place, Factors.get?, Limits.get?, Draft.code?, lookup_append_entry,
      apply_ite Option.isSome]

theorem item?_store (draft : Draft) (item : Item) (location : Location)
    (declaration : Declaration) :
    (draft.store item).item? location declaration = draft.item? location declaration := by
  cases item <;> rfl

/-- An item is stored if nothing is wrong with it and its place is free. -/
theorem traced_applyDeclaration_eq_ok_iff {location : Location} {declaration : Declaration}
    (hadds : declaration.addsItem = true) :
    (draft.applyDeclaration solvers location declaration).traced.outcome = .ok next ↔
      ∃ item, draft.item? location declaration = some item ∧ draft.holds item.place = false ∧
        draft.store item = next := by
  rw [Applied.traced_eq_ok_iff]
  cases declaration with
  | normalisationFactor name side factor =>
      simp only [applyDeclaration, addFactor, require, item?]
      cases draft.roster.contains name with
      | false => simp
      | true =>
          cases factorExpression name factor with
          | error fault => simp [Except.toOption]
          | ok expression =>
              cases hfrozen : draft.factors.frozen with
              | true => simp [Factors.set, hfrozen]
              | false =>
                cases hplace : draft.factors.get? name side with
                | some other =>
                    simp [Factors.set, hfrozen, hplace, Except.toOption, Item.place, holds]
                | none =>
                    simp [Factors.set, hfrozen, hplace, Except.toOption, Item.place, holds, store]
  | incrementLimit name value =>
      cases name with
      | none =>
          simp only [applyDeclaration, addLimit, Limits.setOverall, item?]
          cases Limits.isValid value with
          | false => simp [update]
          | true =>
              cases hplace : draft.limits.overall with
              | some other => simp [update, Item.place, holds, hplace]
              | none => simp [update, Item.place, holds, hplace, store]
      | some name =>
          simp only [applyDeclaration, addLimit, require, item?]
          cases draft.roster.contains name with
          | false => simp [update, bind, Except.bind]
          | true =>
              cases hvalid : Limits.isValid value with
              | false => simp [update, bind, Except.bind, Limits.set, hvalid]
              | true =>
                  cases hplace : draft.limits.get? name with
                  | some other => simp [update, bind, Except.bind, Limits.set, hvalid, Item.place,
                        holds, hplace]
                  | none => simp [update, bind, Except.bind, Limits.set, hvalid, Item.place, holds,
                        hplace, store]
  | code role text =>
      simp only [applyDeclaration, addCode, item?]
      cases draft.allowsCode role with
      | error fault => simp [update, bind, Except.bind, Except.toOption]
      | ok _ =>
          cases hplace : draft.code? role with
          | some other =>
              simp [update, bind, Except.bind, Except.toOption, Item.place, holds, hplace]
          | none => simp [update, bind, Except.bind, pure, Except.pure, Except.toOption, Item.place,
                holds, hplace, store]
  | integrationVariable | algorithm | parameter | compareToNumericalJacobian | tangentBlocks =>
      cases hadds

theorem traced_apply_of_appliesTo {event : Event} (h : event.appliesTo draft.hypothesis = true) :
    (draft.apply solvers event).traced.outcome = .ok next ↔
      (draft.applyDeclaration solvers event.location event.declaration).traced.outcome =
        .ok next := by
  rw [Draft.apply, if_pos h]
  simp only [Applied.traced_eq_ok_iff, Option.map_eq_none_iff]

/-- A draft can be ended if it has an algorithm or the default is a registered one, and if its
parameters fit each other. -/
theorem finish_eq_ok_iff {defaultAlgorithm : String} :
    (draft.finish solvers defaultAlgorithm).traced.outcome = .ok next ↔
      ∃ chosen, draft.algorithm.or ((solvers.get? defaultAlgorithm).map fun strategy =>
        (defaultAlgorithm, strategy)) =
          some chosen ∧
        draft.tolerances.validate = .ok () ∧
        { draft with algorithm := some chosen, factors := draft.factors.freeze } = next := by
  rw [Applied.traced_eq_ok_iff]
  unfold finish
  cases halgorithm : draft.algorithm with
  | some chosen =>
      have hkept : { draft with algorithm := some chosen, factors := draft.factors.freeze } =
          { draft with factors := draft.factors.freeze } := by
        rw [← halgorithm]
      cases hvalid : draft.tolerances.validate with
      | error fault => simp [hvalid]
      | ok _ => simp [hvalid, hkept, halgorithm]
  | none =>
      simp only [Option.isNone_none, if_true, chooseAlgorithm, halgorithm, Option.isSome_none,
        Bool.false_eq_true, if_false]
      cases solvers.get? defaultAlgorithm with
      | none => simp
      | some strategy =>
          cases draft.tolerances.validate with
          | error fault => simp
          | ok _ => simp

/-! ## Drafts that hold the same -/

/-- Drafts that differ only in the order in which items were stored. -/
structure Alike (first second : Draft) : Prop where
  hypothesis : first.hypothesis = second.hypothesis
  roster : first.roster = second.roster
  algorithm : first.algorithm = second.algorithm
  tolerances : first.tolerances = second.tolerances
  inverseBlocks : first.inverseBlocks = second.inverseBlocks
  frozen : first.factors.frozen = second.factors.frozen
  factors : first.factors.get? = second.factors.get?
  overallLimit : first.limits.overall = second.limits.overall
  limits : first.limits.get? = second.limits.get?
  codes : first.code? = second.code?

namespace Alike

theorem refl (draft : Draft) : Alike draft draft :=
  ⟨rfl, rfl, rfl, rfl, rfl, rfl, rfl, rfl, rfl, rfl⟩

theorem solver? (h : Alike first second) : first.solver? = second.solver? := by
  rw [Draft.solver?, Draft.solver?, h.algorithm]

theorem holds (h : Alike first second) (place : Place) :
    first.holds place = second.holds place := by
  cases place with
  | factor name side => rw [Draft.holds, Draft.holds, h.factors]
  | limit name => rw [Draft.holds, Draft.holds, h.limits]
  | overallLimit => rw [Draft.holds, Draft.holds, h.overallLimit]
  | code role => rw [Draft.holds, Draft.holds, h.codes]

theorem item? (h : Alike first second) (location : Location) (declaration : Declaration) :
    first.item? location declaration = second.item? location declaration := by
  unfold Draft.item? allowsCode
  rw [h.roster, h.frozen, h.solver?]

theorem store (h : Alike first second) (item : Item) :
    Alike (first.store item) (second.store item) := by
  cases item with
  | factor name side expression =>
      refine { h with factors := ?_ }
      funext other side'
      have hother : first.factors.get? other side' = second.factors.get? other side' := by
        rw [h.factors]
      simp only [Draft.store, Factors.get?, lookup_append_entry] at hother ⊢
      rw [hother]
  | limit name value =>
      refine { h with limits := ?_ }
      funext other
      have hother : first.limits.get? other = second.limits.get? other := by rw [h.limits]
      simp only [Draft.store, Limits.get?, lookup_append_entry] at hother ⊢
      rw [hother]
  | overallLimit value => exact { h with overallLimit := rfl }
  | code role code =>
      refine { h with codes := ?_ }
      funext other
      have hother : first.code? other = second.code? other := by rw [h.codes]
      simp only [Draft.store, Draft.code?, lookup_append_entry] at hother ⊢
      rw [hother]

theorem chooseAlgorithm (h : Alike first second) (solvers : Solvers) (name : String) :
    (first.chooseAlgorithm solvers name).fault = (second.chooseAlgorithm solvers name).fault ∧
      Alike (first.chooseAlgorithm solvers name).draft
        (second.chooseAlgorithm solvers name).draft := by
  unfold Draft.chooseAlgorithm
  rw [← h.algorithm]
  split
  · exact ⟨rfl, h⟩
  · split
    · exact ⟨rfl, h⟩
    · exact ⟨rfl, { h with algorithm := rfl }⟩

/-- A declaration does the same to drafts that hold the same. -/
theorem applyDeclaration (h : Alike first second) {location : Location} {declaration : Declaration}
    (hok : (first.applyDeclaration solvers location declaration).traced.outcome = .ok next) :
    ∃ next', (second.applyDeclaration solvers location declaration).traced.outcome = .ok next' ∧
      Alike next next' := by
  cases hadds : declaration.addsItem with
  | true =>
      rw [traced_applyDeclaration_eq_ok_iff hadds] at hok
      obtain ⟨item, hitem, hfree, rfl⟩ := hok
      refine ⟨second.store item, ?_, h.store item⟩
      rw [traced_applyDeclaration_eq_ok_iff hadds]
      exact ⟨item, h.item? location declaration ▸ hitem, h.holds item.place ▸ hfree, rfl⟩
  | false =>
      rw [Applied.traced_eq_ok_iff] at hok
      simp only [Applied.traced_eq_ok_iff]
      obtain ⟨hfault, rfl⟩ := hok
      cases declaration with
      | integrationVariable name rank arraySize =>
          simp only [Draft.applyDeclaration, ← h.roster] at hfault ⊢
          cases hdeclare : first.roster.declare name rank arraySize with
          | error fault => simp [hdeclare, update] at hfault
          | ok roster => exact ⟨_, ⟨rfl, rfl⟩, { h with roster := rfl }⟩
      | algorithm name =>
          obtain ⟨hfault', hdraft⟩ := h.chooseAlgorithm solvers name
          exact ⟨_, ⟨hfault' ▸ hfault, rfl⟩, hdraft⟩
      | parameter name value =>
          simp only [Draft.applyDeclaration, ← h.tolerances] at hfault ⊢
          cases hset : first.tolerances.set name value with
          | error fault => simp [hset, update] at hfault
          | ok tolerances => exact ⟨_, ⟨rfl, rfl⟩, { h with tolerances := rfl }⟩
      | compareToNumericalJacobian compare =>
          refine ⟨_, ⟨rfl, rfl⟩, { h with tolerances := ?_ }⟩
          simp only [Draft.applyDeclaration, h.tolerances]
      | tangentBlocks blocks =>
          have hundeclared : first.undeclared? = second.undeclared? := by
            funext block
            rw [undeclared?, undeclared?, h.roster]
          have hdeclares : first.declaresBoth = second.declaresBoth := by
            funext block
            rw [declaresBoth, declaresBoth, h.roster]
          simp only [Draft.applyDeclaration, requestBlocks_eq, hundeclared, hdeclares] at hfault ⊢
          refine ⟨_, ⟨hfault, rfl⟩, { h with inverseBlocks := ?_ }⟩
          simp only [h.inverseBlocks]
      | normalisationFactor | incrementLimit | code => cases hadds

theorem apply (h : Alike first second) {event : Event}
    (hok : (first.apply solvers event).traced.outcome = .ok next) :
    ∃ next', (second.apply solvers event).traced.outcome = .ok next' ∧ Alike next next' := by
  cases happlies : event.appliesTo first.hypothesis with
  | true =>
      rw [traced_apply_of_appliesTo happlies] at hok
      rw [h.hypothesis] at happlies
      simp only [traced_apply_of_appliesTo happlies]
      exact h.applyDeclaration hok
  | false =>
      rw [apply_of_not_appliesTo solvers happlies] at hok
      rw [h.hypothesis] at happlies
      rw [apply_of_not_appliesTo solvers happlies]
      exact ⟨second, rfl, Except.ok.inj hok ▸ h⟩

theorem foldlM_apply (h : Alike first second) {events : List Event}
    (hok : (events.foldlM (fun (draft : Draft) event => (draft.apply solvers event).traced)
      first).outcome = .ok next) :
    ∃ next', (events.foldlM (fun (draft : Draft) event => (draft.apply solvers event).traced)
      second).outcome = .ok next' ∧
      Alike next next' := by
  induction events generalizing first second with
  | nil =>
      refine ⟨second, rfl, ?_⟩
      rw [List.foldlM_nil, Traced.outcome_pure] at hok
      exact Except.ok.inj hok ▸ h
  | cons event rest ih =>
      rw [List.foldlM_cons, Traced.outcome_bind, bind_eq_ok_iff] at hok
      obtain ⟨middle, hmiddle, hrest⟩ := hok
      obtain ⟨middle', hmiddle', halike⟩ := h.apply hmiddle
      obtain ⟨next', hnext', hlast⟩ := ih halike hrest
      refine ⟨next', ?_, hlast⟩
      rw [List.foldlM_cons, Traced.outcome_bind, bind_eq_ok_iff]
      exact ⟨middle', hmiddle', hnext'⟩

theorem finish (h : Alike first second) {defaultAlgorithm : String}
    (hok : (first.finish solvers defaultAlgorithm).traced.outcome = .ok next) :
    ∃ next', (second.finish solvers defaultAlgorithm).traced.outcome = .ok next' ∧
      Alike next next' := by
  obtain ⟨chosen, hchosen, hvalid, rfl⟩ := finish_eq_ok_iff.mp hok
  rw [h.algorithm] at hchosen
  rw [h.tolerances] at hvalid
  exact ⟨_, finish_eq_ok_iff.mpr ⟨chosen, hchosen, hvalid, rfl⟩,
    { h with algorithm := rfl, frozen := rfl }⟩

end Alike

/-- Items of different places can be stored in any order. -/
theorem alike_store_store (draft : Draft) {item item' : Item} (h : item.place ≠ item'.place) :
    Alike ((draft.store item).store item') ((draft.store item').store item) := by
  cases item with
  | factor name side expression =>
      cases item' with
      | factor name' side' expression' =>
          refine { Alike.refl _ with factors := ?_ }
          funext other side''
          exact lookup_append_comm _ (fun heq => h (by cases heq; rfl)) _ _ _
      | limit | overallLimit | code => exact .refl _
  | limit name value =>
      cases item' with
      | limit name' value' =>
          refine { Alike.refl _ with limits := ?_ }
          funext other
          exact lookup_append_comm _ (fun heq => h (by cases heq; rfl)) _ _ _
      | factor | overallLimit | code => exact .refl _
  | overallLimit value =>
      cases item' with
      | overallLimit value' => exact absurd rfl h
      | factor | limit | code => exact .refl _
  | code role code =>
      cases item' with
      | code role' code' =>
          refine { Alike.refl _ with codes := ?_ }
          funext other
          exact lookup_append_comm _ (fun heq => h (by cases heq; rfl)) _ _ _
      | factor | limit | overallLimit => exact .refl _

theorem exists_exchange_declarations {location location' : Location}
    {declaration declaration' : Declaration}
    (hadds : declaration.addsItem = true) (hadds' : declaration'.addsItem = true)
    (hnext : (draft.applyDeclaration solvers location declaration).traced.outcome = .ok next)
    (hlast : (next.applyDeclaration solvers location' declaration').traced.outcome = .ok last) :
    ∃ next' last', (draft.applyDeclaration solvers location' declaration').traced.outcome =
      .ok next' ∧
      (next'.applyDeclaration solvers location declaration).traced.outcome = .ok last' ∧
        Alike last last' := by
  simp only [traced_applyDeclaration_eq_ok_iff hadds, traced_applyDeclaration_eq_ok_iff hadds']
    at hnext hlast ⊢
  obtain ⟨item, hitem, hfree, rfl⟩ := hnext
  obtain ⟨item', hitem', hfree', rfl⟩ := hlast
  rw [item?_store] at hitem'
  rw [holds_store, Bool.or_eq_false_iff, decide_eq_false_iff_not] at hfree'
  obtain ⟨hfree', hplaces⟩ := hfree'
  refine ⟨_, _, ⟨item', hitem', hfree', rfl⟩, ⟨item, ?_, ?_, rfl⟩,
    draft.alike_store_store (Ne.symm hplaces)⟩
  · rw [item?_store, hitem]
  · rw [holds_store, Bool.or_eq_false_iff, decide_eq_false_iff_not]
    exact ⟨hfree, Ne.symm hplaces⟩

/-- Declarations of items can be exchanged. -/
theorem exists_exchange {event event' : Event} (hadds : event.declaration.addsItem = true)
    (hadds' : event'.declaration.addsItem = true)
    (hnext : (draft.apply solvers event).traced.outcome = .ok next)
    (hlast : (next.apply solvers event').traced.outcome = .ok last) :
    ∃ next' last', (draft.apply solvers event').traced.outcome = .ok next' ∧
      (next'.apply solvers event).traced.outcome = .ok last' ∧ Alike last last' := by
  have hkept := hypothesis_of_apply_eq_ok hnext
  cases happlies : event.appliesTo draft.hypothesis with
  | false =>
      -- the first event does nothing, before the second one or after it
      rw [apply_of_not_appliesTo solvers happlies] at hnext
      obtain rfl : draft = next := Except.ok.inj hnext
      refine ⟨last, last, hlast, ?_, .refl last⟩
      rw [apply_of_not_appliesTo solvers ((hypothesis_of_apply_eq_ok hlast).symm ▸ happlies)]
      rfl
  | true =>
      cases happlies' : event'.appliesTo draft.hypothesis with
      | false =>
          rw [apply_of_not_appliesTo solvers (hkept.symm ▸ happlies')] at hlast
          obtain rfl : next = last := Except.ok.inj hlast
          refine ⟨draft, next, ?_, hnext, .refl next⟩
          rw [apply_of_not_appliesTo solvers happlies']
          rfl
      | true =>
          rw [traced_apply_of_appliesTo happlies] at hnext
          rw [traced_apply_of_appliesTo (hkept.symm ▸ happlies')] at hlast
          obtain ⟨next', last', hnext', hlast', halike⟩ :=
            exists_exchange_declarations hadds hadds' hnext hlast
          have hnext' := (traced_apply_of_appliesTo happlies').mpr hnext'
          have hkept' := hypothesis_of_apply_eq_ok hnext'
          exact ⟨next', last', hnext',
            (traced_apply_of_appliesTo (hkept'.symm ▸ happlies)).mpr hlast', halike⟩

/-- Declarations of items can be exchanged wherever they stand. -/
theorem exists_foldlM_exchange {event event' : Event} (hadds : event.declaration.addsItem = true)
    (hadds' : event'.declaration.addsItem = true) (before after : List Event)
    (hok : ((before ++ event :: event' :: after).foldlM
      (fun (draft : Draft) event => (draft.apply solvers event).traced) draft).outcome = .ok last) :
    ∃ last', ((before ++ event' :: event :: after).foldlM
      (fun (draft : Draft) event => (draft.apply solvers event).traced)
      draft).outcome = .ok last' ∧ Alike last last' := by
  induction before generalizing draft with
  | nil =>
      simp only [List.nil_append, List.foldlM_cons, Traced.outcome_bind, bind_eq_ok_iff] at hok ⊢
      obtain ⟨next, hnext, middle, hmiddle, hlast⟩ := hok
      obtain ⟨next', middle', hnext', hmiddle', halike⟩ :=
        exists_exchange hadds hadds' hnext hmiddle
      obtain ⟨last', hlast', halike⟩ := halike.foldlM_apply hlast
      exact ⟨last', ⟨next', hnext', middle', hmiddle', hlast'⟩, halike⟩
  | cons first rest ih =>
      simp only [List.cons_append, List.foldlM_cons, Traced.outcome_bind, bind_eq_ok_iff] at hok ⊢
      obtain ⟨next, hnext, hrest⟩ := hok
      obtain ⟨last', hlast', halike⟩ := ih hrest
      exact ⟨last', ⟨next, hnext, hlast'⟩, halike⟩

end Draft

/-- The draft of a description holds the same after two of its declarations of items have been
exchanged. -/
theorem Description.exists_draft_exchange {description : Description} {before after : List Event}
    {event event' : Event}
    (hevents : description.events = before ++ event :: event' :: after)
    (hadds : event.declaration.addsItem = true)
    (hadds' : event'.declaration.addsItem = true) {solvers : Solvers} {defaultAlgorithm : String}
    {hypothesis : Hypothesis}
    {draft : Draft}
    (hdraft : (description.draft solvers defaultAlgorithm hypothesis).outcome = .ok draft) :
    ∃ draft', ({ description with events := before ++ event' :: event :: after }.draft solvers
      defaultAlgorithm hypothesis).outcome = .ok draft' ∧ Draft.Alike draft draft' := by
  unfold Description.draft at hdraft ⊢
  rw [hevents, Traced.outcome_bind, bind_eq_ok_iff] at hdraft
  obtain ⟨collected, hcollected, hfinish⟩ := hdraft
  obtain ⟨collected', hcollected', halike⟩ :=
    Draft.exists_foldlM_exchange hadds hadds' before after hcollected
  obtain ⟨draft', hfinish', halike⟩ := halike.finish hfinish
  refine ⟨draft', ?_, halike⟩
  rw [Traced.outcome_bind, bind_eq_ok_iff]
  exact ⟨collected', hcollected', hfinish'⟩

end Constitutive
