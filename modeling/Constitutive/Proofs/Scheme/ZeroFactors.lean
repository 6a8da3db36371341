import Constitutive.Proofs.Decimal.Numeral
import Constitutive.Proofs.Scheme.Numbers
import Constitutive.Proofs.Scheme.Origins

/-!
# Factors that are zero

A factor given as a number is positive, and its literal reads back as that number, so it can be
divided by.  A factor given as a text is stored as it is.  If it reads as zero, the scaling cannot
be made; nothing else can go wrong with it (`scaling_fails_only_for_zero_text`).

## Strategy

The scaling is made factor by factor, and the first one that is no number, or zero, decides
(`toScaling_eq_error_iff`).
-/

namespace Constitutive

/-! ## The first factor that cannot be used -/

theorem forall_or_first {α : Type} (P : α → Prop) (xs : List α) :
    (∀ a ∈ xs, P a) ∨ ∃ before a after, xs = before ++ a :: after ∧
      (∀ b ∈ before, P b) ∧ ¬ P a := by
  induction xs with
  | nil => exact Or.inl nofun
  | cons a rest ih =>
      by_cases ha : P a
      · rcases ih with hall | ⟨before, b, after, rfl, hbefore, hb⟩
        · exact Or.inl (List.forall_mem_cons.mpr ⟨ha, hall⟩)
        · exact Or.inr ⟨a :: before, b, after, rfl, List.forall_mem_cons.mpr ⟨ha, hbefore⟩, hb⟩
      · exact Or.inr ⟨[], a, rest, rfl, nofun, ha⟩

/-- A text that reads as a number other than zero. -/
def Usable (text : String) : Prop :=
  ∃ x, Decimal.read? text = some x ∧ (x == 0) = false

/-- A text that reads as zero. -/
def ReadsZero (text : String) : Prop :=
  ∃ x, Decimal.read? text = some x ∧ (x == 0) = true

theorem read?_eq_none_or_readsZero {text : String} (h : ¬ Usable text) :
    Decimal.read? text = none ∨ ReadsZero text := by
  cases hread : Decimal.read? text with
  | none => exact Or.inl rfl
  | some x =>
      refine Or.inr ⟨x, hread, ?_⟩
      by_contra hne
      exact h ⟨x, hread, Bool.eq_false_iff.mpr hne⟩

namespace Visit

variable {n : Nat} {visit : Visit}

theorem run_foldlM_cons_of_zero {scaling : Numeric.Scaling Float n} {rest : List Visit}
    (h : ReadsZero visit.text) :
    ((visit :: rest).foldlM run scaling).run = some (.error .zeroFactor) := by
  obtain ⟨x, hread, hzero⟩ := h
  have hset : scaling.setSide visit.side visit.slot.offset visit.slot.stop x =
      .error .zeroFactor := by
    have hcheck : Numeric.Scaling.check n visit.slot.offset visit.slot.stop x =
      .error .zeroFactor := if_pos hzero
    cases hside : visit.side with
    | unknown =>
        rw [Numeric.Scaling.setSide, Numeric.Scaling.setUnknown, hcheck]
        rfl
    | residual =>
        rw [Numeric.Scaling.setSide, Numeric.Scaling.setResidual, hcheck]
        rfl
  rw [List.foldlM_cons]
  unfold run
  rw [hread]
  show (((scaling.setSide visit.side visit.slot.offset visit.slot.stop x :
    Except Numeric.Violation _) : ExceptT Numeric.Violation Option _) >>= _).run = _
  rw [hset]
  rfl

/-- A factor of zero ends everything, if those before it can be used. -/
theorem run_visits_eq_zero {before after : List Visit} (hzero : ReadsZero visit.text)
    (hbefore : ∀ other ∈ before, other.Fits n) (scaling : Numeric.Scaling Float n) :
    ((before ++ visit :: after).foldlM run scaling).run = some (.error .zeroFactor) := by
  induction before generalizing scaling with
  | nil => exact run_foldlM_cons_of_zero hzero
  | cons other rest ih =>
      obtain ⟨⟨hstop, x, hread, hx⟩, hrest⟩ := List.forall_mem_cons.mp hbefore
      obtain ⟨next, hnext, -⟩ := scaling.exists_setSide other.side hx
        (Nat.le_add_right other.slot.offset other.slot.size) hstop
      rw [List.cons_append, run_foldlM_cons hread hnext]
      exact ih hrest next

end Visit

namespace Factors

variable {factors : Factors} {dim : Dimension} {vars : List Variable}

theorem stop_le_of_mem_visits {visit : Visit}
    (h : visit ∈ (Layout.plan dim vars).slots.flatMap factors.visitsOf) :
    visit.slot.stop ≤ (Layout.plan dim vars).total := by
  obtain ⟨slot, hslot, hvisit⟩ := List.mem_flatMap.mp h
  obtain ⟨rfl, -⟩ := mem_visitsOf.mp hvisit
  exact Layout.stop_le_total hslot

/-- A factor of zero ends everything, if those before it can be used. -/
theorem toScaling_eq_zero {before after : List String} {text : String}
    (hvisited : factors.visited (Layout.plan dim vars) = before ++ text :: after)
    (hzero : ReadsZero text)
    (hbefore : ∀ earlier ∈ before, Usable earlier) :
    (factors.toScaling (Layout.plan dim vars)).run = some (.error .zeroFactor) := by
  rw [visited_eq] at hvisited
  obtain ⟨visits, rest, hsplit, rfl, hrest⟩ := List.map_eq_append_iff.mp hvisited
  obtain ⟨visit, later, rfl, rfl, rfl⟩ := List.map_eq_cons_iff.mp hrest
  rw [toScaling_eq, hsplit]
  refine Visit.run_visits_eq_zero hzero
    (fun other hother => ⟨?_, hbefore other.text (List.mem_map_of_mem hother)⟩) _
  have hmem : other ∈ (Layout.plan dim vars).slots.flatMap factors.visitsOf := by
    rw [hsplit]
    exact List.mem_append_left _ hother
  exact stop_le_of_mem_visits hmem

/-- If all factors can be used there is a scaling, without an entry that is zero. -/
theorem exists_toScaling_of_usable
    (h : ∀ text ∈ factors.visited (Layout.plan dim vars), Usable text) :
    ∃ scaling, (factors.toScaling (Layout.plan dim vars)).run = some (.ok scaling) ∧
      ∀ side k, ((scaling.vector side).entry k == 0) = false := by
  rw [visited_eq] at h
  have husable := List.forall_mem_map.mp h
  obtain ⟨scaling, hrun, hentries⟩ := Visit.exists_run_visits
    (fun visit hmem => ⟨stop_le_of_mem_visits hmem, husable visit hmem⟩)
    (Numeric.Scaling.identity (Layout.plan dim vars).total)
  refine ⟨scaling, (congrArg ExceptT.run (toScaling_eq factors _)).trans hrun, fun side k => ?_⟩
  rcases hentries side k with ⟨-, hsame⟩ | ⟨visit, hmem, -, hvalue⟩
  · have hone : ((Numeric.Scaling.identity (Layout.plan dim vars).total).vector side).entry k =
        (1 : Float) := by
      cases side <;> simp [Numeric.Scaling.vector, Numeric.Scaling.identity, Numeric.Vec.entry]
    rw [hsame, hone]
    decide +kernel
  · obtain ⟨x, hread, hx⟩ := husable visit hmem
    rw [hvalue] at hread
    rwa [Option.some.inj hread]

/-- What becomes of the factors: all can be used, or the first that cannot is no number, or it is
zero. -/
theorem toScaling_cases (factors : Factors) (dim : Dimension) (vars : List Variable) :
    let layout := Layout.plan dim vars
    (∃ scaling, (factors.toScaling layout).run = some (.ok scaling) ∧
        ∀ side k, ((scaling.vector side).entry k == 0) = false) ∨
      (factors.toScaling layout).run = none ∨
      ∃ before text after, factors.visited layout = before ++ text :: after ∧
      (∀ earlier ∈ before, Usable earlier) ∧
        ReadsZero text ∧ (factors.toScaling layout).run = some (.error .zeroFactor) := by
  intro layout
  rcases forall_or_first Usable (factors.visited layout)
    with husable | ⟨before, text, after, hvisited, hbefore, htext⟩
  · exact Or.inl (exists_toScaling_of_usable husable)
  · rcases read?_eq_none_or_readsZero htext with hnone | hzero
    · refine Or.inr (Or.inl (toScaling_eq_none hvisited hnone fun earlier hearlier y hy => ?_))
      obtain ⟨x, hread, hx⟩ := hbefore earlier hearlier
      rw [hread] at hy
      rwa [← Option.some.inj hy]
    · exact Or.inr (Or.inr ⟨before, text, after, hvisited, hbefore, hzero,
        toScaling_eq_zero hvisited hzero hbefore⟩)

/-- The only violation is a factor of zero after factors that can be used. -/
theorem toScaling_eq_error_iff {violation : Numeric.Violation} :
    (factors.toScaling (Layout.plan dim vars)).run = some (.error violation) ↔
      violation = .zeroFactor ∧ ∃ before text after, factors.visited (Layout.plan dim vars) =
        before ++ text :: after ∧
        (∀ earlier ∈ before, Usable earlier) ∧ ReadsZero text := by
  constructor
  · intro hrun
    rcases factors.toScaling_cases dim vars with
      ⟨scaling, hok, -⟩ | hnone | ⟨before, text, after, hvisited, hbefore, hzero, herror⟩
    · exact absurd (hok.symm.trans hrun) nofun
    · exact absurd (hnone.symm.trans hrun) nofun
    · have hsame := Except.error.inj (Option.some.inj (herror.symm.trans hrun))
      exact ⟨hsame.symm, before, text, after, hvisited, hbefore, hzero⟩
  · intro ⟨hviolation, before, text, after, hvisited, hbefore, hzero⟩
    rw [hviolation]
    exact toScaling_eq_zero hvisited hzero hbefore

/-- The entries of a scaling that was made are not zero. -/
theorem entry_ne_zero_of_toScaling {scaling : Numeric.Scaling Float (Layout.plan dim vars).total}
    (h : (factors.toScaling (Layout.plan dim vars)).run = some (.ok scaling)) (side : Side)
    (k : Fin (Layout.plan dim vars).total) : ((scaling.vector side).entry k == 0) = false := by
  rcases factors.toScaling_cases dim vars
    with ⟨other, hok, hentries⟩ | hnone | ⟨_, _, _, -, -, -, herror⟩
  · obtain rfl := Except.ok.inj (Option.some.inj (hok.symm.trans h))
    exact hentries side k
  · exact absurd (hnone.symm.trans h) nofun
  · exact absurd (herror.symm.trans h) nofun

theorem exists_get?_of_mem_visited {layout : Layout} {text : String}
    (h : text ∈ factors.visited layout) :
    ∃ name side, factors.get? name side = some text := by
  rw [visited_eq] at h
  obtain ⟨visit, hvisit, rfl⟩ := List.mem_map.mp h
  obtain ⟨slot, -, hmem⟩ := List.mem_flatMap.mp hvisit
  exact ⟨slot.name, visit.side, (mem_visitsOf.mp hmem).2⟩

end Factors

/-! ## Factors of a description -/

/-- A declaration of the description counts for a hypothesis. -/
def Description.Declares (description : Description) (hypothesis : Hypothesis)
    (declaration : Declaration) : Prop :=
  ∃ event ∈ description.events, event.appliesTo hypothesis = true ∧ event.declaration = declaration

namespace Draft

/-- A factor that is accepted is a positive number, which its text reads back as, or a text without
the blanks around it. -/
theorem factorExpression_eq_ok {name : String} {factor : Setting} {text : String}
    (h : factorExpression name factor = .ok text) :
    (∃ x : Float, factor = .number x ∧ Decimal.read? text = some x ∧ (x == 0) = false) ∨
      ∃ s, factor = .text s ∧ text = String.ofList (Text.trim s.toList) := by
  cases factor with
  | flag b => cases h
  | number x =>
      simp only [factorExpression] at h
      split at h
      · rename_i hx
        obtain rfl := Except.ok.inj h
        exact Or.inl ⟨x, rfl, Decimal.read?_literal hx.1 hx.2, Decimal.beq_zero_of_pos hx.1⟩
      · cases h
  | text s =>
      simp only [factorExpression] at h
      split at h
      · exact Or.inr ⟨s, rfl, (Except.ok.inj h).symm⟩
      · cases h

theorem DeclaredBy.given {description : Description} {hypothesis : Hypothesis} {draft : Draft}
    (h : draft.DeclaredBy description.events hypothesis) {name : String} {side : Side}
    {text : String}
    (hget : draft.factors.get? name side = some text) :
    (∃ x : Float, description.Declares hypothesis (.normalisationFactor name side (.number x)) ∧
        Decimal.read? text = some x ∧ (x == 0) = false) ∨
      ∃ s, description.Declares hypothesis (.normalisationFactor name side (.text s)) ∧
        text = String.ofList (Text.trim s.toList) := by
  obtain ⟨before, after, heq, -⟩ := List.lookup_eq_some_iff.mp hget
  obtain ⟨event, hevent, happlies, factor, hdeclaration, hexpression⟩ :=
    h.factors ((name, side), text) (heq ▸ List.mem_append_right before (List.mem_cons_self ..))
  rcases factorExpression_eq_ok hexpression with ⟨x, rfl, hread, hx⟩ | ⟨s, rfl, htext⟩
  · exact Or.inl ⟨x, ⟨event, hevent, happlies, hdeclaration⟩, hread, hx⟩
  · exact Or.inr ⟨s, ⟨event, hevent, happlies, hdeclaration⟩, htext⟩

end Draft

/-- **Factors that can be divided by.**  For every description and every hypothesis for which it can
be drafted:

* a stored factor was given as a number other than zero, as which its text reads back, or it is a
  text that was given;
* making the scaling fails exactly if the first factor that is no usable number is zero;
* a scaling that is made has no entry that is zero;
* if no text that was given reads as zero, then no stored factor does, and making the scaling does
  not fail. -/
theorem scaling_fails_only_for_zero_text {description : Description} {solvers : Solvers}
    {defaultAlgorithm : String} {hypothesis : Hypothesis} {draft : Draft}
    (h : (description.draft solvers defaultAlgorithm hypothesis).outcome = .ok draft) :
    let layout := Layout.plan hypothesis.dimension draft.roster.vars
    (∀ name side text, draft.factors.get? name side = some text →
      (∃ x : Float, description.Declares hypothesis (.normalisationFactor name side (.number x)) ∧
          Decimal.read? text = some x ∧ (x == 0) = false) ∨
        ∃ s, description.Declares hypothesis (.normalisationFactor name side (.text s)) ∧
          text = String.ofList (Text.trim s.toList)) ∧
    (∀ violation, (draft.factors.toScaling layout).run = some (.error violation) ↔
      violation = .zeroFactor ∧ ∃ before text after,
      draft.factors.visited layout = before ++ text :: after ∧
        (∀ earlier ∈ before, Usable earlier) ∧ ReadsZero text) ∧
    (∀ scaling, (draft.factors.toScaling layout).run = some (.ok scaling) →
      ∀ side k, ((scaling.vector side).entry k == 0) = false) ∧
    ((∀ name side s, description.Declares hypothesis (.normalisationFactor name side (.text s)) →
        ¬ ReadsZero (String.ofList (Text.trim s.toList))) →
      (∀ name side text, draft.factors.get? name side = some text → ¬ ReadsZero text) ∧
        ∀ violation, (draft.factors.toScaling layout).run ≠ some (.error violation)) := by
  have hdeclared := Description.declaredBy_of_draft_eq_ok h
  refine ⟨fun name side text => hdeclared.given, fun violation => Factors.toScaling_eq_error_iff,
    fun scaling hscaling => Factors.entry_ne_zero_of_toScaling hscaling, fun htexts => ?_⟩
  have hstored : ∀ name side text, draft.factors.get? name side = some text → ¬ ReadsZero text := by
    intro name side text hget ⟨y, hy, hzero⟩
    rcases hdeclared.given hget with ⟨x, -, hread, hx⟩ | ⟨s, hs, rfl⟩
    · obtain rfl := Option.some.inj (hread.symm.trans hy)
      exact absurd (hx.symm.trans hzero) Bool.false_ne_true
    · exact htexts name side s hs ⟨y, hy, hzero⟩
  refine ⟨hstored, fun violation hrun => ?_⟩
  obtain ⟨-, before, text, after, hvisited, -, hzero⟩ := Factors.toScaling_eq_error_iff.mp hrun
  obtain ⟨name, side, hget⟩ := Factors.exists_get?_of_mem_visited
    (hvisited ▸ List.mem_append_right before (List.mem_cons_self ..))
  exact hstored name side text hget hzero

/-- A scalar with a factor. -/
def scaledScalar (factor : Setting) : Description where
  className := "Scaled"
  events :=
    [{ location := ⟨1, 1⟩, declaration := .integrationVariable "x" .scalar 1 },
      { location := ⟨2, 1⟩, declaration := .normalisationFactor "x" .unknown factor }]

/-- A text that reads as zero is accepted, and the scaling cannot be made. -/
theorem zero_text_accepted :
    ∃ draft, ((scaledScalar (.text "0")).draft .builtin "NewtonRaphson" .tridimensional).outcome =
      .ok draft ∧
      draft.factors.get? "x" .unknown = some "0" ∧ (Decimal.read? "0").map (· == 0) = some true ∧
      (draft.factors.toScaling
        (Layout.plan Hypothesis.tridimensional.dimension draft.roster.vars)).run =
        some (.error .zeroFactor) :=
  ⟨_, rfl, rfl, (by decide +kernel), rfl⟩

theorem scaling_fails_only_for_zero_text_half :
    ∃ draft, ((scaledScalar (.number 0.5)).draft .builtin "NewtonRaphson" .tridimensional).outcome =
      .ok draft ∧
      draft.factors.get? "x" .unknown = some "0.5" ∧
      ∀ violation, (draft.factors.toScaling
        (Layout.plan Hypothesis.tridimensional.dimension draft.roster.vars)).run ≠
        some (.error violation) := by
  obtain ⟨draft, hdraft, hget⟩ : ∃ draft,
      ((scaledScalar (.number 0.5)).draft .builtin "NewtonRaphson" .tridimensional).outcome =
      .ok draft ∧
        draft.factors.get? "x" .unknown = some "0.5" := ⟨_, rfl, by decide +kernel⟩
  refine ⟨draft, hdraft, hget, ((scaling_fails_only_for_zero_text hdraft).2.2.2 ?_).2⟩
  -- the only factor is given as a number
  intro name side s ⟨event, hevent, _, hdeclaration⟩
  simp only [scaledScalar, List.mem_cons, List.not_mem_nil, or_false] at hevent
  rcases hevent with rfl | rfl
  · cases hdeclaration
  · cases hdeclaration

end Constitutive
