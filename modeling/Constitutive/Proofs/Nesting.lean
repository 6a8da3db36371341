import Constitutive.Proofs.Scheme.Origins
import Constitutive.Proofs.Section.Orderly

/-!
# Generated code is well nested

Code and factors of a description are put into generated code as they are, up to names that are
replaced.  If they are balanced themselves, then so is every section, and it is indented by the
number of open braces (`sections_are_balanced`).

## Strategy

* **Origins.**  A draft has no factors and codes but those that were declared (`Draft.DeclaredBy`),
  so the texts of an accepted blueprint are those of the description: factors up to blanks at their
  ends, and codes up to names that are replaced by balanced expressions (`balanced_code?`).
* **Sections.**  They refer to nothing but balanced texts (`fits_balancedScope`), and what they add
  themselves is orderly.
-/

namespace Constitutive

open Text Stmt

/-! ## Balanced texts -/

/-- The texts of the declaration are balanced. -/
def Declaration.Balanced : Declaration → Prop
  | .code _ text => Text.Balanced text.toList
  | .normalisationFactor _ _ (.text expression) => Text.Balanced expression.toList
  | _ => True

instance : DecidablePred Declaration.Balanced
  | .code _ text => inferInstanceAs (Decidable (Text.Balanced text.toList))
  | .normalisationFactor _ _ (.text expression) =>
    inferInstanceAs (Decidable (Text.Balanced expression.toList))
  | .normalisationFactor _ _ (.flag _) => isTrue trivial
  | .normalisationFactor _ _ (.number _) => isTrue trivial
  | .integrationVariable .. => isTrue trivial
  | .algorithm .. => isTrue trivial
  | .parameter .. => isTrue trivial
  | .compareToNumericalJacobian .. => isTrue trivial
  | .incrementLimit .. => isTrue trivial
  | .tangentBlocks .. => isTrue trivial

theorem Tame.balanced {s : String} (h : Tame s) : Balanced s.toList :=
  h.noBraces.balanced

/-- Blanks at the ends of a factor do not matter, and numbers have no braces. -/
theorem balanced_of_factorExpression {name : String} {side : Side} {factor : Setting}
    {expression : String} (h : Draft.factorExpression name factor = .ok expression)
    (hfactor : (Declaration.normalisationFactor name side factor).Balanced) :
    Balanced expression.toList := by
  cases factor with
  | flag value => cases h
  | number x =>
      simp only [Draft.factorExpression] at h
      split at h
      · rw [← Except.ok.inj h]
        exact (tame_literal x).balanced
      · cases h
  | text s =>
      simp only [Draft.factorExpression] at h
      split at h
      · rw [← Except.ok.inj h, String.toList_ofList,
          balanced_congr (filter_isBrace_congr (solid_trim s.toList))]
        exact hfactor
      · cases h

section Expressions

variable {factors : Factors} {name : String}

theorem balanced_incrementExpression (hname : Tame name)
    (hfactors : ∀ expression, factors.get? name .unknown = some expression →
      Balanced expression.toList) :
    Balanced (factors.incrementExpression name).toList := by
  have hincrement := (tame_incrementName hname).balanced
  have htext : ∀ text : String, toString text = text := fun _ => rfl
  unfold Factors.incrementExpression
  split
  · rename_i s hs
    simp only [htext, String.toList_append]
    exact ((((tame_ofList rfl : Tame "((").balanced.append (hfactors s hs)).append
      (tame_ofList rfl : Tame ")*(this->").balanced).append hincrement).append
      (tame_ofList rfl : Tame "))").balanced
  · simp only [htext, String.toList_append]
    exact ((tame_ofList rfl : Tame "(this->").balanced.append hincrement).append
      (tame_ofList rfl : Tame ")").balanced

/-- Names are replaced by balanced expressions. -/
theorem balanced_codeExpressions (role : Role) (hname : Tame name)
    (hfactors : ∀ expression, factors.get? name .unknown = some expression →
      Balanced expression.toList) :
    Balanced (codeExpressions role factors name).1.toList ∧
      Balanced (codeExpressions role factors name).2.toList := by
  have hincrement := balanced_incrementExpression hname hfactors
  have htext : ∀ text : String, toString text = text := fun _ => rfl
  unfold codeExpressions
  split
  · simp only [htext, String.toList_append]
    exact ⟨((tame_ofList rfl : Tame "(this->").balanced.append hname.balanced).append
      (tame_ofList rfl : Tame ")").balanced, hincrement⟩
  · simp only [htext, String.toList_append]
    exact ⟨((((tame_ofList rfl : Tame "(this->").balanced.append hname.balanced).append
      (tame_ofList rfl : Tame "+(this->theta)*").balanced).append hincrement).append
      (tame_ofList rfl : Tame ")").balanced,
      hincrement⟩
  · simp only [htext, String.toList_append]
    exact ⟨(tame_ofList rfl : Tame "this->").balanced.append hname.balanced,
      (tame_ofList rfl : Tame "this->").balanced.append (tame_incrementName hname).balanced⟩

/-- Code stays balanced when it is put into the class. -/
theorem balanced_adaptCode {role : Role} {vars : List Variable} (hvars : ∀ v ∈ vars, Tame v.name)
    (hfactors : ∀ name side expression, factors.get? name side = some expression →
      Balanced expression.toList) {text : String}
    (htext : Balanced text.toList) : Balanced (adaptCode role vars factors text).toList := by
  have hreplacements : ∀ name expression,
      (codeSubstitution role vars factors).lookup name = some expression →
      Balanced expression.toList := by
    intro name expression hfound
    obtain ⟨v, hv, hexpression⟩ := exists_of_lookup_codeSubstitution hfound
    obtain ⟨hvalue, hincrement⟩ :=
      balanced_codeExpressions role (hvars v hv) (hfactors v.name .unknown)
    rcases hexpression with rfl | rfl
    · exact hvalue
    · exact hincrement
  rw [adaptCode, String.toList_ofList, balanced_iff, nesting_substitute hreplacements,
    htext.nesting_eq]

end Expressions

/-! ## Sections -/

namespace Blueprint

variable {plan : Blueprint} {dim : Dimension}

/-- The texts that an accepted description brings into its class. -/
structure BalancedTexts (plan : Blueprint) : Prop where
  factors : ∀ name side expression, plan.draft.factors.get? name side = some expression →
    Balanced expression.toList
  codes : ∀ role code, plan.draft.code? role = some code → Balanced code.text.toList

theorem BalancedTexts.balanced_code? (h : plan.BalancedTexts) (hplan : plan.Grounded dim)
    {role : Role} {text : String} (htext : plan.code? role = some text) : Balanced text.toList := by
  obtain ⟨code, hcode, rfl⟩ := Option.map_eq_some_iff.mp htext
  exact balanced_adaptCode (fun v hv => tame_of_mem_names hplan (List.mem_map_of_mem hv)) h.factors
    (h.codes role code hcode)

/-- All symbols have names without braces, and all texts are balanced. -/
theorem fits_balancedScope (hplan : plan.Grounded dim) (hsolver : plan.solver.SelfContained)
    (htexts : plan.BalancedTexts) (build : plan.Build) : plan.Fits build balancedScope where
  core := by
    simp only [Scope.HasCore, core, List.forall_mem_cons, List.not_mem_nil, false_implies,
      implies_true, and_true]
    exact ⟨tame_ofList rfl, tame_ofList rfl, tame_ofList rfl, tame_ofList rfl, tame_ofList rfl,
      tame_ofList rfl, tame_ofList rfl, tame_ofList rfl, tame_ofList rfl, tame_ofList rfl,
      tame_ofList rfl, tame_ofList rfl, tame_ofList rfl, tame_ofList rfl, tame_ofList rfl⟩
  offset slot hslot := tame_offset (tame_of_mem_slots hplan slot hslot)
  increment name hname := tame_incrementName (tame_of_mem_names hplan hname)
  value name hname := tame_of_mem_names hplan hname
  criterion _ := tame_ofList rfl
  trigger _ := tame_ofList rfl
  coefficient _ := tame_ofList rfl
  limit _ := tame_ofList rfl
  own := by
    intro symbol hdefines
    have hown := hsolver.members _ symbol hdefines
    simp only [ownSymbols, List.mem_cons, List.not_mem_nil, or_false] at hown
    rcases hown with rfl | rfl | rfl | rfl
    · exact tame_ofList rfl
    · exact tame_ofList rfl
    · exact tame_ofList rfl
    · exact tame_ofList rfl
  block p hp := by
    obtain ⟨hunknown, hresidual⟩ := tame_of_placed hplan build hp
    exact tame_memberName hunknown hresidual
  predictor _ := tame_ofList rfl
  stress _ := tame_ofList rfl
  finalStress _ := tame_ofList rfl
  numericalJacobian _ := tame_ofList rfl
  given := htexts.factors
  code _ _ htext := htexts.balanced_code? hplan htext

/-- The title of a section has no braces. -/
theorem balanced_sectionOf {body : List Stmt} (horderly : OrderlyIn body)
    (hcovers : balancedScope.Covers body)
    (kind : SectionKind) : Balanced (plan.sectionOf kind body).text.toList := by
  have hbody : Balanced (plan.render body).toList :=
    balanced_render horderly hcovers plan.options.comments
  have htext : ∀ text : String, toString text = text := fun _ => rfl
  have hnewline : Balanced "\n".toList := by decide
  unfold sectionOf
  dsimp only
  split
  · simp only [htext, String.toList_append]
    exact (((tame_ofList rfl : Tame "// ").balanced.append (tame_title kind).balanced).append
      hnewline).append hbody
  · exact hbody

end Blueprint

namespace Compiler

open Blueprint

variable {compiler : Compiler} {description : Description} {hypothesis : Hypothesis}
  {plan : Blueprint}

theorem balancedTexts_of_blueprint
    (hplan : (compiler.blueprint description hypothesis).outcome = .ok plan)
    (hbalanced : ∀ event ∈ description.events, event.appliesTo hypothesis = true →
      event.declaration.Balanced) :
    plan.BalancedTexts := by
  obtain ⟨draft, solver, hdraft, -, rfl⟩ := blueprint_eq_ok_iff.mp hplan
  have hdeclared := Description.declaredBy_of_draft_eq_ok hdraft
  refine ⟨fun name side expression hget => ?_, fun role code hget => ?_⟩
  · obtain ⟨front, back, heq, -⟩ := List.lookup_eq_some_iff.mp hget
    obtain ⟨event, hevent, happlies, factor, hdeclaration, hexpression⟩ :=
      hdeclared.factors ((name, side), expression)
        (heq ▸ List.mem_append_right front (List.mem_cons_self ..))
    have hfactor := hbalanced event hevent happlies
    rw [hdeclaration] at hfactor
    exact balanced_of_factorExpression hexpression hfactor
  · obtain ⟨front, back, heq, -⟩ := List.lookup_eq_some_iff.mp hget
    obtain ⟨event, hevent, happlies, hdeclaration⟩ :=
      hdeclared.codes (role, code) (heq ▸ List.mem_append_right front (List.mem_cons_self ..))
    have hcode := hbalanced event hevent happlies
    rw [hdeclaration] at hcode
    exact hcode

/-- If the code and the factors of a description are balanced, then so are the sections of its
class.  Each is written from statements, and the page is left at the level at which it was.  While
it is written, the level of the page is the number of open braces, before and after each statement,
however deep it is. -/
theorem sections_are_balanced {generated : GeneratedClass}
    (hcompile : (compiler.compile description hypothesis).outcome = .ok generated)
    (hplan : (compiler.blueprint description hypothesis).outcome = .ok plan)
    (hsolver : plan.solver.BuiltIn)
    (hbalanced : ∀ event ∈ description.events, event.appliesTo hypothesis = true →
      event.declaration.Balanced) :
    (∀ s ∈ generated.sections, Balanced s.text.toList) ∧
      (∃ build : plan.Build, generated.sections =
        build.parts.map (fun part => plan.sectionOf part.1 part.2) ∧
        ∀ part ∈ build.parts, (emitAll part.2 { comments := plan.options.comments }).level = 0 ∧
          ∀ page : Page, (emitAll part.2 page).level = page.level ∧
            ∀ write ∈ writesIn part.2 page, (emit write.1 write.2).level = write.2.level ∧
              (page.fresh = true → page.Nested →
                write.2.Nested ∧ (emit write.1 write.2).Nested)) := by
  have hgrounded := grounded_of_blueprint hplan
  have hself := hsolver.selfContained
  obtain ⟨build, hsections⟩ := exists_build hcompile hplan
  have hfits :=
    fits_balancedScope hgrounded hself (balancedTexts_of_blueprint hplan hbalanced) build
  have hcovers : ∀ part ∈ build.parts, balancedScope.Covers part.2 :=
    hfits.covers_parts hgrounded hself fun _ => tame_ofList rfl
  have horderly := orderlyIn_of_mem_parts hgrounded hsolver build
  refine ⟨?_, build, hsections, fun part hpart => ⟨level_emitAll part.2 _, fun page =>
    ⟨level_emitAll part.2 page, fun write hwrite => ⟨level_emit write.1 write.2, ?_⟩⟩⟩⟩
  · rw [hsections, List.forall_mem_map]
    exact fun part hpart => balanced_sectionOf (horderly part hpart) (hcovers part hpart) part.1
  · intro hfresh hnested
    exact nested_of_mem_writesIn (horderly part hpart) (hcovers part hpart) hfresh hnested hwrite

/-- Dog-legs on top of each other. -/
def nestedDogLegs : Compiler where
  solvers := Solvers.builtin.register "Nested"
    (powellDogLeg "Nested" (powellDogLeg "PowellDogLeg_Broyden" broyden))

/-- A description with braces in its factors and its code, and a code for another hypothesis that is
not balanced. -/
def bracedCode : Description where
  className := "Braced"
  events :=
    [{ declaration := .integrationVariable "p" .scalar 2 },
      { declaration := .algorithm "Nested" },
      { declaration := .normalisationFactor "p" .unknown (.text " real\x7byoung\x7d ") },
      { declaration := .code .initializeJacobian "for(auto& j : jacobian) \x7b\n j = 1;\n\x7d" },
      { declaration := .code .integrator "if(dp > 0) \x7b fp = dp; \x7d else \x7b fp = 0; \x7d" },
      { hypothesis := some .planeStress, declaration := .code .predictor "\x7d \x7b" }]

theorem sections_are_balanced_bracedCode :
    ∃ generated plan, (nestedDogLegs.compile bracedCode .tridimensional).outcome = .ok generated ∧
      (nestedDogLegs.blueprint bracedCode .tridimensional).outcome = .ok plan ∧
      plan.solver.BuiltIn ∧
      (∀ event ∈ bracedCode.events, event.appliesTo .tridimensional = true →
        event.declaration.Balanced) ∧
      (∀ s ∈ generated.sections, Balanced s.text.toList) := by
  have hbalanced : ∀ event ∈ bracedCode.events, event.appliesTo .tridimensional = true →
      event.declaration.Balanced := by
    decide +kernel
  have hsolvers : nestedDogLegs.solvers.AllBuiltIn :=
    Solvers.allBuiltIn_builtin.register (.powellDogLeg _ (.powellDogLeg _ .broyden))
  have hchecked : (match (nestedDogLegs.blueprint bracedCode .tridimensional).outcome with
      | .error _ => false
      | .ok plan =>
          plan.draft.inverseBlocks = [] &&
            plan.draft.roster.vars.all (·.rank ≠ .vector)) = true := by
    decide +kernel
  split at hchecked
  · cases hchecked
  · rename_i plan hplan
    simp only [Bool.and_eq_true, List.all_eq_true, decide_eq_true_eq] at hchecked
    obtain ⟨hblocks, hranks⟩ := hchecked
    obtain ⟨generated, hcompile⟩ := exists_compile_eq_ok hplan hblocks fun _ _ u hu _ hshape =>
      hranks u hu hshape.2
    obtain ⟨_, hregistered⟩ := registered_of_blueprint hplan
    have hsolver := hsolvers.of_get? hregistered
    exact ⟨generated, plan, hcompile, hplan, hsolver, hbalanced,
      (sections_are_balanced hcompile hplan hsolver hbalanced).1⟩

end Compiler

end Constitutive
