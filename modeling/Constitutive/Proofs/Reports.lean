import Constitutive.Proofs.Code.Insertions
import Constitutive.Proofs.Section.Orderly

/-!
# Comments and reports

Whether the generated text has comments, and whether the generated solver reports on its iterations,
can be chosen.  Neither choice changes anything else: whether a description is accepted and what its
fault is, the layout, the kinds of sections, and every line that is no comment or report
(`comments_and_reports_are_inserted`).

## Strategy

* **Faults.**  What can fail, fails before anything is written (`sections_reporting_eq_error_iff`).
* **Parts.**  All parts of a class are the same statements for all choices, except for the loop
  (`Build.reporting`).
* **Texts.**  Comments are inserted when statements are written, and reports are inserted into the
  loop (`Loop.addsReports_body`).
-/

namespace Constitutive

open Stmt Text

/-! ## The loop -/

namespace Loop

/-- The loop with or without reports. -/
def reporting (loop : Loop) (debug : Bool) : Loop :=
  { loop with debug := debug, context := loop.context.reporting debug }

variable (loop : Loop) (comments : Bool)

theorem addsReports_evaluate :
    AddsReports comments (loop.reporting false).evaluate (loop.reporting true).evaluate := by
  have hline : Line.Unbroken [
      "std::cout << \"integrate() : computeFdF failed on the first iteration\" << std::endl;"] := by
    simp only [Line.unbroken_cons, Line.unbroken_nil, and_true]
    exact oneLine_ofList rfl
  have hreport := addsReports_onlyIf comments (prefix_ofList rfl) hline
  exact .block _ (.block _ (hreport.append (.refl [fail])) (.refl _)) (.refl _)

theorem addsReports_test :
    AddsReports comments (loop.reporting false).test (loop.reporting true).test := by
  have hline : Line.Unbroken ["std::cout << \"integrate() : iteration \" << ", Member.iter,
      " << \" : \" << error << std::endl;"] :=
      unbroken_iter (oneLine_ofList rfl) (oneLine_ofList rfl)
  have hreport := addsReports_onlyIf comments (prefix_ofList rfl) hline
  exact ((AddsReports.refl _).append hreport).append (.refl _)

variable {loop}

theorem addsReports_correct (hsolver : loop.solver.OnlyReports) :
    AddsReports comments (loop.reporting false).correct (loop.reporting true).correct := by
  have hafter : ∀ debug, (loop.reporting debug).solver.afterUpdate (loop.reporting debug).context =
      loop.solver.afterUpdate loop.context := fun debug => hsolver.afterUpdate loop.context debug
  unfold correct
  rw [hafter false, hafter true]
  exact ((((((AddsReports.refl _).append (hsolver.correction comments loop.context)).append
    (.refl _)).append (.refl _)).append (.refl _)).append (.refl _))

theorem addsReports_iteration (hsolver : loop.solver.OnlyReports) (comparison : List Stmt) :
    AddsReports comments ((loop.reporting false).iteration comparison)
      ((loop.reporting true).iteration comparison) :=
  (((((AddsReports.refl _).append (loop.addsReports_evaluate comments)).append (.refl _)).append
    (loop.addsReports_test comments)).append (.refl _)).append (.block _ (addsReports_correct
    comments hsolver) (.refl _))

theorem addsReports_conclude (undo call : List Stmt) :
    AddsReports comments ((loop.reporting false).conclude undo call)
      ((loop.reporting true).conclude undo call) := by
  have hfailed :
      Line.Unbroken ["std::cout << \"integrate() : no convergence after \" << ", Member.iter,
      " << \" iterations\" << std::endl;"] :=
      unbroken_iter (oneLine_ofList rfl) (oneLine_ofList rfl)
  have hdone : Line.Unbroken ["std::cout << \"integrate() : convergence after \" << ", Member.iter,
      " << \" iterations\" << std::endl;"] :=
      unbroken_iter (oneLine_ofList rfl) (oneLine_ofList rfl)
  have hfailed := addsReports_onlyIf comments (prefix_ofList rfl) hfailed
  have hdone := addsReports_onlyIf comments (prefix_ofList rfl) hdone
  exact ((((((AddsReports.block _ (hfailed.append (.refl [fail])) (.refl _)).append
    (.refl _)).append (.refl _)).append (.refl _)).append (.refl _)).append hdone).append (.refl _)

/-- Reports are inserted into the loop. -/
theorem addsReports_body (hsolver : loop.solver.OnlyReports) (comparison undo call : List Stmt) :
    AddsReports comments ((loop.reporting false).body comparison undo call)
      ((loop.reporting true).body comparison undo call) := by
  have hinitialisation : ∀ debug,
      (loop.reporting debug).solver.initialisation (loop.reporting debug).context =
      loop.solver.initialisation loop.context :=
      fun debug => hsolver.initialisation loop.context debug
  unfold body
  rw [hinitialisation false, hinitialisation true]
  refine .block _ (((AddsReports.refl _).append (.cons _ (.cons _ (.block _ ?_ (.refl _))))).append
    ?_) (.refl _)
  · exact addsReports_iteration comments hsolver comparison
  · exact addsReports_conclude comments undo call

end Loop

/-! ## Parts -/

/-- The options with or without comments and reports. -/
def Options.reporting (options : Options) (comments debug : Bool) : Options :=
  { options with comments := comments, debug := debug }

namespace Blueprint

variable {plan : Blueprint} {dim : Dimension}

/-- The blueprint with or without comments and reports. -/
def reporting (plan : Blueprint) (comments debug : Bool) : Blueprint :=
  { plan with options := plan.options.reporting comments debug }

theorem Grounded.reporting (hplan : plan.Grounded dim) (comments debug : Bool) :
    (plan.reporting comments debug).Grounded dim :=
  ⟨hplan.sound, hplan.requests, hplan.layout_eq⟩

/-- Faults do not depend on comments and reports. -/
theorem sections_reporting_eq_error_iff (hplan : plan.Grounded dim) (comments debug : Bool)
    {fault : Fault} :
    (plan.reporting comments debug).sections.outcome = .error fault ↔ plan.sections.outcome =
      .error fault := by
  have hplan' := hplan.reporting comments debug
  obtain ⟨placed, hplaced⟩ := hplan.exists_placed
  obtain ⟨placed', hplaced'⟩ := hplan'.exists_placed
  obtain rfl : placed = placed' := Except.ok.inj (hplaced.symm.trans hplaced')
  rw [sections_eq_error_iff hplan, sections_eq_error_iff hplan']
  simp only [inverseSection_eq_error_iff hplaced, inverseSection_eq_error_iff hplaced']
  exact Iff.rfl

namespace Build

/-- A blueprint has one build. -/
theorem eq (build build' : plan.Build) : build = build' := by
  have hmembers := Except.ok.inj (build.members_eq.symm.trans build'.members_eq)
  have hderivatives := Except.ok.inj (build.derivatives_eq.symm.trans build'.derivatives_eq)
  have hplaced := Except.ok.inj (build.placed_eq.symm.trans build'.placed_eq)
  have hinverse := Except.ok.inj (build.inverse_eq.symm.trans build'.inverse_eq)
  have hcall := Except.ok.inj (build.call_eq.symm.trans build'.call_eq)
  have hundo := Except.ok.inj (build.undoIncrements_eq.symm.trans build'.undoIncrements_eq)
  cases build
  cases build'
  simp_all

/-- The same build, with or without comments and reports. -/
def reporting (build : plan.Build) (hsolver : plan.solver.OnlyReports) (comments debug : Bool) :
    (plan.reporting comments debug).Build where
  __ := build
  members_eq := by
    have hown : (plan.reporting comments debug).solver.members
        (plan.reporting comments debug).solverContext =
        plan.solver.members plan.solverContext := hsolver.members plan.solverContext debug
    rw [← build.members_eq]
    unfold Blueprint.members
    rw [hown]
    rfl

/-- All parts but the loop. -/
def otherParts (build : plan.Build) : List (SectionKind × List Stmt) :=
  build.parts.dropLast

theorem parts_eq (build : plan.Build) :
    build.parts = build.otherParts ++ [(.integrate, build.loop)] := by
  unfold otherParts parts
  rw [List.dropLast_concat]

theorem otherParts_reporting (build : plan.Build) (hsolver : plan.solver.OnlyReports)
    (comments debug : Bool) :
    (build.reporting hsolver comments debug).otherParts = build.otherParts := by
  unfold otherParts parts
  rw [List.dropLast_concat, List.dropLast_concat]
  rfl

/-- The loop with or without reports. -/
def reportingLoop (build : plan.Build) (debug : Bool) : List Stmt :=
  ((plan.loop none build.callText).reporting debug).body
    (onlyIf plan.compares (jacobianComparison plan.layout))
    build.undoIncrements (onlyIf (plan.draft.inverseBlocks ≠ []) build.call)

/-- All parts with or without reports. -/
def reportingParts (build : plan.Build) (debug : Bool) : List (SectionKind × List Stmt) :=
  build.otherParts ++ [(.integrate, build.reportingLoop debug)]

end Build

/-- The texts that are put into the loop do not matter for the statements around them, only whether
there is a call. -/
theorem body_loop_congr (plan : Blueprint) (comparison comparison' : Option String)
    {call call' : Option String}
    (h : call.isSome = call'.isSome) :
    (plan.loop comparison call).body = (plan.loop comparison' call').body := by
  have hconvergence : (plan.loop comparison call).jacobianAtConvergence =
      (plan.loop comparison' call').jacobianAtConvergence := by
    simp only [Loop.jacobianAtConvergence, loop, h]
  have hcorrect : (plan.loop comparison call).correct = (plan.loop comparison' call').correct := by
    unfold Loop.correct
    rw [hconvergence]
    rfl
  funext comparison undo call
  unfold Loop.body Loop.iteration
  rw [hcorrect, hconvergence]
  rfl

theorem Build.loop_reporting (build : plan.Build) (hsolver : plan.solver.OnlyReports)
    (comments debug : Bool) :
    (build.reporting hsolver comments debug).loop = build.reportingLoop debug := by
  have hcall : (build.reporting hsolver comments debug).callText.isSome =
      build.callText.isSome := by
    simp only [callText, apply_ite Option.isSome]
    rfl
  have hbody := body_loop_congr (plan.reporting comments debug)
    (comparisonText (plan.reporting comments debug)) none hcall
  unfold Build.loop loopWith
  rw [hbody]
  rfl

theorem Build.parts_reporting (build : plan.Build) (hsolver : plan.solver.OnlyReports)
    (comments debug : Bool) :
    (build.reporting hsolver comments debug).parts = build.reportingParts debug := by
  rw [parts_eq, otherParts_reporting, loop_reporting, reportingParts]

theorem Build.addsReports_parts (build : plan.Build) (hsolver : plan.solver.OnlyReports)
    (comments : Bool) :
    List.Forall₂ (fun part part' => part.1 = part'.1 ∧ AddsReports comments part.2 part'.2)
      (build.reportingParts false) (build.reportingParts true) := by
  have hloop : AddsReports comments (build.reportingLoop false) (build.reportingLoop true) :=
    Loop.addsReports_body comments hsolver _ _ _
  have hothers : List.Forall₂ (fun part part' => part.1 = part'.1 ∧
      AddsReports comments part.2 part'.2) build.otherParts
      build.otherParts := List.forall₂_same.mpr fun part _ => ⟨rfl, .refl part.2⟩
  exact List.rel_append hothers (.cons ⟨rfl, hloop⟩ .nil)

/-! ## Texts -/

/-- The title of a section, if there are comments. -/
def titleLine (comments : Bool) (kind : SectionKind) : List (List Char) :=
  if comments then [("// " ++ kind.title).toList] else []

theorem toList_sectionOf (plan : Blueprint) (kind : SectionKind) (body : List Stmt) :
    (plan.sectionOf kind body).text.toList =
      unlines (titleLine plan.options.comments kind ++ outputIn plan.options.comments 0 body) := by
  have htext : ∀ text : String, toString text = text := fun _ => rfl
  have hbody := toList_render plan.options.comments body
  unfold sectionOf titleLine Blueprint.render
  cases hcomments : plan.options.comments with
  | false => simpa [hcomments] using hbody
  | true =>
      rw [hcomments] at hbody
      simp only [if_true, htext, String.toList_append, hbody, unlines_append]
      simp [unlines]

theorem not_mem_of_mem_titleLine {comments : Bool} {kind : SectionKind} {line : List Char}
    (h : line ∈ titleLine comments kind) : '\n' ∉ line := by
  unfold titleLine at h
  split at h
  · rw [List.mem_singleton.mp h]
    have htitle : Tame ("// " ++ kind.title) := tame_append.mpr ⟨tame_ofList rfl, tame_title kind⟩
    exact htitle.not_mem
  · cases h

/-- Sections whose lines are inserted into each other. -/
theorem addsLines_sectionOf {mark : String} {first second : Blueprint} {kind : SectionKind}
    {body body' : List Stmt}
    (htitle : Inserted (BeginsWith mark) (titleLine first.options.comments kind)
      (titleLine second.options.comments kind))
    (hbody : Inserted (BeginsWith mark) (outputIn first.options.comments 0 body)
      (outputIn second.options.comments 0 body')) :
    AddsLines mark (first.sectionOf kind body).text (second.sectionOf kind body').text := by
  refine addsLines_of_inserted (toList_sectionOf ..) (toList_sectionOf ..) ?_ ?_
    (htitle.append hbody)
  · exact List.forall_mem_append.mpr ⟨fun _ h => not_mem_of_mem_titleLine h,
      fun _ h => not_mem_of_mem_outputIn h⟩
  · exact List.forall_mem_append.mpr ⟨fun _ h => not_mem_of_mem_titleLine h,
      fun _ h => not_mem_of_mem_outputIn h⟩

theorem addsLines_comments (plan : Blueprint) (debug : Bool) (kind : SectionKind) {body : List Stmt}
    (h : OrderlyIn body) :
    AddsLines "// " ((plan.reporting false debug).sectionOf kind body).text
      ((plan.reporting true debug).sectionOf kind body).text := by
  have hindented : indented 0 ("// " ++ kind.title).toList = ("// " ++ kind.title).toList := by
    simp [indented]
  have htitle : Inserted (BeginsWith "// ") (titleLine false kind) (titleLine true kind) :=
    .insert (hindented ▸ beginsWith_comment 0 kind.title) .nil
  exact addsLines_sectionOf htitle (inserted_comments h 0)

theorem addsLines_reports (plan : Blueprint) (comments : Bool) (kind : SectionKind)
    {body body' : List Stmt} (h : AddsReports comments body body') :
    AddsLines "std::cout << " ((plan.reporting comments false).sectionOf kind body).text
      ((plan.reporting comments true).sectionOf kind body').text :=
  addsLines_sectionOf (.refl _) (h 0)

end Blueprint

namespace Compiler

open Blueprint

variable {compiler : Compiler} {description : Description} {hypothesis : Hypothesis}
  {plan : Blueprint}

/-- The compiler with or without comments and reports. -/
def reporting (compiler : Compiler) (comments debug : Bool) : Compiler :=
  { compiler with options := compiler.options.reporting comments debug }

theorem blueprint_reporting (compiler : Compiler) (description : Description)
    (hypothesis : Hypothesis) (comments debug : Bool) :
    ((compiler.reporting comments debug).blueprint description hypothesis).outcome =
      (compiler.blueprint description hypothesis).outcome.map fun plan =>
        plan.reporting comments debug := by
  unfold blueprint
  simp only [Traced.outcome_bind, Traced.outcome_tell, reporting, Options.reporting]
  cases (description.draft compiler.solvers compiler.options.defaultAlgorithm hypothesis).outcome
    with
  | error fault => rfl
  | ok draft =>
      simp only [bind, Except.bind]
      cases draft.solver? with
      | none => rfl
      | some solver => rfl

theorem blueprint_reporting_of_eq_ok
    (hplan : (compiler.blueprint description hypothesis).outcome = .ok plan)
    (comments debug : Bool) :
    ((compiler.reporting comments debug).blueprint description hypothesis).outcome =
      .ok (plan.reporting comments debug) := by
  rw [blueprint_reporting, hplan]
  rfl

theorem compile_reporting_eq_error {fault : Fault}
    (h : (compiler.compile description hypothesis).outcome = .error fault)
    (comments debug : Bool) :
    ((compiler.reporting comments debug).compile description hypothesis).outcome =
      .error fault := by
  rw [compile_eq_error_iff] at h ⊢
  rcases h with h | ⟨plan, hplan, h⟩
  · rw [blueprint_reporting, h]
    exact Or.inl rfl
  · have hsections :=
      (sections_reporting_eq_error_iff (grounded_of_blueprint hplan) comments debug).mpr h
    exact Or.inr ⟨_, blueprint_reporting_of_eq_ok hplan comments debug, hsections⟩

/-- The parts of an accepted description for all choices. -/
theorem exists_reportingParts (hsolver : plan.solver.OnlyReports) {generated : GeneratedClass}
    (hcompile : (compiler.compile description hypothesis).outcome = .ok generated)
    (hplan : (compiler.blueprint description hypothesis).outcome = .ok plan) :
    ∃ build : plan.Build, ∀ comments debug,
      ((compiler.reporting comments debug).compile description hypothesis).outcome =
        .ok ⟨description.className, hypothesis, plan.layout,
          (build.reportingParts debug).map fun part =>
            (plan.reporting comments debug).sectionOf part.1 part.2⟩ := by
  obtain ⟨build, -⟩ := exists_build hcompile hplan
  refine ⟨build, fun comments debug => ?_⟩
  have hplan' := blueprint_reporting_of_eq_ok hplan comments debug
  cases houtcome : ((compiler.reporting comments debug).compile description hypothesis).outcome with
  | error fault =>
      -- then the compilation with the given choice would fail too
      have herror :=
        compile_reporting_eq_error houtcome compiler.options.comments compiler.options.debug
      exact absurd (herror.symm.trans hcompile) nofun
  | ok other =>
      obtain ⟨build', hsections⟩ := exists_build houtcome hplan'
      obtain ⟨plan', sections, hplan'', -, hother⟩ := compile_eq_ok_iff.mp houtcome
      obtain rfl := Except.ok.inj (hplan'.symm.trans hplan'')
      rw [build'.eq (build.reporting hsolver comments debug), Build.parts_reporting] at hsections
      rw [← hsections, hother]
      rfl

/-- **Comments and reports are inserted.**  Whether a description is accepted, and its fault if it
is not, does not depend on them.  If it is accepted, the classes have the same layout and the same
kinds of sections, and the texts with comments or reports are the texts without them with lines put
in between. -/
theorem comments_and_reports_are_inserted (compiler : Compiler)
    (hsolvers : compiler.solvers.AllBuiltIn) (description : Description) (hypothesis : Hypothesis) :
    (∃ fault, ∀ comments debug,
      ((compiler.reporting comments debug).compile description hypothesis).outcome = .error fault) ∨
    ∃ generated : (comments debug : Bool) → GeneratedClass,
      (∀ comments debug,
        ((compiler.reporting comments debug).compile description hypothesis).outcome =
        .ok (generated comments debug)) ∧
      (∀ comments debug, (generated comments debug).layout = (generated false false).layout ∧
        (generated comments debug).sections.map (·.kind) =
          (generated false false).sections.map (·.kind)) ∧
      (∀ debug,
        List.Forall₂ (fun s s' => AddsLines "// " s.text s'.text) (generated false debug).sections
        (generated true debug).sections) ∧
      ∀ comments, List.Forall₂ (fun s s' => AddsLines "std::cout << " s.text s'.text)
        (generated comments false).sections (generated comments true).sections := by
  cases hcompile : (compiler.compile description hypothesis).outcome with
  | error fault => exact Or.inl ⟨fault, compile_reporting_eq_error hcompile⟩
  | ok _ =>
      obtain ⟨plan, _, hplan, -, -⟩ := compile_eq_ok_iff.mp hcompile
      obtain ⟨_, hregistered⟩ := registered_of_blueprint hplan
      have hsolver := hsolvers.of_get? hregistered
      obtain ⟨build, hclasses⟩ := exists_reportingParts hsolver.onlyReports hcompile hplan
      have horderly : ∀ debug, ∀ part ∈ build.reportingParts debug, OrderlyIn part.2 := by
        intro debug
        rw [← build.parts_reporting hsolver.onlyReports true debug]
        exact orderlyIn_of_mem_parts ((grounded_of_blueprint hplan).reporting true debug) hsolver _
      refine Or.inr ⟨_, hclasses, fun comments debug => ⟨rfl, ?_⟩, fun debug => ?_,
        fun comments => ?_⟩
      · simp only [List.map_map, Build.reportingParts, List.map_append]
        rfl
      · simp only [List.forall₂_map_left_iff, List.forall₂_map_right_iff]
        exact List.forall₂_same.mpr fun part hpart =>
          addsLines_comments plan debug part.1 (horderly debug part hpart)
      · simp only [List.forall₂_map_left_iff, List.forall₂_map_right_iff]
        refine (build.addsReports_parts hsolver.onlyReports comments).imp fun part part' h => ?_
        rw [← h.1]
        exact addsLines_reports plan comments part.1 h.2

/-- A description whose class compares its Jacobian with the numerical one. -/
def comparedPressure : Description where
  className := "ComparedPressure"
  events :=
    [{ declaration := .integrationVariable "p" .scalar 1 },
      { declaration := .algorithm "PowellDogLeg_NewtonRaphson" },
      { declaration := .compareToNumericalJacobian true },
      { declaration := .code .integrator "// residual\nfp = dp;\nstd::cout << fp;" }]

theorem comments_and_reports_are_inserted_comparedPressure :
    Solvers.builtin.AllBuiltIn ∧ ∃ generated : (comments debug : Bool) → GeneratedClass,
      (∀ comments debug, ((({} : Compiler).reporting comments debug).compile comparedPressure
        .tridimensional).outcome =
        .ok (generated comments debug)) ∧
      (∀ comments debug, (generated comments debug).layout = (generated false false).layout ∧
        (generated comments debug).sections.map (·.kind) =
          (generated false false).sections.map (·.kind)) ∧
      (∀ debug,
        List.Forall₂ (fun s s' => AddsLines "// " s.text s'.text) (generated false debug).sections
        (generated true debug).sections) ∧
      ∀ comments, List.Forall₂ (fun s s' => AddsLines "std::cout << " s.text s'.text)
        (generated comments false).sections (generated comments true).sections := by
  have hinserted :=
    comments_and_reports_are_inserted {} Solvers.allBuiltIn_builtin comparedPressure .tridimensional
  have hchecked : (match (({} : Compiler).blueprint comparedPressure .tridimensional).outcome with
      | .error _ => false
      | .ok plan =>
          plan.draft.inverseBlocks.isEmpty &&
            plan.draft.roster.vars.all (·.rank ≠ .vector)) = true := by
    decide +kernel
  split at hchecked
  · cases hchecked
  · rename_i plan hplan
    simp only [Bool.and_eq_true, List.isEmpty_iff, List.all_eq_true, decide_eq_true_eq] at hchecked
    obtain ⟨generated, hcompile⟩ :=
      exists_compile_eq_ok hplan hchecked.1 fun _ _ u hu _ hshape => hchecked.2 u hu hshape.2
    rcases hinserted with ⟨fault, hfails⟩ | hinserted
    · exact absurd ((hfails true false).symm.trans hcompile) nofun
    · exact ⟨Solvers.allBuiltIn_builtin, hinserted⟩

end Compiler

end Constitutive
