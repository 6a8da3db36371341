import Constitutive.Proofs.Faults
import Constitutive.Proofs.Scheme.Runs

/-!
# Several hypotheses

A description can be compiled for several hypotheses, and some of its events are meant for one of
them only.  Each hypothesis has a draft of its own, to which all events are applied again.  So an
event that is meant for another hypothesis has no effect at all: neither on the draft, nor by a
fault, nor by a notice (`compile_eq_of_filter_eq`).

All requested hypotheses are compiled in their order, each once.  Going through them in order ends
with the first that fails; leaving them to workers may end with the fault of any of them, but if
none fails there is no difference (`hypotheses_do_not_interfere`).
-/

namespace Constitutive

/-! ## Computations with notices -/

namespace Traced

variable {ε α β : Type}

/-- What follows a computation matters only for its result. -/
theorem bind_congr {x : Traced ε α} {f g : α → Traced ε β}
    (h : ∀ a, x.outcome = .ok a → f a = g a) :
    x >>= f = x >>= g := by
  unfold bind instMonad
  dsimp only
  split
  · rfl
  · rename_i a ha
    rw [h a ha]

theorem outcome_inOrder_map (f : β → Traced ε α) (xs : List β) :
    (inOrder (xs.map f)).outcome = xs.mapM fun x => (f x).outcome := by
  induction xs with
  | nil => rfl
  | cons x rest ih =>
      rw [List.map_cons, outcome_inOrder_cons, ih, List.mapM_cons]
      rfl

end Traced

/-! ## Events that are meant for another hypothesis -/

/-- A run goes through the events that count for the hypothesis of the draft. -/
theorem Draft.foldlM_apply_filter (solvers : Solvers) (events : List Event) {draft : Draft}
    {hypothesis : Hypothesis} (hdraft : draft.hypothesis = hypothesis) :
    events.foldlM (fun draft event => (draft.apply solvers event).traced) draft =
      (events.filter (·.appliesTo hypothesis)).foldlM
        (fun draft event => (draft.apply solvers event).traced) draft := by
  induction events generalizing draft with
  | nil => rfl
  | cons event rest ih =>
      rw [List.foldlM_cons]
      cases happlies : event.appliesTo hypothesis with
      | false =>
          simp only [List.filter_cons, happlies, Bool.false_eq_true, if_false]
          rw [Draft.apply_of_not_appliesTo solvers (hdraft ▸ happlies)]
          exact ih hdraft
      | true =>
          simp only [List.filter_cons, happlies, if_true, List.foldlM_cons]
          refine Traced.bind_congr fun next hnext => ih ?_
          rw [Draft.hypothesis_of_apply_eq_ok hnext, hdraft]

theorem Description.draft_eq_of_filter_eq {first second : Description} {hypothesis : Hypothesis}
    (hevents : first.events.filter (·.appliesTo hypothesis) =
      second.events.filter (·.appliesTo hypothesis))
    (solvers : Solvers) (defaultAlgorithm : String) :
    first.draft solvers defaultAlgorithm hypothesis =
      second.draft solvers defaultAlgorithm hypothesis := by
  unfold Description.draft
  rw [Draft.foldlM_apply_filter solvers first.events rfl, hevents,
    ← Draft.foldlM_apply_filter solvers second.events rfl]

namespace Compiler

variable {compiler : Compiler} {description : Description} {hypothesis : Hypothesis}

/-- Descriptions with the same name and the same events for a hypothesis are compiled alike, notices
included. -/
theorem compile_eq_of_filter_eq (compiler : Compiler) {first second : Description}
    (hname : first.className = second.className)
    (hevents : first.events.filter (·.appliesTo hypothesis) =
      second.events.filter (·.appliesTo hypothesis)) :
    compiler.compile first hypothesis = compiler.compile second hypothesis := by
  unfold compile blueprint
  dsimp only
  rw [hname, Description.draft_eq_of_filter_eq hevents]

end Compiler

/-! ## The requested hypotheses -/

namespace Hypothesis

/-- The order of the hypotheses. -/
def Precedes (first second : Hypothesis) : Prop :=
  first.ctorIdx < second.ctorIdx

instance : DecidableRel Precedes :=
  fun first second => inferInstanceAs (Decidable (first.ctorIdx < second.ctorIdx))

theorem Precedes.ne {first second : Hypothesis} (h : first.Precedes second) : first ≠ second := by
  rintro rfl
  exact Nat.lt_irrefl _ h

theorem Precedes.not_precedes {first second : Hypothesis} (h : first.Precedes second) :
    ¬ second.Precedes first :=
  Nat.lt_asymm h

theorem pairwise_all : all.Pairwise Precedes := by
  decide

theorem precedes_of_le_of_ne {first second : Hypothesis} (hle : first.le second = true)
    (hne : first ≠ second) : first.Precedes second := by
  refine Nat.lt_of_le_of_ne (of_decide_eq_true hle) fun hsame => hne ?_
  rw [← ofNat_ctorIdx first, ← ofNat_ctorIdx second, hsame]

theorem le_trans (first second third : Hypothesis) (h : first.le second = true)
    (h' : second.le third = true) : first.le third = true :=
  decide_eq_true (Nat.le_trans (of_decide_eq_true h) (of_decide_eq_true h'))

theorem le_total (first second : Hypothesis) : (first.le second || second.le first) = true := by
  simp only [le, Bool.or_eq_true, decide_eq_true_eq]
  exact Nat.le_total _ _

end Hypothesis

/-- Lists in the same strict order with the same members are equal. -/
theorem eq_of_pairwise_precedes {first second : List Hypothesis}
    (hfirst : first.Pairwise Hypothesis.Precedes) (hsecond : second.Pairwise Hypothesis.Precedes)
    (hmem : ∀ h, h ∈ first ↔ h ∈ second) : first = second := by
  have hperm : first.Perm second :=
    (List.perm_ext_iff_of_nodup (hfirst.imp Hypothesis.Precedes.ne)
      (hsecond.imp Hypothesis.Precedes.ne)).mpr hmem
  exact hperm.eq_of_pairwise (fun _ _ _ _ hab hba => absurd hba hab.not_precedes) hfirst hsecond

theorem mem_dropRepeats {α : Type} [DecidableEq α] {x : α} {xs : List α} :
    x ∈ dropRepeats xs ↔ x ∈ xs := by
  fun_induction dropRepeats xs with
  | case1 first rest ih =>
      rw [ih]
      refine ⟨List.mem_cons_of_mem _, fun h => ?_⟩
      rcases List.mem_cons.mp h with rfl | h
      · exact List.mem_cons_self ..
      · exact h
  | case2 first second rest hne ih =>
      refine List.mem_cons.trans (Iff.trans ?_ List.mem_cons.symm)
      rw [ih]
  | case3 short hshort => rfl

/-- In a sorted list equal hypotheses are next to each other, so none is left twice. -/
theorem pairwise_dropRepeats {xs : List Hypothesis}
    (hsorted : xs.Pairwise fun first second => first.le second = true) :
    (dropRepeats xs).Pairwise Hypothesis.Precedes := by
  fun_induction dropRepeats xs with
  | case1 first rest ih => exact ih (List.pairwise_cons.mp hsorted).2
  | case2 first second rest hne ih =>
      obtain ⟨hfirst, hrest⟩ := List.pairwise_cons.mp hsorted
      refine List.pairwise_cons.mpr ⟨fun later hlater => ?_, ih hrest⟩
      have hbefore : first.Precedes second :=
        Hypothesis.precedes_of_le_of_ne (hfirst second (List.mem_cons_self ..)) hne
      rcases List.mem_cons.mp (mem_dropRepeats.mp hlater) with rfl | hlater
      · exact hbefore
      · have hle := (List.pairwise_cons.mp hrest).1 later hlater
        exact Nat.lt_of_lt_of_le hbefore (of_decide_eq_true hle)
  | case3 short hshort =>
      cases short with
      | nil => exact List.Pairwise.nil
      | cons first rest =>
          cases rest with
          | nil => exact List.pairwise_singleton _ _
          | cons second rest => exact absurd rfl (hshort first second rest)

/-- Sorting and dropping repetitions leaves the hypotheses that are listed, in their order. -/
theorem dropRepeats_mergeSort (listed : List Hypothesis) :
    dropRepeats (listed.mergeSort Hypothesis.le) = Hypothesis.all.filter (listed.contains ·) := by
  have hsorted : (listed.mergeSort Hypothesis.le).Pairwise fun first second =>
      first.le second = true :=
    List.pairwise_mergeSort Hypothesis.le_trans Hypothesis.le_total listed
  refine eq_of_pairwise_precedes (pairwise_dropRepeats hsorted)
    (Hypothesis.pairwise_all.filter _) fun hypothesis => ?_
  rw [mem_dropRepeats, List.mem_mergeSort]
  simp [Hypothesis.mem_all]

namespace Description

/-- A description is to be compiled for the hypotheses that it lists, and for all if it lists
none. -/
def Asks (description : Description) (hypothesis : Hypothesis) : Prop :=
  description.hypotheses = [] ∨ hypothesis ∈ description.hypotheses

theorem mem_requested {description : Description} {hypothesis : Hypothesis} :
    hypothesis ∈ description.requested ↔ description.Asks hypothesis := by
  unfold requested Asks
  split
  · rename_i hempty
    simp [hempty, Hypothesis.mem_all]
  · rename_i hlisted
    rw [dropRepeats_mergeSort]
    simp [hlisted, Hypothesis.mem_all]

theorem pairwise_requested (description : Description) :
    description.requested.Pairwise Hypothesis.Precedes := by
  unfold requested
  split
  · exact Hypothesis.pairwise_all
  · rw [dropRepeats_mergeSort]
    exact Hypothesis.pairwise_all.filter _

end Description

/-! ## Running computations at the same time -/

namespace Workers

variable {ε α : Type}

theorem exists_map_ok {outcomes : List (Except ε α)}
    (h : ∀ outcome ∈ outcomes, ∃ result, outcome = .ok result) :
    ∃ results : List α, outcomes = results.map .ok := by
  induction outcomes with
  | nil => exact ⟨[], rfl⟩
  | cons outcome rest ih =>
      obtain ⟨⟨result, rfl⟩, hrest⟩ := List.forall_mem_cons.mp h
      obtain ⟨results, rfl⟩ := ih hrest
      exact ⟨result :: results, rfl⟩

/-- Workers succeed if all computations do, with their results in order. -/
theorem run_eq_ok_iff (workers : Workers ε α) {jobs : List (Traced ε α)} {results : List α} :
    (workers.run jobs).outcome = .ok results ↔ jobs.map (·.outcome) = results.map .ok := by
  refine ⟨fun hrun => ?_, workers.collects jobs results⟩
  have hnone : ∀ outcome ∈ jobs.map (·.outcome), ∃ result, outcome = .ok result := by
    intro outcome houtcome
    obtain ⟨job, hjob, rfl⟩ := List.mem_map.mp houtcome
    cases hfails : job.outcome with
    | ok result => exact ⟨result, rfl⟩
    | error fault =>
        obtain ⟨_, _, _, -, hreported⟩ := workers.reports jobs ⟨job, hjob, fault, hfails⟩
        cases hrun.symm.trans hreported
  obtain ⟨results', hresults⟩ := exists_map_ok hnone
  obtain rfl : results = results' :=
    Except.ok.inj (hrun.symm.trans (workers.collects jobs results' hresults))
  exact hresults

end Workers

namespace Compiler

variable {compiler : Compiler} {description : Description}

/-- The compiler that goes through several hypotheses in order, or compiles them at the same
time. -/
def withParallel (compiler : Compiler) (parallel : Bool) : Compiler :=
  { compiler with options := { compiler.options with parallel := parallel } }

/-- Whether hypotheses are compiled at the same time does not matter for any of them. -/
theorem outcome_compile_withParallel (compiler : Compiler) (parallel : Bool)
    (description : Description) (hypothesis : Hypothesis) :
    ((compiler.withParallel parallel).compile description hypothesis).outcome =
      (compiler.compile description hypothesis).outcome := by
  rw [outcome_compile, outcome_compile]
  rfl

theorem job_eq_ok_iff {hypothesis : Hypothesis} {generated : GeneratedClass} :
    (compiler.job description hypothesis).outcome = .ok generated ↔
      (compiler.compile description hypothesis).outcome = .ok generated :=
  mapError_eq_ok_iff

theorem job_eq_error_iff {hypothesis : Hypothesis} {failure : Failure} :
    (compiler.job description hypothesis).outcome = .error failure ↔
      failure.className = description.className ∧ failure.hypothesis = hypothesis ∧
        (compiler.compile description hypothesis).outcome = .error failure.fault := by
  obtain ⟨className, owner, fault⟩ := failure
  unfold job
  dsimp only
  generalize (compiler.compile description hypothesis).outcome = outcome
  cases outcome with
  | ok generated => exact ⟨nofun, fun h => absurd h.2.2 nofun⟩
  | error cause =>
      simp only [Except.mapError, Except.error.injEq, Failure.mk.injEq]
      exact ⟨fun ⟨hname, howner, hfault⟩ => ⟨hname.symm, howner.symm, hfault⟩,
        fun ⟨hname, howner, hfault⟩ => ⟨hname.symm, howner.symm, hfault⟩⟩

theorem hypothesis_of_compile_eq_ok {hypothesis : Hypothesis} {generated : GeneratedClass}
    (h : (compiler.compile description hypothesis).outcome = .ok generated) :
    generated.hypothesis = hypothesis := by
  obtain ⟨_, _, -, -, rfl⟩ := compile_eq_ok_iff.mp h
  rfl

/-! ## Compiling for all requested hypotheses -/

/-- The classes that a list of hypotheses is compiled to are told by their own hypotheses. -/
theorem forall₂_compile_iff {hypotheses : List Hypothesis} {classes : List GeneratedClass} :
    List.Forall₂ (fun hypothesis generated => (compiler.compile description hypothesis).outcome =
      .ok generated) hypotheses classes ↔
      classes.map (·.hypothesis) = hypotheses ∧
        ∀ generated ∈ classes, (compiler.compile description generated.hypothesis).outcome =
          .ok generated := by
  constructor
  · intro h
    induction h with
    | nil => exact ⟨rfl, fun _ hmem => absurd hmem List.not_mem_nil⟩
    | cons hfirst _ ih =>
        have howner := hypothesis_of_compile_eq_ok hfirst
        exact ⟨by rw [List.map_cons, ih.1, howner],
          List.forall_mem_cons.mpr ⟨howner ▸ hfirst, ih.2⟩⟩
  · rintro ⟨rfl, h⟩
    exact List.forall₂_map_left_iff.mpr (List.forall₂_same.mpr h)

/-- Going through the hypotheses in order succeeds with the classes of exactly the requested
ones. -/
theorem inOrder_eq_ok_iff {classes : List GeneratedClass} :
    (Traced.inOrder (description.requested.map (compiler.job description))).outcome = .ok classes ↔
      (classes.map (·.hypothesis)).Pairwise Hypothesis.Precedes ∧
        (∀ hypothesis, hypothesis ∈ classes.map (·.hypothesis) ↔ description.Asks hypothesis) ∧
        ∀ generated ∈ classes, (compiler.compile description generated.hypothesis).outcome =
          .ok generated := by
  rw [Traced.outcome_inOrder_map, mapM_eq_ok_iff]
  simp only [job_eq_ok_iff]
  rw [forall₂_compile_iff, ← and_assoc]
  refine and_congr_left fun _ => ⟨fun howners => ?_, fun ⟨hordered, hmem⟩ => ?_⟩
  · rw [howners]
    exact ⟨description.pairwise_requested, fun _ => Description.mem_requested⟩
  · refine eq_of_pairwise_precedes hordered description.pairwise_requested fun hypothesis => ?_
    rw [hmem, Description.mem_requested]

/-- Going through the hypotheses in order fails with the first requested one that fails. -/
theorem inOrder_eq_error_iff {failure : Failure} :
    (Traced.inOrder (description.requested.map (compiler.job description))).outcome =
      .error failure ↔
      failure.className = description.className ∧ description.Asks failure.hypothesis ∧
        (compiler.compile description failure.hypothesis).outcome = .error failure.fault ∧
        ∀ hypothesis, hypothesis.Precedes failure.hypothesis → description.Asks hypothesis →
          ∃ generated, (compiler.compile description hypothesis).outcome = .ok generated := by
  have hordered := description.pairwise_requested
  rw [Traced.outcome_inOrder_map, mapM_eq_error_iff]
  simp only [job_eq_ok_iff, job_eq_error_iff]
  constructor
  · rintro ⟨before, _, after, heq, hbefore, hname, rfl, hfails⟩
    have hasks : description.Asks failure.hypothesis := by
      rw [← Description.mem_requested, heq]
      exact List.mem_append_right _ (List.mem_cons_self ..)
    refine ⟨hname, hasks, hfails, fun hypothesis hprecedes hasked => hbefore hypothesis ?_⟩
    -- what precedes the failing hypothesis does not stand at it or behind it
    rw [← Description.mem_requested, heq] at hasked
    rw [heq] at hordered
    have hbehind := (List.pairwise_cons.mp (List.pairwise_append.mp hordered).2.1).1
    rcases List.mem_append.mp hasked with hasked | hasked
    · exact hasked
    · rcases List.mem_cons.mp hasked with rfl | hasked
      · exact absurd rfl hprecedes.ne
      · exact absurd (hbehind hypothesis hasked) hprecedes.not_precedes
  · rintro ⟨hname, hasks, hfails, hbefore⟩
    obtain ⟨before, after, heq⟩ := List.append_of_mem (Description.mem_requested.mpr hasks)
    refine ⟨before, failure.hypothesis, after, heq, fun hypothesis hmem => ?_, hname, rfl, hfails⟩
    rw [heq] at hordered
    refine hbefore hypothesis
      ((List.pairwise_append.mp hordered).2.2 _ hmem _ (List.mem_cons_self ..)) ?_
    rw [← Description.mem_requested, heq]
    exact List.mem_append_left _ hmem

theorem exists_inOrder_eq_ok_iff :
    (∃ classes, (Traced.inOrder (description.requested.map (compiler.job description))).outcome =
      .ok classes) ↔
      ∀ hypothesis, description.Asks hypothesis →
        ∃ generated, (compiler.compile description hypothesis).outcome = .ok generated := by
  constructor
  · rintro ⟨classes, hclasses⟩ hypothesis hasks
    obtain ⟨-, hmem, hcompiled⟩ := inOrder_eq_ok_iff.mp hclasses
    obtain ⟨generated, hgenerated, rfl⟩ := List.mem_map.mp ((hmem hypothesis).mpr hasks)
    exact ⟨generated, hcompiled generated hgenerated⟩
  · intro h
    rw [Traced.outcome_inOrder_map]
    refine exists_mapM_eq_ok fun hypothesis hmem => ?_
    obtain ⟨generated, hgenerated⟩ := h hypothesis (Description.mem_requested.mp hmem)
    exact ⟨generated, job_eq_ok_iff.mpr hgenerated⟩

/-- **Hypotheses do not interfere.**  What a description is compiled to for one hypothesis depends
on its name and on the events that count for that hypothesis, and on nothing else.  Compiling for
all requested hypotheses in order succeeds exactly if it succeeds for each of them, with their
classes in the order of the hypotheses and none twice; otherwise it fails with the first hypothesis
that fails.  If it succeeds, compiling at the same time gives the same list, whoever does it. -/
theorem hypotheses_do_not_interfere (compiler : Compiler) :
    (∀ (first second : Description) (hypothesis : Hypothesis), first.className = second.className →
      first.events.filter (·.appliesTo hypothesis) = second.events.filter (·.appliesTo hypothesis) →
        compiler.compile first hypothesis = compiler.compile second hypothesis) ∧
      ∀ (description : Description) (workers : Workers Failure GeneratedClass),
        let compiled hypothesis := (compiler.compile description hypothesis).outcome
        let sequential := ((compiler.withParallel false).compileAll description workers).outcome
        let parallel := ((compiler.withParallel true).compileAll description workers).outcome
        ((∃ classes, sequential = .ok classes) ↔
          ∀ hypothesis, description.Asks hypothesis → ∃ generated,
          compiled hypothesis = .ok generated) ∧
        (∀ classes, sequential = .ok classes ↔
          (classes.map (·.hypothesis)).Pairwise Hypothesis.Precedes ∧
            (∀ hypothesis, hypothesis ∈ classes.map (·.hypothesis) ↔ description.Asks hypothesis) ∧
            ∀ generated ∈ classes, compiled generated.hypothesis = .ok generated) ∧
        (∀ failure, sequential = .error failure ↔
          failure.className = description.className ∧ description.Asks failure.hypothesis ∧
            compiled failure.hypothesis = .error failure.fault ∧
            ∀ hypothesis, hypothesis.Precedes failure.hypothesis → description.Asks hypothesis →
              ∃ generated, compiled hypothesis = .ok generated) ∧
        ∀ classes, parallel = .ok classes ↔ sequential = .ok classes := by
  refine ⟨fun first second hypothesis hname hevents =>
    compile_eq_of_filter_eq compiler hname hevents, fun description workers => ?_⟩
  have hcompiled : ∀ parallel hypothesis,
      ((compiler.withParallel parallel).compile description hypothesis).outcome =
      (compiler.compile description hypothesis).outcome :=
    fun parallel hypothesis => outcome_compile_withParallel compiler parallel description hypothesis
  have hjobs : ∀ parallel, (description.requested.map
      ((compiler.withParallel parallel).job description)).map (·.outcome) =
      (description.requested.map (compiler.job description)).map (·.outcome) := by
    intro parallel
    simp only [List.map_map, Function.comp_def, job, hcompiled]
  have hsequential : (compiler.withParallel false).compileAll description workers =
      Traced.inOrder (description.requested.map ((compiler.withParallel false).job description)) :=
      rfl
  have hparallel : (compiler.withParallel true).compileAll description workers =
      workers.run (description.requested.map ((compiler.withParallel true).job description)) := rfl
  refine ⟨?_, fun classes => ?_, fun failure => ?_, fun classes => ?_⟩
  · simp only [hsequential, exists_inOrder_eq_ok_iff, hcompiled]
  · simp only [hsequential, inOrder_eq_ok_iff, hcompiled]
  · simp only [hsequential, inOrder_eq_error_iff, hcompiled]
  · rw [hparallel, hsequential, workers.run_eq_ok_iff, hjobs, ← hjobs false]
    exact Workers.single.run_eq_ok_iff.symm

/-- A description of one scalar for two hypotheses, one of them listed twice, with further
events. -/
def forTwoHypotheses (further : List Event) : Description where
  className := "TwoHypotheses"
  hypotheses := [.tridimensional, .planeStress, .tridimensional]
  events := { declaration := .integrationVariable "p" .scalar 1 } :: further

/-- The choice of an algorithm that nobody knows, for one hypothesis only. -/
def simplexInPlaneStress : Event :=
  { hypothesis := some .planeStress, declaration := .algorithm "Simplex" }

theorem exists_compile_forTwoHypotheses (hypothesis : Hypothesis) :
    ∃ generated, (({} : Compiler).compile (forTwoHypotheses []) hypothesis).outcome =
      .ok generated := by
  have hchecked : (match (({} : Compiler).blueprint (forTwoHypotheses []) hypothesis).outcome with
      | .error _ => false
      | .ok plan =>
          plan.draft.inverseBlocks.isEmpty &&
            plan.draft.roster.vars.all (·.rank ≠ .vector)) = true := by
    cases hypothesis <;> decide +kernel
  split at hchecked
  · cases hchecked
  · rename_i plan hplan
    simp only [Bool.and_eq_true, List.isEmpty_iff, List.all_eq_true, decide_eq_true_eq] at hchecked
    exact exists_compile_eq_ok hplan hchecked.1 fun _ _ u hu _ hshape => hchecked.2 u hu hshape.2

theorem compile_simplexInPlaneStress :
    (({} : Compiler).compile (forTwoHypotheses [simplexInPlaneStress]) .planeStress).outcome =
      .error (.declaration (.unknownAlgorithm "Simplex") (some {})) := by
  rfl

theorem hypotheses_do_not_interfere_simplexInPlaneStress :
    (∃ generated,
      (({} : Compiler).compile (forTwoHypotheses [simplexInPlaneStress]) .tridimensional).outcome =
      .ok generated) ∧
    (({} : Compiler).compileAll (forTwoHypotheses [simplexInPlaneStress])).outcome =
      .error ⟨"TwoHypotheses", .planeStress, .declaration (.unknownAlgorithm "Simplex") (some {})⟩ ∧
    ∃ classes, classes.map (·.hypothesis) = [.planeStress, .tridimensional] ∧
      ∀ workers, (({ options := { parallel := true } } : Compiler).compileAll
        (forTwoHypotheses []) workers).outcome =
        .ok classes := by
  obtain ⟨hlocal, hall⟩ := hypotheses_do_not_interfere {}
  have hsame :=
    hlocal (forTwoHypotheses [simplexInPlaneStress]) (forTwoHypotheses []) .tridimensional rfl rfl
  have hfails := (hall (forTwoHypotheses [simplexInPlaneStress]) .single).2.2.1
    ⟨"TwoHypotheses", .planeStress, .declaration (.unknownAlgorithm "Simplex") (some {})⟩
  obtain ⟨hsucceeds, hclasses, -, -⟩ := hall (forTwoHypotheses []) .single
  refine ⟨?_, ?_, ?_⟩
  · rw [hsame]
    exact exists_compile_forTwoHypotheses .tridimensional
  · have hfirst : ∀ hypothesis ∈ (forTwoHypotheses []).hypotheses,
      ¬ hypothesis.Precedes .planeStress := by decide
    refine hfails.mpr ⟨rfl, Or.inr (by decide), compile_simplexInPlaneStress,
      fun hypothesis hbefore hasks => ?_⟩
    rcases hasks with hnone | hlisted
    · cases hnone
    · exact absurd hbefore (hfirst hypothesis hlisted)
  · obtain ⟨classes, hok⟩ := hsucceeds.mpr fun hypothesis _ =>
      exists_compile_forTwoHypotheses hypothesis
    obtain ⟨hordered, hmem, -⟩ := (hclasses classes).mp hok
    refine ⟨classes, ?_,
      fun workers => ((hall (forTwoHypotheses []) workers).2.2.2 classes).mpr hok⟩
    refine eq_of_pairwise_precedes hordered (by decide) fun hypothesis => (hmem hypothesis).trans ?_
    cases hypothesis <;> simp [Description.Asks, forTwoHypotheses]

end Compiler

end Constitutive
