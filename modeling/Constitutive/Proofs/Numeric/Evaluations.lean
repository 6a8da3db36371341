import Constitutive.Numeric.Newton

/-!
# How an iteration goes and ends

A run of Newton's method is a sequence of evaluations, each of which is followed by a correction
unless the run ends with it.  Nothing is assumed about the scalars, which may be doubles with values
that are no numbers, and nothing about the system, which may answer differently each time and change
a state.

`logged` writes down every call of a system with its answer.  A run makes two calls in each
iteration, one for the residual and one for the Jacobian, at the unknowns that have been reached
(`Evaluation.calls`).  `Progress` says how evaluations and corrections depend on each other while a
run goes on, and `Account` what is known when it has ended.  One iteration is described by
`run_newtonLoop_evaluate` and the cases of `afterEvaluation`, and whole runs by induction on the
evaluations that are left (`newtonLoop_account`).
-/

namespace Constitutive.Numeric

variable {α σ : Type} {n : Nat}

/-- A call of a system and its answer. -/
inductive Call (α : Type) (n : Nat) where
  | residual (point value : Vec α n)
  | jacobian (point : Vec α n) (value : Mat α n n)

/-- A system that writes down its calls beside what it does to its own state. -/
def logged (system : DifferentiableSystem (StateM σ) α n) :
    DifferentiableSystem (StateM (σ × List (Call α n))) α n where
  residual x := fun state =>
    let answer := system.residual x state.1
    (answer.1, answer.2, state.2 ++ [.residual x answer.1])
  jacobian x := fun state =>
    let answer := system.jacobian x state.1
    (answer.1, answer.2, state.2 ++ [.jacobian x answer.1])

/-- The scaled unknowns of an iteration, and the residual and the Jacobian found there. -/
structure Evaluation (α : Type) (n : Nat) where
  unknowns : Vec α n
  residual : Vec α n
  jacobian : Mat α n n

/-- The calls of an iteration. -/
def Evaluation.calls [Mul α] (scaling : Scaling α n) (e : Evaluation α n) : List (Call α n) :=
  [.residual (scaling.physical e.unknowns) e.residual,
    .jacobian (scaling.physical e.unknowns) e.jacobian]

/-- What a system with a state answers at some scaled unknowns, and the state after it. -/
def evaluate [Mul α] (system : DifferentiableSystem (StateM σ) α n) (scaling : Scaling α n)
    (y : Vec α n) (s : σ) :
    Evaluation α n × σ :=
  let residual := system.residual (scaling.physical y) s
  let jacobian := system.jacobian (scaling.physical y) residual.2
  (⟨y, residual.1, jacobian.1⟩, jacobian.2)

theorem evaluate_logged [Mul α] (system : DifferentiableSystem (StateM σ) α n)
    (scaling : Scaling α n) (y : Vec α n) (s : σ) (log : List (Call α n)) :
    evaluate (logged system) scaling y (s, log) =
      ((evaluate system scaling y s).1, (evaluate system scaling y s).2,
        log ++ (evaluate system scaling y s).1.calls scaling) := by
  simp [evaluate, logged, Evaluation.calls]

/-- A correction within its bounds. -/
def NewtonSettings.bounded [LT α] [DecidableLT α] [ScalarFunctions α] (settings : NewtonSettings α)
    (correction : Vec α n) :
    Vec α n :=
  match settings.maximumIncrement with
  | none => correction
  | some limit => clamp limit correction

/-- The scaled unknowns after some corrections. -/
def corrected [Sub α] (y : Vec α n) (corrections : List (Vec α n)) : Vec α n :=
  corrections.foldl (Vector.zipWith (· - ·)) y

theorem corrected_concat [Sub α] (y : Vec α n) (corrections : List (Vec α n))
    (correction : Vec α n) :
    corrected y (corrections ++ [correction]) =
      Vector.zipWith (· - ·) (corrected y corrections) correction := by
  simp [corrected]

variable [Zero α] [Add α] [Mul α] [Div α] [ScalarFunctions α]

def Evaluation.error (scaling : Scaling α n) (e : Evaluation α n) : α :=
  norm (scaling.scaleResidual e.residual) / ScalarFunctions.ofNat n

/-- The error of the last evaluation, zero if there was none. -/
def lastError (scaling : Scaling α n) (history : List (Evaluation α n)) : α :=
  match history.getLast? with
  | none => 0
  | some e => e.error scaling

theorem lastError_concat (scaling : Scaling α n) (history : List (Evaluation α n))
    (e : Evaluation α n) :
    lastError scaling (history ++ [e]) = e.error scaling := by
  simp [lastError]

variable [One α] [Sub α] [Neg α] [LT α] [DecidableLT α] [BEq α]

/-- The solution of the linearised system. -/
def Evaluation.solution? (scaling : Scaling α n) (e : Evaluation α n) : Option (Vec α n) :=
  solve? (scaling.scaleJacobian e.jacobian) (scaling.scaleResidual e.residual)

/-- Evaluations and corrections of a run from `y` that has got so far. -/
structure Progress (scaling : Scaling α n) (settings : NewtonSettings α) (y : Vec α n)
    (history : List (Evaluation α n)) (corrections : List (Vec α n)) : Prop where
  /-- Each evaluation is made after all corrections before it. -/
  evaluated : ∀ (i : Nat) (e : Evaluation α n), history[i]? = some e →
    e.unknowns = corrected y (corrections.take i)
  /-- Each correction is the solution at an evaluation that shows no convergence, within its
  bounds. -/
  solved : ∀ (i : Nat) (correction : Vec α n), corrections[i]? = some correction →
    ∃ e, history[i]? = some e ∧ ¬ e.error scaling < settings.epsilon ∧
      (e.solution? scaling).map settings.bounded = some correction

/-- What has happened when a run ends. -/
structure Account (scaling : Scaling α n) (settings : NewtonSettings α) (y : Vec α n)
    (outcome : NewtonOutcome α n)
    (history : List (Evaluation α n)) (corrections : List (Vec α n)) : Prop where
  progress : Progress scaling settings y history corrections
  iterations_eq : outcome.iterations = history.length
  unknowns_eq : outcome.unknowns = corrected y corrections
  error_eq : outcome.error = lastError scaling history
  ending : match outcome.ending with
    | .converged x => 1 ≤ outcome.iterations ∧ outcome.iterations ≤ settings.iterMax ∧
        corrections.length = outcome.iterations - 1 ∧ x = scaling.physical outcome.unknowns ∧
        ∀ (i : Nat) (e : Evaluation α n), history[i]? = some e →
          (e.error scaling < settings.epsilon ↔ i + 1 = outcome.iterations)
    | .diverged => outcome.iterations = settings.iterMax ∧ corrections.length = settings.iterMax ∧
        ∀ e ∈ history, ¬ e.error scaling < settings.epsilon
    | .singular => 1 ≤ outcome.iterations ∧ outcome.iterations ≤ settings.iterMax ∧
        corrections.length = outcome.iterations - 1 ∧
        (∀ e ∈ history, ¬ e.error scaling < settings.epsilon) ∧
        ∀ (i : Nat) (e : Evaluation α n), history[i]? = some e →
          (e.solution? scaling = none ↔ i + 1 = outcome.iterations)

variable {scaling : Scaling α n} {settings : NewtonSettings α} {y : Vec α n}
  {history : List (Evaluation α n)} {corrections : List (Vec α n)}

theorem getElem?_concat_eq_some {β : Type} {xs : List β} {x b : β} {i : Nat}
    (h : (xs ++ [x])[i]? = some b) :
    xs[i]? = some b ∨ i = xs.length ∧ x = b := by
  rw [List.getElem?_append] at h
  split at h
  · exact Or.inl h
  · obtain ⟨hzero, heq⟩ := List.getElem?_eq_some_iff.mp h
    rw [List.length_singleton] at hzero
    exact Or.inr ⟨by omega, by simpa using heq⟩

namespace Progress

theorem nil (scaling : Scaling α n) (settings : NewtonSettings α) (y : Vec α n) :
    Progress scaling settings y [] [] where
  evaluated := by simp
  solved := by simp

/-- The next evaluation is made after all corrections. -/
theorem evaluate (h : Progress scaling settings y history corrections)
    (hlength : corrections.length = history.length)
    {e : Evaluation α n} (he : e.unknowns = corrected y corrections) :
    Progress scaling settings y (history ++ [e]) corrections where
  evaluated := by
    intro i d hd
    rcases getElem?_concat_eq_some hd with hd | ⟨rfl, rfl⟩
    · exact h.evaluated i d hd
    · rw [← hlength, List.take_length, he]
  solved := by
    intro i correction hcorrection
    obtain ⟨d, hd, hsolved⟩ := h.solved i correction hcorrection
    have hi := (List.getElem?_eq_some_iff.mp hd).1
    exact ⟨d, by rw [List.getElem?_append_left hi, hd], hsolved⟩

/-- A correction follows the last evaluation. -/
theorem correct {e : Evaluation α n} (h : Progress scaling settings y (history ++ [e]) corrections)
    (hlength : corrections.length = history.length) (herror : ¬ e.error scaling < settings.epsilon)
    {solution : Vec α n}
    (hsolution : e.solution? scaling = some solution) :
    Progress scaling settings y (history ++ [e]) (corrections ++ [settings.bounded solution]) where
  evaluated := by
    intro i d hd
    have hi := (List.getElem?_eq_some_iff.mp hd).1
    rw [List.length_append, List.length_singleton, ← hlength] at hi
    rw [List.take_append_of_le_length (Nat.lt_succ_iff.mp hi)]
    exact h.evaluated i d hd
  solved := by
    intro i correction hcorrection
    rcases getElem?_concat_eq_some hcorrection with hcorrection | ⟨rfl, rfl⟩
    · exact h.solved i correction hcorrection
    · refine ⟨e, by rw [hlength, List.getElem?_concat_length], herror, ?_⟩
      rw [hsolution, Option.map_some]

/-- An evaluation that a correction follows shows no convergence and has a solution. -/
theorem solved_of_lt (h : Progress scaling settings y history corrections) {i : Nat}
    {e : Evaluation α n} (he : history[i]? = some e) (hi : i < corrections.length) :
    ¬ e.error scaling < settings.epsilon ∧ e.solution? scaling ≠ none := by
  obtain ⟨d, hd, herror, hsolution⟩ := h.solved i corrections[i] (List.getElem?_eq_getElem hi)
  obtain rfl : e = d := Option.some.inj (he.symm.trans hd)
  refine ⟨herror, ?_⟩
  rintro hnone
  simp [hnone] at hsolution

theorem large_of_mem (h : Progress scaling settings y history corrections)
    (hlength : history.length ≤ corrections.length) :
    ∀ e ∈ history, ¬ e.error scaling < settings.epsilon := by
  intro e he
  obtain ⟨i, hi⟩ := List.mem_iff_getElem?.mp he
  exact (h.solved_of_lt hi (Nat.lt_of_lt_of_le (List.getElem?_eq_some_iff.mp hi).1 hlength)).1

end Progress

namespace Account

variable {e : Evaluation α n}

/-- A run that ends with convergence at its last evaluation. -/
theorem of_small (h : Progress scaling settings y (history ++ [e]) corrections)
    (hlength : corrections.length = history.length)
    (hbudget : history.length < settings.iterMax) (hpoint : e.unknowns = corrected y corrections)
    (hsmall : e.error scaling < settings.epsilon) :
    Account scaling settings y ⟨.converged (scaling.physical e.unknowns), history.length + 1,
      e.error scaling, e.unknowns⟩ (history ++ [e]) corrections where
  progress := h
  iterations_eq := by simp
  unknowns_eq := hpoint
  error_eq := (lastError_concat scaling history e).symm
  ending := by
    refine ⟨Nat.le_add_left 1 _, hbudget, hlength, rfl, ?_⟩
    intro i d hd
    rcases getElem?_concat_eq_some hd with hearlier | ⟨rfl, rfl⟩
    · have hi := (List.getElem?_eq_some_iff.mp hearlier).1
      have hlarge := (h.solved_of_lt hd (by omega)).1
      exact iff_of_false hlarge (by simp only; omega)
    · exact iff_of_true hsmall rfl

/-- A run that ends at its last evaluation because the linearised system has no solution. -/
theorem of_singular (h : Progress scaling settings y (history ++ [e]) corrections)
    (hlength : corrections.length = history.length)
    (hbudget : history.length < settings.iterMax) (hpoint : e.unknowns = corrected y corrections)
    (hlarge : ¬ e.error scaling < settings.epsilon) (hnone : e.solution? scaling = none) :
    Account scaling settings y ⟨.singular, history.length + 1, e.error scaling, e.unknowns⟩
      (history ++ [e]) corrections where
  progress := h
  iterations_eq := by simp
  unknowns_eq := hpoint
  error_eq := (lastError_concat scaling history e).symm
  ending := by
    refine ⟨Nat.le_add_left 1 _, hbudget, hlength, ?_, ?_⟩
    · intro d hd
      obtain ⟨i, hi⟩ := List.mem_iff_getElem?.mp hd
      rcases getElem?_concat_eq_some hi with hearlier | ⟨rfl, rfl⟩
      · have hlt := (List.getElem?_eq_some_iff.mp hearlier).1
        exact (h.solved_of_lt hi (by omega)).1
      · exact hlarge
    · intro i d hd
      rcases getElem?_concat_eq_some hd with hearlier | ⟨rfl, rfl⟩
      · have hi := (List.getElem?_eq_some_iff.mp hearlier).1
        have hsolved := (h.solved_of_lt hd (by omega)).2
        exact iff_of_false hsolved (by simp only; omega)
      · exact iff_of_true hnone rfl

end Account

/-! ## One iteration -/

/-- What follows an evaluation. -/
def afterEvaluation {M : Type → Type} [Monad M] (system : DifferentiableSystem M α n)
    (scaling : Scaling α n)
    (settings : NewtonSettings α) (remaining done : Nat) (e : Evaluation α n) :
    M (NewtonOutcome α n) :=
  if e.error scaling < settings.epsilon then
    pure ⟨.converged (scaling.physical e.unknowns), done + 1, e.error scaling, e.unknowns⟩
  else match e.solution? scaling with
    | none => pure ⟨.singular, done + 1, e.error scaling, e.unknowns⟩
    | some solution =>
      newtonLoop system scaling settings remaining (done + 1) (e.error scaling)
        (Vector.zipWith (· - ·) e.unknowns (settings.bounded solution))

section Cases

variable {M : Type → Type} [Monad M] {system : DifferentiableSystem M α n} {remaining done : Nat}
  {e : Evaluation α n}

theorem afterEvaluation_of_small (hsmall : e.error scaling < settings.epsilon) :
    afterEvaluation system scaling settings remaining done e =
      pure ⟨.converged (scaling.physical e.unknowns), done + 1, e.error scaling, e.unknowns⟩ :=
  if_pos hsmall

theorem afterEvaluation_of_none (hlarge : ¬ e.error scaling < settings.epsilon)
    (hnone : e.solution? scaling = none) :
    afterEvaluation system scaling settings remaining done e =
      pure ⟨.singular, done + 1, e.error scaling, e.unknowns⟩ := by
  rw [afterEvaluation, if_neg hlarge, hnone]

theorem afterEvaluation_of_some (hlarge : ¬ e.error scaling < settings.epsilon) {solution : Vec α n}
    (hsome : e.solution? scaling = some solution) :
    afterEvaluation system scaling settings remaining done e =
      newtonLoop system scaling settings remaining (done + 1) (e.error scaling)
        (Vector.zipWith (· - ·) e.unknowns (settings.bounded solution)) := by
  rw [afterEvaluation, if_neg hlarge, hsome]

end Cases

theorem run_newtonLoop_evaluate (system : DifferentiableSystem (StateM σ) α n)
    (remaining done : Nat) (error : α) (y : Vec α n) (s : σ) :
    (newtonLoop system scaling settings (remaining + 1) done error y).run s =
      (afterEvaluation system scaling settings remaining done (evaluate system scaling y s).1).run
        (evaluate system scaling y s).2 := rfl

/-! ## Runs -/

/-- Writing down the calls does not change a run. -/
theorem run_newtonLoop_logged (system : DifferentiableSystem (StateM σ) α n)
    (remaining done : Nat) (error : α) (y : Vec α n) (s : σ) (log : List (Call α n)) :
    let run := (newtonLoop (logged system) scaling settings remaining done error y).run (s, log)
    (run.1, run.2.1) = (newtonLoop system scaling settings remaining done error y).run s := by
  induction remaining generalizing done error y s log with
  | zero => rfl
  | succ remaining ih =>
      rw [run_newtonLoop_evaluate, run_newtonLoop_evaluate, evaluate_logged]
      generalize evaluate system scaling y s = evaluated
      by_cases hsmall : evaluated.1.error scaling < settings.epsilon
      · rw [afterEvaluation_of_small hsmall, afterEvaluation_of_small hsmall]
        rfl
      · cases hsolution : evaluated.1.solution? scaling with
        | none =>
            rw [afterEvaluation_of_none hsmall hsolution, afterEvaluation_of_none hsmall hsolution]
            rfl
        | some solution =>
            rw [afterEvaluation_of_some hsmall hsolution, afterEvaluation_of_some hsmall hsolution]
            exact ih _ _ _ _ _

/-- How a run goes on from some progress, and how it ends. -/
theorem newtonLoop_account (system : DifferentiableSystem (StateM σ) α n) (remaining : Nat) (s : σ)
    (hbudget : history.length + remaining = settings.iterMax)
    (hlength : corrections.length = history.length)
    (h : Progress scaling settings y history corrections) :
    let run :=
  (newtonLoop (logged system) scaling settings remaining history.length (lastError scaling history)
      (corrected y corrections)).run (s, history.flatMap (Evaluation.calls scaling))
    ∃ history' corrections', run.2.2 = history'.flatMap (Evaluation.calls scaling) ∧
      Account scaling settings y run.1 history' corrections' := by
  induction remaining generalizing s history corrections with
  | zero =>
      have hlarge := h.large_of_mem (Nat.le_of_eq hlength.symm)
      exact ⟨history, corrections, rfl, h, rfl, rfl, rfl, hbudget, hlength.trans hbudget, hlarge⟩
  | succ remaining ih =>
      rw [run_newtonLoop_evaluate, evaluate_logged]
      have hpoint : (evaluate system scaling (corrected y corrections) s).1.unknowns =
        corrected y corrections := rfl
      generalize evaluate system scaling (corrected y corrections) s = evaluated at hpoint ⊢
      obtain ⟨e, t⟩ := evaluated
      have hnext : Progress scaling settings y (history ++ [e]) corrections :=
        h.evaluate hlength hpoint
      have hcount : (history ++ [e]).length = history.length + 1 := List.length_append
      have hcalls : history.flatMap (Evaluation.calls scaling) ++ e.calls scaling =
          (history ++ [e]).flatMap (Evaluation.calls scaling) := by simp
      rw [hcalls]
      by_cases hsmall : e.error scaling < settings.epsilon
      · rw [afterEvaluation_of_small hsmall]
        exact ⟨history ++ [e], corrections, rfl, .of_small hnext hlength (by omega) hpoint hsmall⟩
      · cases hsolution : e.solution? scaling with
        | none =>
            rw [afterEvaluation_of_none hsmall hsolution]
            exact ⟨history ++ [e], corrections, rfl,
              .of_singular hnext hlength (by omega) hpoint hsmall hsolution⟩
        | some solution =>
            have hlength' : (corrections ++ [settings.bounded solution]).length =
                (history ++ [e]).length := by
              simp [hlength]
            have hgoes := ih t (by omega) hlength' (hnext.correct hlength hsmall hsolution)
            rw [hcount, lastError_concat, corrected_concat, ← hpoint] at hgoes
            rw [afterEvaluation_of_some hsmall hsolution]
            exact hgoes

/-- A run ends with convergence, without it or with a singular Jacobian, and the ending tells which
evaluations and corrections have been made.  The calls that are written down are those of the
evaluations. -/
theorem newton_ends_in_one_of_three_ways (system : DifferentiableSystem (StateM σ) α n)
    (scaling : Scaling α n) (settings : NewtonSettings α) (y : Vec α n) (s : σ) :
    ∃ history corrections,
      (newton (logged system) scaling settings y).run (s, []) =
        (((newton system scaling settings y).run s).1, ((newton system scaling settings y).run s).2,
          history.flatMap (Evaluation.calls scaling)) ∧
      Account scaling settings y ((newton system scaling settings y).run s).1 history
        corrections := by
  have hsame : (((newton (logged system) scaling settings y).run (s, [])).1,
      ((newton (logged system) scaling settings y).run (s, [])).2.1) =
      (newton system scaling settings y).run s :=
    run_newtonLoop_logged system settings.iterMax 0 0 y s []
  obtain ⟨history, corrections, hlog, haccount⟩ :=
    newtonLoop_account system settings.iterMax s (Nat.zero_add _) rfl
      (Progress.nil scaling settings y)
  refine ⟨history, corrections, ?_, ?_⟩
  · rw [← hsame, ← hlog]
    rfl
  · rw [← hsame]
    exact haccount

end Constitutive.Numeric
