import Constitutive.Proofs.Scheme.Runs

/-!
# Parameters set one after another

The parameters start from their defaults and are set by name, in any order.  A call that fails does
nothing.  A call that succeeds changes the one parameter it names (`set_eq_ok_iff`), so after any
calls each parameter has the value that the last accepted call gave it, or its default
(`tolerances_session`).

## Strategy

`Sets` says what a call can do, and what is kept by it is read off its cases.  `session` carries the
accepted calls along with the parameters, so that what was switched on before a call can be read off
the calls accepted before it (`After`).
-/

namespace Constitutive.Tolerances

variable {t next : Tolerances} {name : String} {value : Setting}

/-! ## What a call sets -/

/-- A number that is not negative, and finite. -/
def Magnitude (x : Float) : Prop :=
  0 ≤ x ∧ x.isFinite = true

/-- What a parameter that can be set makes of the others, by the name of the parameter and the value
given for it. -/
inductive Sets (t : Tolerances) : String → Setting → Tolerances → Prop
  | epsilon {x : Float} (hx : Magnitude x) : Sets t "epsilon" (.number x) { t with epsilon := x }
  | theta {x : Float} (hx : 0 ≤ x ∧ x ≤ 1) : Sets t "theta" (.number x) { t with theta := x }
  | iterMax {value : Setting} {n : Nat} (hvalue : value.word? = some n) (hn : n ≠ 0) :
      Sets t "iterMax" value { t with iterMax := n }
  | jacobianEpsilon {x : Float} (hx : Magnitude x) :
      Sets t "numerical_jacobian_epsilon" (.number x) { t with explicitJacobianEpsilon := some x }
  | compare (b : Bool) : Sets t "compareToNumericalJacobian" (.flag b)
      { t with compareToNumericalJacobian := b }
  | criterion {x : Float} (hon : t.compareToNumericalJacobian = true) (hx : Magnitude x) :
      Sets t "jacobianComparisonCriterion" (.number x) { t with explicitCriterion := some x }
  | trustRegionSize {x : Float} (hx : Magnitude x) :
      Sets t "powell_dogleg_trust_region_size" (.number x) { t with trustRegionSize := x }
  | useRelaxation (b : Bool) : Sets t "useRelaxation" (.flag b) { t with useRelaxation := b }
  | relaxationTrigger {value : Setting} {n : Nat} (hvalue : value.word? = some n) :
      Sets t "relaxationTrigger" value { t with relaxationTrigger := n }
  | relaxationCoefficient {x : Float} (hon : t.useRelaxation = true) (hx : Magnitude x) :
      Sets t "relaxationCoefficient" (.number x) { t with relaxationCoefficient := x }

section

variable {α β : Type}

theorem typed_bind_eq_ok_iff {expected : String} {read : Setting → Option α}
    {f : α → Except DeclarationFault β} {b : β} :
    (typed name expected read value >>= f) = .ok b ↔ ∃ a, read value = some a ∧ f a = .ok b := by
  unfold typed
  cases read value with
  | none => exact ⟨nofun, nofun⟩
  | some a =>
      constructor
      · intro h
        exact ⟨a, rfl, h⟩
      · intro ⟨_, ha, h⟩
        obtain rfl := Option.some.inj ha
        exact h

theorem numberOf_bind_eq_ok_iff {f : Float → Except DeclarationFault β} {b : β} :
    (numberOf name value >>= f) = .ok b ↔ ∃ x, value = .number x ∧ f x = .ok b := by
  rw [numberOf, typed_bind_eq_ok_iff]
  cases value <;> simp [Setting.number?]

theorem flagOf_bind_eq_ok_iff {f : Bool → Except DeclarationFault β} {b : β} :
    (flagOf name value >>= f) = .ok b ↔ ∃ x, value = .flag x ∧ f x = .ok b := by
  rw [flagOf, typed_bind_eq_ok_iff]
  cases value <;> simp [Setting.flag?]

theorem nonNegative_bind_eq_ok_iff {x : Float} {f : Float → Except DeclarationFault β} {b : β} :
    (nonNegative name x >>= f) = .ok b ↔ Magnitude x ∧ f x = .ok b := by
  unfold nonNegative
  split
  · rename_i hx
    exact ⟨fun h => ⟨hx, h⟩, fun h => h.2⟩
  · rename_i hx
    exact ⟨nofun, fun h => absurd h.1 hx⟩

end

theorem sets_of_set_eq_ok (h : t.set name value = .ok next) : t.Sets name value next := by
  unfold Tolerances.set at h
  split at h
  · obtain ⟨x, rfl, hset⟩ := numberOf_bind_eq_ok_iff.mp h
    obtain ⟨hx, hset⟩ := nonNegative_bind_eq_ok_iff.mp hset
    exact Except.ok.inj hset ▸ .epsilon hx
  · obtain ⟨x, rfl, hset⟩ := numberOf_bind_eq_ok_iff.mp h
    split at hset
    · rename_i hx
      exact Except.ok.inj hset ▸ .theta hx
    · cases hset
  · obtain ⟨n, hvalue, h⟩ := typed_bind_eq_ok_iff.mp h
    split at h
    · cases h
    · rename_i hn
      exact Except.ok.inj h ▸ .iterMax hvalue hn
  · obtain ⟨x, rfl, hset⟩ := numberOf_bind_eq_ok_iff.mp h
    obtain ⟨hx, hset⟩ := nonNegative_bind_eq_ok_iff.mp hset
    exact Except.ok.inj hset ▸ .jacobianEpsilon hx
  · obtain ⟨b, rfl, hset⟩ := flagOf_bind_eq_ok_iff.mp h
    exact Except.ok.inj hset ▸ .compare b
  · obtain ⟨x, rfl, hset⟩ := numberOf_bind_eq_ok_iff.mp h
    split at hset
    · cases hset
    · rename_i hon
      obtain ⟨hx, hset⟩ := nonNegative_bind_eq_ok_iff.mp hset
      exact Except.ok.inj hset ▸ .criterion (by simpa using hon) hx
  · obtain ⟨x, rfl, hset⟩ := numberOf_bind_eq_ok_iff.mp h
    obtain ⟨hx, hset⟩ := nonNegative_bind_eq_ok_iff.mp hset
    exact Except.ok.inj hset ▸ .trustRegionSize hx
  · obtain ⟨b, rfl, hset⟩ := flagOf_bind_eq_ok_iff.mp h
    exact Except.ok.inj hset ▸ .useRelaxation b
  · obtain ⟨n, hvalue, h⟩ := typed_bind_eq_ok_iff.mp h
    exact Except.ok.inj h ▸ .relaxationTrigger hvalue
  · obtain ⟨x, rfl, hset⟩ := numberOf_bind_eq_ok_iff.mp h
    split at hset
    · cases hset
    · rename_i hon
      obtain ⟨hx, hset⟩ := nonNegative_bind_eq_ok_iff.mp hset
      exact Except.ok.inj hset ▸ .relaxationCoefficient (by simpa using hon) hx
  · cases h

theorem set_eq_ok_of_sets (h : t.Sets name value next) : t.set name value = .ok next := by
  cases h with
  | epsilon hx | jacobianEpsilon hx | trustRegionSize hx =>
      exact numberOf_bind_eq_ok_iff.mpr ⟨_, rfl, nonNegative_bind_eq_ok_iff.mpr ⟨hx, rfl⟩⟩
  | theta hx => exact numberOf_bind_eq_ok_iff.mpr ⟨_, rfl, if_pos hx⟩
  | iterMax hvalue hn => exact typed_bind_eq_ok_iff.mpr ⟨_, hvalue, if_neg hn⟩
  | compare b | useRelaxation b => rfl
  | criterion hon hx | relaxationCoefficient hon hx =>
      refine numberOf_bind_eq_ok_iff.mpr ⟨_, rfl, ?_⟩
      rw [hon]
      exact nonNegative_bind_eq_ok_iff.mpr ⟨hx, rfl⟩
  | relaxationTrigger hvalue => exact typed_bind_eq_ok_iff.mpr ⟨_, hvalue, rfl⟩

theorem set_eq_ok_iff : t.set name value = .ok next ↔ t.Sets name value next :=
  ⟨sets_of_set_eq_ok, set_eq_ok_of_sets⟩

/-- One event of a draft is one call: it changes the parameters as the call does, and nothing
else. -/
theorem draft_applyDeclaration_parameter (draft : Draft) (solvers : Solvers) (location : Location)
    (name : String) (value : Setting) :
    (draft.applyDeclaration solvers location (.parameter name value)).draft =
      { draft with tolerances :=
        (draft.tolerances.set name value).toOption.getD draft.tolerances } := by
  rw [Draft.applyDeclaration]
  cases draft.tolerances.set name value with
  | error fault => rfl
  | ok next => rfl

/-- Two parameters can only be set after something was switched on. -/
theorem Sets.switched (h : t.Sets name value next) :
    (name = "jacobianComparisonCriterion" → t.compareToNumericalJacobian = true) ∧
      (name = "relaxationCoefficient" → t.useRelaxation = true) := by
  cases h with
  | criterion hon _ => exact ⟨fun _ => hon, fun hname => absurd hname (by decide)⟩
  | relaxationCoefficient hon _ => exact ⟨fun hname => absurd hname (by decide), fun _ => hon⟩
  | _ => exact ⟨fun hname => absurd hname (by decide), fun hname => absurd hname (by decide)⟩

/-! ## What calls keep -/

/-- The values that a call could have set. -/
structure Valid (t : Tolerances) : Prop where
  iterMax : 1 ≤ t.iterMax
  theta : 0 ≤ t.theta ∧ t.theta ≤ 1
  epsilon : Magnitude t.epsilon
  explicitJacobianEpsilon : ∀ x ∈ t.explicitJacobianEpsilon, Magnitude x
  explicitCriterion : ∀ x ∈ t.explicitCriterion, Magnitude x
  trustRegionSize : Magnitude t.trustRegionSize
  relaxationCoefficient : Magnitude t.relaxationCoefficient

theorem valid_defaults : Valid {} where
  iterMax := by decide
  theta := by decide +kernel
  epsilon := by unfold Magnitude; decide +kernel
  explicitJacobianEpsilon := nofun
  explicitCriterion := nofun
  trustRegionSize := by unfold Magnitude; decide +kernel
  relaxationCoefficient := by unfold Magnitude; decide +kernel

theorem Valid.sets (h : t.Valid) (hsets : t.Sets name value next) : next.Valid := by
  cases hsets with
  | epsilon hx => exact { h with epsilon := hx }
  | theta hx => exact { h with theta := hx }
  | iterMax _ hn => exact { h with iterMax := Nat.pos_of_ne_zero hn }
  | jacobianEpsilon hx =>
      exact { h with explicitJacobianEpsilon := fun _ hy => Option.mem_some.mp hy ▸ hx }
  | criterion _ hx => exact { h with explicitCriterion := fun _ hy => Option.mem_some.mp hy ▸ hx }
  | trustRegionSize hx => exact { h with trustRegionSize := hx }
  | relaxationCoefficient _ hx => exact { h with relaxationCoefficient := hx }
  | compare _ | useRelaxation _ | relaxationTrigger _ => exact { h with }

/-! ## The last value given -/

/-- The value that the last of the calls with a given name gives. -/
def lastGiven {α : Type} (calls : List (String × Setting)) (name : String)
    (read : Setting → Option α) : Option α :=
  (calls.reverse.find? (·.1 == name)).bind fun call => read call.2

/-- Each parameter as the last call that names it gives it. -/
def ofCalls (calls : List (String × Setting)) : Tolerances where
  epsilon := (lastGiven calls "epsilon" Setting.number?).getD 1e-8
  theta := (lastGiven calls "theta" Setting.number?).getD 0.5
  iterMax := (lastGiven calls "iterMax" Setting.word?).getD 100
  explicitJacobianEpsilon := lastGiven calls "numerical_jacobian_epsilon" Setting.number?
  compareToNumericalJacobian :=
    (lastGiven calls "compareToNumericalJacobian" Setting.flag?).getD false
  explicitCriterion := lastGiven calls "jacobianComparisonCriterion" Setting.number?
  trustRegionSize := (lastGiven calls "powell_dogleg_trust_region_size" Setting.number?).getD 1e-4
  useRelaxation := (lastGiven calls "useRelaxation" Setting.flag?).getD false
  relaxationTrigger := (lastGiven calls "relaxationTrigger" Setting.word?).getD 10
  relaxationCoefficient := (lastGiven calls "relaxationCoefficient" Setting.number?).getD 0.5

section

variable {α : Type} {calls : List (String × Setting)} {read : Setting → Option α}

theorem lastGiven_concat (call : String × Setting) :
    lastGiven (calls ++ [call]) name read = if call.1 = name then read call.2
      else lastGiven calls name read := by
  by_cases h : call.1 = name
  · simp [lastGiven, h]
  · simp [lastGiven, h]

theorem exists_mem_of_lastGiven {a : α} (h : lastGiven calls name read = some a) :
    ∃ value, (name, value) ∈ calls ∧ read value = some a := by
  obtain ⟨⟨_, value⟩, hfind, hread⟩ := Option.bind_eq_some_iff.mp h
  have hname := List.find?_some hfind
  obtain rfl := eq_of_beq hname
  exact ⟨value, List.mem_reverse.mp (List.mem_of_find?_eq_some hfind), hread⟩

end

/-- A call gives the parameter it names another last value, and no other. -/
theorem eq_ofCalls_concat {calls : List (String × Setting)}
    (h : (ofCalls calls).Sets name value next) :
    next = ofCalls (calls ++ [(name, value)]) := by
  cases h with
  | iterMax hvalue _ | relaxationTrigger hvalue => simp [ofCalls, lastGiven_concat, hvalue]
  | _ => simp [ofCalls, lastGiven_concat, Setting.number?, Setting.flag?]

/-! ## Runs -/

/-- The parameters with the calls that were accepted. -/
structure Session where
  tolerances : Tolerances := {}
  accepted : List (String × Setting) := []

/-- One more call. -/
def Session.call (session : Session) (call : String × Setting) : Session :=
  ((session.tolerances.set call.1 call.2).toOption.map fun next =>
    { tolerances := next, accepted := session.accepted ++ [call] }).getD session

/-- Calls from the defaults. -/
def session (calls : List (String × Setting)) : Session :=
  calls.foldl Session.call {}

theorem Session.call_of_sets {s : Session} (h : s.tolerances.Sets name value next) :
    s.call (name, value) = ⟨next, s.accepted ++ [(name, value)]⟩ := by
  rw [Session.call, set_eq_ok_iff.mpr h]
  rfl

theorem Session.tolerances_call (s : Session) (call : String × Setting) :
    (s.call call).tolerances = (s.tolerances.set call.1 call.2).toOption.getD s.tolerances := by
  rw [Session.call]
  cases s.tolerances.set call.1 call.2 with
  | error fault => rfl
  | ok next => rfl

/-- A call that fails does nothing. -/
theorem Session.call_of_not_sets {s : Session} (h : ∀ next, ¬ s.tolerances.Sets name value next) :
    s.call (name, value) = s := by
  rw [Session.call]
  cases hset : s.tolerances.set name value with
  | error fault => rfl
  | ok next => exact absurd (set_eq_ok_iff.mp hset) (h next)

theorem session_concat (calls : List (String × Setting)) (call : String × Setting) :
    session (calls ++ [call]) = (session calls).call call := by
  rw [session, List.foldl_append]
  rfl

/-- What holds of the defaults and is kept by accepted calls holds after all calls. -/
theorem session_induction {P : Session → Prop} (hdefaults : P {})
    (hstep : ∀ s name value next, P s → s.tolerances.Sets name value next →
      P ⟨next, s.accepted ++ [(name, value)]⟩)
    (calls : List (String × Setting)) : P (session calls) := by
  have hrun : ∀ s, P s → P (calls.foldl Session.call s) := by
    induction calls with
    | nil => exact fun _ h => h
    | cons call rest ih =>
        intro s h
        refine ih (s.call call) ?_
        by_cases hsets : ∃ next, s.tolerances.Sets call.1 call.2 next
        · obtain ⟨next, hsets⟩ := hsets
          rw [Session.call_of_sets hsets]
          exact hstep s call.1 call.2 next h hsets
        · rw [Session.call_of_not_sets (not_exists.mp hsets)]
          exact h
  exact hrun {} hdefaults

theorem valid_session (calls : List (String × Setting)) : (session calls).tolerances.Valid :=
  session_induction (P := fun s => s.tolerances.Valid) valid_defaults
    (fun _ _ _ _ h hsets => h.sets hsets) calls

theorem tolerances_session (calls : List (String × Setting)) :
    (session calls).tolerances = ofCalls (session calls).accepted := by
  refine session_induction (P := fun s => s.tolerances = ofCalls s.accepted) rfl
    (fun s name value next h hsets => ?_) calls
  rw [h] at hsets
  exact eq_ofCalls_concat hsets

/-! ## What was switched on before -/

/-- Each call that sets `guarded` comes after one that switches `guard` on. -/
def After (guarded guard : String) (calls : List (String × Setting)) : Prop :=
  ∀ before value after, calls = before ++ (guarded, value) :: after →
    (guard, Setting.flag true) ∈ before

theorem After.concat {guarded guard : String} {calls : List (String × Setting)}
    (h : After guarded guard calls)
    (hcall : name = guarded → (guard, .flag true) ∈ calls) :
    After guarded guard (calls ++ [(name, value)]) := by
  intro before given after heq
  obtain rfl | ⟨rest, last, rfl⟩ := List.eq_nil_or_concat after
  · -- the call that was added is the one that sets it
    obtain ⟨rfl, hlast⟩ := List.append_inj' heq rfl
    exact hcall (congrArg Prod.fst (List.cons.inj hlast).1)
  · have hinit : calls = before ++ (guarded, given) :: rest := by
      rw [List.concat_eq_append, ← List.cons_append, ← List.append_assoc] at heq
      exact (List.append_inj' heq rfl).1
    exact h before given rest hinit

theorem mem_of_lastGiven_flag {calls : List (String × Setting)}
    (h : (lastGiven calls name Setting.flag?).getD false = true) : (name, .flag true) ∈ calls := by
  cases hgiven : lastGiven calls name Setting.flag? with
  | none => rw [hgiven] at h; cases h
  | some b =>
      obtain ⟨value, hmem, hflag⟩ := exists_mem_of_lastGiven hgiven
      rw [hgiven] at h
      obtain rfl : b = true := h
      cases value with
      | flag c =>
          obtain rfl := Option.some.inj hflag
          exact hmem
      | number x => cases hflag
      | text s => cases hflag

/-- The two guarded parameters are only set after what guards them was switched on. -/
theorem after_session (calls : List (String × Setting)) :
    After "jacobianComparisonCriterion" "compareToNumericalJacobian" (session calls).accepted ∧
      After "relaxationCoefficient" "useRelaxation" (session calls).accepted := by
  refine (session_induction (P := fun s => s.tolerances = ofCalls s.accepted ∧
    After "jacobianComparisonCriterion" "compareToNumericalJacobian" s.accepted ∧
    After "relaxationCoefficient" "useRelaxation" s.accepted) ⟨rfl, by simp [After],
    by simp [After]⟩ ?_ calls).2
  intro s name value next ⟨hcalls, hcompare, hrelax⟩ hsets
  rw [hcalls] at hsets
  exact ⟨eq_ofCalls_concat hsets,
    hcompare.concat fun hname => mem_of_lastGiven_flag (hsets.switched.1 hname),
    hrelax.concat fun hname => mem_of_lastGiven_flag (hsets.switched.2 hname)⟩

/-- A number that was given in a call that comes after one that switches `guard` on. -/
theorem After.exists_of_lastGiven {guarded guard : String}
    {calls : List (String × Setting)} {x : Float}
    (h : After guarded guard calls) (hgiven : lastGiven calls guarded Setting.number? = some x) :
    ∃ before after, calls = before ++ (guarded, .number x) :: after ∧ (guard, .flag true) ∈
      before := by
  obtain ⟨value, hmem, hnumber⟩ := exists_mem_of_lastGiven hgiven
  obtain ⟨before, after, heq⟩ := List.append_of_mem hmem
  cases value with
  | number y =>
      obtain rfl := Option.some.inj hnumber
      exact ⟨before, after, heq, h before _ after heq⟩
  | flag b => cases hnumber
  | text s => cases hnumber

/-- **Parameters stay valid and independent.**  After any calls from the defaults, with any names
and values:

* all parameters are valid;
* a criterion of the comparison, or a coefficient of relaxation other than the default, was set by
  an accepted call that came after one that switched the comparison, or relaxation, on;
* a further call is accepted exactly if it gives a proper value, and then changes the parameter it
  names and no other; a call that is not accepted changes nothing, neither here nor in a draft;
* each parameter is what the last accepted call that names it gives;
* the step of the numerical Jacobian is what the last accepted call gives, whatever the threshold,
  and a tenth of the threshold while there is none;
* there is a criterion exactly while the comparison is on. -/
theorem session_valid_independent (calls : List (String × Setting)) :
    let t := (session calls).tolerances
    let accepted := (session calls).accepted
    t.Valid ∧
    (∀ x, t.explicitCriterion = some x → ∃ before after,
      accepted = before ++ ("jacobianComparisonCriterion", .number x) :: after ∧
        ("compareToNumericalJacobian", .flag true) ∈ before) ∧
    (t.relaxationCoefficient ≠ ({} : Tolerances).relaxationCoefficient → ∃ before after,
      accepted = before ++ ("relaxationCoefficient", .number t.relaxationCoefficient) :: after ∧
        ("useRelaxation", .flag true) ∈ before) ∧
    (∀ name value next, t.set name value = .ok next ↔ t.Sets name value next) ∧
    (∀ name value next, t.Sets name value next →
      session (calls ++ [(name, value)]) = ⟨next, accepted ++ [(name, value)]⟩) ∧
    (∀ name value, (∀ next, ¬ t.Sets name value next) →
      session (calls ++ [(name, value)]) = session calls) ∧
    (∀ (draft : Draft) (solvers : Solvers) (location : Location) (name : String) (value : Setting),
      draft.tolerances = t →
      (draft.applyDeclaration solvers location (.parameter name value)).draft =
        { draft with tolerances := (session (calls ++ [(name, value)])).tolerances }) ∧
    t = ofCalls accepted ∧
    t.numericalJacobianEpsilon =
      (lastGiven accepted "numerical_jacobian_epsilon" Setting.number?).getD (t.epsilon / 10) ∧
    (t.comparisonCriterion?.isSome ↔ t.compareToNumericalJacobian = true) := by
  intro t accepted
  obtain ⟨hcompare, hrelax⟩ := after_session calls
  have hcalls : t = ofCalls accepted := tolerances_session calls
  refine ⟨valid_session calls, fun x hx => ?_, fun hother => ?_,
    fun name value next => set_eq_ok_iff, fun name value next hsets => ?_, fun name value hfails =>
      ?_, fun draft solvers location name value hdraft => ?_, hcalls, ?_, ?_⟩
  · rw [hcalls] at hx
    exact hcompare.exists_of_lastGiven hx
  · have hcoefficient : t.relaxationCoefficient =
        (lastGiven accepted "relaxationCoefficient" Setting.number?).getD 0.5 :=
      congrArg relaxationCoefficient hcalls
    cases hgiven : lastGiven accepted "relaxationCoefficient" Setting.number? with
    | none =>
        rw [hgiven] at hcoefficient
        exact absurd hcoefficient hother
    | some x =>
        rw [hgiven] at hcoefficient
        rw [hcoefficient]
        exact hrelax.exists_of_lastGiven hgiven
  · rw [session_concat]
    exact Session.call_of_sets hsets
  · rw [session_concat]
    exact Session.call_of_not_sets hfails
  · rw [draft_applyDeclaration_parameter, hdraft, session_concat, Session.tolerances_call]
  · rw [numericalJacobianEpsilon]
    exact congrArg (fun u : Tolerances => u.explicitJacobianEpsilon.getD (t.epsilon / 10)) hcalls
  · unfold comparisonCriterion?
    split
    · rename_i hon
      exact ⟨fun _ => hon, fun _ => rfl⟩
    · rename_i hoff
      exact ⟨nofun, fun hon => absurd hon hoff⟩

/-- Calls of which three fail: the comparison is not on yet, a number is too large, and a text is no
number. -/
def switchingCalls : List (String × Setting) :=
  [("jacobianComparisonCriterion", .number 1), ("compareToNumericalJacobian", .flag true),
    ("jacobianComparisonCriterion", .number 0.001), ("compareToNumericalJacobian", .flag false),
    ("numerical_jacobian_epsilon", .number 1e-9), ("theta", .number 2), ("epsilon", .number 1e-4),
    ("epsilon", .text "1")]

theorem session_valid_independent_switching :
    (session switchingCalls).accepted.map Prod.fst =
      ["compareToNumericalJacobian", "jacobianComparisonCriterion", "compareToNumericalJacobian",
        "numerical_jacobian_epsilon", "epsilon"] ∧
    (session switchingCalls).tolerances.explicitCriterion = some 0.001 ∧
    (session switchingCalls).tolerances.Valid ∧
    (∃ before after, (session switchingCalls).accepted =
      before ++ ("jacobianComparisonCriterion", .number 0.001) :: after ∧
        ("compareToNumericalJacobian", .flag true) ∈ before) ∧
    (session switchingCalls).tolerances.comparisonCriterion?.isSome = false := by
  have hcriterion : (session switchingCalls).tolerances.explicitCriterion = some 0.001 := by
    decide +kernel
  obtain ⟨hvalid, hswitched, -⟩ := session_valid_independent switchingCalls
  exact ⟨by decide +kernel, hcriterion, hvalid, hswitched 0.001 hcriterion, by decide +kernel⟩

end Constitutive.Tolerances
