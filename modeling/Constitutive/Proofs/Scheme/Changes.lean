import Constitutive.Proofs.Scheme.Requests
import Mathlib.Data.List.TakeWhile

/-!
# What one event changes

An event puts something new into one part of the draft, and `Change` lists the ways in which it can
do so: a new entry goes behind the old ones, and an algorithm or an overall limit is only set where
there is none (`change_apply`).

Most declarations make all their checks first, so a fault leaves the draft as it was.  Two steps do
not.  Blocks of the inverse are asked for one by one, and those before the first block with an
undeclared variable stay (`requestBlocks_eq`).  At the end of a draft the default algorithm is
chosen before the parameters are checked.  Nothing else is left behind by a step that fails
(`failed_steps_leave`).
-/

namespace Constitutive

namespace InverseBlock

/-- The blocks that are not known yet, each of them once. -/
def fresh : List InverseBlock → List InverseBlock → List InverseBlock
  | _, [] => []
  | known, block :: rest =>
    if known.contains block then fresh known rest else block :: fresh (known ++ [block]) rest

theorem mem_append_fresh {known blocks : List InverseBlock} {block : InverseBlock}
    (h : block ∈ blocks) :
    block ∈ known ++ fresh known blocks := by
  induction blocks generalizing known with
  | nil => exact absurd h List.not_mem_nil
  | cons first rest ih =>
      unfold fresh
      split
      · rename_i hknown
        rcases List.mem_cons.mp h with rfl | h
        · exact List.mem_append_left _ (by simpa using hknown)
        · exact ih h
      · rcases List.mem_cons.mp h with rfl | h
        · exact List.mem_append_right _ (List.mem_cons_self ..)
        · have hrest : block ∈ (known ++ [first]) ++ fresh (known ++ [first]) rest := ih h
          simpa using hrest

end InverseBlock

open InverseBlock

namespace Draft

variable {draft next : Draft} {solvers : Solvers}

/-! ## Requests, one block after the other -/

/-- Both variables of a block have been declared. -/
def declaresBoth (draft : Draft) (block : InverseBlock) : Bool :=
  draft.roster.contains block.unknown && draft.roster.contains block.residual

/-- The first variable of a block that has not been declared. -/
def undeclared? (draft : Draft) (block : InverseBlock) : Option String :=
  [block.unknown, block.residual].find? fun name => !draft.roster.contains name

theorem declaresBoth_of_undeclared?_eq_none {block : InverseBlock}
    (h : draft.undeclared? block = none) :
    draft.declaresBoth block = true := by
  simpa [undeclared?, declaresBoth] using h

/-- A request goes as far as the blocks have declared variables, and fails with the first variable
that is not declared. -/
theorem requestBlocks_eq (blocks : List InverseBlock) (draft : Draft) :
    requestBlocks blocks draft =
      { draft := { draft with inverseBlocks :=
          draft.inverseBlocks ++ fresh draft.inverseBlocks (blocks.takeWhile draft.declaresBoth) }
        fault := (blocks.findSome? draft.undeclared?).map fun name =>
          .declaration (.unknownVariable name) none } := by
  induction blocks generalizing draft with
  | nil => simp [requestBlocks, fresh]
  | cons block rest ih =>
      cases hunknown : draft.roster.contains block.unknown with
      | false => simp [requestBlocks, require, declaresBoth, undeclared?, fresh, hunknown]
      | true =>
          cases hresidual : draft.roster.contains block.residual with
          | false =>
              simp [requestBlocks, require, declaresBoth, undeclared?, fresh, hunknown, hresidual]
          | true =>
              have hboth : draft.declaresBoth block = true := by
                simp [declaresBoth, hunknown, hresidual]
              have hnone : draft.undeclared? block = none := by
                simp [undeclared?, hunknown, hresidual]
              rw [List.takeWhile_cons_of_pos hboth, List.findSome?_cons, hnone]
              unfold requestBlocks fresh
              simp only [require, hunknown, hresidual, if_true]
              split
              · exact ih draft
              · -- the request goes on with the block among the known ones, and the same variables
                rw [ih { draft with inverseBlocks := draft.inverseBlocks ++ [block] },
                  List.append_assoc]
                rfl

/-! ## The ways to change a draft -/

/-- What one event can make of a draft. -/
inductive Change (solvers : Solvers) (draft : Draft) : Draft → Prop
  | nothing : Change solvers draft draft
  | declare {name : String} {rank : Rank} {arraySize : Nat} {roster : Roster}
      (hdeclare : draft.roster.declare name rank arraySize = .ok roster) :
      Change solvers draft { draft with roster := roster }
  | algorithm {name : String} {strategy : Strategy} (hfirst : draft.algorithm = none)
      (hfound : solvers.get? name = some strategy) :
      Change solvers draft { draft with algorithm := some (name, strategy) }
  | tolerances (tolerances : Tolerances) :
      Change solvers draft { draft with tolerances := tolerances }
  | factor {name : String} (side : Side) (expression : String) (hname : name ∈ draft.roster.names) :
      Change solvers draft { draft with factors :=
        { draft.factors with entries := draft.factors.entries ++ [((name, side), expression)] } }
  | limit {name : String} (value : Float) (hname : name ∈ draft.roster.names) :
      Change solvers draft { draft with limits :=
        { draft.limits with entries := draft.limits.entries ++ [(name, value)] } }
  | overallLimit (value : Float) (hfirst : draft.limits.overall = none) :
      Change solvers draft { draft with limits := { draft.limits with overall := some value } }
  | code {role : Role} (code : CodeText) (hallowed : draft.allowsCode role = .ok ()) :
      Change solvers draft { draft with codes := draft.codes ++ [(role, code)] }
  | blocks (requested : List InverseBlock)
      (hdeclared : ∀ block ∈ requested, draft.declaresBoth block = true) :
      Change solvers draft
        { draft with inverseBlocks := draft.inverseBlocks ++ fresh draft.inverseBlocks requested }

theorem change_update {α : Type} {part : Except DeclarationFault α} {put : α → Draft}
    (hput : ∀ a, part = .ok a → Change solvers draft (put a)) :
    Change solvers draft (draft.update part put).draft := by
  cases hpart : part with
  | error fault => exact .nothing
  | ok a => exact hput a hpart

theorem change_chooseAlgorithm (solvers : Solvers) (name : String) (draft : Draft) :
    Change solvers draft (draft.chooseAlgorithm solvers name).draft := by
  unfold chooseAlgorithm
  split
  · exact .nothing
  · rename_i hfree
    split
    · exact .nothing
    · rename_i strategy hfound
      exact .algorithm (by simpa using hfree) hfound

theorem change_of_addLimit_eq_ok {name : Option String} {value : Float} {limits : Limits}
    (h : draft.addLimit name value = .ok limits) :
    Change solvers draft { draft with limits := limits } := by
  cases name with
  | none =>
      simp only [addLimit] at h
      unfold Limits.setOverall at h
      split at h
      · cases h
      · split at h
        · cases h
        · rename_i hnone
          obtain rfl := Except.ok.inj h
          exact .overallLimit value (by simpa using hnone)
  | some name =>
      obtain ⟨_, hrequire, h⟩ := bind_eq_ok_iff.mp h
      unfold Limits.set at h
      split at h
      · cases h
      · split at h
        · cases h
        · obtain rfl := Except.ok.inj h
          exact .limit value (mem_names_of_require_eq_ok hrequire)

theorem change_of_addCode_eq_ok {role : Role} {code : CodeText} {codes : List (Role × CodeText)}
    (h : draft.addCode role code = .ok codes) :
    Change solvers draft { draft with codes := codes } := by
  obtain ⟨_, hallowed, h⟩ := bind_eq_ok_iff.mp h
  split at h
  · cases h
  · obtain rfl := Except.ok.inj h
    exact .code code hallowed

theorem change_applyDeclaration (solvers : Solvers) (location : Location) (draft : Draft)
    (declaration : Declaration) :
    Change solvers draft (draft.applyDeclaration solvers location declaration).draft := by
  cases declaration with
  | integrationVariable name rank arraySize =>
      exact change_update fun _ hdeclare => .declare hdeclare
  | algorithm name => exact change_chooseAlgorithm solvers name draft
  | parameter name value => exact change_update fun tolerances _ => .tolerances tolerances
  | compareToNumericalJacobian compare => exact .tolerances _
  | normalisationFactor name side factor =>
      simp only [applyDeclaration]
      split
      · rename_i factors hok
        obtain ⟨hname, expression, rfl⟩ := addFactor_eq_ok hok
        exact .factor side expression hname
      · exact .nothing
  | incrementLimit name value => exact change_update fun _ hok => change_of_addLimit_eq_ok hok
  | code role text => exact change_update fun _ hok => change_of_addCode_eq_ok hok
  | tangentBlocks blocks =>
      simp only [applyDeclaration, requestBlocks_eq]
      exact .blocks _ fun block hblock => List.mem_takeWhile_imp hblock

/-- Whatever its outcome, an event changes the draft in one of these ways. -/
theorem change_apply (solvers : Solvers) (event : Event) (draft : Draft) :
    Change solvers draft (draft.apply solvers event).draft := by
  unfold apply
  split
  · exact change_applyDeclaration solvers event.location draft event.declaration
  · exact .nothing

/-! ## Steps that fail -/

/-- The blocks of the inverse that a declaration leaves in the draft even if it fails. -/
def leftBehind (draft : Draft) : Declaration → List InverseBlock
  | .tangentBlocks blocks => fresh draft.inverseBlocks (blocks.takeWhile draft.declaresBoth)
  | _ => []

theorem update_of_fault {α : Type} {part : Except DeclarationFault α} {put : α → Draft}
    {fault : Fault}
    (h : (draft.update part put).fault = some fault) : (draft.update part put).draft = draft := by
  cases part with
  | error cause => rfl
  | ok a => cases h

theorem chooseAlgorithm_of_fault {name : String} {fault : Fault}
    (h : (draft.chooseAlgorithm solvers name).fault = some fault) :
    (draft.chooseAlgorithm solvers name).draft = draft := by
  unfold chooseAlgorithm at h ⊢
  split at h
  · rename_i hsome
    rw [if_pos hsome]
  · rename_i hnone
    rw [if_neg hnone]
    split at h
    · rfl
    · cases h

theorem applyDeclaration_of_fault {location : Location} {declaration : Declaration} {fault : Fault}
    (h : (draft.applyDeclaration solvers location declaration).fault = some fault) :
    (draft.applyDeclaration solvers location declaration).draft =
      { draft with inverseBlocks := draft.inverseBlocks ++ draft.leftBehind declaration } := by
  -- all declarations but one leave no blocks behind
  have hkeeps : draft = { draft with inverseBlocks := draft.inverseBlocks ++ [] } := by
    rw [List.append_nil]
  cases declaration with
  | integrationVariable name rank arraySize => exact (update_of_fault h).trans hkeeps
  | algorithm name => exact (chooseAlgorithm_of_fault h).trans hkeeps
  | parameter name value => exact (update_of_fault h).trans hkeeps
  | compareToNumericalJacobian compare => cases h
  | normalisationFactor name side factor =>
      simp only [applyDeclaration] at h ⊢
      split at h
      · cases h
      · exact hkeeps
  | incrementLimit name value => exact (update_of_fault h).trans hkeeps
  | code role text => exact (update_of_fault h).trans hkeeps
  | tangentBlocks blocks =>
      simp only [applyDeclaration, requestBlocks_eq]
      rfl

theorem apply_of_fault {event : Event} {fault : Fault}
    (h : (draft.apply solvers event).fault = some fault) :
    (∀ cause place, fault = .declaration cause place → place = some event.location) ∧
      (draft.apply solvers event).draft =
        { draft with inverseBlocks := draft.inverseBlocks ++
          draft.leftBehind event.declaration } := by
  unfold apply at h ⊢
  split at h
  · rename_i happlies
    obtain ⟨cause, hcause, rfl⟩ := Option.map_eq_some_iff.mp h
    rw [if_pos happlies]
    refine ⟨fun kind place heq => ?_, applyDeclaration_of_fault hcause⟩
    cases cause with
    | declaration kind' place' => exact (Fault.declaration.inj heq).2.symm
    | internal kind' => cases heq
  · cases h

/-- The draft whose end fails has the default algorithm if it had none and the default is a
registered one. -/
theorem finish_of_fault {defaultAlgorithm : String} {fault : Fault}
    (h : (draft.finish solvers defaultAlgorithm).fault = some fault) :
    (draft.finish solvers defaultAlgorithm).draft =
      { draft with algorithm :=
          draft.algorithm.or ((solvers.get? defaultAlgorithm).map fun strategy =>
              (defaultAlgorithm, strategy)) } := by
  unfold finish at h ⊢
  cases halgorithm : draft.algorithm with
  | some chosen =>
      simp only [halgorithm, Option.isNone_some, Bool.false_eq_true, if_false,
        Option.some_or] at h ⊢
      cases hvalid : draft.tolerances.validate with
      | error fault => simp [← halgorithm]
      | ok _ => simp [hvalid] at h
  | none =>
      simp only [halgorithm, Option.isNone_none, if_true, chooseAlgorithm, Option.isSome_none,
        Bool.false_eq_true, if_false, Option.none_or] at h ⊢
      cases hfound : solvers.get? defaultAlgorithm with
      | none => simp [← halgorithm]
      | some strategy =>
          cases hvalid : draft.tolerances.validate with
          | error fault => simp
          | ok _ => simp [hfound, hvalid] at h

theorem withInverseBlocks_eq_self_iff {blocks : List InverseBlock} :
    { draft with inverseBlocks := blocks } = draft ↔ blocks = draft.inverseBlocks :=
  ⟨fun h => congrArg inverseBlocks h, fun h => h ▸ rfl⟩

theorem withAlgorithm_eq_self_iff {algorithm : Option (String × Strategy)} :
    { draft with algorithm := algorithm } = draft ↔ algorithm = draft.algorithm :=
  ⟨fun h => congrArg Draft.algorithm h, fun h => h ▸ rfl⟩

/-- What a step that fails leaves behind: an event leaves the blocks of a request up to the first
with an undeclared variable, the end of the draft leaves the default algorithm, and both leave
nothing else.  Faults of the description stand where the event stands. -/
theorem failed_steps_leave (solvers : Solvers) (draft : Draft) :
    (∀ event fault, (draft.apply solvers event).fault = some fault →
      (∀ cause place, fault = .declaration cause place → place = some event.location) ∧
        (draft.apply solvers event).draft =
          { draft with inverseBlocks := draft.inverseBlocks ++
            draft.leftBehind event.declaration } ∧
        ((draft.apply solvers event).draft = draft ↔ draft.leftBehind event.declaration = [])) ∧
      ∀ defaultAlgorithm fault, (draft.finish solvers defaultAlgorithm).fault = some fault →
        (draft.finish solvers defaultAlgorithm).draft =
            { draft with algorithm :=
                draft.algorithm.or ((solvers.get? defaultAlgorithm).map fun strategy =>
                  (defaultAlgorithm, strategy)) } ∧
          ((draft.finish solvers defaultAlgorithm).draft = draft ↔
            draft.algorithm.isSome = true ∨ solvers.get? defaultAlgorithm = none) := by
  refine ⟨fun event fault h => ?_, fun defaultAlgorithm fault h => ?_⟩
  · obtain ⟨hplace, hdraft⟩ := apply_of_fault h
    refine ⟨hplace, hdraft, ?_⟩
    rw [hdraft, withInverseBlocks_eq_self_iff, List.append_right_eq_self]
  · have hdraft := finish_of_fault h
    refine ⟨hdraft, ?_⟩
    rw [hdraft, withAlgorithm_eq_self_iff]
    cases draft.algorithm <;> cases solvers.get? defaultAlgorithm <;> simp

/-- A draft with one scalar. -/
def oneScalar : Draft :=
  (apply .builtin { location := ⟨1, 1⟩, declaration := .integrationVariable "x" .scalar 1 }
    { hypothesis := .tridimensional }).draft

/-- A request for two blocks, the second of which has an undeclared variable. -/
def halfDeclared : Event where
  location := ⟨2, 1⟩
  declaration := .tangentBlocks [⟨"x", "x"⟩, ⟨"x", "y"⟩]

/-- A draft whose relaxation would start too late. -/
def lateRelaxation : Draft where
  hypothesis := .tridimensional
  tolerances := { useRelaxation := true, relaxationTrigger := 99 }

theorem halfDeclared_fails :
    (oneScalar.apply .builtin halfDeclared).fault =
      some (.declaration (.unknownVariable "y") (some ⟨2, 1⟩)) := by
  rfl

theorem lateRelaxation_fails :
    (lateRelaxation.finish .builtin "NewtonRaphson").fault =
      some (.declaration
        (.invalidParameter "relaxationTrigger" (.relaxationTooLate 99 100)) none) := by
  rfl

/-- Steps that fail can leave something behind, a requested block or the default algorithm. -/
theorem failed_steps_change_draft :
    ((oneScalar.apply .builtin halfDeclared).fault =
      some (.declaration (.unknownVariable "y") (some ⟨2, 1⟩)) ∧
        oneScalar.inverseBlocks = [] ∧ (oneScalar.apply .builtin halfDeclared).draft.inverseBlocks =
          [⟨"x", "x"⟩]) ∧
      ((lateRelaxation.finish .builtin "NewtonRaphson").fault.isSome = true ∧
        lateRelaxation.algorithm = none ∧
        (lateRelaxation.finish .builtin "NewtonRaphson").draft.algorithm =
          some ("NewtonRaphson", newtonRaphson)) :=
  ⟨⟨halfDeclared_fails, rfl, rfl⟩, congrArg Option.isSome lateRelaxation_fails, rfl, rfl⟩

theorem failed_steps_leave_halfDeclared :
    (oneScalar.apply .builtin halfDeclared).draft =
      { oneScalar with inverseBlocks := [⟨"x", "x"⟩] } ∧
      (lateRelaxation.finish .builtin "NewtonRaphson").draft ≠ lateRelaxation := by
  obtain ⟨hevents, -⟩ := failed_steps_leave .builtin oneScalar
  obtain ⟨-, hends⟩ := failed_steps_leave .builtin lateRelaxation
  refine ⟨(hevents halfDeclared _ halfDeclared_fails).2.1, fun hsame => ?_⟩
  have hkept := (hends "NewtonRaphson" _ lateRelaxation_fails).2.mp hsame
  exact hkept.elim nofun nofun

end Draft

end Constitutive
