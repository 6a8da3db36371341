import Constitutive.Scheme.CodeText
import Constitutive.Scheme.Limits
import Constitutive.Scheme.Notice
import Constitutive.Scheme.Tolerances
import Constitutive.Solver.Builtin
import Constitutive.Unknowns.Roster

/-!
# Drafts

A draft is everything known about a behaviour under one hypothesis.  It is built by applying the
events of a description one by one.  An event that fails leaves what it had done before it failed.
-/

namespace Constitutive

/-- Code given for some role. -/
structure CodeText where
  text : String
  location : Location
  deriving DecidableEq, Repr

/-- What is known about a behaviour under one hypothesis. -/
structure Draft where
  hypothesis : Hypothesis
  roster : Roster := {}
  /-- The chosen algorithm and its strategy. -/
  algorithm : Option (String × Strategy) := none
  tolerances : Tolerances := {}
  factors : Factors := {}
  limits : Limits := {}
  codes : List (Role × CodeText) := []
  inverseBlocks : List InverseBlock := []

/-- A draft after an event, the notices given, and the fault if the event failed. -/
structure Applied where
  draft : Draft
  notices : List Notice := []
  fault : Option Fault := none

namespace Draft

/-- The code given for a role. -/
def code? (draft : Draft) (role : Role) : Option CodeText :=
  draft.codes.lookup role

/-- The strategy of the chosen algorithm. -/
def solver? (draft : Draft) : Option Strategy :=
  draft.algorithm.map (·.2)

/-- The draft with a part replaced, or as it was if that part has a fault. -/
def update {α : Type} (draft : Draft) (part : Except DeclarationFault α) (put : α → Draft) :
    Applied :=
  match part with
  | .ok a => { draft := put a }
  | .error fault => { draft := draft, fault := some fault }

/-- A variable must have been declared. -/
def require (draft : Draft) (name : String) : Except DeclarationFault Unit :=
  if draft.roster.contains name then .ok () else .error (.unknownVariable name)

/-- Chooses the algorithm, which can be done once. -/
def chooseAlgorithm (solvers : Solvers) (name : String) (draft : Draft) : Applied :=
  if draft.algorithm.isSome
    then { draft := draft, fault := some (DeclarationFault.algorithmAlreadyDefined : Fault) }
  else match solvers.get? name with
    | none => { draft := draft, fault := some (DeclarationFault.unknownAlgorithm name : Fault) }
    | some strategy =>
      { draft := { draft with algorithm := some (name, strategy) }
        notices := [.usingAlgorithm draft.hypothesis name] }

/-- The expression of a normalisation factor. -/
def factorExpression (name : String) : Setting → Except DeclarationFault String
  | .number x =>
    if 0 < x ∧ x.isFinite then .ok (Decimal.literal x)
      else .error (.invalidFactor name (.notPositive x))
  | .text s =>
    let expression := Text.trim s.toList
    if expression ≠ [] then .ok (String.ofList expression)
      else .error (.invalidFactor name .emptyExpression)
  | .flag _ => .error (.invalidFactor name .notAnExpression)

/-- The factors with one more, of a declared variable. -/
def addFactor (draft : Draft) (name : String) (side : Side) (factor : Setting) :
    Except Fault Factors := do
  match draft.require name, factorExpression name factor with
  | .error fault, _ => .error fault
  | _, .error fault => .error fault
  | .ok (), .ok expression => draft.factors.set name side expression

/-- The limits with one more. -/
def addLimit (draft : Draft) (name : Option String) (value : Float) :
    Except DeclarationFault Limits :=
  match name with
  | none => draft.limits.setOverall value
  | some name => do
    draft.require name
    draft.limits.set name value

/-- Whether code of a role can be given: what initialises a matrix must fit the algorithm. -/
def allowsCode (draft : Draft) (role : Role) : Except DeclarationFault Unit :=
  let needs (allowed : Capabilities → Bool) : Except DeclarationFault Unit :=
    match draft.solver? with
    | none => .error (.undefinedAlgorithm role)
    | some solver =>
      if allowed solver.capabilities then .ok ()
        else .error (.initialisationNotAllowed solver.name role)
  match role with
  | .initializeJacobian => needs (·.allowsJacobianInitialisation)
  | .initializeJacobianInvert => needs (·.allowsJacobianInvertInitialisation)
  | _ => .ok ()

/-- The codes with one more. -/
def addCode (draft : Draft) (role : Role) (code : CodeText) :
    Except DeclarationFault (List (Role × CodeText)) := do
  draft.allowsCode role
  if (draft.code? role).isSome then throw (.codeRedefined role)
  else return draft.codes ++ [(role, code)]

/-- Asks for blocks of the inverse one by one, up to the first that names an unknown variable. -/
def requestBlocks : List InverseBlock → Draft → Applied
  | [], draft => { draft := draft }
  | block :: rest, draft =>
    match draft.require block.unknown, draft.require block.residual with
    | .error fault, _ => { draft := draft, fault := some fault }
    | _, .error fault => { draft := draft, fault := some fault }
    | .ok (), .ok () =>
      if draft.inverseBlocks.contains block then requestBlocks rest draft
      else requestBlocks rest { draft with inverseBlocks := draft.inverseBlocks ++ [block] }

/-- Applies a declaration that stands at a given place. -/
def applyDeclaration (solvers : Solvers) (location : Location) (draft : Draft) :
    Declaration → Applied
  | .integrationVariable name rank arraySize =>
    draft.update (draft.roster.declare name rank arraySize) fun roster =>
      { draft with roster := roster }
  | .algorithm name => draft.chooseAlgorithm solvers name
  | .parameter name value =>
    draft.update (draft.tolerances.set name value) fun tolerances =>
      { draft with tolerances := tolerances }
  | .compareToNumericalJacobian compare =>
    { draft :=
      { draft with tolerances := { draft.tolerances with compareToNumericalJacobian := compare } } }
  | .normalisationFactor name side factor =>
    match draft.addFactor name side factor with
    | .ok factors => { draft := { draft with factors := factors } }
    | .error fault => { draft := draft, fault := some fault }
  | .incrementLimit name value =>
    draft.update (draft.addLimit name value) fun limits => { draft with limits := limits }
  | .code role text =>
    draft.update (draft.addCode role ⟨text, location⟩) fun codes => { draft with codes := codes }
  | .tangentBlocks blocks => draft.requestBlocks blocks

/-- Applies an event.  One that is meant for another hypothesis does nothing; a fault of the
description is placed where the event stands. -/
def apply (solvers : Solvers) (event : Event) (draft : Draft) : Applied :=
  if event.appliesTo draft.hypothesis then
    let applied := draft.applyDeclaration solvers event.location event.declaration
    { applied with fault := applied.fault.map (·.located event.location) }
  else { draft := draft }

/-- Ends the draft: chooses the default algorithm if none was chosen, checks the parameters, and
freezes the factors. -/
def finish (solvers : Solvers) (defaultAlgorithm : String) (draft : Draft) : Applied :=
  let chosen := if draft.algorithm.isNone then draft.chooseAlgorithm solvers defaultAlgorithm
    else { draft := draft }
  match chosen.fault, chosen.draft.tolerances.validate with
  | some _, _ => chosen
  | none, .error fault => { chosen with fault := some fault }
  | none, .ok () =>
    { chosen with draft := { chosen.draft with factors := chosen.draft.factors.freeze } }

end Draft

namespace Applied

/-- The draft, or the fault. -/
def traced (applied : Applied) : Traced Fault Draft :=
  ⟨applied.notices, match applied.fault with
    | some fault => .error fault
    | none => .ok applied.draft⟩

end Applied

/-- The draft of a description under a hypothesis. -/
def Description.draft (description : Description) (solvers : Solvers) (defaultAlgorithm : String)
    (hypothesis : Hypothesis) : Traced Fault Draft := do
  let draft ← description.events.foldlM (fun draft event => (draft.apply solvers event).traced)
    ({ hypothesis := hypothesis } : Draft)
  (draft.finish solvers defaultAlgorithm).traced

end Constitutive
