import Constitutive.Behaviour.Hypothesis
import Constitutive.Behaviour.Role
import Constitutive.Behaviour.Setting

/-!
# Behaviour descriptions

A description names a class and lists declarations in order.  A declaration stands at a place of the
behaviour source, and may be meant for one hypothesis only.  The hypotheses to generate code for can
be listed too; without a list it is all of them.

The functions `declare`, `declareAt` and `declareFor` build a description step by step.  Line
numbers are 64-bit words.
-/

namespace Constitutive

/-- A place in the behaviour source. -/
structure Location where
  line : Nat := 0
  column : Nat := 0
  deriving DecidableEq, Repr

/-- The place in messages. -/
def Location.describe (l : Location) : String :=
  toString l.line ++ ":" ++ toString l.column

/-- A requested block of the inverse Jacobian: the derivative of one unknown with respect to one
residual, both given by the names of their variables. -/
structure InverseBlock where
  unknown : String
  residual : String
  deriving DecidableEq, Repr

namespace InverseBlock

/-- The argument that receives the block in the extracting method. -/
def argumentName (block : InverseBlock) : String :=
  "partial_jacobian_" ++ block.unknown ++ "_" ++ block.residual

/-- The member of the generated class that receives the block. -/
def memberName (block : InverseBlock) : String :=
  "iJ_" ++ block.unknown ++ "_" ++ block.residual

end InverseBlock

/-- One statement of a description. -/
inductive Declaration where
  | integrationVariable (name : String) (rank : Rank) (arraySize : Nat)
  | algorithm (name : String)
  | parameter (name : String) (value : Setting)
  | compareToNumericalJacobian (compare : Bool)
  | normalisationFactor (name : String) (side : Side) (factor : Setting)
  /-- A bound on the correction of one variable, or of every unknown. -/
  | incrementLimit (name : Option String) (value : Float)
  | code (role : Role) (text : String)
  | tangentBlocks (blocks : List InverseBlock)

/-- A declaration with its place, and the one hypothesis it is meant for if it is not meant for
all. -/
structure Event where
  location : Location := {}
  hypothesis : Option Hypothesis := none
  declaration : Declaration

/-- Whether the event counts for a hypothesis. -/
def Event.appliesTo (event : Event) (hypothesis : Hypothesis) : Bool :=
  match event.hypothesis with
  | none => true
  | some only => only == hypothesis

/-- The description of a behaviour. -/
structure Description where
  className : String
  hypotheses : List Hypothesis := []
  events : List Event := []

/-- The list without the elements that repeat the one before them. -/
def dropRepeats {α : Type} [DecidableEq α] : List α → List α
  | first :: second :: rest =>
    if first = second then dropRepeats (second :: rest)
    else first :: dropRepeats (second :: rest)
  | short => short

namespace Description

/-- The line after that of the last event. -/
def nextLine (description : Description) : Nat :=
  match description.events.getLast? with
  | none => 1
  | some event => (event.location.line + 1) % UInt64.size

/-- Appends an event. -/
def push (description : Description) (event : Event) : Description :=
  { description with events := description.events ++ [event] }

/-- Appends a declaration at a given place. -/
def declareAt (description : Description) (location : Location) (declaration : Declaration) :
    Description :=
  description.push { location := location, declaration := declaration }

/-- Appends a declaration on the next line. -/
def declare (description : Description) (declaration : Declaration) : Description :=
  description.declareAt ⟨description.nextLine, 1⟩ declaration

/-- Appends a declaration for one hypothesis, on the next line. -/
def declareFor (description : Description) (hypothesis : Hypothesis) (declaration : Declaration) :
    Description :=
  description.push ⟨⟨description.nextLine, 1⟩, some hypothesis, declaration⟩

/-- The hypotheses to generate code for, without repetition and in their fixed order. -/
def requested (description : Description) : List Hypothesis :=
  if description.hypotheses = [] then Hypothesis.all
  else dropRepeats (description.hypotheses.mergeSort Hypothesis.le)

end Description

/-- Choices that hold for a whole compilation. -/
structure Options where
  /-- The generated solver reports on its iterations and failures. -/
  debug : Bool := false
  parallel : Bool := false
  /-- The generated text has comments. -/
  comments : Bool := true
  /-- The algorithm of behaviours that do not choose one. -/
  defaultAlgorithm : String := "NewtonRaphson"
  deriving DecidableEq, Repr

end Constitutive
