import Constitutive.Behaviour.Description
import Constitutive.Behaviour.Variable

/-!
# Lines of generated code

A line is a list of pieces.  Most pieces are fixed text, but whatever refers to the generated class
is a piece of its own: a use or a definition of a *symbol* (a member, a method or a constant), and
an expression that was given in the description.  So what a line uses and defines can be read off it
without looking into text.
-/

namespace Constitutive

/-- Data members of the generated class. -/
inductive Member where
  /-- The increments of all variables, one after the other. -/
  | zeros
  /-- The increments at the last successful evaluation of the residual. -/
  | zeros1
  /-- The residual, and then the correction computed from it. -/
  | fzeros
  | jacobian
  | iter
  | epsilon
  | theta
  | iterMax
  | numericalJacobianEpsilon
  | comparisonCriterion
  | relaxationTrigger
  | relaxationCoefficient
  | maximumIncrement
  | trustRegionSize
  /-- A copy of the Jacobian that may be factorised. -/
  | jacobian2
  /-- The residual of the previous iteration. -/
  | fzeros2
  /-- The last change of the increments. -/
  | step
  /-- The value of a variable. -/
  | value (name : String)
  /-- The increment of a variable. -/
  | increment (name : String)
  | inverseBlock (block : InverseBlock)
  deriving DecidableEq, Repr

/-- The name of a member. -/
def Member.name : Member → String
  | zeros => "zeros"
  | zeros1 => "zeros_1"
  | fzeros => "fzeros"
  | jacobian => "jacobian"
  | iter => "iter"
  | epsilon => "epsilon"
  | theta => "theta"
  | iterMax => "iterMax"
  | numericalJacobianEpsilon => "numerical_jacobian_epsilon"
  | comparisonCriterion => "jacobianComparisonCriterion"
  | relaxationTrigger => "relaxationTrigger"
  | relaxationCoefficient => "relaxationCoefficient"
  | maximumIncrement => "maximum_increment_value_per_iteration"
  | trustRegionSize => "powell_dogleg_trust_region_size"
  | jacobian2 => "jacobian2"
  | fzeros2 => "fzeros2"
  | step => "Dzeros"
  | value name => name
  | increment name => incrementName name
  | inverseBlock block => block.memberName

/-- Methods of the generated class. -/
inductive Method where
  | predictor
  | stress
  /-- Evaluates the residual and, for some solvers, the Jacobian. -/
  | residual
  | numericalJacobian
  | update
  | finalStress
  | inverseBlocks
  | integrate
  deriving DecidableEq, Repr

/-- The name of a method. -/
def Method.name : Method → String
  | predictor => "computePredictor"
  | stress => "computeStress"
  | residual => "computeFdF"
  | numericalJacobian => "computeNumericalJacobian"
  | update => "updateIntegrationVariables"
  | finalStress => "computeFinalStress"
  | inverseBlocks => "computePartialJacobianInvert"
  | integrate => "integrate"

/-- Constants of the generated class. -/
inductive Constant where
  /-- The number of unknowns. -/
  | size
  | success
  | failure
  /-- The place of a variable among the unknowns. -/
  | offset (name : String)
  deriving DecidableEq, Repr

/-- The name of a constant. -/
def Constant.name : Constant → String
  | size => "N"
  | success => "SUCCESS"
  | failure => "FAILURE"
  | offset name => name ++ "_offset"

/-- What the generated class declares. -/
inductive Symbol where
  | member (m : Member)
  | method (m : Method)
  | constant (c : Constant)
  deriving DecidableEq, Repr

namespace Symbol

/-- The name of a symbol. -/
def name : Symbol → String
  | member m => m.name
  | method m => m.name
  | constant c => c.name

/-- How code refers to a symbol. -/
def reference : Symbol → String
  | member m => "this->" ++ m.name
  | method m => "this->" ++ m.name
  | constant c => c.name

end Symbol

/-- A piece of a line. -/
inductive Piece where
  | text (text : String)
  | use (symbol : Symbol)
  | define (symbol : Symbol)
  /-- An expression from the description. -/
  | given (expression : String)
  deriving DecidableEq, Repr

namespace Piece

instance : Coe String Piece := ⟨.text⟩

instance : Coe Member Piece := ⟨fun m => .use (.member m)⟩

instance : Coe Method Piece := ⟨fun m => .use (.method m)⟩

instance : Coe Constant Piece := ⟨fun c => .use (.constant c)⟩

/-- The text of a piece. -/
def render : Piece → String
  | text s => s
  | use symbol => symbol.reference
  | define symbol => symbol.name
  | given s => s

end Piece

/-- A line of code, without indentation. -/
abbrev Line := List Piece

namespace Line

/-- The text of a line. -/
def render (line : Line) : String :=
  String.join (line.map Piece.render)

/-- The symbols a line uses. -/
def uses (line : Line) : List Symbol :=
  line.filterMap fun
    | .use symbol => some symbol
    | _ => none

/-- The symbols a line defines. -/
def defines (line : Line) : List Symbol :=
  line.filterMap fun
    | .define symbol => some symbol
    | _ => none

/-- Parts of a line put together. -/
def concat (parts : List Line) : Line :=
  parts.flatten

/-- Lines joined by a separator. -/
def joinWith (separator : String) : List Line → Line
  | [] => []
  | [line] => line
  | line :: rest => line ++ .text separator :: joinWith separator rest

/-- The head of a loop whose index goes from `start` up to, and without, `stop`. -/
def forIndex (index : String) (start stop : Line) : Line :=
  concat [["for(unsigned short ", index, " = "], start, ["; ", index, " != "], stop,
    ["; ++", index, ")"]]

/-- The head of a loop over the indices below `stop`. -/
def forBelow (index : String) (stop : Line) : Line :=
  forIndex index ["0"] stop

/-- A head and its body on one line. -/
def inBraces (head body : Line) : Line :=
  concat [head, ["\x7b "], body, [" \x7d"]]

end Line

end Constitutive
