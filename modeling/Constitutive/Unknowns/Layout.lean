import Constitutive.Behaviour.Fault
import Constitutive.Code.Stmt

/-!
# The vector of unknowns

The unknowns of all variables form one vector.  Variables follow each other in order of declaration;
the elements of an array follow each other, and so do the components of an element.  A `Slot` is the
place of one variable.
-/

namespace Constitutive

/-- The place of a variable in the vector of unknowns. -/
structure Slot where
  owner : Variable
  offset : Nat
  /-- Components of one element. -/
  components : Nat
  deriving DecidableEq, Repr

namespace Slot

def name (slot : Slot) : String := slot.owner.name

def rank (slot : Slot) : Rank := slot.owner.rank

def arraySize (slot : Slot) : Nat := slot.owner.arraySize

def isArray (slot : Slot) : Bool := slot.owner.isArray

/-- Number of unknowns of the variable. -/
def size (slot : Slot) : Nat := slot.components * slot.arraySize

/-- The first index after the slot. -/
def stop (slot : Slot) : Nat := slot.offset + slot.size

end Slot

/-- The number of elements in front of the first one that fails a test, found by looking at the
middle and then at one half.  The elements that pass have to come first. -/
def partitionPoint {α : Type} (test : α → Bool) (xs : List α) : Nat :=
  match hmiddle : xs.drop (xs.length / 2) with
  | [] => 0
  | x :: rest =>
    if test x then xs.length / 2 + 1 + partitionPoint test rest
    else partitionPoint test (xs.take (xs.length / 2))
termination_by xs.length
decreasing_by
  all_goals
    have hlength := congrArg List.length hmiddle
    simp only [List.length_drop, List.length_cons] at hlength
  · omega
  · rw [List.length_take]
    omega

/-- The vector of unknowns of some variables in a given dimension. -/
structure Layout where
  dimension : Dimension
  slots : List Slot
  deriving DecidableEq, Repr

/-- One component of one element of a variable. -/
structure Component where
  name : String
  element : Nat
  component : Nat
  deriving DecidableEq, Repr

namespace Layout

/-- The slots of variables that start at a given offset. -/
def slotsFrom (dim : Dimension) : Nat → List Variable → List Slot
  | _, [] => []
  | offset, v :: rest => ⟨v, offset, v.components dim⟩ :: slotsFrom dim (offset + v.size dim) rest

/-- Gives each variable its slot, in order. -/
def plan (dim : Dimension) (vars : List Variable) : Layout :=
  ⟨dim, slotsFrom dim 0 vars⟩

/-- The layout for a dimension given as a number. -/
def plan? (dim : Nat) (vars : List Variable) : Except DeclarationFault Layout :=
  match Dimension.ofNat? dim with
  | some dimension => .ok (plan dimension vars)
  | none => .error (.unsupportedDimension dim)

/-- The number of unknowns. -/
def total (layout : Layout) : Nat :=
  layout.slots.foldr (fun slot rest => slot.size + rest) 0

/-- The slot of a name, the last one if there are several. -/
def slot? (layout : Layout) (name : String) : Option Slot :=
  layout.slots.reverse.find? (·.name == name)

/-- The last slot that starts at an index or before, where slots are in the order of their
offsets. -/
def lastFrom? (layout : Layout) (index : Nat) : Option Slot :=
  match partitionPoint (fun slot : Slot => slot.offset ≤ index) layout.slots with
  | 0 => none
  | point + 1 => layout.slots[point]?

/-- What is stored at an index: the last slot that starts there or before holds it, if it reaches
that far. -/
def locate (layout : Layout) (index : Nat) : Option Component :=
  match layout.lastFrom? index with
  | none => none
  | some slot =>
    let inside := index - slot.offset
    if inside < slot.size then
      some ⟨slot.name, inside / slot.components, inside % slot.components⟩
    else none

/-- The constants that say where each variable is, and how many unknowns there are. -/
def offsetConstants (layout : Layout) : List Stmt :=
  .comment "offsets of the integration variables in the unknown vector" ::
    layout.slots.map (fun slot => .line ["static constexpr unsigned short ",
      .define (.constant (.offset slot.name)), " = ", toString slot.offset, ";"]) ++
    [.line ["static constexpr unsigned short ", .define (.constant .size), " = ",
      toString layout.total, ";"]]

end Layout

end Constitutive
