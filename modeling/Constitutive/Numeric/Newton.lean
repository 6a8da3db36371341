import Constitutive.Numeric.Elimination
import Constitutive.Numeric.Scaling

/-!
# Newton's method on a scaled system

Each iteration evaluates the residual and the Jacobian at the unknowns themselves, scales both, and
stops when the norm of the scaled residual divided by the number of unknowns is below a threshold.
Otherwise the scaled unknowns are corrected by the solution of the linearised system.  The number of
evaluations is limited.

Evaluations may have an effect, for instance to count them; the loop runs in whatever monad they
live in.
-/

namespace Constitutive.Numeric

variable {α : Type} {n : Nat} {M : Type → Type}

/-- A system of `n` equations in `n` unknowns, with its Jacobian. -/
structure DifferentiableSystem (M : Type → Type) (α : Type) (n : Nat) where
  residual : Vec α n → M (Vec α n)
  jacobian : Vec α n → M (Mat α n n)

/-- How long and how far to iterate. -/
structure NewtonSettings (α : Type) where
  /-- The number of evaluations allowed. -/
  iterMax : Nat
  epsilon : α
  /-- A bound on every component of a correction. -/
  maximumIncrement : Option α := none

/-- How an iteration ended. -/
inductive NewtonEnding (α : Type) (n : Nat) where
  | converged (increment : Vec α n)
  | diverged
  | singular

/-- The result of an iteration. -/
structure NewtonOutcome (α : Type) (n : Nat) where
  ending : NewtonEnding α n
  /-- The number of evaluations made. -/
  iterations : Nat
  /-- The norm of the last scaled residual over the number of unknowns, zero if there was none. -/
  error : α
  /-- The scaled unknowns at the end. -/
  unknowns : Vec α n

/-- Bounds the absolute value of every component. -/
def clamp [LT α] [DecidableLT α] [ScalarFunctions α] (limit : α) (correction : Vec α n) : Vec α n :=
  correction.map fun c =>
    if limit < ScalarFunctions.abs c then ScalarFunctions.withSign limit c else c

variable [Monad M] [Zero α] [One α] [Add α] [Sub α] [Mul α] [Div α] [Neg α] [LT α]
  [DecidableLT α] [BEq α] [ScalarFunctions α]

/-- Iterates `remaining` more times after `done` evaluations, the last of which had the given
error. -/
def newtonLoop (system : DifferentiableSystem M α n) (scaling : Scaling α n)
    (settings : NewtonSettings α) :
    (remaining done : Nat) → (error : α) → (y : Vec α n) → M (NewtonOutcome α n)
  | 0, done, error, y => pure ⟨.diverged, done, error, y⟩
  | remaining + 1, done, _, y => do
    let x := scaling.physical y
    let f ← system.residual x
    let j ← system.jacobian x
    let g := scaling.scaleResidual f
    let error := norm g / ScalarFunctions.ofNat n
    if error < settings.epsilon then
      pure ⟨.converged x, done + 1, error, y⟩
    else match solve? (scaling.scaleJacobian j) g with
      | none => pure ⟨.singular, done + 1, error, y⟩
      | some correction =>
        let bounded := match settings.maximumIncrement with
          | none => correction
          | some limit => clamp limit correction
        newtonLoop system scaling settings remaining (done + 1) error
          (Vector.zipWith (· - ·) y bounded)

/-- Solves a system from given scaled unknowns. -/
def newton (system : DifferentiableSystem M α n) (scaling : Scaling α n)
    (settings : NewtonSettings α) (y : Vec α n) : M (NewtonOutcome α n) :=
  newtonLoop system scaling settings settings.iterMax 0 0 y

/-- The wording of a failed factorisation. -/
def singularMessage (iteration : Nat) : String :=
  s!"Failed to factorize the Jacobian at iteration {iteration}."

end Constitutive.Numeric
