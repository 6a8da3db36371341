import Constitutive.Behaviour.Fault
import Constitutive.Unknowns.Layout

/-!
# Notices

What the compiler has to say besides its result.  Notices given before a failure are kept: a
`Traced` computation has a list of notices whatever its outcome.
-/

namespace Constitutive

/-- How much a notice matters. -/
inductive Level where
  | debug
  | info
  | warn
  deriving DecidableEq, Repr

/-- The name of a level. -/
def Level.name : Level → String
  | debug => "DEBUG"
  | info => "INFO"
  | warn => "WARN"

/-- Something worth telling. -/
inductive Notice where
  | planned (size count : Nat) (dimension : Dimension)
  | usingAlgorithm (hypothesis : Hypothesis) (name : String)
  | numericalJacobian (size : Nat)
  | blocksAddressed (hypothesis : Hypothesis) (count : Nat)
  /-- Code mentions a block, but the solver does not use a Jacobian from code. -/
  | blocksIgnored (hypothesis : Hypothesis) (solver block : String)
  | comparisonSkipped (hypothesis : Hypothesis) (solver : String)
  | unusedFactor (hypothesis : Hypothesis) (name : String)
  | noIntegrator (hypothesis : Hypothesis)
  | compiled (className : String) (hypothesis : Hypothesis) (solver : String) (size : Nat)
  deriving DecidableEq, Repr

namespace Notice

def level : Notice → Level
  | planned .. | usingAlgorithm .. | numericalJacobian .. | blocksAddressed .. => .debug
  | blocksIgnored .. | comparisonSkipped .. | unusedFactor .. | noIntegrator .. => .warn
  | compiled .. => .info

/-- The wording of a notice. -/
def message : Notice → String
  | planned size count dimension =>
    s!"Planned unknown vector of size {size} for {count} variables in dimension {dimension.toNat}"
  | usingAlgorithm hypothesis name => s!"{hypothesis.name}: using algorithm {name}"
  | numericalJacobian size => s!"Emitting numerical jacobian over {size} unknowns"
  | blocksAddressed hypothesis count =>
    s!"{hypothesis.name}: computeFdF addresses {count} jacobian blocks"
  | blocksIgnored hypothesis solver block =>
    s!"{hypothesis.name}: {solver} does not use an analytical jacobian, " ++
      s!"ignoring references to {block}"
  | comparisonSkipped hypothesis solver =>
    s!"{hypothesis.name}: comparison to the numerical jacobian is meaningless with {solver}, " ++
      "skipped"
  | unusedFactor hypothesis name =>
    s!"{hypothesis.name}: variable {name} is normalised but never appears in a code block"
  | noIntegrator hypothesis =>
    s!"{hypothesis.name}: no integrator given, the residual is the increment itself"
  | compiled className hypothesis solver size =>
    s!"Compiled {className} for hypothesis {hypothesis.name} with {solver} ({size} unknowns)"

end Notice

/-- What there is to tell about a layout. -/
def Layout.notice (layout : Layout) : Notice :=
  .planned layout.total layout.slots.length layout.dimension

/-- A result or a fault, with the notices given on the way. -/
structure Traced (ε α : Type) where
  notices : List Notice
  outcome : Except ε α

namespace Traced

variable {ε α β : Type}

instance : Monad (Traced ε) where
  pure a := ⟨[], .ok a⟩
  bind x f := match x.outcome with
    | .error e => ⟨x.notices, .error e⟩
    | .ok a =>
      let y := f a
      ⟨x.notices ++ y.notices, y.outcome⟩

/-- Gives notices. -/
def tell (notices : List Notice) : Traced ε Unit := ⟨notices, .ok ()⟩

/-- A result or a fault without notices. -/
def ofExcept (outcome : Except ε α) : Traced ε α := ⟨[], outcome⟩

@[simp] theorem outcome_pure (a : α) : (pure a : Traced ε α).outcome = .ok a := rfl

@[simp] theorem outcome_tell (notices : List Notice) :
    (tell notices : Traced ε Unit).outcome = .ok () := rfl

@[simp] theorem outcome_ofExcept (outcome : Except ε α) :
    (ofExcept outcome).outcome = outcome := rfl

/-- Notices have no influence on the outcome. -/
@[simp] theorem outcome_bind (x : Traced ε α) (f : α → Traced ε β) :
    (x >>= f).outcome = x.outcome >>= fun a => (f a).outcome := by
  cases h : x.outcome <;> simp [bind, Except.bind, h]

end Traced

end Constitutive
