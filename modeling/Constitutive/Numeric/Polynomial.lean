import Constitutive.Numeric.Newton

/-!
# Polynomial systems

A system whose residuals are polynomials, with its exact derivatives.  Sums and products are taken
in the order in which the terms and powers are listed.
-/

namespace Constitutive.Numeric

/-- A coefficient times powers of unknowns. -/
structure Term (α : Type) (n : Nat) where
  coefficient : α
  /-- Unknowns with their exponents. -/
  powers : List (Fin n × Nat)

/-- Sums of terms, one for each residual. -/
abbrev Polynomials (α : Type) (m n : Nat) := Vector (List (Term α n)) m

variable {α : Type} {m n : Nat} [Zero α] [Add α] [Mul α]

/-- Multiplies by a scalar several times. -/
def timesPower (a x : α) : Nat → α
  | 0 => a
  | e + 1 => timesPower (a * x) x e

namespace Term

/-- The value of a term. -/
def value (term : Term α n) (x : Vec α n) : α :=
  term.powers.foldl (fun a (i, e) => timesPower a (x.entry i) e) term.coefficient

/-- The derivative of a term with respect to an unknown, unless the term does not depend on it. -/
def derivative? [ScalarFunctions α] (term : Term α n) (k : Fin n) (x : Vec α n) : Option α :=
  if term.powers.any fun (i, e) => i == k && 0 < e then
    some (term.powers.foldl (fun a (i, e) =>
      if i = k then timesPower (a * ScalarFunctions.ofNat e) (x.entry i) (e - 1)
      else timesPower a (x.entry i) e) term.coefficient)
  else none

end Term

namespace Polynomials

/-- The values of the residuals. -/
def value (system : Polynomials α m n) (x : Vec α n) : Vec α m :=
  system.map fun terms => (terms.map (·.value x)).foldl (· + ·) 0

/-- The Jacobian. -/
def jacobian [ScalarFunctions α] (system : Polynomials α m n) (x : Vec α n) : Mat α m n :=
  system.map fun terms => Vector.ofFn fun k =>
    (terms.filterMap (·.derivative? k x)).foldl (· + ·) 0

end Polynomials

end Constitutive.Numeric
