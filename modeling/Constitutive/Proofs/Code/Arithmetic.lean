import Constitutive.Proofs.Decimal.Numeral
import Constitutive.Scheme.Factors

/-!
# Arithmetic of generated code

Numbers in generated code are whole or real, and the quotient of two whole numbers is whole again:
it is cut towards zero.  So the value of a scale depends on the kinds of its expressions, and it is
the quotient of their values only if one of them is real (`Quantity.div?_of_real`).

A literal with a point or an exponent is real, and so are the literals of numbers
(`Quantity.ofLiteral?_literal`).  One that consists of digits is whole, and octal if
it starts with a zero.  Literals that are not octal have the value that `Decimal.read?` gives
(`Quantity.read?_of_ofLiteral?`), but `Decimal.read?` knows no whole numbers, and words such as
`inf` are no literals.
-/

namespace Constitutive

/-- A number in generated code. -/
inductive Quantity (α : Type) where
  | whole (n : Int)
  | real (x : α)
  deriving DecidableEq, Repr

namespace Quantity

variable {α : Type} (ofWhole : Int → α)

def isWhole : Quantity α → Bool
  | whole _ => true
  | real _ => false

/-- The number as a real one, where `ofWhole` converts whole numbers. -/
def toReal : Quantity α → α
  | whole n => ofWhole n
  | real x => x

/-- A quotient in code.  That of whole numbers is cut, and there is none by zero. -/
def div? [Div α] : Quantity α → Quantity α → Option (Quantity α)
  | whole m, whole n => if n = 0 then none else some (whole (m.tdiv n))
  | x, y => some (real (x.toReal ofWhole / y.toReal ofWhole))

/-- The number with its real value mapped. -/
def map {β : Type} (f : α → β) : Quantity α → Quantity β
  | whole n => whole n
  | real x => real (f x)

@[simp] theorem isWhole_map {β : Type} (f : α → β) (x : Quantity α) :
    (x.map f).isWhole = x.isWhole := by
  cases x <;> rfl

theorem toReal_map {β : Type} (f : α → β) (x : Quantity α) :
    (x.map f).toReal (f ∘ ofWhole) = f (x.toReal ofWhole) := by
  cases x <;> rfl

variable {ofWhole} {x y : Quantity α}

/-- As soon as one of the operands is real, a quotient is one of reals. -/
theorem div?_of_real [Div α] (h : (x.isWhole && y.isWhole) = false) :
    x.div? ofWhole y = some (real (x.toReal ofWhole / y.toReal ofWhole)) := by
  cases x with
  | real x => rfl
  | whole m =>
      cases y with
      | real y => rfl
      | whole n => cases h

end Quantity

/-! ## Scales -/

namespace Scale

variable {α : Type} [One α] [Div α] (ofWhole : Int → α) (value : String → Option (Quantity α))

/-- The value of a scale, given those of its expressions. -/
def value? : Scale → Option (Quantity α)
  | times s => value s
  | reciprocal r => (value r).bind fun y => (Quantity.real 1).div? ofWhole y
  | ratio s r => (value s).bind fun x => (value r).bind fun y => x.div? ofWhole y

/-- The number that code multiplies by.  Where nothing is written it is one. -/
def applied? : Option Scale → Option α
  | none => some 1
  | some scale => (scale.value? ofWhole value).map (·.toReal ofWhole)

end Scale

/-- The value of a factor.  One that is not given counts as the real number one. -/
def Factors.quantity? {α : Type} [One α] (factors : Factors) (value : String → Option (Quantity α))
    (name : String) (side : Side) : Option (Quantity α) :=
  ((factors.get? name side).map value).getD (some (.real 1))

section Applied

variable {α : Type} [One α] [Div α] {ofWhole : Int → α} {value : String → Option (Quantity α)}

/-- What the quotient of two optional factors multiplies by is the quotient of their values in
code. -/
theorem Scale.applied?_of? (hdiv : ∀ x : α, x / 1 = x) {s r : Option String} {x y : Quantity α}
    (hs : (s.map value).getD (some (.real 1)) = some x)
    (hr : (r.map value).getD (some (.real 1)) = some y) :
    applied? ofWhole value (of? s r) = (x.div? ofWhole y).map (·.toReal ofWhole) := by
  cases s with
  | none =>
      obtain rfl : Quantity.real 1 = x := Option.some.inj hs
      cases r with
      | none =>
          obtain rfl : Quantity.real 1 = y := Option.some.inj hr
          exact congrArg some (hdiv 1).symm
      | some r =>
          have hr : value r = some y := hr
          simp only [of?, applied?, value?, hr, Option.bind_some]
  | some s =>
      have hs : value s = some x := hs
      cases r with
      | none =>
          obtain rfl : Quantity.real 1 = y := Option.some.inj hr
          rw [Quantity.div?_of_real (Bool.and_false _)]
          simp only [of?, applied?, value?, hs, Option.map_some]
          exact congrArg some (hdiv _).symm
      | some r =>
          have hr : value r = some y := hr
          simp only [of?, applied?, value?, hs, hr, Option.bind_some]

end Applied

/-! ## Literals -/

namespace Quantity

open Decimal

/-- The double that a whole number is converted to. -/
def doubleOf (n : Int) : Float :=
  let size := (Scaled.mk n.natAbs 0).toFloat
  if n < 0 then -size else size

/-- The number that digits stand for in code, if it fits: octal after a zero. -/
def ofDigits? (digits : List Char) : Option Nat :=
  if digits.head? = some '0' then
    if digits.all (· < '8') ∧ Nat.ofDigitChars 8 digits 0 < 2 ^ 31 then
      some (Nat.ofDigitChars 8 digits 0)
    else none
  else if ofDigits digits < 2 ^ 63 then some (ofDigits digits)
  else none

/-- The number that a literal of code stands for, with a sign in front of it. -/
def ofLiteral? (text : String) : Option (Quantity Float) :=
  let (negative, size) := takeSign text.toList
  if size ≠ [] ∧ size.all Char.isDigit then
    (ofDigits? size).map fun n => whole (if negative then -n else n)
  else
    (((unsigned? size).map Scaled.toFloat).filter Float.isFinite).map fun x =>
      real (if negative then -x else x)

/-- A literal that code takes for octal. -/
def isOctal (text : String) : Bool :=
  let size := (takeSign text.toList).2
  size.all Char.isDigit && size.head? = some '0'

theorem doubleOf_of_pos {n : Nat} (hpos : 0 < n) (negative : Bool) :
    doubleOf (if negative then -(n : Int) else n) =
      if negative then -(Scaled.mk n 0).toFloat else (Scaled.mk n 0).toFloat := by
  unfold doubleOf
  cases negative with
  | true =>
      rw [if_pos rfl, if_pos rfl, if_pos (by omega), Int.natAbs_neg, Int.natAbs_natCast]
  | false =>
      rw [if_neg Bool.false_ne_true, if_neg Bool.false_ne_true, if_neg (by omega),
        Int.natAbs_natCast]

theorem unsigned?_digits {digits : List Char} (hne : digits ≠ [])
    (hdigits : digits.all Char.isDigit = true) : unsigned? digits = some ⟨ofDigits digits, 0⟩ := by
  have hend : StopsDigits [] := fun c hc => absurd hc (by simp)
  have h := unsigned?_whole (List.all_eq_true.mp hdigits) hne hend (by simp)
  rwa [List.append_nil] at h

theorem ofDigits_pos {c : Char} {rest : List Char} (hc : c.isDigit = true) (hzero : c ≠ '0') :
    0 < ofDigits (c :: rest) := by
  have hstep : ∀ (ds : List Char) (n : Nat), n ≤ ds.foldl (fun n c => 10 * n + digitValue c) n := by
    intro ds
    induction ds with
    | nil => exact fun n => Nat.le_refl n
    | cons d ds ih =>
        intro n
        have hle := ih (10 * n + digitValue d)
        rw [List.foldl_cons]
        omega
  have hfirst : 0 < 10 * 0 + digitValue c := by
    unfold digitValue
    rw [Char.isDigit, Bool.and_eq_true, decide_eq_true_eq, decide_eq_true_eq] at hc
    have hlow : '0'.toNat ≤ c.toNat := UInt32.le_iff_toNat_le.mp hc.1
    have hne : '0'.toNat ≠ c.toNat := fun heq => hzero (Char.toNat_inj.mp heq.symm)
    omega
  exact Nat.lt_of_lt_of_le hfirst (hstep rest _)

/-- A literal that is not octal has the value that is read. -/
theorem read?_of_ofLiteral? {text : String} {x : Quantity Float} (h : ofLiteral? text = some x)
    (hdecimal : isOctal text = false) : read? text = some (x.toReal doubleOf) := by
  rcases hsign : takeSign text.toList with ⟨negative, size⟩
  unfold ofLiteral? at h
  unfold isOctal at hdecimal
  rw [hsign] at h hdecimal
  dsimp only at h hdecimal
  split at h
  · rename_i hdigits
    obtain ⟨hne, hdigits⟩ := hdigits
    obtain ⟨c, rest, rfl⟩ := List.exists_cons_of_ne_nil hne
    have hzero : ¬ (c :: rest).head? = some '0' := by
      rw [hdigits, Bool.true_and, decide_eq_false_iff_not] at hdecimal
      exact hdecimal
    have hpos : 0 < ofDigits (c :: rest) :=
      ofDigits_pos (List.all_eq_true.mp hdigits c (List.mem_cons_self ..)) fun heq =>
        hzero (congrArg some heq)
    obtain ⟨n, hn, rfl⟩ := Option.map_eq_some_iff.mp h
    unfold ofDigits? at hn
    rw [if_neg hzero] at hn
    split at hn
    · obtain rfl := Option.some.inj hn
      rw [read?_of_takeSign hsign (unsigned?_digits hne hdigits)]
      exact congrArg some (doubleOf_of_pos hpos negative).symm
    · cases hn
  · obtain ⟨y, hy, rfl⟩ := Option.map_eq_some_iff.mp h
    obtain ⟨hy, -⟩ := Option.filter_eq_some_iff.mp hy
    obtain ⟨d, hd, rfl⟩ := Option.map_eq_some_iff.mp hy
    exact read?_of_takeSign hsign hd

/-- A positive number is written as a real literal, and not as an octal one. -/
theorem ofLiteral?_literal {x : Float} (hpos : 0 < x) (hfinite : x.isFinite = true) :
    ofLiteral? (literal x) = some (real x) ∧ isOctal (literal x) = false := by
  obtain ⟨d, hsign, hunsigned, hvalue⟩ := exists_unsigned?_literal hpos hfinite
  have hdigits := all_isDigit_literal hpos hfinite
  constructor
  · unfold ofLiteral?
    rw [hsign]
    dsimp only
    rw [if_neg (by simp [hdigits]), hunsigned, Option.map_some, hvalue,
      Option.filter_some_pos hfinite, Option.map_some, if_neg Bool.false_ne_true]
  · unfold isOctal
    rw [hsign]
    dsimp only
    rw [hdigits, Bool.false_and]

end Quantity

end Constitutive
