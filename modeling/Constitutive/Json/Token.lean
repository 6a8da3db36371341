import Constitutive.Json.Basic

/-!
# Tokens of JSON text

Cuts JSON text into punctuation and scalars.  White space between tokens is dropped.  Strings may
hold any character but control characters; an escape `\u` names a UTF-16 code unit, and two of them
may form a pair.
-/

namespace Constitutive.Json

/-- Punctuation, or a value without parts. -/
inductive Token where
  | openArray
  | closeArray
  | openObject
  | closeObject
  | comma
  | colon
  | scalar (value : Json)
  deriving Repr

/-- White space between tokens. -/
def isSpace (c : Char) : Bool :=
  c == ' ' || c == '\n' || c == '\t' || c == '\r'

/-- The value of a hexadecimal digit. -/
def hexValue? (c : Char) : Option Nat :=
  if c.isDigit then some (c.toNat - '0'.toNat)
  else if 'a' ≤ c ∧ c ≤ 'f' then some (c.toNat - 'a'.toNat + 10)
  else if 'A' ≤ c ∧ c ≤ 'F' then some (c.toNat - 'A'.toNat + 10)
  else none

/-- The code unit of four hexadecimal digits. -/
def unit? (a b c d : Char) : Option Nat := do
  return 4096 * (← hexValue? a) + 256 * (← hexValue? b) + 16 * (← hexValue? c) + (← hexValue? d)

/-- The character of an escape of one letter. -/
def escaped? : Char → Option Nat
  | '"' => some 0x22
  | '\\' => some 0x5C
  | '/' => some 0x2F
  | 'b' => some 0x08
  | 'f' => some 0x0C
  | 'n' => some 0x0A
  | 'r' => some 0x0D
  | 't' => some 0x09
  | _ => none

/-- The code units of a string up to its closing quote, and what follows the quote.  Characters that
need no escape stand for themselves, as one unit. -/
def stringUnits? : List Char → Option (List Nat × List Char)
  | [] => none
  | '"' :: rest => some ([], rest)
  | '\\' :: 'u' :: a :: b :: c :: d :: rest =>
    match unit? a b c d, stringUnits? rest with
    | some u, some (units, after) => some (u :: units, after)
    | _, _ => none
  | '\\' :: c :: rest =>
    match escaped? c, stringUnits? rest with
    | some u, some (units, after) => some (u :: units, after)
    | _, _ => none
  | c :: rest =>
    if c.toNat < 0x20 then none
    else (stringUnits? rest).map fun (units, after) => (c.toNat :: units, after)

/-- The characters of code units; a surrogate must be one half of a pair. -/
def charsOfUnits? : List Nat → Option (List Char)
  | [] => some []
  | [u] => if 0xD800 ≤ u ∧ u < 0xE000 then none else some [Char.ofNat u]
  | u :: v :: rest =>
    if 0xD800 ≤ u ∧ u < 0xDC00 then
      if 0xDC00 ≤ v ∧ v < 0xE000 then
        (charsOfUnits? rest).map (Char.ofNat (0x10000 + (u - 0xD800) * 0x400 + (v - 0xDC00)) :: ·)
      else none
    else if 0xDC00 ≤ u ∧ u < 0xE000 then none
    else (charsOfUnits? (v :: rest)).map (Char.ofNat u :: ·)

/-- Characters that can be part of a number. -/
def isNumberChar (c : Char) : Bool :=
  c.isDigit || c == '-' || c == '+' || c == '.' || c == 'e' || c == 'E'

/-- Digits without a superfluous zero in front. -/
def wholePart? (ds : List Char) : Option Nat :=
  match ds with
  | [] => none
  | ['0'] => some 0
  | '0' :: _ => none
  | _ => some (Decimal.ofDigits ds)

/-- The exponent part of a number, if there is one. -/
def exponentOf? : List Char → Option (Option Int)
  | [] => some none
  | tail => (Decimal.exponentPart? tail).map some

/-- The number spelled by a text. -/
def numberOf? (text : List Char) : Option Number :=
  let (negative, body) : Bool × List Char :=
    match text with
    | '-' :: rest => (true, rest)
    | _ => (false, text)
  match wholePart? (body.takeWhile Char.isDigit), body.dropWhile Char.isDigit with
  | none, _ => none
  | some whole, '.' :: rest =>
    let ds := rest.takeWhile Char.isDigit
    if ds = [] then none
    else (exponentOf? (rest.dropWhile Char.isDigit)).map fun e =>
      ⟨negative, whole, ds.map Decimal.digitValue, e⟩
  | some whole, rest => (exponentOf? rest).map fun e => ⟨negative, whole, [], e⟩

/-- The value of a word. -/
def wordOf? (word : List Char) : Option Json :=
  if word = "null".toList then some .null
  else if word = "true".toList then some (.bool true)
  else if word = "false".toList then some (.bool false)
  else none

theorem length_lt_of_stringUnits? {text : List Char} {units : List Nat} {rest : List Char}
    (h : stringUnits? text = some (units, rest)) : rest.length < text.length := by
  fun_induction stringUnits? text generalizing units rest with
  | case1 | case4 | case6 | case7 => simp at h
  | case2 => simp_all
  | case3 a b c d tail u us after hs hu ih =>
    have := ih hs
    simp_all only [Option.some.injEq, Prod.mk.injEq, List.length_cons]
    omega
  | case5 c tail hc u us after hs hu ih =>
    have := ih hs
    simp_all only [Option.some.injEq, Prod.mk.injEq, List.length_cons]
    omega
  | case8 c tail _ _ _ _ ih =>
    obtain ⟨⟨us, after⟩, hs, heq⟩ := Option.map_eq_some_iff.1 h
    have := ih hs
    simp_all only [Prod.mk.injEq, List.length_cons]
    omega

/-- The tokens of a text, unless some part of it is none. -/
def tokens? : List Char → Option (List Token)
  | [] => some []
  | c :: rest =>
    if isSpace c then tokens? rest
    else if c = '[' then (tokens? rest).map (.openArray :: ·)
    else if c = ']' then (tokens? rest).map (.closeArray :: ·)
    else if c = '\x7b' then (tokens? rest).map (.openObject :: ·)
    else if c = '\x7d' then (tokens? rest).map (.closeObject :: ·)
    else if c = ',' then (tokens? rest).map (.comma :: ·)
    else if c = ':' then (tokens? rest).map (.colon :: ·)
    else if c = '"' then
      match h : stringUnits? rest with
      | none => none
      | some (units, after) =>
        have := length_lt_of_stringUnits? h
        (tokens? after).map (.scalar (.string ((charsOfUnits? units).map String.ofList)) :: ·)
    else if isNumberChar c && !c.isAlpha then
      have := (List.dropWhile_sublist isNumberChar (l := rest)).length_le
      match numberOf? (c :: rest.takeWhile isNumberChar), tokens? (rest.dropWhile isNumberChar) with
      | some n, some more => some (.scalar (.number n) :: more)
      | _, _ => none
    else
      have := (List.dropWhile_sublist Char.isAlpha (l := rest)).length_le
      match wordOf? (c :: rest.takeWhile Char.isAlpha), tokens? (rest.dropWhile Char.isAlpha) with
      | some value, some more => some (.scalar value :: more)
      | _, _ => none
termination_by text => text.length
decreasing_by all_goals simp only [List.length_cons]; omega

end Constitutive.Json
