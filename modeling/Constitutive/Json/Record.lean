import Constitutive.Json.Basic

/-!
# Records in JSON

A record is an object with named fields, or an array with the values of the fields in a fixed order.
In an object the order does not matter, fields that the record does not have are ignored, and a
field that it has must not be repeated.  In an array values may be missing at the end.  Which fields
may be missing is for the reader of the record to say.

A choice between names is a string, or an object that has the name as its only field, with value
`null`.
-/

namespace Constitutive.Json

/-- The values of the fields with the given names, where a field may be missing. -/
def fields? (names : List String) : Json → Option (List (Option Json))
  | .array items =>
    if items.length ≤ names.length then
      some (items.map some ++ List.replicate (names.length - items.length) none)
    else none
  | .object fields =>
    if fields.all (·.1.isSome) && names.all (fun name => fields.countP (·.1 == some name) ≤ 1) then
      some (names.map fun name => fields.lookup (some name))
    else none
  | _ => none

/-- The name that was chosen. -/
def choice? : Json → Option String
  | .string name => name
  | .object [(some name, .null)] => some name
  | _ => none

/-- The value of a field that may be missing, or else its default. -/
def orDefault {α : Type} (default : α) (read : Json → Option α) : Option Json → Option α
  | none => some default
  | some value => read value

/-- Reads `null` as nothing. -/
def nullable {α : Type} (read : Json → Option α) : Json → Option (Option α)
  | .null => some none
  | value => (read value).map some

end Constitutive.Json
