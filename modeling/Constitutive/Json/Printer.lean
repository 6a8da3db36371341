import Constitutive.Json.Basic

/-!
# Writing JSON text

Values are written without white space.  In strings only quotes, backslashes and control characters
are escaped.
-/

namespace Constitutive.Json

/-- A hexadecimal digit. -/
def hexDigit (n : Nat) : Char :=
  Nat.digitChar n

/-- A character inside a string. -/
def quoteChar (c : Char) : String :=
  if c = '"' then "\\\""
  else if c = '\\' then "\\\\"
  else if c.toNat < 0x20 then
    "\\u00" ++ String.ofList [hexDigit (c.toNat / 16), hexDigit (c.toNat % 16)]
  else String.singleton c

/-- A text in quotes. -/
def quote (text : String) : String :=
  "\"" ++ String.join (text.toList.map quoteChar) ++ "\""

/-- The spelling of a number. -/
def Number.render (n : Number) : String :=
  (if n.negative then "-" else "") ++ toString n.whole ++
    (if n.decimals = [] then "" else "." ++ String.join (n.decimals.map toString)) ++
    (match n.exponent with
      | none => ""
      | some e => "e" ++ toString e)

/-- The text of a string or field name; one without a text is written as half of a surrogate
pair. -/
def renderText : Option String → String
  | none => "\"\\ud800\""
  | some s => quote s

mutual

/-- The text of a value. -/
def render : Json → String
  | .null => "null"
  | .bool b => if b then "true" else "false"
  | .number n => n.render
  | .string s => renderText s
  | .array items => "[" ++ ",".intercalate (renderItems items) ++ "]"
  | .object fields => "\x7b" ++ ",".intercalate (renderFields fields) ++ "\x7d"

def renderItems : List Json → List String
  | [] => []
  | item :: rest => render item :: renderItems rest

def renderFields : List (Option String × Json) → List String
  | [] => []
  | (name, value) :: rest => (renderText name ++ ":" ++ render value) :: renderFields rest

end

end Constitutive.Json
