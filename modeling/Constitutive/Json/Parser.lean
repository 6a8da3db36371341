import Constitutive.Json.Token

/-!
# Reading JSON text

The tokens of a text are read one by one.  A `Reading` holds the containers that are still open,
innermost first, and what may come next; the text is a value if its last token completes one.
-/

namespace Constitutive.Json

/-- A container whose end has not been read.  What it holds so far is in reverse order. -/
inductive Container where
  | items (held : List Json)
  /-- The fields that are complete, and the name of the field whose value comes next. -/
  | fields (held : List (Option String × Json)) (name : Option String)
  deriving Repr

/-- What may come next. -/
inductive Expected where
  | value
  /-- A value, or the end of an array that has just begun. -/
  | valueOrEnd
  | name
  /-- A field name, or the end of an object that has just begun. -/
  | nameOrEnd
  | colon
  /-- A comma, or the end of the innermost container. -/
  | commaOrEnd
  /-- Nothing: the value is complete. -/
  | nothing (value : Json)
  deriving Repr

/-- A value part way through being read. -/
structure Reading where
  containers : List Container := []
  expected : Expected := .value
  deriving Repr

namespace Reading

/-- Puts a complete value where it belongs. -/
def complete (value : Json) : List Container → Reading
  | [] => ⟨[], .nothing value⟩
  | .items held :: outer => ⟨.items (value :: held) :: outer, .commaOrEnd⟩
  | .fields held name :: outer => ⟨.fields ((name, value) :: held) name :: outer, .commaOrEnd⟩

/-- Ends the innermost container, if it is of the right kind. -/
def close? (array : Bool) : List Container → Option Reading
  | .items held :: outer => if array then some (complete (.array held.reverse) outer) else none
  | .fields held _ :: outer => if array then none else some (complete (.object held.reverse) outer)
  | [] => none

/-- Starts a value. -/
def startValue? (containers : List Container) : Token → Option Reading
  | .scalar value => some (complete value containers)
  | .openArray => some ⟨.items [] :: containers, .valueOrEnd⟩
  | .openObject => some ⟨.fields [] none :: containers, .nameOrEnd⟩
  | _ => none

/-- Takes the name of a field. -/
def takeName? (containers : List Container) : Token → Option Reading
  | .scalar (.string name) =>
    match containers with
    | .fields held _ :: outer => some ⟨.fields held name :: outer, .colon⟩
    | _ => none
  | _ => none

/-- Reads one token. -/
def step? (reading : Reading) (token : Token) : Option Reading :=
  match reading.expected, token with
  | .value, _ => startValue? reading.containers token
  | .valueOrEnd, .closeArray => close? true reading.containers
  | .valueOrEnd, _ => startValue? reading.containers token
  | .name, _ => takeName? reading.containers token
  | .nameOrEnd, .closeObject => close? false reading.containers
  | .nameOrEnd, _ => takeName? reading.containers token
  | .colon, .colon => some { reading with expected := .value }
  | .commaOrEnd, .closeArray => close? true reading.containers
  | .commaOrEnd, .closeObject => close? false reading.containers
  | .commaOrEnd, .comma =>
    match reading.containers with
    | .items _ :: _ => some { reading with expected := .value }
    | .fields _ _ :: _ => some { reading with expected := .name }
    | [] => none
  | _, _ => none

/-- The value that has been read, if it is complete. -/
def value? (reading : Reading) : Option Json :=
  match reading.expected with
  | .nothing value => some value
  | _ => none

end Reading

/-- The value written by a text. -/
def parse? (text : String) : Option Json := do
  let reading ← (← tokens? text.toList).foldlM Reading.step? {}
  reading.value?

end Constitutive.Json
