import Constitutive.Behaviour.Description
import Constitutive.Json.Parser
import Constitutive.Json.Record

/-!
# Descriptions as JSON documents

Descriptions and options are read from JSON, and descriptions are written to it.  Every record can
be given as an object or as an array.  A written description has all its fields, and says in its own
way how a finite number is written.  A number that is not finite is written as null.
-/

namespace Constitutive

/-- The value of a parameter or factor. -/
def Setting.ofJson? : Json → Option Setting
  | .bool b => some (.flag b)
  | .number n => n.toFloat?.map .number
  | .string s => s.map .text
  | _ => none

def Rank.ofJson? (j : Json) : Option Rank := do
  let name ← j.choice?
  Rank.all.find? (·.name == name)

def Side.ofJson? (j : Json) : Option Side := do
  let name ← j.choice?
  Side.all.find? (·.name == name)

def Role.ofJson? (j : Json) : Option Role :=
  j.choice?.bind Role.ofName?

def Hypothesis.ofJson? (j : Json) : Option Hypothesis :=
  j.choice?.bind Hypothesis.ofName?

def Location.ofJson? (j : Json) : Option Location := do
  match ← j.fields? ["line", "column"] with
  | [some line, some column] => return ⟨← line.nat? UInt64.size, ← column.nat? UInt64.size⟩
  | _ => none

def InverseBlock.ofJson? (j : Json) : Option InverseBlock := do
  match ← j.fields? ["variable", "with_respect_to"] with
  | [some unknown, some residual] => return ⟨← unknown.text?, ← residual.text?⟩
  | _ => none

namespace Declaration

/-- Reads the body of a declaration of a given kind. -/
def ofBody? (kind : String) (body : Json) : Option Declaration :=
  match kind with
  | "variable" => do
    match ← body.fields? ["name", "rank", "array_size"] with
    | [some name, some rank, size] =>
      return .integrationVariable (← name.text?) (← Rank.ofJson? rank)
        (← Json.orDefault 1 (·.nat? UInt16.size) size)
    | _ => none
  | "algorithm" => body.text?.map .algorithm
  | "parameter" => do
    match ← body.fields? ["name", "value"] with
    | [some name, some value] => return .parameter (← name.text?) (← Setting.ofJson? value)
    | _ => none
  | "compare_to_numerical_jacobian" => body.bool?.map .compareToNumericalJacobian
  | "normalisation_factor" => do
    match ← body.fields? ["variable", "side", "factor"] with
    | [some name, some side, some factor] =>
      return .normalisationFactor (← name.text?) (← Side.ofJson? side) (← Setting.ofJson? factor)
    | _ => none
  | "increment_limit" => do
    match ← body.fields? ["variable", "value"] with
    | [name, some value] =>
      return .incrementLimit (← Json.orDefault none (Json.nullable Json.text?) name)
        (← value.float?)
    | _ => none
  | "code_block" => do
    match ← body.fields? ["id", "text"] with
    | [some role, some text] => return .code (← Role.ofJson? role) (← text.text?)
    | _ => none
  | "tangent_blocks" => do
    return .tangentBlocks (← (← body.array?).mapM InverseBlock.ofJson?)
  | _ => none

/-- Reads a declaration: an object whose only field names the kind. -/
def ofJson? : Json → Option Declaration
  | .object [(some kind, body)] => ofBody? kind body
  | _ => none

end Declaration

def Event.ofJson? (j : Json) : Option Event := do
  match ← j.fields? ["location", "hypothesis", "declaration"] with
  | [location, hypothesis, some declaration] =>
    return ⟨← Json.orDefault {} Location.ofJson? location,
      ← Json.orDefault none (Json.nullable Hypothesis.ofJson?) hypothesis,
      ← Declaration.ofJson? declaration⟩
  | _ => none

/-- Reads a list. -/
def listOfJson? {α : Type} (read : Json → Option α) (j : Json) : Option (List α) := do
  (← j.array?).mapM read

def Description.ofJson? (j : Json) : Option Description := do
  match ← j.fields? ["class_name", "hypotheses", "events"] with
  | [some className, hypotheses, events] =>
    return ⟨← className.text?, ← Json.orDefault [] (listOfJson? Hypothesis.ofJson?) hypotheses,
      ← Json.orDefault [] (listOfJson? Event.ofJson?) events⟩
  | _ => none

/-- Reads a description from JSON text. -/
def Description.parse? (text : String) : Option Description :=
  (Json.parse? text).bind ofJson?

def Options.ofJson? (j : Json) : Option Options := do
  match ← j.fields? ["debug", "parallel", "emit_comments", "default_algorithm"] with
  | [debug, parallel, comments, algorithm] =>
    return ⟨← Json.orDefault false Json.bool? debug, ← Json.orDefault false Json.bool? parallel,
      ← Json.orDefault true Json.bool? comments,
      ← Json.orDefault "NewtonRaphson" Json.text? algorithm⟩
  | _ => none

/-- Reads options from JSON text. -/
def Options.parse? (text : String) : Option Options :=
  (Json.parse? text).bind ofJson?

/-! ## Writing -/

variable (real : Float → Json)

/-- A number as a document, which is null if the number is not finite. -/
def numberToJson (x : Float) : Json :=
  if x.isFinite then real x else .null

def Setting.toJson : Setting → Json
  | .flag b => .bool b
  | .number x => numberToJson real x
  | .text s => .text s

def InverseBlock.toJson (block : InverseBlock) : Json :=
  .record [("variable", .text block.unknown), ("with_respect_to", .text block.residual)]

def Declaration.toJson : Declaration → Json
  | .integrationVariable name rank size =>
    .record [("variable",
      .record [("name", .text name), ("rank", .text rank.name), ("array_size", .nat size)])]
  | .algorithm name => .record [("algorithm", .text name)]
  | .parameter name value =>
    .record [("parameter", .record [("name", .text name), ("value", value.toJson real)])]
  | .compareToNumericalJacobian compare =>
    .record [("compare_to_numerical_jacobian", .bool compare)]
  | .normalisationFactor name side factor =>
    .record [("normalisation_factor",
      .record [("variable", .text name), ("side", .text side.name),
        ("factor", factor.toJson real)])]
  | .incrementLimit name value =>
    .record [("increment_limit",
      .record [("variable", (name.map Json.text).getD .null), ("value", numberToJson real value)])]
  | .code role text =>
    .record [("code_block", .record [("id", .text role.name), ("text", .text text)])]
  | .tangentBlocks blocks => .record [("tangent_blocks", .array (blocks.map InverseBlock.toJson))]

def Event.toJson (event : Event) : Json :=
  .record [("location",
    .record [("line", .nat event.location.line), ("column", .nat event.location.column)]),
    ("hypothesis", (event.hypothesis.map fun h => Json.text h.name).getD .null),
    ("declaration", event.declaration.toJson real)]

/-- The description as a document, given how a number is written. -/
def Description.toJson (description : Description) : Json :=
  .record [("class_name", .text description.className),
    ("hypotheses", .array (description.hypotheses.map fun h => .text h.name)),
    ("events", .array (description.events.map (·.toJson real)))]

def Options.toJson (options : Options) : Json :=
  .record [("debug", .bool options.debug), ("parallel", .bool options.parallel),
    ("emit_comments", .bool options.comments),
    ("default_algorithm", .text options.defaultAlgorithm)]

end Constitutive
