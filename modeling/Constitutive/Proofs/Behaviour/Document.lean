import Constitutive.Behaviour.Document
import Constitutive.Proofs.Json.Record
import Mathlib.Data.List.Nodup

/-!
# Reading undoes writing

The documents that stand for a description are defined here part by part: `Spells` says of each kind
of value which documents stand for it.  Every record can be spelled as an object, with its fields in
any order among unknown ones and without those that have their default, or as an array.  A
declaration is an object whose only field names its kind.

A document is read as a description just when it stands for that description (`Description.reads`).
Each reader is matched with its spellings by the lemma for records, `bind_fields?_eq_some_iff`, and
the lemmas for the parts.
-/

namespace Constitutive

open Json

/-! ## Names -/

/-- A reader that looks a chosen name up in a list accepts the spellings of names. -/
theorem reads_find? {α : Type} {name : α → String} {all : List α} (hall : ∀ a, a ∈ all)
    (hnames : (all.map name).Nodup) :
    Reads (fun j => j.choice?.bind fun chosen => all.find? (name · == chosen)) fun a =>
      SpellsChoice (name a) := by
  have hfind : ∀ chosen a, all.find? (name · == chosen) = some a ↔ name a = chosen := by
    intro chosen a
    constructor
    · intro h
      simpa using List.find?_some h
    · rintro rfl
      cases hfound : all.find? (name · == name a) with
      | none =>
          have hnone := List.find?_eq_none.mp hfound a (hall a)
          simp at hnone
      | some b =>
          have hb : name b = name a := by simpa using List.find?_some hfound
          rw [List.inj_on_of_nodup_map hnames (hall b) (hall a) hb]
  intro j a
  simp only [Option.bind_eq_some_iff, hfind, exists_eq_right', choice?_eq_some_iff]

theorem Rank.reads : Reads Rank.ofJson? fun rank => SpellsChoice rank.name :=
  reads_find? (fun rank => by cases rank <;> decide) (by decide)

theorem Side.reads : Reads Side.ofJson? fun side => SpellsChoice side.name :=
  reads_find? (fun side => by cases side <;> decide) (by decide)

theorem Role.reads : Reads Role.ofJson? fun role => SpellsChoice role.name :=
  reads_find? Role.mem_all (by decide)

theorem Hypothesis.reads :
    Reads Hypothesis.ofJson? fun hypothesis => SpellsChoice hypothesis.name :=
  reads_find? Hypothesis.mem_all (by decide)

/-! ## Settings and small records -/

/-- The documents that stand for a setting. -/
def Setting.Spells : Setting → Json → Prop
  | .flag b, j => j = .bool b
  | .number x, j => SpellsFloat x j
  | .text s, j => SpellsText s j

theorem Setting.reads : Reads Setting.ofJson? Setting.Spells := by
  intro j setting
  cases j <;> cases setting <;>
    simp [Setting.ofJson?, Setting.Spells, SpellsText, SpellsFloat, Json.text]

/-- The documents that stand for a place. -/
def Location.Spells (location : Location) : Json → Prop :=
  SpellsRecord [⟨"line", SpellsNat UInt64.size location.line, False⟩,
    ⟨"column", SpellsNat UInt64.size location.column, False⟩]

theorem Location.reads : Reads Location.ofJson? Location.Spells := by
  intro j ⟨line, column⟩
  refine bind_fields?_eq_some_iff (by rfl) (by decide) (fun values => ?_) j
  rcases values with _ | ⟨_ | _, _ | ⟨_ | _, _ | _⟩⟩ <;>
    simp [Field.Holds, Option.bind_eq_some_iff, nat?_eq_some_iff]

/-- The documents that stand for a block of the inverse. -/
def InverseBlock.Spells (block : InverseBlock) : Json → Prop :=
  SpellsRecord [⟨"variable", SpellsText block.unknown, False⟩,
    ⟨"with_respect_to", SpellsText block.residual, False⟩]

theorem InverseBlock.reads : Reads InverseBlock.ofJson? InverseBlock.Spells := by
  intro j ⟨unknown, residual⟩
  refine bind_fields?_eq_some_iff (by rfl) (by decide) (fun values => ?_) j
  rcases values with _ | ⟨_ | _, _ | ⟨_ | _, _ | _⟩⟩ <;>
    simp [Field.Holds, Option.bind_eq_some_iff, text?_eq_some_iff]

/-! ## Declarations -/

namespace Declaration

/-- The name of a kind of declaration. -/
def kind : Declaration → String
  | .integrationVariable _ _ _ => "variable"
  | .algorithm _ => "algorithm"
  | .parameter _ _ => "parameter"
  | .compareToNumericalJacobian _ => "compare_to_numerical_jacobian"
  | .normalisationFactor _ _ _ => "normalisation_factor"
  | .incrementLimit _ _ => "increment_limit"
  | .code _ _ => "code_block"
  | .tangentBlocks _ => "tangent_blocks"

/-- The documents that stand for what a declaration says. -/
def SpellsBody : Declaration → Json → Prop
  | .integrationVariable name rank size =>
    SpellsRecord [⟨"name", SpellsText name, False⟩, ⟨"rank", SpellsChoice rank.name, False⟩,
      ⟨"array_size", SpellsNat UInt16.size size, size = 1⟩]
  | .algorithm name => SpellsText name
  | .parameter name value =>
    SpellsRecord [⟨"name", SpellsText name, False⟩, ⟨"value", value.Spells, False⟩]
  | .compareToNumericalJacobian compare => (· = .bool compare)
  | .normalisationFactor name side factor =>
    SpellsRecord [⟨"variable", SpellsText name, False⟩, ⟨"side", SpellsChoice side.name, False⟩,
      ⟨"factor", factor.Spells, False⟩]
  | .incrementLimit name value =>
    SpellsRecord [⟨"variable", SpellsOption SpellsText name, name = none⟩,
      ⟨"value", SpellsFloat value, False⟩]
  | .code role text =>
    SpellsRecord [⟨"id", SpellsChoice role.name, False⟩, ⟨"text", SpellsText text, False⟩]
  | .tangentBlocks blocks => SpellsList InverseBlock.Spells blocks

/-- The documents that stand for a declaration: an object whose only field names the kind. -/
def Spells (declaration : Declaration) (j : Json) : Prop :=
  ∃ body, j = .record [(declaration.kind, body)] ∧ declaration.SpellsBody body

theorem reads_text : Reads Json.text? SpellsText :=
  fun _ _ => text?_eq_some_iff

/-- Only a body that is announced as being of a declaration's kind is read as that declaration. -/
theorem kind_of_ofBody? {kind : String} {body : Json} {declaration : Declaration}
    (h : ofBody? kind body = some declaration) : declaration.kind = kind := by
  unfold ofBody? at h
  split at h
  all_goals simp only [Option.bind_eq_bind, Option.bind_eq_some_iff, Option.map_eq_some_iff,
    Option.pure_def, reduceCtorEq] at h
  -- records of three fields, records of two fields, single values, and lists
  case h_1 | h_5 =>
    obtain ⟨values, -, h⟩ := h
    split at h
    · simp only [Option.bind_eq_some_iff, Option.some.injEq] at h
      obtain ⟨_, -, _, -, _, -, rfl⟩ := h
      rfl
    · cases h
  case h_3 | h_6 | h_7 =>
    obtain ⟨values, -, h⟩ := h
    split at h
    · simp only [Option.bind_eq_some_iff, Option.some.injEq] at h
      obtain ⟨_, -, _, -, rfl⟩ := h
      rfl
    · cases h
  case h_2 | h_4 =>
    obtain ⟨_, -, rfl⟩ := h
    rfl
  case h_8 =>
    obtain ⟨_, -, _, -, h⟩ := h
    cases h
    rfl

theorem ofBody?_kind (declaration : Declaration) (body : Json) :
    ofBody? declaration.kind body = some declaration ↔ declaration.SpellsBody body := by
  cases declaration with
  | integrationVariable name rank size =>
      refine bind_fields?_eq_some_iff (by rfl) (by decide) (fun values => ?_) body
      rcases values with _ | ⟨_ | _, _ | ⟨_ | _, _ | ⟨_, _ | _⟩⟩⟩ <;>
        simp [Field.Holds, Option.bind_eq_some_iff, text?_eq_some_iff, Rank.reads _ _,
          orDefault_eq_some_iff (fun _ _ => nat?_eq_some_iff) "array_size"]
  | algorithm name => simp [kind, ofBody?, SpellsBody, text?_eq_some_iff]
  | parameter name value =>
      refine bind_fields?_eq_some_iff (by rfl) (by decide) (fun values => ?_) body
      rcases values with _ | ⟨_ | _, _ | ⟨_ | _, _ | _⟩⟩ <;>
        simp [Field.Holds, Option.bind_eq_some_iff, text?_eq_some_iff, Setting.reads _ _]
  | compareToNumericalJacobian compare => simp [kind, ofBody?, SpellsBody, bool?_eq_some_iff]
  | normalisationFactor name side factor =>
      refine bind_fields?_eq_some_iff (by rfl) (by decide) (fun values => ?_) body
      rcases values with _ | ⟨_ | _, _ | ⟨_ | _, _ | ⟨_ | _, _ | _⟩⟩⟩ <;>
        simp [Field.Holds, Option.bind_eq_some_iff, text?_eq_some_iff, Side.reads _ _,
          Setting.reads _ _]
  | incrementLimit name value =>
      refine bind_fields?_eq_some_iff (by rfl) (by decide) (fun values => ?_) body
      rcases values with _ | ⟨_, _ | ⟨_ | _, _ | _⟩⟩ <;>
        simp [Field.Holds, Option.bind_eq_some_iff, float?_eq_some_iff,
          orDefault_eq_some_iff (reads_text.option rfl) "variable"]
  | code role text =>
      refine bind_fields?_eq_some_iff (by rfl) (by decide) (fun values => ?_) body
      rcases values with _ | ⟨_ | _, _ | ⟨_ | _, _ | _⟩⟩ <;>
        simp [Field.Holds, Option.bind_eq_some_iff, text?_eq_some_iff, Role.reads _ _]
  | tangentBlocks blocks =>
      rw [SpellsBody, ← InverseBlock.reads.list body blocks]
      simp [kind, ofBody?, Option.bind_eq_some_iff]

theorem reads : Reads Declaration.ofJson? Declaration.Spells := by
  intro j declaration
  constructor
  · intro h
    unfold ofJson? at h
    split at h
    · rename_i kind body
      obtain rfl := kind_of_ofBody? h
      exact ⟨body, rfl, (ofBody?_kind declaration body).mp h⟩
    · cases h
  · rintro ⟨body, rfl, hbody⟩
    exact (ofBody?_kind declaration body).mpr hbody

end Declaration

/-! ## Descriptions -/

/-- The documents that stand for an event. -/
def Event.Spells (event : Event) : Json → Prop :=
  SpellsRecord [⟨"location", event.location.Spells, event.location = {}⟩,
    ⟨"hypothesis", SpellsOption (fun hypothesis => SpellsChoice hypothesis.name) event.hypothesis,
      event.hypothesis = none⟩,
    ⟨"declaration", event.declaration.Spells, False⟩]

theorem Event.reads : Reads Event.ofJson? Event.Spells := by
  intro j ⟨location, hypothesis, declaration⟩
  refine bind_fields?_eq_some_iff (by rfl) (by decide) (fun values => ?_) j
  rcases values with _ | ⟨_, _ | ⟨_, _ | ⟨_ | _, _ | _⟩⟩⟩ <;>
    simp [Field.Holds, Option.bind_eq_some_iff, Declaration.reads _ _,
      orDefault_eq_some_iff Location.reads "location",
      orDefault_eq_some_iff (Hypothesis.reads.option rfl) "hypothesis"]

/-- The documents that stand for a description. -/
def Description.Spells (description : Description) : Json → Prop :=
  SpellsRecord [⟨"class_name", SpellsText description.className, False⟩,
    ⟨"hypotheses",
      SpellsList (fun hypothesis => SpellsChoice hypothesis.name) description.hypotheses,
      description.hypotheses = []⟩,
    ⟨"events", SpellsList Event.Spells description.events, description.events = []⟩]

theorem reads_listOfJson? {α : Type} {read : Json → Option α} {spells : α → Json → Prop}
    (hread : Reads read spells) :
    Reads (listOfJson? read) (SpellsList spells) :=
  hread.list

theorem Description.reads : Reads Description.ofJson? Description.Spells := by
  intro j ⟨className, hypotheses, events⟩
  refine bind_fields?_eq_some_iff (by rfl) (by decide) (fun values => ?_) j
  rcases values with _ | ⟨_ | _, _ | ⟨_, _ | ⟨_, _ | _⟩⟩⟩ <;>
    simp [Field.Holds, Option.bind_eq_some_iff, text?_eq_some_iff,
      orDefault_eq_some_iff (reads_listOfJson? Hypothesis.reads) "hypotheses",
      orDefault_eq_some_iff (reads_listOfJson? Event.reads) "events"]

/-! ## Writing

A description can be written if its numbers are finite and its words have the size that a reader
accepts.  How a finite number is written is up to the writer, as long as it is read as that
number. -/

section Writing

variable {real : Float → Json}

/-- A finite number is written with digits that are read as the number. -/
def WritesNumber (real : Float → Json) (x : Float) : Prop :=
  x.isFinite = true ∧ SpellsFloat x (real x)

theorem spellsFloat_numberToJson {x : Float} (h : WritesNumber real x) :
    SpellsFloat x (numberToJson real x) := by
  rw [numberToJson, if_pos h.1]
  exact h.2

def Setting.Writable (real : Float → Json) : Setting → Prop
  | .number x => WritesNumber real x
  | _ => True

theorem Setting.spells_toJson {setting : Setting} (h : setting.Writable real) :
    setting.Spells (setting.toJson real) := by
  cases setting with
  | flag b => rfl
  | number x => exact spellsFloat_numberToJson h
  | text s => rfl

theorem InverseBlock.spells_toJson (block : InverseBlock) : block.Spells block.toJson :=
  .of_shown (.shown rfl (.shown rfl .nil))

def Declaration.Writable (real : Float → Json) : Declaration → Prop
  | .integrationVariable _ _ size => size < UInt16.size
  | .parameter _ value => value.Writable real
  | .normalisationFactor _ _ factor => factor.Writable real
  | .incrementLimit _ value => WritesNumber real value
  | _ => True

theorem spellsOption_getD {α : Type} {spells : α → Json → Prop} {write : α → Json}
    (h : ∀ a, spells a (write a))
    (value : Option α) : SpellsOption spells value ((value.map write).getD .null) := by
  cases value with
  | none => rfl
  | some a => exact h a

theorem spellsList_map {α : Type} {spells : α → Json → Prop} {write : α → Json} {members : List α}
    (h : ∀ a ∈ members, spells a (write a)) :
    SpellsList spells members (.array (members.map write)) :=
  ⟨members.map write, rfl, List.forall₂_map_right_iff.mpr (List.forall₂_same.mpr h)⟩

theorem Declaration.spells_toJson {declaration : Declaration} (h : declaration.Writable real) :
    declaration.Spells (declaration.toJson real) := by
  cases declaration with
  | integrationVariable name rank size =>
      exact ⟨_, rfl, .of_shown (.shown rfl (.shown (.inl rfl) (.shown ⟨rfl, h⟩ .nil)))⟩
  | algorithm name => exact ⟨_, rfl, rfl⟩
  | parameter name value =>
      exact ⟨_, rfl, .of_shown (.shown rfl (.shown (Setting.spells_toJson h) .nil))⟩
  | compareToNumericalJacobian compare => exact ⟨_, rfl, rfl⟩
  | normalisationFactor name side factor =>
      exact ⟨_, rfl,
        .of_shown (.shown rfl (.shown (.inl rfl) (.shown (Setting.spells_toJson h) .nil)))⟩
  | incrementLimit name value =>
      exact ⟨_, rfl, .of_shown (.shown (spellsOption_getD spellsText_text name)
        (.shown (spellsFloat_numberToJson h) .nil))⟩
  | code role text => exact ⟨_, rfl, .of_shown (.shown (.inl rfl) (.shown rfl .nil))⟩
  | tangentBlocks blocks => exact ⟨_, rfl, spellsList_map fun block _ => block.spells_toJson⟩

/-- The words of an event have their size, and its numbers can be written. -/
structure Event.Writable (real : Float → Json) (event : Event) : Prop where
  line : event.location.line < UInt64.size
  column : event.location.column < UInt64.size
  declaration : event.declaration.Writable real

theorem Event.spells_toJson {event : Event} (h : event.Writable real) :
    event.Spells (event.toJson real) :=
  .of_shown (.shown (.of_shown (.shown ⟨rfl, h.line⟩ (.shown ⟨rfl, h.column⟩ .nil)))
    (.shown (spellsOption_getD (fun _ => .inl rfl) event.hypothesis)
      (.shown (Declaration.spells_toJson h.declaration) .nil)))

theorem Description.spells_toJson {description : Description}
    (h : ∀ event ∈ description.events, event.Writable real) :
    description.Spells (description.toJson real) :=
  .of_shown (.shown rfl (.shown (spellsList_map fun _ _ => .inl rfl)
    (.shown (spellsList_map fun event hevent => Event.spells_toJson (h event hevent)) .nil)))

end Writing

/-- A document is read as a description just when it spells the description, in whichever of the
ways its records can be spelled; the document that is written for a description with finite numbers
is one of its spellings. -/
theorem Description.reading_undoes_writing (description : Description) (real : Float → Json) :
    (∀ j, Description.ofJson? j = some description ↔ description.Spells j) ∧
      ((∀ event ∈ description.events, event.Writable real) →
        description.Spells (description.toJson real) ∧
          Description.ofJson? (description.toJson real) = some description) := by
  refine ⟨fun j => Description.reads j description, fun hwritable => ?_⟩
  have hspells := Description.spells_toJson hwritable
  exact ⟨hspells, (Description.reads _ _).mpr hspells⟩

/-- A description with a bound on corrections under plane strain. -/
def boundedCreep : Description where
  className := "Creep"
  events := [{ declaration := .integrationVariable "p" .scalar 1 },
    { location := ⟨3, 1⟩, hypothesis := some .planeStrain,
      declaration := .incrementLimit none 0.25 }]

/-- A quarter, in digits. -/
def quarter : Json :=
  .number { whole := 0, decimals := [2, 5] }

theorem spellsFloat_quarter : SpellsFloat 0.25 quarter :=
  ⟨_, rfl, by decide +kernel⟩

/-- The first event as an object, without what has its default. -/
def creepVariable : Json :=
  .record [("declaration", .record [("variable", .array [.text "p", .record [("Scalar", .null)]])])]

/-- The second event as an array. -/
def creepBound : Json :=
  .array [.array [.nat 3, .nat 1], .text "PlaneStrain",
    .record [("increment_limit", .record [("value", quarter), ("variable", .null)])]]

/-- The description as an object in another order, with an unknown field in front. -/
def boundedCreepDocument : Json :=
  .record [("comment", .null), ("events", .array [creepVariable, creepBound]),
    ("class_name", .text "Creep")]

theorem boundedCreep_spells : boundedCreep.Spells boundedCreepDocument := by
  have hvariable : (Declaration.integrationVariable "p" .scalar 1).Spells
      (.record [("variable", .array [.text "p", .record [("Scalar", .null)]])]) :=
    ⟨_, rfl, .array (.cons rfl (.cons (.inr rfl) (.nil (by simp))))⟩
  have hbound : (Declaration.incrementLimit none 0.25).Spells
      (.record [("increment_limit", .record [("value", quarter), ("variable", .null)])]) := by
    refine ⟨_, rfl,
      .object (.shown rfl (.shown spellsFloat_quarter .nil)) ?_ (List.reverse_perm _).symm⟩
    simp
  have hfirst : Event.Spells { declaration := .integrationVariable "p" .scalar 1 } creepVariable :=
    .of_shown (.omitted rfl (.omitted rfl (.shown hvariable .nil)))
  have hplace : Location.Spells ⟨3, 1⟩ (.array [.nat 3, .nat 1]) :=
    .array (.cons ⟨rfl, by decide⟩ (.cons ⟨rfl, by decide⟩ (.nil (by simp))))
  have hsecond : Event.Spells ⟨⟨3, 1⟩, some .planeStrain, .incrementLimit none 0.25⟩ creepBound :=
    .array (.cons hplace (.cons (.inl rfl) (.cons hbound (.nil (by simp)))))
  refine .object
    (.shown rfl (.omitted rfl (.shown ⟨_, rfl, .cons hfirst (.cons hsecond .nil)⟩ .nil))) ?_
    (List.reverse_perm _).symm
  simp

theorem Description.reading_undoes_writing_boundedCreep :
    boundedCreep.Spells boundedCreepDocument ∧ Description.ofJson? boundedCreepDocument =
      some boundedCreep ∧
      (∀ event ∈ boundedCreep.events, event.Writable fun _ => quarter) ∧
      Description.ofJson? (boundedCreep.toJson fun _ => quarter) = some boundedCreep := by
  obtain ⟨hread, hwritten⟩ := Description.reading_undoes_writing boundedCreep fun _ => quarter
  have hwritable : ∀ event ∈ boundedCreep.events, event.Writable fun _ => quarter := by
    intro event hevent
    simp only [boundedCreep, List.mem_cons, List.not_mem_nil, or_false] at hevent
    rcases hevent with rfl | rfl
    · exact ⟨by decide, by decide, (by decide : 1 < UInt16.size)⟩
    · exact ⟨by decide, by decide, by decide +kernel, spellsFloat_quarter⟩
  exact ⟨boundedCreep_spells, (hread _).mpr boundedCreep_spells, hwritable, (hwritten hwritable).2⟩

end Constitutive
