import Constitutive.Proofs.Text.Lexeme
import Constitutive.Proofs.Unknowns.Layout
import Constitutive.Proofs.Unknowns.Roster
import Mathlib.Logic.ExistsUnique

/-!
# The blocks tile the Jacobian

Rows and columns of the Jacobian are indices of the vector of unknowns, so a cell lies in exactly
one block, that of the variable of its row with respect to the variable of its column, and at one
place in it.

What a `Derivative` says about its block is computed three times: by `rowOf` and `columnOf`, by the
numbers of elements, and in the text of the accessor, which leaves a stride of one out.  To compare
the last with the others, the text of an index is read back: `valueOfText?` takes the lexemes of a
text for sums of products of numerals and names.
-/

namespace Constitutive

/-! ## The value of an index text -/

/-- The value of a numeral or a name. -/
def operandValue? (env : String → Nat) : Text.Lexeme → Option Nat
  | .word cs => some (env (String.ofList cs))
  | .other cs => if cs.all Char.isDigit then some (Nat.ofDigitChars 10 cs 0) else none

/-- The value of what follows an operand, where `product` is the product it ends. -/
def valueAfter? (env : String → Nat) (product : Nat) : List Text.Lexeme → Option Nat
  | [] => some product
  | operator :: operand :: rest =>
    match operandValue? env operand with
    | none => none
    | some x =>
      if operator = .other [' ', '*', ' '] then valueAfter? env (product * x) rest
      else if operator = .other [' ', '+', ' '] then (valueAfter? env x rest).map (product + ·)
      else none
  | [_] => none

/-- The value of a text that is a sum of products. -/
def valueOfText? (env : String → Nat) (text : String) : Option Nat :=
  match Text.lex text.toList with
  | [] => none
  | first :: rest => (operandValue? env first).bind fun x => valueAfter? env x rest

theorem operandValue?_toDigits (env : String → Nat) (n : Nat) :
    operandValue? env (.other (Nat.toDigits 10 n)) = some n := by
  have hdigits : (Nat.toDigits 10 n).all Char.isDigit = true :=
    List.all_eq_true.mpr fun c hc => Nat.isDigit_of_mem_toDigits (by decide) (by decide) hc
  rw [operandValue?, if_pos hdigits, Nat.ofDigitChars_ten_toDigits]

theorem operandValue?_word (env : String → Nat) (name : String) :
    operandValue? env (.word name.toList) = some (env name) := by
  rw [operandValue?, String.ofList_toList]

namespace Index

/-- The row or column that is meant when names have values. -/
def valueIn (env : String → Nat) : Index → Nat
  | fixed offset => offset
  | strided offset index stride => (strided offset index stride).value (env index)

theorem toList_render_fixed (offset : Nat) :
    (fixed offset).render.toList = Nat.toDigits 10 offset := by
  simp [render]

theorem toList_render_strided (offset : Nat) (index : String) (stride : Nat) :
    (strided offset index stride).render.toList =
      Nat.toDigits 10 offset ++ ([' ', '+', ' '] ++ (index.toList ++
        if stride = 1 then [] else [' ', '*', ' '] ++ Nat.toDigits 10 stride)) := by
  have htext : ∀ text : String, toString text = text := fun _ => rfl
  by_cases hstride : stride = 1
  · simp [render, hstride, htext]
  · simp [render, hstride, htext]

/-- The lexemes of the text of an index that depends on a name. -/
theorem lex_render_strided (offset : Nat) {index : String} (hindex : isVariableName index = true)
    (stride : Nat) :
    Text.lex (strided offset index stride).render.toList =
      .other (Nat.toDigits 10 offset) :: .other [' ', '+', ' '] :: .word index.toList ::
        if stride = 1 then [] else [.other [' ', '*', ' '], .other (Nat.toDigits 10 stride)] := by
  -- no lexeme runs into the next one
  have hplus : ∀ rest, Text.Stops Text.isNumeralChar ([' ', '+', ' '] ++ rest) :=
    fun _ => Text.stops_cons rfl
  have hafter : Text.Stops Text.isWordChar
      (if stride = 1 then [] else [' ', '*', ' '] ++ Nat.toDigits 10 stride) := by
    split
    · exact Text.stops_nil _
    · exact Text.stops_cons rfl
  rw [toList_render_strided, Text.lex_toDigits_append offset (hplus _),
    Text.lex_other_append rfl rfl (Text.stops_identifier_append hindex),
    Text.lex_identifier_append hindex hafter]
  split
  · rw [Text.lex]
  · rw [Text.lex_other_append rfl rfl (Text.stops_toDigits stride), Text.lex_toDigits]

/-- The name that an index depends on, if any, can be one of a variable. -/
def NameOk : Index → Prop
  | fixed _ => True
  | strided _ index _ => isVariableName index = true

/-- The text of an index, read back, has its value. -/
theorem valueOfText?_render (env : String → Nat) {index : Index} (hname : index.NameOk) :
    valueOfText? env index.render = some (index.valueIn env) := by
  cases index with
  | fixed offset =>
      rw [valueOfText?, toList_render_fixed, Text.lex_toDigits]
      simp only [operandValue?_toDigits, Option.bind_some, valueAfter?, valueIn]
  | strided offset index stride =>
      rw [valueOfText?, lex_render_strided offset hname]
      simp only [operandValue?_toDigits, Option.bind_some, valueIn, value]
      by_cases hstride : stride = 1
      · simp [hstride, valueAfter?, operandValue?_word]
      · simp [hstride, valueAfter?, operandValue?_word, operandValue?_toDigits]

end Index

/-! ## What a derivative says about its block -/

namespace Derivative

/-- The array indices that the accessor is a function of, in order. -/
def parameters (d : Derivative) : List String :=
  match d.indexing with
  | .none => []
  | .residual _ | .unknown _ => ["idx"]
  | .both _ _ => ["idx", "idx2"]

/-- What the parameters stand for, at an element of the residual and one of the unknown. -/
def arguments (d : Derivative) (i j : Nat) : List Nat :=
  match d.indexing with
  | .none => []
  | .residual _ => [i]
  | .unknown _ => [j]
  | .both _ _ => [i, j]

/-- A declaration of `label` as a view whose first cell is given by two texts: a reference to a
single cell, a view at a fixed place, or a function of the parameters. -/
def declaration (d : Derivative) (label : String) (matrix : Piece) (row column : String) : Line :=
  let types : Line := [d.residual.rank.typeName, ", ", d.unknown.rank.typeName]
  let place : Line :=
    if d.isCellwise then [matrix, "(", row, ", ", column, ")"]
    else .concat [["map_derivative<"], types, [">(", matrix, ", ", row, ", ", column, ")"]]
  if d.parameters = [] then
    if d.isCellwise then .concat [["real& ", label, " = "], place, [";"]]
    else .concat [["auto&& ", label, " = map_derivative<", row, ", ", column, ", "], types,
      [">(", matrix, ");"]]
  else
    .concat [["auto ", label,
      " = [&](" ++ ", ".intercalate (d.parameters.map ("const unsigned short " ++ ·)) ++
      ") -> decltype(auto) \x7b return "], place, ["; \x7d;"]]

theorem accessor_eq_declaration (d : Derivative) (label : String) (matrix : Piece) :
    d.accessor label matrix =
      d.declaration label matrix d.rowIndex.render d.columnIndex.render := by
  unfold accessor declaration view parameters
  cases d.indexing <;> cases d.isCellwise <;> rfl

theorem rowIndex_nameOk (d : Derivative) : d.rowIndex.NameOk := by
  unfold rowIndex
  cases d.indexing with
  | none => trivial
  | residual size => rfl
  | unknown size => trivial
  | both residual unknown => rfl

theorem columnIndex_nameOk (d : Derivative) : d.columnIndex.NameOk := by
  unfold columnIndex
  cases d.indexing with
  | none => trivial
  | residual size => trivial
  | unknown size => rfl
  | both residual unknown => rfl

/-- Both variables have elements. -/
def Sized (d : Derivative) : Prop :=
  1 ≤ d.residual.arraySize ∧ 1 ≤ d.unknown.arraySize

variable {d : Derivative}

/-- The four ways to address a block, by the numbers of elements. -/
theorem indexing_cases (hsized : d.Sized) :
    (d.indexing = .none ∧ d.residual.arraySize = 1 ∧ d.unknown.arraySize = 1) ∨
      (d.indexing = .residual d.residual.arraySize ∧ d.unknown.arraySize = 1) ∨
      (d.indexing = .unknown d.unknown.arraySize ∧ d.residual.arraySize = 1) ∨
      d.indexing = .both d.residual.arraySize d.unknown.arraySize := by
  obtain ⟨hresidual, hunknown⟩ := hsized
  -- a variable that is not an array has one element
  have hsingle : ∀ slot : Slot, 1 ≤ slot.arraySize → slot.isArray = false → slot.arraySize = 1 := by
    intro slot hslot hfalse
    have hnot : ¬ 1 < slot.arraySize := of_decide_eq_false hfalse
    omega
  unfold indexing
  cases hr : d.residual.isArray <;> cases hu : d.unknown.isArray
  · exact Or.inl ⟨rfl, hsingle _ hresidual hr, hsingle _ hunknown hu⟩
  · exact Or.inr (Or.inr (Or.inl ⟨rfl, hsingle _ hresidual hr⟩))
  · exact Or.inr (Or.inl ⟨rfl, hsingle _ hunknown hu⟩)
  · exact Or.inr (Or.inr (Or.inr rfl))

theorem residualElements_eq (hsized : d.Sized) : d.residualElements = d.residual.arraySize := by
  unfold residualElements
  obtain ⟨h, hr, -⟩ | ⟨h, -⟩ | ⟨h, hr⟩ | h := indexing_cases hsized
  · rw [h, hr]
  · rw [h]
  · rw [h, hr]
  · rw [h]

theorem unknownElements_eq (hsized : d.Sized) : d.unknownElements = d.unknown.arraySize := by
  unfold unknownElements
  obtain ⟨h, -, hu⟩ | ⟨h, hu⟩ | ⟨h, -⟩ | h := indexing_cases hsized
  · rw [h, hu]
  · rw [h, hu]
  · rw [h]
  · rw [h]

/-- At the element that the parameters stand for, the row index is the first row of the element. -/
theorem valueIn_rowIndex (hsized : d.Sized) {env : String → Nat} {i j : Nat}
    (henv : d.parameters.map env = d.arguments i j) (hi : i < d.residual.arraySize) :
    d.rowIndex.valueIn env = d.rowOf i 0 := by
  unfold parameters arguments at henv
  unfold rowIndex rowOf
  obtain ⟨h, hr, -⟩ | ⟨h, -⟩ | ⟨h, hr⟩ | h := indexing_cases hsized
  · obtain rfl : i = 0 := by omega
    rw [h, Nat.zero_mul]
    rfl
  · rw [h] at henv ⊢
    have hidx : env "idx" = i := by simpa using henv
    rw [← hidx]
    rfl
  · obtain rfl : i = 0 := by omega
    rw [h, Nat.zero_mul]
    rfl
  · rw [h] at henv ⊢
    have hidx : env "idx" = i := by simpa using congrArg List.head? henv
    rw [← hidx]
    rfl

/-- At the element that the parameters stand for, the column index is the first column of the
element. -/
theorem valueIn_columnIndex (hsized : d.Sized) {env : String → Nat} {i j : Nat}
    (henv : d.parameters.map env = d.arguments i j) (hj : j < d.unknown.arraySize) :
    d.columnIndex.valueIn env = d.columnOf j 0 := by
  unfold parameters arguments at henv
  unfold columnIndex columnOf
  obtain ⟨h, -, hu⟩ | ⟨h, hu⟩ | ⟨h, -⟩ | h := indexing_cases hsized
  · obtain rfl : j = 0 := by omega
    rw [h, Nat.zero_mul]
    rfl
  · obtain rfl : j = 0 := by omega
    rw [h, Nat.zero_mul]
    rfl
  · rw [h] at henv ⊢
    have hidx : env "idx" = j := by simpa using henv
    rw [← hidx]
    rfl
  · rw [h] at henv ⊢
    have hidx : env "idx2" = j := by simpa using congrArg List.getLast? henv
    rw [← hidx]
    rfl

end Derivative

/-! ## The derivatives of a layout -/

namespace Layout

variable {dim : Dimension} {vars : List Variable}

/-- Two variables of a layout have a derivative, unless the one is a symmetric tensor and the other
a vector. -/
theorem derivative_of_mem (dim : Dimension) (hnames : (vars.map (·.name)).Nodup) {r u : Variable}
    (hr : r ∈ vars) (hu : u ∈ vars) :
    ∃ sr ∈ (plan dim vars).slots, ∃ su ∈ (plan dim vars).slots, sr.owner = r ∧ su.owner = u ∧
      (plan dim vars).derivative r.name u.name =
        if r.rank = .symmetricTensor ∧ u.rank = .vector then
          .error (.unsupportedDerivative r.name u.name .symmetricTensor .vector)
        else .ok ⟨sr, su⟩ := by
  have hdistinct := plan_namesDistinct dim hnames
  obtain ⟨sr, hsr, rfl⟩ := exists_slot_of_mem dim hr
  obtain ⟨su, hsu, rfl⟩ := exists_slot_of_mem dim hu
  have hfindr : (plan dim vars).slot? sr.owner.name = some sr :=
    (slot?_eq_some_iff hdistinct).mpr ⟨hsr, rfl⟩
  have hfindu : (plan dim vars).slot? su.owner.name = some su :=
    (slot?_eq_some_iff hdistinct).mpr ⟨hsu, rfl⟩
  refine ⟨sr, hsr, su, hsu, rfl, rfl, ?_⟩
  unfold derivative
  simp only [hfindr, hfindu]
  by_cases hranks : sr.rank = .symmetricTensor ∧ su.rank = .vector
  · have howners : sr.owner.rank = .symmetricTensor ∧ su.owner.rank = .vector := hranks
    rw [if_pos hranks, if_pos howners, hranks.1, hranks.2]
  · have howners : ¬ (sr.owner.rank = .symmetricTensor ∧ su.owner.rank = .vector) := hranks
    rw [if_neg hranks, if_neg howners]

/-- An index belongs to a variable of the layout at an element and a component exactly if it is the
index of these in the slot of the variable. -/
theorem holds_iff (hnames : (vars.map (·.name)).Nodup) {slot : Slot}
    (hslot : slot ∈ (plan dim vars).slots) {index element component : Nat} :
    (plan dim vars).Holds index ⟨slot.owner.name, element, component⟩ ↔
      element < slot.owner.arraySize ∧ component < slot.owner.components dim ∧
        slot.index element component = index := by
  have hdistinct := plan_namesDistinct dim hnames
  have hcomponents := components_of_mem_plan hslot
  constructor
  · rintro ⟨slot', hfind, helement, hcomponent, hindex⟩
    have hsame : (plan dim vars).slot? slot.owner.name = some slot :=
      (slot?_eq_some_iff hdistinct).mpr ⟨hslot, rfl⟩
    obtain rfl : slot = slot' := Option.some_inj.mp (hsame.symm.trans hfind)
    exact ⟨helement, hcomponents ▸ hcomponent, hindex.symm⟩
  · rintro ⟨helement, hcomponent, hindex⟩
    exact ⟨slot, (slot?_eq_some_iff hdistinct).mpr ⟨hslot, rfl⟩, helement,
      hcomponents.symm ▸ hcomponent, hindex.symm⟩

/-- **Tiling.**  For the variables of any roster and any dimension, each cell of the Jacobian is in
one place of one block.  Two variables have a derivative unless the residual is a symmetric tensor
and the unknown a vector; the derivative gives each of its elements and components the row and
column that they have, it counts the elements of both variables, and the two texts in its accessor
denote the first row and column of the elements that the parameters stand for. -/
theorem blocks_tile_jacobian (reservations : List String) (calls : List Variable)
    (dim : Dimension) :
    let vars := (Roster.declared reservations calls).vars
    let layout := plan dim vars
    (∀ row < layout.total, ∀ column < layout.total,
      ∃! cell : Component × Component, layout.Holds row cell.1 ∧ layout.Holds column cell.2) ∧
    ∀ r ∈ vars, ∀ u ∈ vars,
      (r.rank = .symmetricTensor ∧ u.rank = .vector →
        layout.derivative r.name u.name =
          .error (.unsupportedDerivative r.name u.name .symmetricTensor .vector)) ∧
      (¬ (r.rank = .symmetricTensor ∧ u.rank = .vector) →
        ∃ d, layout.derivative r.name u.name = .ok d ∧
          (∀ row i c, layout.Holds row ⟨r.name, i, c⟩ ↔
            i < r.arraySize ∧ c < r.components dim ∧ d.rowOf i c = row) ∧
          (∀ column j c, layout.Holds column ⟨u.name, j, c⟩ ↔
            j < u.arraySize ∧ c < u.components dim ∧ d.columnOf j c = column) ∧
          d.residualElements = r.arraySize ∧ d.unknownElements = u.arraySize ∧
          ∀ label matrix, ∃ row column,
          d.accessor label matrix = d.declaration label matrix row column ∧
            ∀ i < r.arraySize, ∀ j < u.arraySize, ∀ env, d.parameters.map env = d.arguments i j →
              valueOfText? env row = some (d.rowOf i 0) ∧
              valueOfText? env column = some (d.columnOf j 0)) := by
  intro vars layout
  have hwell := Roster.declared_wellNamed reservations calls
  have hnames : (vars.map (·.name)).Nodup := hwell.nodup
  refine ⟨?_, ?_⟩
  · -- rows and columns are both indices of the vector of unknowns
    intro row hrow column hcolumn
    obtain ⟨c, hc, hcunique⟩ := existsUnique_holds hnames hrow
    obtain ⟨e, he, heunique⟩ := existsUnique_holds hnames hcolumn
    refine ⟨(c, e), ⟨hc, he⟩, ?_⟩
    rintro ⟨c', e'⟩ ⟨hc', he'⟩
    rw [hcunique c' hc', heunique e' he']
  · intro r hr u hu
    obtain ⟨sr, hsr, su, hsu, rfl, rfl, hderivative⟩ := derivative_of_mem dim hnames hr hu
    refine ⟨fun hranks => ?_, fun hranks => ?_⟩
    · rw [hderivative, if_pos hranks]
    · rw [if_neg hranks] at hderivative
      have hsized : Derivative.Sized ⟨sr, su⟩ := ⟨hwell.sized _ hr, hwell.sized _ hu⟩
      refine ⟨⟨sr, su⟩, hderivative, fun row i c => holds_iff hnames hsr,
        fun column j c => holds_iff hnames hsu, Derivative.residualElements_eq hsized,
        Derivative.unknownElements_eq hsized, fun label matrix => ?_⟩
      refine ⟨_, _, Derivative.accessor_eq_declaration _ label matrix,
        fun i hi j hj env henv => ⟨?_, ?_⟩⟩
      · rw [Index.valueOfText?_render env (Derivative.rowIndex_nameOk _),
          Derivative.valueIn_rowIndex hsized henv hi]
      · rw [Index.valueOfText?_render env (Derivative.columnIndex_nameOk _),
          Derivative.valueIn_columnIndex hsized henv hj]

end Layout

end Constitutive
