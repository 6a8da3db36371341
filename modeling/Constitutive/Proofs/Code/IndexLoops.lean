import Constitutive.Proofs.Code.References
import Constitutive.Proofs.Unknowns.Layout
import Mathlib.Data.Nat.Find

/-!
# Indices of 16 bits in generated code

Offsets and the number of unknowns are constants of 16 bits in generated code, and so are the
indices of its loops.  A loop is left when its index *equals* the bound, and a bound that is a sum
is computed with more than 16 bits.  So such a loop ends if and only if its bound fits
(`exists_endsAfter_iff`): from an index of 16 bits, no larger bound is ever reached.

`Line.Sized` says which loops and which sums a line has.  It is checked piece by piece: all pieces
but the beginnings of loops and the offsets are skipped.
-/

namespace Constitutive

open Stmt

/-! ## Lines of statements -/

namespace Stmt

variable {P Q : Line → Prop} {rest : List Stmt}

/-- All lines of the statements have a property. -/
def AllLines (P : Line → Prop) (body : List Stmt) : Prop :=
  ∀ l ∈ linesIn body, P l

theorem AllLines.mono {body : List Stmt} (h : AllLines P body) (himp : ∀ l, P l → Q l) :
    AllLines Q body :=
  fun l hl => himp l (h l hl)

theorem allLines_iff {body : List Stmt} : AllLines P body ↔ ∀ stmt ∈ body, AllLines P [stmt] := by
  simp only [AllLines, mem_linesIn, List.mem_singleton, exists_eq_left]
  exact ⟨fun h stmt hstmt l hl => h l ⟨stmt, hstmt, hl⟩,
    fun h l ⟨stmt, hstmt, hl⟩ => h stmt hstmt l hl⟩

@[simp] theorem allLines_nil : AllLines P [] := by
  simp [AllLines, linesIn]

@[simp] theorem allLines_cons_line {l : Line} :
    AllLines P (.line l :: rest) ↔ P l ∧ AllLines P rest := by
  simp [AllLines, linesIn, lines]

@[simp] theorem allLines_cons_block {head : Line} {body : List Stmt} :
    AllLines P (.block head body :: rest) ↔ P head ∧ AllLines P body ∧ AllLines P rest := by
  simp only [AllLines, linesIn, lines, List.forall_mem_append, List.forall_mem_cons, and_assoc]

@[simp] theorem allLines_cons_comment {text : String} :
    AllLines P (.comment text :: rest) ↔ AllLines P rest := by
  simp [AllLines, linesIn, lines]

@[simp] theorem allLines_cons_code {text : String} :
    AllLines P (.code text :: rest) ↔ AllLines P rest := by
  simp [AllLines, linesIn, lines]

@[simp] theorem allLines_append {first second : List Stmt} :
    AllLines P (first ++ second) ↔ AllLines P first ∧ AllLines P second := by
  simp only [AllLines, linesIn_append, List.forall_mem_append]

@[simp] theorem allLines_map {α : Type} {f : α → Stmt} {xs : List α} :
    AllLines P (xs.map f) ↔ ∀ x ∈ xs, AllLines P [f x] := by
  rw [allLines_iff, List.forall_mem_map]

@[simp] theorem allLines_filterMap {α : Type} {f : α → Option Stmt} {xs : List α} :
    AllLines P (xs.filterMap f) ↔ ∀ x ∈ xs, ∀ stmt ∈ f x, AllLines P [stmt] := by
  rw [allLines_iff]
  simp only [List.mem_filterMap, Option.mem_def]
  exact ⟨fun h x hx stmt hstmt => h stmt ⟨x, hx, hstmt⟩,
    fun h stmt ⟨x, hx, hstmt⟩ => h x hx stmt hstmt⟩

@[simp] theorem allLines_flatMap {α : Type} {f : α → List Stmt} {xs : List α} :
    AllLines P (xs.flatMap f) ↔ ∀ x ∈ xs, AllLines P (f x) := by
  induction xs with
  | nil => simp
  | cons x rest ih => rw [List.flatMap_cons, allLines_append, ih, List.forall_mem_cons]

@[simp] theorem allLines_onlyIf {condition : Bool} {body : List Stmt} :
    AllLines P (onlyIf condition body) ↔ (condition = true → AllLines P body) := by
  cases condition with
  | false => simp [onlyIf]
  | true => simp [onlyIf]

end Stmt

/-! ## Constants -/

/-- The number that a text of digits stands for. -/
def numeral? (text : String) : Option Nat :=
  if text.toList ≠ [] ∧ text.toList.all Char.isDigit
    then some (Nat.ofDigitChars 10 text.toList 0) else none

@[simp] theorem numeral?_repr (n : Nat) : numeral? n.repr = some n := by
  have hdigits : (Nat.toDigits 10 n).all Char.isDigit = true :=
    List.all_eq_true.mpr fun c hc => Nat.isDigit_of_mem_toDigits (by decide) (by decide) hc
  rw [numeral?, Nat.toList_repr, if_pos ⟨Nat.toDigits_ne_nil, hdigits⟩,
    Nat.ofDigitChars_ten_toDigits]

/-- The constant of 16 bits that a line defines, and the number that is written for it. -/
def Line.shortConstant? : Line → Option (Constant × Nat)
  | [.text "static constexpr unsigned short ", .define (.constant c), .text " = ", .text number,
    .text ";"] =>
    (numeral? number).map fun n => (c, n)
  | _ => none

/-- The constants of 16 bits that statements define. -/
def Stmt.shortConstants (body : List Stmt) : List (Constant × Nat) :=
  (linesIn body).filterMap Line.shortConstant?

/-- The value of a constant, which is what 16 bits hold of its number. -/
def shortValue? (constants : List (Constant × Nat)) (c : Constant) : Option UInt16 :=
  (constants.lookup c).map UInt16.ofNat

/-- The value of a number, a constant or the sum of both. -/
def Line.value? (constants : List (Constant × Nat)) : Line → Option Nat
  | [.text number] => numeral? number
  | [.use (.constant c)] => (shortValue? constants c).map (·.toNat)
  | [.use (.constant c), .text " + ", .text number] =>
    (shortValue? constants c).bind fun x => (numeral? number).map (x.toNat + ·)
  | _ => none

namespace Layout

/-- The constants of 16 bits as they are written. -/
def constants (layout : Layout) : List (Constant × Nat) :=
  shortConstants layout.offsetConstants

theorem linesIn_map_line {α : Type} (f : α → Line) (xs : List α) :
    linesIn (xs.map fun x => .line (f x)) = xs.map f := by
  induction xs with
  | nil => rfl
  | cons x rest ih => simp [linesIn, lines, ih]

theorem constants_eq (layout : Layout) :
    layout.constants = layout.slots.map (fun slot => (.offset slot.name, slot.offset)) ++
      [(.size, layout.total)] := by
  unfold constants shortConstants offsetConstants
  rw [List.cons_append, linesIn, lines, List.nil_append, linesIn_append, linesIn_map_line,
    List.filterMap_append, List.filterMap_map]
  congr 1
  · refine List.filterMap_eq_map_iff_forall_eq_some.mpr fun slot _ => ?_
    simp [Line.shortConstant?]
  · simp [linesIn, lines, Line.shortConstant?]

theorem lookup_size (layout : Layout) : layout.constants.lookup .size = some layout.total := by
  rw [constants_eq, List.lookup_eq_some_iff]
  exact ⟨_, [], rfl, List.forall_mem_map.mpr fun _ _ => by simp⟩

end Layout

theorem value?_size (layout : Layout) :
    Line.value? layout.constants [Constant.size] = some (layout.total % UInt16.size) := by
  simp [Line.value?, shortValue?, layout.lookup_size, UInt16.size]

theorem value?_number (constants : List (Constant × Nat)) (n : Nat) :
    Line.value? constants [toString n] = some n := by
  simp [Line.value?]

/-! ## Loops -/

/-- A loop makes `count` passes: its index of 16 bits starts at `start`, and is increased until it
equals `stop`. -/
structure EndsAfter (start : UInt16) (stop count : Nat) : Prop where
  ends : (start + UInt16.ofNat count).toNat = stop
  goes_on : ∀ k < count, (start + UInt16.ofNat k).toNat ≠ stop

theorem EndsAfter.unique {start : UInt16} {stop count count' : Nat} (h : EndsAfter start stop count)
    (h' : EndsAfter start stop count') : count = count' := by
  rcases Nat.lt_trichotomy count count' with hlt | rfl | hlt
  · exact absurd h.ends (h'.goes_on count hlt)
  · rfl
  · exact absurd h'.ends (h.goes_on count' hlt)

theorem toNat_ofNat (n : Nat) : (UInt16.ofNat n).toNat = n % UInt16.size :=
  UInt16.toNat_ofNat'

theorem toNat_add_ofNat (start : UInt16) (k : Nat) :
    (start + UInt16.ofNat k).toNat = (start.toNat + k) % UInt16.size := by
  simp [UInt16.toNat_add, UInt16.size]

theorem endsAfter_of_le {start : UInt16} {stop : Nat} (hle : start.toNat ≤ stop)
    (hstop : stop < UInt16.size) :
    EndsAfter start stop (stop - start.toNat) where
  ends := by
    rw [toNat_add_ofNat, Nat.add_sub_cancel' hle, Nat.mod_eq_of_lt hstop]
  goes_on := by
    intro k hk
    rw [toNat_add_ofNat, Nat.mod_eq_of_lt (by omega)]
    omega

/-- A loop ends if and only if its bound fits into 16 bits. -/
theorem exists_endsAfter_iff {start : UInt16} {stop : Nat} :
    (∃ count, EndsAfter start stop count) ↔ stop < UInt16.size := by
  constructor
  · rintro ⟨count, h⟩
    rw [← h.ends]
    exact UInt16.toNat_lt_size _
  · intro hstop
    -- the index meets every number of 16 bits, the bound among them
    have hmeets : ∃ k, (start + UInt16.ofNat k).toNat = stop := by
      refine ⟨UInt16.size + stop - start.toNat, ?_⟩
      have hstart := start.toNat_lt_size
      rw [toNat_add_ofNat, Nat.add_sub_cancel' (by omega), Nat.add_mod_left, Nat.mod_eq_of_lt hstop]
    exact ⟨Nat.find hmeets, Nat.find_spec hmeets, fun k hk => Nat.find_min hmeets hk⟩

/-- The ranges that indices go through, with their lengths: all unknowns, those of one slot, and the
numbers below a bound which is at most the number of unknowns. -/
inductive IndexRange (layout : Layout) : (start stop : Line) → (length : Nat) → Prop
  | all : IndexRange layout ["0"] [Constant.size] layout.total
  | slot {slot : Slot} (hslot : slot ∈ layout.slots) :
      IndexRange layout [Constant.offset slot.name] [Constant.offset slot.name, " + ",
        toString slot.size] slot.size
  | below {bound : Nat} (hbound : bound ≤ layout.total) : IndexRange layout ["0"]
      [toString bound] bound

/-! ## Characters of numbers -/

namespace Decimal

/-- The characters of numbers, the words for those that are not finite included. -/
def isNumeric (c : Char) : Bool :=
  c.isDigit || ['-', '.', 'e', 'N', 'a', 'i', 'n', 'f'].contains c

/-- For literals. -/
theorem isNumeric_ofList {cs : List Char} (h : cs.all isNumeric = true) :
    ∀ c ∈ (String.ofList cs).toList, isNumeric c = true := by
  rw [String.toList_ofList]
  exact List.all_eq_true.mp h

theorem isNumeric_of_mem_digits {n : Nat} : ∀ c ∈ digits n, isNumeric c = true := by
  intro c hc
  rw [isNumeric, Nat.isDigit_of_mem_toDigits (by decide) (by decide) hc, Bool.true_or]

theorem isNumeric_of_mem_zeros {count : Nat} : ∀ c ∈ (zeros count).toList, isNumeric c = true := by
  intro c hc
  rw [zeros, String.toList_ofList] at hc
  rw [List.eq_of_mem_replicate hc]
  decide

theorem isNumeric_of_mem_positional (d : Scaled) (point : Bool) :
    ∀ c ∈ (d.positional point).toList, isNumeric c = true := by
  have hdigits : ∀ c ∈ digits d.coefficient, isNumeric c = true := isNumeric_of_mem_digits
  unfold Scaled.positional
  dsimp only
  split
  · simp only [String.toList_append, String.toList_ofList, List.forall_mem_append]
    refine ⟨⟨hdigits, isNumeric_of_mem_zeros⟩, ?_⟩
    cases point with
    | false => exact isNumeric_ofList rfl
    | true => exact isNumeric_ofList rfl
  · split
    · simp only [String.toList_append, String.toList_ofList, List.forall_mem_append]
      exact ⟨⟨fun c hc => hdigits c (List.mem_of_mem_take hc), isNumeric_ofList rfl⟩,
        fun c hc => hdigits c (List.mem_of_mem_drop hc)⟩
    · simp only [String.toList_append, String.toList_ofList, List.forall_mem_append]
      exact ⟨⟨isNumeric_ofList rfl, isNumeric_of_mem_zeros⟩, hdigits⟩

theorem isNumeric_of_mem_toString_int (i : Int) :
    ∀ c ∈ (toString i).toList, isNumeric c = true := by
  cases i with
  | ofNat n =>
      show ∀ c ∈ n.repr.toList, isNumeric c = true
      rw [Nat.toList_repr]
      exact isNumeric_of_mem_digits
  | negSucc n =>
      show ∀ c ∈ ("-" ++ (n + 1).repr).toList, isNumeric c = true
      rw [String.toList_append, Nat.toList_repr, List.forall_mem_append]
      exact ⟨isNumeric_ofList rfl, isNumeric_of_mem_digits⟩

theorem isNumeric_of_mem_exponential (d : Scaled) :
    ∀ c ∈ d.exponential.toList, isNumeric c = true := by
  have hdigits : ∀ c ∈ digits d.coefficient, isNumeric c = true := isNumeric_of_mem_digits
  have hplace := isNumeric_of_mem_toString_int d.place
  have hfirst : ∀ c ∈ (digits d.coefficient).take 1, isNumeric c = true :=
    fun c hc => hdigits c (List.mem_of_mem_take hc)
  have hothers : ∀ c ∈ (digits d.coefficient).drop 1, isNumeric c = true :=
    fun c hc => hdigits c (List.mem_of_mem_drop hc)
  unfold Scaled.exponential
  dsimp only
  split
  · simp only [String.toList_append, String.toList_ofList, List.forall_mem_append]
    exact ⟨⟨⟨hfirst, isNumeric_ofList rfl⟩, isNumeric_ofList rfl⟩, hplace⟩
  · simp only [String.toList_append, String.toList_ofList, List.forall_mem_append]
    exact ⟨⟨⟨hfirst, isNumeric_ofList rfl, hothers⟩, isNumeric_ofList rfl⟩, hplace⟩

theorem isNumeric_of_mem_literal (x : Float) : ∀ c ∈ (literal x).toList, isNumeric c = true := by
  unfold literal signed
  split
  · exact isNumeric_ofList rfl
  · split
    · exact isNumeric_ofList rfl
    · exact isNumeric_ofList rfl
  · rw [String.toList_append, List.forall_mem_append]
    constructor
    · split
      · exact isNumeric_ofList rfl
      · exact isNumeric_ofList rfl
    · dsimp only
      split
      · exact isNumeric_ofList rfl
      · split
        · exact isNumeric_of_mem_positional _ true
        · exact isNumeric_of_mem_exponential _

end Decimal

/-! ## Texts that begin no loop -/

namespace Line

variable {layout : Layout}

theorem ne_loopStart_of_not_mem {s : String} (h : '(' ∉ s.toList) : s ≠ "for(unsigned short " := by
  rintro rfl
  exact h (by decide)

@[simp] theorem literal_ne_loopStart (x : Float) : Decimal.literal x ≠ "for(unsigned short " :=
  ne_loopStart_of_not_mem fun hmem => absurd (Decimal.isNumeric_of_mem_literal x _ hmem) (by decide)

@[simp] theorem repr_ne_loopStart (n : Nat) : n.repr ≠ "for(unsigned short " := by
  refine ne_loopStart_of_not_mem fun hmem => ?_
  rw [Nat.toList_repr] at hmem
  exact absurd (Decimal.isNumeric_of_mem_digits _ hmem) (by decide)

/-- The beginning of a loop. -/
def loopStart : Piece := .text "for(unsigned short "

/-- Where a loop begins, its index goes through a range.  Where something is added to an offset, the
offset is that of a slot and its size is added. -/
def Sized (layout : Layout) : Line → Prop
  | [] => True
  | piece :: rest =>
    (piece = loopStart → ∃ index start stop length after,
      piece :: rest = forIndex index start stop ++ after ∧ IndexRange layout start stop length) ∧
    (∀ name after, piece :: rest = .use (.constant (.offset name)) :: .text " + " :: after →
      ∃ slot ∈ layout.slots, ∃ after', slot.name = name ∧
      after = .text (toString slot.size) :: after') ∧
    Sized layout rest

@[simp] theorem sized_nil : Sized layout [] := trivial

@[simp] theorem sized_cons_text {s : String} {l : Line} (hs : s ≠ "for(unsigned short ") :
    Sized layout (.text s :: l) ↔ Sized layout l := by
  simp [Sized, loopStart, hs]

@[simp] theorem sized_cons_define {symbol : Symbol} {l : Line} :
    Sized layout (.define symbol :: l) ↔ Sized layout l := by
  simp [Sized, loopStart]

@[simp] theorem sized_cons_given {expression : String} {l : Line} :
    Sized layout (.given expression :: l) ↔ Sized layout l := by
  simp [Sized, loopStart]

@[simp] theorem sized_cons_member {m : Member} {l : Line} :
    Sized layout (.use (.member m) :: l) ↔ Sized layout l := by
  simp [Sized, loopStart]

@[simp] theorem sized_cons_method {m : Method} {l : Line} :
    Sized layout (.use (.method m) :: l) ↔ Sized layout l := by
  simp [Sized, loopStart]

@[simp] theorem sized_cons_constant {c : Constant} {l : Line} (hc : ∀ name, c ≠ .offset name) :
    Sized layout (.use (.constant c) :: l) ↔ Sized layout l := by
  simp [Sized, loopStart, hc]

/-- An offset to which nothing is added. -/
@[simp] theorem sized_cons_offset {name : String} {l : Line}
    (hl : ∀ after, l ≠ .text " + " :: after) :
    Sized layout (.use (.constant (.offset name)) :: l) ↔ Sized layout l := by
  simp [Sized, loopStart, hl]

/-- A loop through a range, and what follows it. -/
theorem sized_forIndex_append {index : String}
    (hindex : index ≠ "for(unsigned short ") {start stop : Line} {length : Nat}
    (hrange : IndexRange layout start stop length) {l : Line} (hl : Sized layout l) :
    Sized layout (forIndex index start stop ++ l) := by
  have hhead : Sized layout ((forIndex index start stop ++ l).tail) := by
    cases hrange with
    | all => simpa [forIndex, concat, hindex] using hl
    | slot hslot =>
        rename_i slot
        have hsize : Sized layout (.use (.constant (.offset slot.name)) :: .text " + " ::
            .text (toString slot.size) ::
            .text "; ++" :: .text index :: .text ")" :: l) := by
          refine ⟨fun h => (by cases h), ?_, by simpa [hindex] using hl⟩
          intro name after heq
          obtain ⟨rfl, -, rfl⟩ : slot.name = name ∧ True ∧ _ = after := by simpa using heq
          exact ⟨slot, hslot, _, rfl, rfl⟩
        simpa [forIndex, concat, hindex] using hsize
    | below hbound => simpa [forIndex, concat, hindex] using hl
  exact ⟨fun _ => ⟨index, start, stop, length, l, rfl, hrange⟩, fun _ _ h => (by cases h), hhead⟩

theorem sized_forIndex {index : String}
    (hindex : index ≠ "for(unsigned short ") {start stop : Line} {length : Nat}
    (hrange : IndexRange layout start stop length) : Sized layout (forIndex index start stop) := by
  simpa using sized_forIndex_append hindex hrange sized_nil

/-- A loop on one line with its body. -/
theorem sized_inBraces {index : String}
    (hindex : index ≠ "for(unsigned short ") {start stop : Line} {length : Nat}
    (hrange : IndexRange layout start stop length) {body : Line}
    (hbody : Sized layout (body ++ [.text " \x7d"])) :
    Sized layout (inBraces (forIndex index start stop) body) := by
  have hrest : Sized layout (.text "\x7b " :: (body ++ [.text " \x7d"])) := by simpa using hbody
  simpa [inBraces, concat] using sized_forIndex_append hindex hrange hrest

/-- Neither loops nor offsets. -/
def Plain (l : Line) : Prop :=
  ∀ piece ∈ l, piece ≠ loopStart ∧ ∀ name, piece ≠ .use (.constant (.offset name))

@[simp] theorem plain_nil : Plain [] := by
  simp [Plain]

@[simp] theorem plain_cons {piece : Piece} {l : Line} :
    Plain (piece :: l) ↔ (piece ≠ .text "for(unsigned short " ∧ ∀ name,
      piece ≠ .use (.constant (.offset name))) ∧ Plain l := by
  simp [Plain, loopStart]

@[simp] theorem plain_append {l l' : Line} : Plain (l ++ l') ↔ Plain l ∧ Plain l' :=
  List.forall_mem_append

@[simp] theorem plain_concat {parts : List Line} :
    Plain (concat parts) ↔ ∀ part ∈ parts, Plain part := by
  induction parts with
  | nil => simp [concat]
  | cons part rest ih =>
      have hconcat : concat (part :: rest) = part ++ concat rest := rfl
      rw [hconcat, plain_append, ih, List.forall_mem_cons]

theorem plain_joinWith {separator : String}
    (hseparator : separator ≠ "for(unsigned short ") {parts : List Line}
    (hparts : ∀ part ∈ parts, Plain part) : Plain (joinWith separator parts) := by
  induction parts using joinWith.induct with
  | case1 => exact plain_nil
  | case2 part => exact hparts part (List.mem_singleton_self part)
  | case3 part rest hrest ih =>
      obtain ⟨hpart, hrest⟩ := List.forall_mem_cons.mp hparts
      simp [joinWith, hpart, hseparator, ih hrest]

theorem sized_append_of_plain {l l' : Line} (hl : Plain l) :
    Sized layout (l ++ l') ↔ Sized layout l' := by
  induction l with
  | nil => rfl
  | cons piece rest ih =>
      obtain ⟨⟨hstart, hoffset⟩, hrest⟩ := List.forall_mem_cons.mp hl
      rw [← ih hrest]
      simp [Sized, hstart, hoffset]

theorem Plain.sized {l : Line} (hl : Plain l) : Sized layout l := by
  have hnil : Sized layout (l ++ []) := (sized_append_of_plain hl).mpr sized_nil
  rwa [List.append_nil] at hnil

end Line

/-! ## Loops over ranges -/

section Ranges

variable {layout : Layout} {index : String} {body rest : List Stmt}

@[simp] theorem allLines_forAllUnknowns (hindex : index ≠ "for(unsigned short ") :
    AllLines (Line.Sized layout) (forAllUnknowns index body :: rest) ↔
      AllLines (Line.Sized layout) body ∧ AllLines (Line.Sized layout) rest := by
  have hhead : Line.Sized layout (.forBelow index [Constant.size]) :=
    Line.sized_forIndex hindex .all
  simp [forAllUnknowns, hhead]

theorem allLines_forBelow
    (hindex : index ≠ "for(unsigned short ") {bound : Nat} (hbound : bound ≤ layout.total) :
    AllLines (Line.Sized layout) (.block (.forBelow index [toString bound]) body :: rest) ↔
      AllLines (Line.Sized layout) body ∧ AllLines (Line.Sized layout) rest := by
  have hhead : Line.Sized layout (.forBelow index [toString bound]) :=
    Line.sized_forIndex hindex (.below hbound)
  rw [allLines_cons_block, and_iff_right hhead]

theorem sized_resetJacobian : AllLines (Line.Sized layout) resetJacobian := by
  have hloop : Line.Sized layout
      (.inBraces (.forBelow "idx" [Constant.size]) [Member.jacobian, "(idx, idx) = real(1);"]) :=
    Line.sized_inBraces (by decide) .all (by simp)
  simp [resetJacobian, hloop]

end Ranges

/-! ## Strategies -/

namespace Strategy

variable {layout : Layout}

/-- The code that comes from a strategy. -/
def ownCode (solver : Strategy) (ctx : SolverContext) : List Stmt :=
  solver.members ctx ++ solver.initialisation ctx ++ solver.correction ctx ++ solver.afterUpdate ctx

/-- The loops of a strategy go over all unknowns, or over ranges of the layout. -/
structure LoopsOver (layout : Layout) (solver : Strategy) : Prop where
  sized : ∀ ctx, AllLines (Line.Sized layout) (solver.ownCode ctx)
  plain : ∀ matrix ∈ solver.factorised, Line.Plain [matrix]

theorem loopsOver_of_solveLinear (name : String) (capabilities : Capabilities) :
    ({ name := name, capabilities := capabilities,
       correction := fun ctx => solveLinear ctx Member.jacobian } : Strategy).LoopsOver layout where
  sized ctx := by simp [ownCode, solveLinear, fail]
  plain := nofun

theorem sized_initialMatrix (code : Option String) :
    AllLines (Line.Sized layout) (initialMatrix code) := by
  unfold initialMatrix
  split
  · simp
  · exact sized_resetJacobian

theorem loopsOver_broyden : broyden.LoopsOver layout where
  sized ctx := by
    simp [ownCode, broyden, plainMember, matrixType, vectorType, Line.concat, sized_initialMatrix,
      afterFirstIteration, residualChange, localValue, rememberResidual, solveLinear, fail,
      rememberStep]
  plain := by simp [broyden]

theorem loopsOver_broyden2 : broyden2.LoopsOver layout where
  sized ctx := by
    simp [ownCode, broyden2, plainMember, vectorType, Line.concat, sized_initialMatrix,
      afterFirstIteration, residualChange, localValue, rememberResidual, rememberStep]
  plain := by simp [broyden2]

theorem sized_dogLegCorrection (ctx : SolverContext) {matrix : Piece}
    (hmatrix : Line.Plain [matrix]) :
    AllLines (Line.Sized layout) (dogLegCorrection ctx matrix "pdl_fzeros") := by
  have hterm : ∀ l : Line, Line.Sized layout (matrix :: l) ↔ Line.Sized layout l :=
    fun l => Line.sized_append_of_plain hmatrix
  simp [dogLegCorrection, localValue, Line.concat, vectorType, accumulate, hterm]

theorem LoopsOver.powellDogLeg {inner : Strategy} (h : inner.LoopsOver layout) (name : String) :
    (powellDogLeg name inner).LoopsOver layout where
  sized ctx := by
    have hinner := h.sized ctx
    simp only [ownCode, allLines_append] at hinner ⊢
    obtain ⟨⟨⟨hmembers, hinitialisation⟩, hcorrection⟩, hafter⟩ := hinner
    refine ⟨⟨⟨by simp [Constitutive.powellDogLeg, hmembers], hinitialisation⟩, ?_⟩, hafter⟩
    unfold Constitutive.powellDogLeg
    cases hmatrix : inner.factorised with
    | some matrix =>
        have hdogLeg : AllLines (Line.Sized layout) (dogLegCorrection ctx matrix "pdl_fzeros") :=
          sized_dogLegCorrection ctx (h.plain matrix hmatrix)
        simp [localCopy, vectorType, Line.concat, hcorrection, hdogLeg]
    | none =>
        have hdogLeg :
            AllLines (Line.Sized layout) (dogLegCorrection ctx "pdl_jacobian" "pdl_fzeros") :=
          sized_dogLegCorrection ctx (by simp)
        simp [localCopy, vectorType, matrixType, Line.concat, hcorrection, hdogLeg]
  plain := h.plain

theorem BuiltIn.loopsOver {solver : Strategy} (h : solver.BuiltIn) : solver.LoopsOver layout := by
  induction h with
  | newtonRaphson => exact loopsOver_of_solveLinear _ _
  | newtonRaphsonNumericalJacobian => exact loopsOver_of_solveLinear _ _
  | broyden => exact loopsOver_broyden
  | broyden2 => exact loopsOver_broyden2
  | powellDogLeg name _ ih => exact ih.powellDogLeg name

/-- The loops of the built-in strategies go over all unknowns. -/
theorem loopsOver_of_builtin {name : String} {solver : Strategy}
    (h : Solvers.builtin.get? name = some solver) :
    solver.LoopsOver layout :=
  (Solvers.allBuiltIn_builtin.of_get? h).loopsOver

end Strategy

end Constitutive
