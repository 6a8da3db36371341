import Constitutive.Proofs.Code.IndexLoops
import Constitutive.Proofs.Text.Braces

/-!
# Braces in generated code

Generated code has braces of three kinds: those around the body of a block, those that lines open
and close themselves, and those in expressions and code of the description.  The first are written
in pairs.  For the second, a line is checked piece by piece, with what it refers to and the
expressions of the description left out (`Line.after`).  The third are up to the description.

Statements are *orderly* if every line closes what it opens, and if comments keep to one line
without braces.  If the description is balanced, then so is what orderly statements are written as
(`nesting_outputIn`), and at every moment of writing the level of the page is the number of open
braces (`nested_of_mem_writesIn`).
-/

namespace Constitutive

open Text Stmt

/-! ## Tame texts -/

/-- One line without braces. -/
def Tame (s : String) : Prop :=
  ∀ c ∈ s.toList, c ≠ '\n' ∧ isBrace c = false

/-- For literals. -/
theorem tame_ofList {cs : List Char} (h : cs.all (fun c => c != '\n' && !isBrace c) = true) :
    Tame (String.ofList cs) := by
  intro c hc
  rw [String.toList_ofList] at hc
  simpa using List.all_eq_true.mp h c hc

theorem tame_append {s t : String} : Tame (s ++ t) ↔ Tame s ∧ Tame t := by
  unfold Tame
  rw [String.toList_append, List.forall_mem_append]

theorem Tame.noBraces {s : String} (h : Tame s) : NoBraces s.toList :=
  fun c hc => (h c hc).2

theorem Tame.not_mem {s : String} (h : Tame s) : '\n' ∉ s.toList :=
  fun hmem => (h _ hmem).1 rfl

/-- Code refers to a symbol by its name. -/
theorem tame_reference {symbol : Symbol} (h : Tame symbol.name) : Tame symbol.reference := by
  cases symbol with
  | member m => exact tame_append.mpr ⟨tame_ofList rfl, h⟩
  | method m => exact tame_append.mpr ⟨tame_ofList rfl, h⟩
  | constant c => exact h

theorem tame_of_isVariableName {name : String} (h : isVariableName name = true) : Tame name := by
  have hword := isWordChar_of_isVariableName h
  refine fun c hc => ⟨?_, noBraces_of_isWordChar hword c hc⟩
  rintro rfl
  exact absurd (hword _ hc) (by decide)

theorem tame_of_isNumeric {s : String} (h : ∀ c ∈ s.toList, Decimal.isNumeric c = true) :
    Tame s := by
  intro c hc
  have hnumeric := h c hc
  refine ⟨?_, ?_⟩
  · rintro rfl
    exact absurd hnumeric (by decide)
  · cases hbrace : isBrace c with
    | false => rfl
    | true =>
        rcases Bool.or_eq_true _ _ ▸ hbrace with heq | heq
        · rw [beq_iff_eq.mp heq] at hnumeric
          exact absurd hnumeric (by decide)
        · rw [beq_iff_eq.mp heq] at hnumeric
          exact absurd hnumeric (by decide)

theorem tame_repr (n : Nat) : Tame n.repr := by
  refine tame_of_isNumeric ?_
  rw [Nat.toList_repr]
  exact Decimal.isNumeric_of_mem_digits

theorem tame_literal (x : Float) : Tame (Decimal.literal x) :=
  tame_of_isNumeric (Decimal.isNumeric_of_mem_literal x)

/-! ## Lines -/

/-- The text of a piece, unless it refers to something. -/
def Piece.frame : Piece → List Char
  | .text s => s.toList
  | .define symbol => symbol.name.toList
  | .use _ => []
  | .given _ => []

namespace Line

/-- The number of open braces behind a line, if there are some before it. -/
def after (depth : Nat) (l : Line) : Option Nat :=
  nesting depth (l.flatMap Piece.frame)

/-- The line closes what it opens. -/
def Closes (l : Line) : Prop :=
  ∀ depth, after depth l = some depth

section After

variable {depth : Nat} {l l' : Line} {s : String} {symbol : Symbol}

theorem after_append :
    after depth (l ++ l') = (after depth l).bind fun inner => after inner l' := by
  unfold after
  rw [List.flatMap_append, nesting_append]

theorem after_cons (piece : Piece) :
    after depth (piece :: l) = (nesting depth piece.frame).bind fun inner => after inner l := by
  unfold after
  rw [List.flatMap_cons, nesting_append]

@[simp] theorem after_nil : after depth [] = some depth := rfl

@[simp] theorem after_use : after depth (.use symbol :: l) = after depth l := by
  rw [after_cons, Piece.frame, nesting_nil, Option.bind_some]

@[simp] theorem after_given {expression : String} :
    after depth (.given expression :: l) = after depth l := by
  rw [after_cons, Piece.frame, nesting_nil, Option.bind_some]

@[simp] theorem after_text (h : Tame s) : after depth (.text s :: l) = after depth l := by
  rw [after_cons, Piece.frame, h.noBraces.nesting_eq, Option.bind_some]

@[simp] theorem after_define (h : Tame symbol.name) :
    after depth (.define symbol :: l) = after depth l := by
  rw [after_cons, Piece.frame, h.noBraces.nesting_eq, Option.bind_some]

/-- For literals. -/
theorem after_ofList {cs : List Char} {a b : Nat} (h : nesting a cs = some b) :
    after (depth + a) (.text (String.ofList cs) :: l) = after (depth + b) l := by
  rw [after_cons, Piece.frame, String.toList_ofList, nesting_add h, Option.bind_some]

/-- The beginning of a body on the same line, and its end. -/
@[simp] theorem after_open : after depth (.text "\x7b " :: l) = after (depth + 1) l :=
  after_ofList (a := 0) (b := 1) rfl

@[simp] theorem after_close : after (depth + 1) (.text " \x7d" :: l) = after depth l :=
  after_ofList (a := 1) (b := 0) rfl

theorem Closes.after_append (h : l.Closes) : after depth (l ++ l') = after depth l' := by
  rw [Line.after_append, h, Option.bind_some]

theorem closes_joinWith (hs : Tame s) {parts : List Line} (hparts : ∀ part ∈ parts, part.Closes) :
    (joinWith s parts).Closes := by
  induction parts using joinWith.induct with
  | case1 => exact fun _ => rfl
  | case2 part => exact hparts part (List.mem_singleton_self part)
  | case3 part rest hrest ih =>
      obtain ⟨hpart, htail⟩ := List.forall_mem_cons.mp hparts
      have hjoin : joinWith s (part :: rest) = part ++ .text s :: joinWith s rest := by
        simp [joinWith]
      intro depth
      rw [hjoin, hpart.after_append, after_text hs, ih htail]

end After

end Line

/-! ## Statements -/

namespace Stmt

mutual

/-- Lines close what they open, and comments keep to one line without braces. -/
def Orderly : Stmt → Prop
  | line l => l.Closes
  | block head body => head.Closes ∧ OrderlyIn body
  | comment text => Tame text
  | code _ => True

/-- All statements are orderly. -/
def OrderlyIn : List Stmt → Prop
  | [] => True
  | stmt :: rest => Orderly stmt ∧ OrderlyIn rest

end

section Orderly

variable {first second body rest : List Stmt}

theorem orderlyIn_iff : OrderlyIn body ↔ ∀ stmt ∈ body, Orderly stmt := by
  induction body with
  | nil => simp [OrderlyIn]
  | cons stmt rest ih => simp [OrderlyIn, ih]

@[simp] theorem orderlyIn_nil : OrderlyIn [] := trivial

@[simp] theorem orderlyIn_cons {stmt : Stmt} :
    OrderlyIn (stmt :: rest) ↔ Orderly stmt ∧ OrderlyIn rest := Iff.rfl

@[simp] theorem orderly_line {l : Line} : Orderly (.line l) ↔ l.Closes := Iff.rfl

@[simp] theorem orderly_block {head : Line} :
    Orderly (.block head body) ↔ head.Closes ∧ OrderlyIn body := Iff.rfl

@[simp] theorem orderly_comment {text : String} (h : Tame text) : Orderly (.comment text) := h

@[simp] theorem orderly_code {text : String} : Orderly (.code text) := trivial

@[simp] theorem orderlyIn_append :
    OrderlyIn (first ++ second) ↔ OrderlyIn first ∧ OrderlyIn second := by
  rw [orderlyIn_iff, List.forall_mem_append, ← orderlyIn_iff, ← orderlyIn_iff]

@[simp] theorem orderlyIn_map {α : Type} {f : α → Stmt} {xs : List α} :
    OrderlyIn (xs.map f) ↔ ∀ x ∈ xs, Orderly (f x) := by
  rw [orderlyIn_iff, List.forall_mem_map]

@[simp] theorem orderlyIn_filterMap {α : Type} {f : α → Option Stmt} {xs : List α} :
    OrderlyIn (xs.filterMap f) ↔ ∀ x ∈ xs, ∀ stmt ∈ f x, Orderly stmt := by
  rw [orderlyIn_iff]
  simp only [List.mem_filterMap, Option.mem_def]
  exact ⟨fun h x hx stmt hstmt => h stmt ⟨x, hx, hstmt⟩,
    fun h stmt ⟨x, hx, hstmt⟩ => h x hx stmt hstmt⟩

@[simp] theorem orderlyIn_flatMap {α : Type} {f : α → List Stmt} {xs : List α} :
    OrderlyIn (xs.flatMap f) ↔ ∀ x ∈ xs, OrderlyIn (f x) := by
  induction xs with
  | nil => simp
  | cons x rest ih => rw [List.flatMap_cons, orderlyIn_append, ih, List.forall_mem_cons]

@[simp] theorem orderlyIn_onlyIf {condition : Bool} :
    OrderlyIn (onlyIf condition body) ↔ (condition = true → OrderlyIn body) := by
  cases condition with
  | false => simp [onlyIf]
  | true => simp [onlyIf]

end Orderly

end Stmt

/-! ## Output -/

/-- Names without braces, and balanced expressions and texts. -/
def balancedScope : Scope where
  declared symbol := Tame symbol.name
  given expression := Balanced expression.toList
  code text := Balanced text.toList

/-- What is left out of a line leaves open what was open. -/
theorem nesting_render {l : Line} (h : balancedScope.AllowsLine l) (depth : Nat) :
    nesting depth l.render.toList = l.after depth := by
  induction l generalizing depth with
  | nil => rfl
  | cons piece rest ih =>
      obtain ⟨hpiece, hrest⟩ := Scope.allowsLine_cons.mp h
      have hrender : (Line.render (piece :: rest)).toList = piece.render.toList ++
          (Line.render rest).toList := by
        simp [Line.render, String.join_cons]
      have hframe : nesting depth piece.render.toList = nesting depth piece.frame := by
        cases piece with
        | text s => rfl
        | define symbol => rfl
        | use symbol => exact (tame_reference hpiece).noBraces.nesting_eq depth
        | given expression => exact Balanced.nesting_eq hpiece depth
      rw [hrender, nesting_append, hframe, ← List.singleton_append, Line.after_append]
      simp only [ih hrest]
      rw [Line.after, List.flatMap_singleton]

mutual

theorem nesting_output {stmt : Stmt} (horderly : Orderly stmt)
    (hcovers : balancedScope.Covers [stmt]) (comments : Bool)
    (depth level : Nat) : nesting depth (unlines (output comments level stmt)) = some depth := by
  cases stmt with
  | line l =>
      obtain ⟨hline, -⟩ := Scope.covers_cons_line.mp hcovers
      rw [output, nesting_unlines_written, nesting_render hline, horderly]
  | block head body =>
      obtain ⟨hhead, hbody, -⟩ := Scope.covers_cons_block.mp hcovers
      rw [output, unlines_append, unlines_append, nesting_append, nesting_append,
        nesting_unlines_written, String.toList_append, nesting_append,
        nesting_render hhead, horderly.1]
      have hopen : nesting depth "\x7b".toList = some (depth + 1) := rfl
      simp only [Option.bind_some, hopen, nesting_outputIn horderly.2 hbody,
        nesting_unlines_written]
      rfl
  | comment text =>
      have htext : Tame ("// " ++ text) := tame_append.mpr ⟨tame_ofList rfl, horderly⟩
      unfold output
      split
      · rw [nesting_unlines_written, htext.noBraces.nesting_eq]
      · rfl
  | code text =>
      obtain ⟨htext, -⟩ := Scope.covers_cons_code.mp hcovers
      rw [output, nesting_unlines_code]
      exact Balanced.nesting_eq htext depth

/-- Orderly statements leave open what was open before them. -/
theorem nesting_outputIn {body : List Stmt} (horderly : OrderlyIn body)
    (hcovers : balancedScope.Covers body) (comments : Bool)
    (depth level : Nat) : nesting depth (unlines (outputIn comments level body)) = some depth := by
  cases body with
  | nil => rfl
  | cons stmt rest =>
      obtain ⟨hstmt, hrest⟩ := horderly
      obtain ⟨hcovers, hcovers'⟩ :=
        Scope.covers_append.mp (show balancedScope.Covers ([stmt] ++ rest) from hcovers)
      rw [outputIn, unlines_append, nesting_append, nesting_output hstmt hcovers, Option.bind_some,
        nesting_outputIn hrest hcovers']

end

theorem balanced_render {body : List Stmt} (horderly : OrderlyIn body)
    (hcovers : balancedScope.Covers body)
    (comments : Bool) : Balanced (render comments body).toList := by
  rw [balanced_iff, toList_render]
  exact nesting_outputIn horderly hcovers comments 0 0

/-! ## While statements are written -/

/-- The level of the page is the number of braces that are open in its text. -/
def Text.Page.Nested (page : Page) : Prop :=
  nesting 0 page.text.toList = some page.level

theorem Text.Page.nested_add {page : Page} {ls : List (List Char)} {level : Nat}
    (hnested : page.Nested) (hlines : nesting page.level (unlines ls) = some level) :
    Page.Nested { page.add ls with level := level } := by
  unfold Page.Nested Page.add
  rw [String.toList_append, String.toList_ofList, nesting_append, hnested, Option.bind_some, hlines]

namespace Stmt

mutual

/-- The statements in a statement, however deep, each with the page on which it is written. -/
def writes : Stmt → Page → List (Stmt × Page)
  | line _, _ => []
  | block head body, page => writesIn body (page.enter (head.render ++ "\x7b"))
  | comment _, _ => []
  | code _, _ => []

/-- Statements and the statements in them, each with the page on which it is written. -/
def writesIn : List Stmt → Page → List (Stmt × Page)
  | [], _ => []
  | stmt :: rest, page => (stmt, page) :: (writes stmt page ++ writesIn rest (emit stmt page))

end

/-- An orderly statement leaves as many braces open as there were, and the page at its level. -/
theorem nested_emit {stmt : Stmt} (horderly : Orderly stmt) (hcovers : balancedScope.Covers [stmt])
    {page : Page} (hfresh : page.fresh = true) (hnested : page.Nested) :
    (emit stmt page).Nested := by
  rw [emit_eq_add stmt hfresh]
  exact Page.nested_add hnested
    (nesting_output horderly hcovers page.comments page.level page.level)

/-- The brace behind a head is open on the page of the body. -/
theorem nested_enter {head : Line} (hcloses : head.Closes) (hhead : balancedScope.AllowsLine head)
    {page : Page} (hfresh : page.fresh = true) (hnested : page.Nested) :
    (page.enter (head.render ++ "\x7b")).Nested := by
  unfold Page.enter
  rw [Page.line_eq_written hfresh]
  refine Page.nested_add hnested ?_
  rw [nesting_unlines_written, String.toList_append, nesting_append, nesting_render hhead,
    hcloses page.level]
  rfl

mutual

theorem nested_of_mem_writes {stmt : Stmt} (horderly : Orderly stmt)
    (hcovers : balancedScope.Covers [stmt]) {page : Page} (hfresh : page.fresh = true)
    (hnested : page.Nested) {write : Stmt × Page} (hwrite : write ∈ writes stmt page) :
    write.2.Nested ∧ (emit write.1 write.2).Nested := by
  cases stmt with
  | line l => exact absurd hwrite List.not_mem_nil
  | block head body =>
      obtain ⟨hhead, hbody, -⟩ := Scope.covers_cons_block.mp hcovers
      exact nested_of_mem_writesIn horderly.2 hbody (page.fresh_enter _)
        (nested_enter horderly.1 hhead hfresh hnested) hwrite
  | comment text => exact absurd hwrite List.not_mem_nil
  | code text => exact absurd hwrite List.not_mem_nil

/-- While orderly statements are written, the level of the page is the number of open braces. -/
theorem nested_of_mem_writesIn {body : List Stmt} (horderly : OrderlyIn body)
    (hcovers : balancedScope.Covers body) {page : Page} (hfresh : page.fresh = true)
    (hnested : page.Nested) {write : Stmt × Page} (hwrite : write ∈ writesIn body page) :
    write.2.Nested ∧ (emit write.1 write.2).Nested := by
  cases body with
  | nil => exact absurd hwrite List.not_mem_nil
  | cons stmt rest =>
      obtain ⟨hstmt, hrest⟩ := horderly
      obtain ⟨hcovers, hcovers'⟩ :=
        Scope.covers_append.mp (show balancedScope.Covers ([stmt] ++ rest) from hcovers)
      have hnext := nested_emit hstmt hcovers hfresh hnested
      rcases List.mem_cons.mp hwrite with rfl | hwrite
      · exact ⟨hnested, hnext⟩
      · rcases List.mem_append.mp hwrite with hwrite | hwrite
        · exact nested_of_mem_writes hstmt hcovers hfresh hnested hwrite
        · exact nested_of_mem_writesIn hrest hcovers' (emit_keeps stmt hfresh).1 hnext hwrite

end

end Stmt

/-! ## Strategies -/

section Parts

open Line

theorem orderly_fail : Orderly fail := by
  simp (disch := exact tame_ofList rfl) [fail, Closes]

theorem closes_vectorType : Closes vectorType := by
  simp (disch := exact tame_ofList rfl) [vectorType, Closes]

theorem closes_matrixType : Closes matrixType := by
  simp (disch := exact tame_ofList rfl) [matrixType, Closes]

theorem orderly_plainMember {type : Line} (htype : Closes type) {member : Member}
    (hmember : Tame member.name) :
    Orderly (plainMember type member) := by
  have hname : Tame (Symbol.member member).name := hmember
  simp (disch := exact tame_ofList rfl) [plainMember, Closes, concat, htype.after_append,
    after_define hname]

theorem orderly_localCopy {type : Line} (htype : Closes type) {name : String} (hname : Tame name)
    {of : Piece} (hof : Closes [of]) : Orderly (localCopy type name of) := by
  have hpiece : ∀ depth l, after depth (of :: l) = after depth l := fun _ _ => hof.after_append
  simp (disch := exact tame_ofList rfl) [localCopy, Closes, concat, htype.after_append,
    after_text hname, hpiece]

theorem closes_forIndex {index : String} (hindex : Tame index) {start stop : Line}
    (hstart : Closes start) (hstop : Closes stop) : Closes (forIndex index start stop) := by
  simp (disch := exact tame_ofList rfl) [forIndex, Closes, concat, hstart.after_append,
    after_text hindex, hstop.after_append]

theorem closes_forBelow {index : String} (hindex : Tame index) {stop : Line} (hstop : Closes stop) :
    Closes (forBelow index stop) :=
  closes_forIndex hindex (fun _ => after_text (tame_ofList rfl)) hstop

theorem closes_forBelow_repr {index : String} (hindex : Tame index) (stop : Nat) :
    Closes (forBelow index [toString stop]) :=
  closes_forBelow hindex fun _ => after_text (tame_repr stop)

theorem closes_inBraces {head body : Line} (hhead : Closes head) (hbody : Closes body) :
    Closes (inBraces head body) := by
  simp [inBraces, Closes, concat, hhead.after_append, hbody.after_append]

@[simp] theorem orderly_forAllUnknowns {index : String} (hindex : Tame index) {body : List Stmt} :
    Orderly (forAllUnknowns index body) ↔ OrderlyIn body := by
  have hhead : Closes (forBelow index [Constant.size]) := closes_forBelow hindex fun _ => after_use
  rw [forAllUnknowns, orderly_block, and_iff_right hhead]

theorem orderlyIn_resetJacobian : OrderlyIn resetJacobian := by
  have hloop : Closes (forBelow "idx" [Constant.size]) :=
    closes_forBelow (tame_ofList rfl) fun _ => after_use
  have hbody : Closes [Member.jacobian, "(idx, idx) = real(1);"] := by
    simp (disch := exact tame_ofList rfl) [Closes]
  refine ⟨?_, closes_inBraces hloop hbody, trivial⟩
  simp (disch := exact tame_ofList rfl) [Closes]

theorem orderlyIn_solveLinear (ctx : SolverContext) {matrix : Piece} (hmatrix : Closes [matrix]) :
    OrderlyIn (solveLinear ctx matrix) := by
  have hpiece : ∀ depth l, after depth (matrix :: l) = after depth l :=
    fun _ _ => hmatrix.after_append
  simp (disch := exact tame_ofList rfl) [solveLinear, Closes, orderly_fail, hpiece]

theorem orderlyIn_initialMatrix (code : Option String) : OrderlyIn (initialMatrix code) := by
  unfold initialMatrix
  split
  · simp [Closes]
  · exact orderlyIn_resetJacobian

theorem orderly_accumulate {target : String} (htarget : Tame target) {term : Line}
    (hterm : Closes term) :
    Orderly (accumulate target term) := by
  unfold accumulate
  rw [orderly_forAllUnknowns (tame_ofList rfl), orderlyIn_cons, orderlyIn_cons,
    orderly_forAllUnknowns (tame_ofList rfl)]
  simp (disch := exact tame_ofList rfl) [Closes, concat, after_text htarget, hterm.after_append]

theorem orderlyIn_dogLegCorrection (ctx : SolverContext) {matrix : Piece}
    (hmatrix : Closes [matrix]) :
    OrderlyIn (dogLegCorrection ctx matrix "pdl_fzeros") := by
  have hpiece : ∀ depth l, after depth (matrix :: l) = after depth l :=
    fun _ _ => hmatrix.after_append
  have hsize := tame_repr ctx.size
  have hgradient : Closes ["(", matrix, "(idx2, idx)) * (", "pdl_fzeros", "(idx2))"] := by
    simp (disch := exact tame_ofList rfl) [Closes, hpiece]
  have himage : Closes ["(", matrix, "(idx, idx2)) * pdl_g(idx2)"] := by
    simp (disch := exact tame_ofList rfl) [Closes, hpiece]
  have hg : Orderly (accumulate "pdl_g" _) := orderly_accumulate (tame_ofList rfl) hgradient
  have hg2 : Orderly (accumulate "pdl_g2" _) := orderly_accumulate (tame_ofList rfl) himage
  simp (disch := exact tame_ofList rfl) [dogLegCorrection, localValue, vectorType, Closes, concat,
    after_text hsize, hg, hg2]

end Parts

namespace Strategy

namespace BuiltIn

variable {solver : Strategy}

/-- The matrix that a dog-leg finds has no braces of its own. -/
theorem closes_factorised (h : solver.BuiltIn) :
    ∀ matrix ∈ solver.factorised, Line.Closes [matrix] := by
  induction h with
  | newtonRaphson => nofun
  | newtonRaphsonNumericalJacobian => nofun
  | broyden =>
      rintro matrix ⟨⟩
      exact fun _ => Line.after_use
  | broyden2 => nofun
  | powellDogLeg name _ ih => exact ih

theorem orderlyIn_correction_broyden (ctx : SolverContext) :
    OrderlyIn (Constitutive.broyden.correction ctx) := by
  have hsolve :=
    orderlyIn_solveLinear ctx (fun _ => Line.after_use : Line.Closes [Member.jacobian2])
  have hvector := closes_vectorType
  simp (disch := exact tame_ofList rfl) [Constitutive.broyden, afterFirstIteration, residualChange,
    rememberResidual, localValue, Line.Closes, Line.concat, hvector.after_append, hsolve]

theorem orderlyIn_correction_broyden2 (ctx : SolverContext) :
    OrderlyIn (Constitutive.broyden2.correction ctx) := by
  have hvector := closes_vectorType
  simp (disch := exact tame_ofList rfl) [Constitutive.broyden2, afterFirstIteration, residualChange,
    rememberResidual, localValue, Line.Closes, Line.concat, hvector.after_append]

theorem orderlyIn_correction (h : solver.BuiltIn) (ctx : SolverContext) :
    OrderlyIn (solver.correction ctx) := by
  induction h with
  | newtonRaphson => exact orderlyIn_solveLinear ctx fun _ => Line.after_use
  | newtonRaphsonNumericalJacobian => exact orderlyIn_solveLinear ctx fun _ => Line.after_use
  | broyden => exact orderlyIn_correction_broyden ctx
  | broyden2 => exact orderlyIn_correction_broyden2 ctx
  | powellDogLeg name hinner ih =>
      have hresidual : Orderly (localCopy vectorType "pdl_fzeros" Member.fzeros) :=
        orderly_localCopy closes_vectorType (tame_ofList rfl) fun _ => Line.after_use
      unfold Constitutive.powellDogLeg
      dsimp only
      split
      · rename_i matrix hmatrix
        have hdogLeg := orderlyIn_dogLegCorrection ctx (hinner.closes_factorised matrix hmatrix)
        exact ⟨hresidual, orderlyIn_append.mpr ⟨ih, hdogLeg⟩⟩
      · have hcopy : Orderly (localCopy matrixType "pdl_jacobian" Member.jacobian) :=
          orderly_localCopy closes_matrixType (tame_ofList rfl) fun _ => Line.after_use
        have hmatrix : Line.Closes ["pdl_jacobian"] := fun _ => Line.after_text (tame_ofList rfl)
        exact ⟨hresidual, hcopy, orderlyIn_append.mpr ⟨ih, orderlyIn_dogLegCorrection ctx hmatrix⟩⟩

theorem orderlyIn_members (h : solver.BuiltIn) (ctx : SolverContext) :
    OrderlyIn (solver.members ctx) := by
  have hfzeros2 : Orderly (plainMember vectorType .fzeros2) :=
    orderly_plainMember closes_vectorType (tame_ofList rfl)
  have hstep : Orderly (plainMember vectorType .step) :=
    orderly_plainMember closes_vectorType (tame_ofList rfl)
  induction h with
  | newtonRaphson => trivial
  | newtonRaphsonNumericalJacobian => trivial
  | broyden =>
      exact ⟨orderly_plainMember closes_matrixType (tame_ofList rfl), hfzeros2, hstep, trivial⟩
  | broyden2 => exact ⟨hfzeros2, hstep, trivial⟩
  | powellDogLeg name _ ih =>
      have hname : Tame (Symbol.member .trustRegionSize).name := tame_ofList rfl
      have hvalue := tame_literal ctx.trustRegionSize
      simp (disch := exact tame_ofList rfl) [Constitutive.powellDogLeg, Line.Closes, ih,
        Line.after_define hname, Line.after_text hvalue]

theorem orderlyIn_initialisation (h : solver.BuiltIn) (ctx : SolverContext) :
    OrderlyIn (solver.initialisation ctx) := by
  induction h with
  | newtonRaphson => trivial
  | newtonRaphsonNumericalJacobian => trivial
  | broyden => exact orderlyIn_initialMatrix _
  | broyden2 => exact orderlyIn_initialMatrix _
  | powellDogLeg name _ ih => exact ih

theorem orderlyIn_afterUpdate (h : solver.BuiltIn) (ctx : SolverContext) :
    OrderlyIn (solver.afterUpdate ctx) := by
  have hremember : Orderly rememberStep := by
    simp (disch := exact tame_ofList rfl) [rememberStep, Line.Closes]
  induction h with
  | newtonRaphson => trivial
  | newtonRaphsonNumericalJacobian => trivial
  | broyden => exact ⟨hremember, trivial⟩
  | broyden2 => exact ⟨hremember, trivial⟩
  | powellDogLeg name _ ih => exact ih

end BuiltIn

end Strategy

end Constitutive
