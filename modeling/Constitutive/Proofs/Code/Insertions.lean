import Constitutive.Proofs.Code.Frames

/-!
# Inserted lines

Comments and reports are lines of their own.  If some more of them are written, the text is the same
up to lines that are put in between (`AddsLines`), each of which can be told by how it begins.

For comments this holds of all statements whose comments keep to one line (`inserted_comments`).
For reports it is checked where they are made: a strategy *only reports* if its code depends on
whether there are reports in this way and no other (`Strategy.OnlyReports`).
-/

namespace Constitutive

/-- The second list is the first with elements put in between, all of which have a property. -/
inductive Inserted {α : Type} (P : α → Prop) : List α → List α → Prop
  | nil : Inserted P [] []
  | keep (x : α) {xs ys : List α} (h : Inserted P xs ys) : Inserted P (x :: xs) (x :: ys)
  | insert {y : α} (hy : P y) {xs ys : List α} (h : Inserted P xs ys) : Inserted P xs (y :: ys)

namespace Inserted

variable {α : Type} {P : α → Prop} {xs xs' ys ys' : List α}

theorem refl (xs : List α) : Inserted P xs xs := by
  induction xs with
  | nil => exact .nil
  | cons x rest ih => exact .keep x ih

theorem append (h : Inserted P xs ys) (h' : Inserted P xs' ys') :
    Inserted P (xs ++ xs') (ys ++ ys') := by
  induction h with
  | nil => exact h'
  | keep x _ ih => exact .keep x ih
  | insert hy _ ih => exact .insert hy ih

end Inserted

namespace Text

/-! ## Lines with a mark -/

/-- Behind its indentation, the line begins with the mark. -/
def BeginsWith (mark : String) (line : List Char) : Prop :=
  mark.toList <+: line.dropWhile (· = ' ')

/-- The second text is the first with lines put in between that begin with the mark. -/
def AddsLines (mark : String) (text text' : String) : Prop :=
  Inserted (BeginsWith mark) (text.toList.splitOn '\n') (text'.toList.splitOn '\n')

/-- Indentation does not count. -/
theorem beginsWith_indented {mark : String} {first : Char} (hfirst : mark.toList.head? = some first)
    (hspace : first ≠ ' ')
    {line : List Char} (hmark : mark.toList <+: line) (level : Nat) :
    BeginsWith mark (indented level line) := by
  obtain ⟨rest, hrest⟩ : ∃ rest, line = first :: rest := by
    obtain ⟨more, rfl⟩ := hmark
    obtain ⟨tail, htail⟩ := List.head?_eq_some_iff.mp hfirst
    exact ⟨tail ++ more, by rw [htail, List.cons_append]⟩
  have hspaces : ∀ n : Nat, (List.replicate n ' ' ++ line).dropWhile (· = ' ') = line := by
    intro n
    induction n with
    | zero => simp [hrest, hspace]
    | succ n ih => simpa [List.replicate_succ] using ih
  have hindented : indented level line = List.replicate (2 * level) ' ' ++ line := by
    rw [indented, hrest, if_neg (List.cons_ne_nil _ _)]
  rw [BeginsWith, hindented, hspaces]
  exact hmark

theorem addsLines_of_inserted {mark : String} {text text' : String} {ls ls' : List (List Char)}
    (htext : text.toList = unlines ls) (htext' : text'.toList = unlines ls')
    (hls : ∀ line ∈ ls, '\n' ∉ line)
    (hls' : ∀ line ∈ ls', '\n' ∉ line) (h : Inserted (BeginsWith mark) ls ls') :
    AddsLines mark text text' := by
  rw [AddsLines, htext, htext', splitOn_unlines hls, splitOn_unlines hls']
  exact h.append (.refl _)

end Text

namespace Stmt

open Text

/-! ## Comments -/

theorem beginsWith_comment (level : Nat) (text : String) :
    BeginsWith "// " (indented level ("// " ++ text).toList) := by
  have hfirst : "// ".toList.head? = some '/' := rfl
  refine beginsWith_indented hfirst (by decide) ?_ level
  rw [String.toList_append]
  exact List.prefix_append _ _

mutual

/-- Comments are inserted, and nothing else. -/
theorem inserted_comment {stmt : Stmt} (h : Orderly stmt) (level : Nat) :
    Inserted (BeginsWith "// ") (output false level stmt) (output true level stmt) := by
  cases stmt with
  | line l => exact .refl _
  | block head body =>
      exact ((Inserted.refl _).append (inserted_comments h.2 (level + 1))).append (.refl _)
  | comment text =>
      have htext : Tame ("// " ++ text) := tame_append.mpr ⟨tame_ofList rfl, h⟩
      have hline : output true level (.comment text) = [indented level ("// " ++ text).toList] :=
        written_of_not_mem htext.not_mem level
      rw [hline]
      exact .insert (beginsWith_comment level text) .nil
  | code text => exact .refl _

theorem inserted_comments {body : List Stmt} (h : OrderlyIn body) (level : Nat) :
    Inserted (BeginsWith "// ") (outputIn false level body) (outputIn true level body) := by
  cases body with
  | nil => exact .nil
  | cons stmt rest => exact (inserted_comment h.1 level).append (inserted_comments h.2 level)

end

/-! ## Reports -/

/-- The second statements are the first with reports put in between. -/
def AddsReports (comments : Bool) (body body' : List Stmt) : Prop :=
  ∀ level, Inserted (BeginsWith "std::cout << ") (outputIn comments level body)
    (outputIn comments level body')

namespace AddsReports

variable {comments : Bool} {body body' rest rest' : List Stmt}

theorem refl (body : List Stmt) : AddsReports comments body body :=
  fun _ => .refl _

theorem append (h : AddsReports comments body body') (h' : AddsReports comments rest rest') :
    AddsReports comments (body ++ rest) (body' ++ rest') := by
  intro level
  rw [outputIn_append, outputIn_append]
  exact (h level).append (h' level)

theorem cons (stmt : Stmt) (h : AddsReports comments rest rest') :
    AddsReports comments (stmt :: rest) (stmt :: rest') :=
  (refl [stmt]).append h

theorem block (head : Line) (h : AddsReports comments body body')
    (h' : AddsReports comments rest rest') :
    AddsReports comments (.block head body :: rest) (.block head body' :: rest') :=
  fun level => (((Inserted.refl _).append (h (level + 1))).append (.refl _)).append (h' level)

end AddsReports

/-- For literals. -/
theorem prefix_ofList {mark cs : List Char} (h : mark.isPrefixOf cs = true) :
    (String.ofList mark).toList <+: (String.ofList cs).toList := by
  rw [String.toList_ofList, String.toList_ofList]
  exact List.isPrefixOf_iff_prefix.mp h

/-- A line that is only there if there are reports. -/
theorem addsReports_onlyIf (comments : Bool) {s : String} {l : Line}
    (hs : "std::cout << ".toList <+: s.toList) (hline : Line.Unbroken (.text s :: l)) :
    AddsReports comments (onlyIf false [.line (.text s :: l)])
      (onlyIf true [.line (.text s :: l)]) := by
  intro level
  have hmark : "std::cout << ".toList <+: (Line.render (.text s :: l)).toList := by
    simp only [Line.render, Piece.render, List.map_cons, String.join_cons, String.toList_append]
    exact hs.trans (List.prefix_append _ _)
  have hwritten : outputIn comments level (onlyIf true [.line (.text s :: l)]) =
      [indented level (Line.render (.text s :: l)).toList] := by
    have hnewline : '\n' ∉ (Line.render (.text s :: l)).toList :=
      fun hmem => (Line.oneLine_render hline _ hmem).1 rfl
    simp only [onlyIf, if_true, outputIn, output, List.append_nil, written_of_not_mem hnewline]
  have hfirst : "std::cout << ".toList.head? = some 's' := rfl
  rw [hwritten]
  exact .insert (beginsWith_indented hfirst (by decide) hmark level) .nil

end Stmt

open Stmt

/-! ## Strategies -/

/-- What a strategy is told, with or without reports. -/
def SolverContext.reporting (ctx : SolverContext) (debug : Bool) : SolverContext :=
  { ctx with debug := debug }

/-- Reports tell the iteration. -/
theorem unbroken_iter {s t : String} (hs : OneLine s) (ht : OneLine t) :
    Line.Unbroken [.text s, .use (.member .iter), .text t] := by
  have hiter : OneLine (Symbol.member .iter).reference :=
    oneLine_append.mpr ⟨oneLine_ofList rfl, oneLine_ofList rfl⟩
  simp only [Line.unbroken_cons, Line.unbroken_nil, and_true]
  exact ⟨hs, hiter, ht⟩

theorem addsReports_solveLinear (comments : Bool) (ctx : SolverContext) (matrix : Piece) :
    AddsReports comments (solveLinear (ctx.reporting false) matrix)
      (solveLinear (ctx.reporting true) matrix) := by
  have hline : Line.Unbroken ["std::cout << \"integrate() : singular jacobian at iteration \" << ",
      Member.iter, " << std::endl;"] := unbroken_iter (oneLine_ofList rfl) (oneLine_ofList rfl)
  exact .cons _ (.block _ ((addsReports_onlyIf comments (prefix_ofList rfl) hline).append
    (.refl [fail])) (.refl []))

namespace Strategy

/-- If reports are asked for, the code of a strategy has reports in its correction, and is as it was
otherwise. -/
structure OnlyReports (solver : Strategy) : Prop where
  members : ∀ (ctx : SolverContext) (debug : Bool),
    solver.members (ctx.reporting debug) = solver.members ctx
  initialisation : ∀ (ctx : SolverContext) (debug : Bool),
    solver.initialisation (ctx.reporting debug) = solver.initialisation ctx
  correction : ∀ (comments : Bool) (ctx : SolverContext),
    AddsReports comments (solver.correction (ctx.reporting false))
      (solver.correction (ctx.reporting true))
  afterUpdate : ∀ (ctx : SolverContext) (debug : Bool),
    solver.afterUpdate (ctx.reporting debug) = solver.afterUpdate ctx

theorem OnlyReports.powellDogLeg {inner : Strategy} (h : inner.OnlyReports) (name : String) :
    (powellDogLeg name inner).OnlyReports where
  members ctx debug := by
    simp only [Constitutive.powellDogLeg, h.members]
    rfl
  initialisation := h.initialisation
  correction comments ctx := by
    simp only [Constitutive.powellDogLeg]
    cases inner.factorised with
    | some matrix => exact .cons _ ((h.correction comments ctx).append (.refl _))
    | none => exact .cons _ (.cons _ ((h.correction comments ctx).append (.refl _)))
  afterUpdate := h.afterUpdate

theorem BuiltIn.onlyReports {solver : Strategy} (h : solver.BuiltIn) : solver.OnlyReports := by
  induction h with
  | newtonRaphson =>
      exact ⟨fun _ _ => rfl, fun _ _ => rfl,
        fun comments ctx => addsReports_solveLinear comments ctx _, fun _ _ => rfl⟩
  | newtonRaphsonNumericalJacobian =>
      exact ⟨fun _ _ => rfl, fun _ _ => rfl,
        fun comments ctx => addsReports_solveLinear comments ctx _, fun _ _ => rfl⟩
  | broyden =>
      refine ⟨fun _ _ => rfl, fun _ _ => rfl, fun comments ctx => ?_, fun _ _ => rfl⟩
      exact (AddsReports.refl _).append (addsReports_solveLinear comments ctx _)
  | broyden2 => exact ⟨fun _ _ => rfl, fun _ _ => rfl, fun _ _ => .refl _, fun _ _ => rfl⟩
  | powellDogLeg name _ ih => exact ih.powellDogLeg name

end Strategy

end Constitutive
