import Constitutive.Code.Stmt
import Constitutive.Proofs.Text.Lexeme
import Constitutive.Proofs.Text.Page

/-!
# Statements as rows

Code is sometimes written in two steps: statements are written to a page of their own, and the text
of that page is then put into other code.  The detour does not show.  If no line begins or ends with
a blank, the text is written as the statements themselves would be (`emitAll_code_render`), so
statements may stand for their text wherever it is used (`SameText`).
-/

namespace Constitutive.Stmt

open Text

/-! ## What writing a statement keeps -/

mutual

theorem emit_keeps (stmt : Stmt) {page : Page} (hfresh : page.fresh = true) :
    (emit stmt page).fresh = true ∧ (emit stmt page).comments = page.comments := by
  cases stmt with
  | line l => simp [emit]
  | block head body =>
      have hbody := emitAll_keeps body (page.fresh_enter (head.render ++ "\x7b"))
      simp [emit, hbody.2]
  | comment text =>
      unfold emit Page.comment
      split
      · simp
      · exact ⟨hfresh, rfl⟩
  | code text => exact Page.code_keeps hfresh text

theorem emitAll_keeps (body : List Stmt) {page : Page} (hfresh : page.fresh = true) :
    (emitAll body page).fresh = true ∧ (emitAll body page).comments = page.comments := by
  cases body with
  | nil => simp [emitAll, hfresh]
  | cons stmt rest =>
      obtain ⟨hfresh, hcomments⟩ := emit_keeps stmt hfresh
      obtain ⟨hfresh', hcomments'⟩ := emitAll_keeps rest hfresh
      rw [emitAll]
      exact ⟨hfresh', hcomments'.trans hcomments⟩

end

/-! ## Rows -/

mutual

/-- The rows of a statement that holds no code from elsewhere. -/
def rows (comments : Bool) : Stmt → List Row
  | line l => [⟨0, l.render⟩]
  | block head body =>
      ⟨0, head.render ++ "\x7b"⟩ :: (rowsIn comments body).map Row.deeper ++ [⟨0, "\x7d"⟩]
  | comment text => if comments then [⟨0, "// " ++ text⟩] else []
  | code _ => []

/-- The rows of statements, one after the other. -/
def rowsIn (comments : Bool) : List Stmt → List Row
  | [] => []
  | stmt :: rest => rows comments stmt ++ rowsIn comments rest

end

mutual

/-- No line begins or ends with a blank, and there is no code from elsewhere. -/
def Tidy : Stmt → Prop
  | line l => Text.Tidy l.render.toList
  | block head body => Text.Tidy (head.render ++ "\x7b").toList ∧ TidyIn body
  | comment text => Text.Tidy ("// " ++ text).toList
  | code _ => False

/-- All statements are tidy. -/
def TidyIn : List Stmt → Prop
  | [] => True
  | stmt :: rest => Tidy stmt ∧ TidyIn rest

end

theorem tidyIn_iff {body : List Stmt} : TidyIn body ↔ ∀ stmt ∈ body, Tidy stmt := by
  induction body with
  | nil => simp [TidyIn]
  | cons stmt rest ih => simp [TidyIn, ih]

theorem tidy_brace {brace : Char} (hbrace : brace = '\x7b' ∨ brace = '\x7d') :
    Text.Tidy [brace] := by
  rcases hbrace with rfl | rfl
  · exact ⟨⟨'\x7b', rfl, by decide⟩, ⟨'\x7b', rfl, by decide⟩, by simp⟩
  · exact ⟨⟨'\x7d', rfl, by decide⟩, ⟨'\x7d', rfl, by decide⟩, by simp⟩

theorem tidy_closeBrace : Text.Tidy "\x7d".toList :=
  tidy_brace (.inr rfl)

mutual

theorem tidy_rows {comments : Bool} (stmt : Stmt) (htidy : Tidy stmt) :
    ∀ row ∈ rows comments stmt, Text.Tidy row.text.toList := by
  cases stmt with
  | line l => simpa [rows, Tidy] using htidy
  | block head body =>
      obtain ⟨hhead, hbody⟩ := htidy
      have hrows : ∀ row ∈ rowsIn comments body, Text.Tidy row.text.toList :=
        tidyIn_rowsIn body hbody
      intro row hrow
      rcases List.mem_append.mp hrow with hrow | hrow
      · rcases List.mem_cons.mp hrow with rfl | hrow
        · exact hhead
        · obtain ⟨inner, hinner, rfl⟩ := List.mem_map.mp hrow
          exact hrows inner hinner
      · obtain rfl := List.mem_singleton.mp hrow
        exact tidy_closeBrace
  | comment text =>
      unfold rows
      split
      · simpa [Tidy] using htidy
      · simp
  | code text => exact absurd htidy (by simp [Tidy])

theorem tidyIn_rowsIn {comments : Bool} (body : List Stmt) (htidy : TidyIn body) :
    ∀ row ∈ rowsIn comments body, Text.Tidy row.text.toList := by
  cases body with
  | nil => simp [rowsIn]
  | cons stmt rest =>
      obtain ⟨hstmt, hrest⟩ := htidy
      intro row hrow
      rcases List.mem_append.mp hrow with hrow | hrow
      · exact tidy_rows stmt hstmt row hrow
      · exact tidyIn_rowsIn rest hrest row hrow

end

mutual

/-- A tidy statement ends up on the page as its rows. -/
theorem emit_eq_rows (stmt : Stmt) (htidy : Tidy stmt) {page : Page} (hfresh : page.fresh = true) :
    emit stmt page =
      { page with text := page.text ++ rowsText page.level (rows page.comments stmt) } := by
  cases stmt with
  | line l => exact Page.line_eq_rowsText hfresh htidy
  | block head body =>
      obtain ⟨hhead, hbody⟩ := htidy
      have henter : page.enter (head.render ++ "\x7b") =
          { page with
            text := page.text ++ rowsText page.level [⟨0, head.render ++ "\x7b"⟩]
            level := page.level + 1 } := by
        unfold Page.enter
        rw [Page.line_eq_rowsText hfresh hhead]
      have hlines : rowsText page.level (rows page.comments (.block head body)) =
          rowsText page.level [⟨0, head.render ++ "\x7b"⟩] ++
            rowsText (page.level + 1) (rowsIn page.comments body) ++
            rowsText page.level [⟨0, "\x7d"⟩] := by
        rw [rows, rowsText_append, ← List.singleton_append, rowsText_append, rowsText_deeper]
      rw [emit, henter, emitAll_eq_rows body hbody (by exact hfresh), hlines]
      unfold Page.leave
      rw [Page.line_eq_rowsText (by exact hfresh) tidy_closeBrace]
      simp only [String.append_assoc, Nat.add_sub_cancel]
  | comment text =>
      unfold emit Page.comment rows
      split
      · exact Page.line_eq_rowsText hfresh htidy
      · have htext : page.text ++ rowsText page.level [] = page.text := by simp [rowsText]
        rw [htext]
  | code text => exact absurd htidy (by simp [Tidy])

theorem emitAll_eq_rows (body : List Stmt) (htidy : TidyIn body) {page : Page}
    (hfresh : page.fresh = true) :
    emitAll body page =
      { page with text := page.text ++ rowsText page.level (rowsIn page.comments body) } := by
  cases body with
  | nil =>
      have htext : page.text ++ rowsText page.level [] = page.text := by simp [rowsText]
      unfold emitAll rowsIn
      rw [htext]
  | cons stmt rest =>
      obtain ⟨hstmt, hrest⟩ := htidy
      have hnext := (emit_keeps stmt hfresh).1
      rw [emitAll, emitAll_eq_rows rest hrest hnext, emit_eq_rows stmt hstmt hfresh]
      show Page.mk _ _ _ _ = _
      rw [String.append_assoc, ← rowsText_append, rowsIn]

end

/-! ## Text in place of statements -/

theorem exists_depth_zero {comments : Bool} {body : List Stmt} (h : rowsIn comments body ≠ []) :
    ∃ row ∈ rowsIn comments body, row.depth = 0 := by
  induction body with
  | nil => exact absurd rfl h
  | cons stmt rest ih =>
      unfold rowsIn at h ⊢
      by_cases hstmt : rows comments stmt = []
      · rw [hstmt, List.nil_append] at h ⊢
        exact ih h
      · -- the first row of a statement is at depth zero
        have hfirst : ∃ row ∈ rows comments stmt, row.depth = 0 := by
          cases stmt with
          | line l => exact ⟨_, List.mem_singleton_self _, rfl⟩
          | block head body => exact ⟨_, List.mem_append_left _ (List.mem_cons_self ..), rfl⟩
          | comment text =>
              unfold rows at hstmt ⊢
              split at hstmt
              · rename_i hcomments
                rw [if_pos hcomments]
                exact ⟨_, List.mem_singleton_self _, rfl⟩
              · exact absurd rfl hstmt
          | code text => exact absurd rfl hstmt
        obtain ⟨row, hrow, hdepth⟩ := hfirst
        exact ⟨row, List.mem_append_left _ hrow, hdepth⟩

theorem render_eq_rowsText {comments : Bool} {body : List Stmt} (htidy : TidyIn body) :
    render comments body = rowsText 0 (rowsIn comments body) := by
  unfold render
  rw [emitAll_eq_rows body htidy rfl]
  simp

/-- The text of tidy statements, put in as code, is written as the statements are. -/
theorem emitAll_code_render {body : List Stmt} (htidy : TidyIn body) {page : Page}
    (hfresh : page.fresh = true) :
    emitAll [.code (render page.comments body)] page = emitAll body page := by
  rw [emitAll, emitAll_nil, emit, render_eq_rowsText htidy, emitAll_eq_rows body htidy hfresh]
  exact Page.code_rowsText hfresh (tidyIn_rowsIn body htidy) exists_depth_zero

/-- Statements that are written the same wherever a line starts. -/
def SameText (comments : Bool) (first second : List Stmt) : Prop :=
  ∀ page : Page, page.fresh = true → page.comments = comments →
    emitAll first page = emitAll second page

namespace SameText

variable {comments : Bool}

theorem refl (body : List Stmt) : SameText comments body body :=
  fun _ _ _ => rfl

theorem code_render {body : List Stmt} (htidy : TidyIn body) :
    SameText comments [.code (Stmt.render comments body)] body := by
  rintro page hfresh rfl
  exact emitAll_code_render htidy hfresh

theorem append {first first' second second' : List Stmt} (hfirst : SameText comments first first')
    (hsecond : SameText comments second second') :
    SameText comments (first ++ second) (first' ++ second') := by
  intro page hfresh hcomments
  obtain ⟨hfresh', hcomments'⟩ := emitAll_keeps first hfresh
  rw [emitAll_append, emitAll_append, ← hfirst page hfresh hcomments]
  exact hsecond _ hfresh' (hcomments'.trans hcomments)

theorem block (head : Line) {body body' : List Stmt} (hbody : SameText comments body body') :
    SameText comments [.block head body] [.block head body'] := by
  intro page hfresh hcomments
  have hsame := hbody (page.enter (head.render ++ "\x7b")) (page.fresh_enter _)
    ((page.comments_enter _).trans hcomments)
  simp only [emitAll, emit, hsame]

theorem render_eq {first second : List Stmt} (h : SameText comments first second) :
    render comments first = render comments second :=
  congrArg Page.text (h _ rfl rfl)

end SameText

end Constitutive.Stmt

/-! ## Tidy lines -/

namespace Constitutive

/-- A text without line breaks. -/
def OneLine (s : String) : Prop :=
  ∀ c ∈ s.toList, c ≠ '\n' ∧ c ≠ '\r'

@[simp] theorem oneLine_append {s t : String} : OneLine (s ++ t) ↔ OneLine s ∧ OneLine t := by
  unfold OneLine
  rw [String.toList_append, List.forall_mem_append]

/-- For literals, whose characters are known. -/
theorem oneLine_ofList {cs : List Char} (h : cs.all (fun c => c != '\n' && c != '\r') = true) :
    OneLine (String.ofList cs) := by
  intro c hc
  rw [String.toList_ofList] at hc
  simpa using List.all_eq_true.mp h c hc

theorem oneLine_of_isWordChar {s : String} (h : ∀ c ∈ s.toList, Text.isWordChar c = true) :
    OneLine s := by
  intro c hc
  refine ⟨?_, ?_⟩
  · rintro rfl
    exact absurd (h _ hc) (by decide)
  · rintro rfl
    exact absurd (h _ hc) (by decide)

theorem oneLine_toString (n : Nat) : OneLine (toString n) := by
  refine oneLine_of_isWordChar fun c hc => ?_
  have hdigits : c ∈ Nat.toDigits 10 n := by simpa using hc
  have hdigit : c.isDigit = true := Nat.isDigit_of_mem_toDigits (by decide) (by decide) hdigits
  exact Text.isWordChar_of_isDigit hdigit

theorem isWordChar_of_isVariableName {s : String} (h : isVariableName s = true) :
    ∀ c ∈ s.toList, Text.isWordChar c = true := by
  intro c hc
  unfold isVariableName at h
  obtain ⟨d, rest, heq⟩ := List.exists_cons_of_ne_nil (List.ne_nil_of_mem hc)
  rw [heq] at h hc
  obtain ⟨-, hd, hrest⟩ := Text.isIdentifier_cons h
  rcases List.mem_cons.mp hc with rfl | hc
  · exact hd
  · exact hrest c hc

theorem oneLine_of_isVariableName {s : String} (h : isVariableName s = true) : OneLine s :=
  oneLine_of_isWordChar (isWordChar_of_isVariableName h)

/-- The text begins with a character that is not blank. -/
def Begins (s : String) : Prop :=
  ∃ c ∈ s.toList.head?, Text.isBlank c = false

/-- The text ends with a character that is not blank. -/
def Ends (s : String) : Prop :=
  ∃ c ∈ s.toList.getLast?, Text.isBlank c = false

theorem begins_ofList {c : Char} {cs : List Char} (h : Text.isBlank c = false) :
    Begins (String.ofList (c :: cs)) :=
  ⟨c, by rw [String.toList_ofList]; rfl, h⟩

theorem ends_ofList {cs : List Char} (h : cs.getLast?.any (!Text.isBlank ·) = true) :
    Ends (String.ofList cs) := by
  cases hlast : cs.getLast? with
  | none =>
      rw [hlast] at h
      exact absurd h (by simp)
  | some c =>
      rw [hlast] at h
      refine ⟨c, ?_, by simpa using h⟩
      rw [String.toList_ofList]
      exact hlast

namespace Line

/-- No piece of the line has a line break. -/
def Unbroken (l : Line) : Prop :=
  ∀ piece ∈ l, OneLine piece.render

@[simp] theorem unbroken_nil : Unbroken [] := by
  simp [Unbroken]

@[simp] theorem unbroken_cons {piece : Piece} {l : Line} :
    Unbroken (piece :: l) ↔ OneLine piece.render ∧ Unbroken l := by
  simp [Unbroken]

@[simp] theorem unbroken_append {l l' : Line} : Unbroken (l ++ l') ↔ Unbroken l ∧ Unbroken l' :=
  List.forall_mem_append

@[simp] theorem unbroken_concat {parts : List Line} :
    Unbroken (concat parts) ↔ ∀ part ∈ parts, Unbroken part := by
  induction parts with
  | nil => simp [concat]
  | cons part rest ih =>
      have hconcat : concat (part :: rest) = part ++ concat rest := rfl
      rw [hconcat, unbroken_append, ih, List.forall_mem_cons]

@[simp] theorem unbroken_joinWith {separator : String} (hseparator : OneLine separator)
    {parts : List Line} :
    Unbroken (joinWith separator parts) ↔ ∀ part ∈ parts, Unbroken part := by
  induction parts using joinWith.induct with
  | case1 => simp [joinWith]
  | case2 part => simp [joinWith]
  | case3 part rest hrest ih => simp [joinWith, ih, Piece.render, hseparator]

theorem oneLine_render {l : Line} (h : Unbroken l) : OneLine l.render := by
  intro c hc
  unfold render at hc
  simp only [String.toList_join, List.mem_flatMap, List.mem_map] at hc
  obtain ⟨_, ⟨piece, hpiece, rfl⟩, hc⟩ := hc
  exact h piece hpiece c hc

/-- A line is tidy if its first piece begins well, its last piece ends well, and nothing breaks
it. -/
theorem tidy_render {l : Line} {first last : Piece} (hfirst : l.head? = some first)
    (hbegin : Begins first.render)
    (hlast : l.getLast? = some last) (hend : Ends last.render) (hbreaks : Unbroken l) :
    Text.Tidy l.render.toList := by
  refine ⟨?_, ?_, fun hmem => (oneLine_render hbreaks _ hmem).1 rfl⟩
  · obtain ⟨rest, rfl⟩ := List.head?_eq_some_iff.mp hfirst
    obtain ⟨c, hc, hblank⟩ := hbegin
    refine ⟨c, ?_, hblank⟩
    have htext : (render (first :: rest)).toList = first.render.toList ++ (render rest).toList := by
      simp [render]
    rw [htext, List.head?_append, hc]
    rfl
  · obtain ⟨init, rfl⟩ := List.getLast?_eq_some_iff.mp hlast
    obtain ⟨c, hc, hblank⟩ := hend
    refine ⟨c, ?_, hblank⟩
    have htext : (render (init ++ [last])).toList = (render init).toList ++ last.render.toList := by
      simp [render]
    rw [htext, List.getLast?_append, hc]
    rfl

/-- The head of a block is tidy with its brace. -/
theorem tidy_head {l : Line} {first : Piece} (hfirst : l.head? = some first)
    (hbegin : Begins first.render)
    (hbreaks : Unbroken l) : Text.Tidy (l.render ++ "\x7b").toList := by
  have hbrace : l.render ++ "\x7b" = render (l ++ [.text "\x7b"]) := by
    apply String.toList_injective
    simp [render, Piece.render]
  have hhead : (l ++ [Piece.text "\x7b"]).head? = some first := by
    rw [List.head?_append, hfirst]
    rfl
  have hall : Unbroken (l ++ [.text "\x7b"]) :=
    unbroken_append.mpr ⟨hbreaks, List.forall_mem_singleton.mpr (oneLine_ofList rfl)⟩
  rw [hbrace]
  exact tidy_render hhead hbegin List.getLast?_concat (ends_ofList rfl) hall

theorem tidy_text {s : String} (hbegin : Begins s) (hend : Ends s) (hbreaks : OneLine s) :
    Stmt.Tidy (.line [.text s]) :=
  tidy_render rfl hbegin rfl hend (List.forall_mem_singleton.mpr hbreaks)

theorem tidy_comment {s : String} (hend : Ends s) (hbreaks : OneLine s) :
    Stmt.Tidy (.comment s) := by
  have hslashes : "// " ++ s = render [.text "// ", .text s] := by
    apply String.toList_injective
    simp [render, Piece.render]
  show Text.Tidy ("// " ++ s).toList
  rw [hslashes]
  refine tidy_render rfl (begins_ofList (by decide)) rfl hend ?_
  simp only [unbroken_cons, unbroken_nil, and_true]
  exact ⟨oneLine_ofList rfl, hbreaks⟩

end Line

end Constitutive
