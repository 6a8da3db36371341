import Constitutive.Text.Page

/-!
# Rows of a page

Code is written row by row, each row at some depth.  On a page where a line starts, a row is put
down as it is, behind the indentation of the page and of its own depth (`line_eq_rowsText`).  Rows
that have been written to a page of their own can be written again as code at any level, and come
out as if they had been written there in the first place (`code_rowsText`).

## Strategy

Code is cut into lines, stripped of blank lines at either end and of the margin that its lines
share, and trimmed.  Rows that neither begin nor end with a blank survive all of this: cutting the
text at its line feeds gives the rows back (`lines_rows`), no row is blank, and as long as some row
stands at depth zero there is no margin to share.
-/

namespace Constitutive.Text

/-! ## Characters on a page -/

namespace Page

variable {page : Page}

theorem push_newline (page : Page) :
    page.push '\n' = { page with text := page.text.push '\n', fresh := true } := rfl

theorem foldl_push_of_not_fresh (hfresh : page.fresh = false) {cs : List Char} (hcs : '\n' ∉ cs) :
    cs.foldl push page = { page with text := page.text ++ String.ofList cs } := by
  induction cs generalizing page with
  | nil =>
      have htext : page.text ++ String.ofList [] = page.text := by simp
      rw [List.foldl_nil, htext]
  | cons c rest ih =>
      obtain ⟨hc, hrest⟩ := not_or.mp (mt List.mem_cons.mpr hcs)
      have hpush : page.push c = { page with text := page.text.push c } := by
        unfold push
        rw [if_neg (Ne.symm hc), if_neg (by simp [hfresh])]
      have htext : page.text.push c ++ String.ofList rest = page.text ++
          String.ofList (c :: rest) := by
        apply String.toList_injective
        simp
      have hnext : ({ page with text := page.text.push c } : Page).fresh = false := hfresh
      rw [List.foldl_cons, hpush, ih hnext hrest, htext]

/-- A line that is not empty stands behind the indentation of the page. -/
theorem line_eq (hfresh : page.fresh = true) {s : String} (hs : s ≠ "") (hline : '\n' ∉ s.toList) :
    page.line s = { page with text := page.text ++ (indentation page.level ++ s ++ "\n") } := by
  obtain ⟨c, cs, hcs⟩ := List.exists_cons_of_ne_nil (mt String.toList_eq_nil_iff.mp hs)
  rw [hcs] at hline
  obtain ⟨hc, hrest⟩ := not_or.mp (mt List.mem_cons.mpr hline)
  have hpush : page.push c =
      { page with text := (page.text ++ indentation page.level).push c, fresh := false } := by
    unfold push
    rw [if_neg (Ne.symm hc), if_pos hfresh]
  have htext : (((page.text ++ indentation page.level).push c ++ String.ofList cs).push '\n') =
      page.text ++ (indentation page.level ++ s ++ "\n") := by
    apply String.toList_injective
    simp [hcs]
  unfold line write
  rw [String.toList_append, hcs, List.foldl_append, List.foldl_cons, hpush,
    foldl_push_of_not_fresh rfl hrest]
  show push _ '\n' = _
  rw [push_newline, htext, ← hfresh]

theorem foldl_push_comments (cs : List Char) (page : Page) :
    (cs.foldl push page).comments = page.comments := by
  induction cs generalizing page with
  | nil => rfl
  | cons c rest ih => rw [List.foldl_cons, ih, push_comments]

@[simp] theorem comments_line (page : Page) (s : String) : (page.line s).comments = page.comments :=
  foldl_push_comments _ page

/-- After a line the next one starts. -/
@[simp] theorem fresh_line (page : Page) (s : String) : (page.line s).fresh = true := by
  unfold line write
  rw [String.toList_append, List.foldl_append]
  rfl

@[simp] theorem fresh_enter (page : Page) (head : String) : (page.enter head).fresh = true :=
  page.fresh_line head

@[simp] theorem comments_enter (page : Page) (head : String) :
    (page.enter head).comments = page.comments :=
  page.comments_line head

@[simp] theorem fresh_leave (page : Page) (foot : String) : (page.leave foot).fresh = true :=
  fresh_line _ foot

@[simp] theorem comments_leave (page : Page) (foot : String) :
    (page.leave foot).comments = page.comments :=
  comments_line _ foot

/-- Code ends with its last line, and does not touch the choice of comments. -/
theorem code_keeps (hfresh : page.fresh = true) (text : String) :
    (page.code text).fresh = true ∧ (page.code text).comments = page.comments := by
  unfold code
  generalize codeLines text.toList = ls
  induction ls generalizing page with
  | nil => exact ⟨hfresh, rfl⟩
  | cons cs rest ih =>
      obtain ⟨hend, hcomments⟩ := ih (page.fresh_line (String.ofList cs))
      exact ⟨hend, hcomments.trans (page.comments_line _)⟩

end Page

/-! ## Margins -/

theorem isBlank_of_mem_spaces {width : Nat} {c : Char} (h : c ∈ List.replicate width ' ') :
    isBlank c = true := by
  rw [List.eq_of_mem_replicate h]
  decide

theorem margin_append_cons {blanks : List Char}
    (hblanks : ∀ d ∈ blanks, isBlank d = true) {c : Char}
    (hc : isBlank c = false) (rest : List Char) : margin (blanks ++ c :: rest) = blanks.length := by
  unfold margin
  rw [List.takeWhile_append_of_pos hblanks, List.takeWhile_cons_of_neg (by simp [hc]),
    List.append_nil]

/-! ## Tidy text -/

/-- A text of one line that neither begins nor ends with a blank. -/
structure Tidy (cs : List Char) : Prop where
  first : ∃ c ∈ cs.head?, isBlank c = false
  last : ∃ c ∈ cs.getLast?, isBlank c = false
  oneLine : '\n' ∉ cs

namespace Tidy

variable {cs : List Char}

theorem exists_cons (h : Tidy cs) : ∃ c rest, cs = c :: rest ∧ isBlank c = false := by
  obtain ⟨c, hc, hblank⟩ := h.first
  obtain ⟨rest, rfl⟩ := List.head?_eq_some_iff.mp hc
  exact ⟨c, rest, rfl, hblank⟩

theorem trimEnd_append (h : Tidy cs) (front : List Char) : trimEnd (front ++ cs) = front ++ cs := by
  obtain ⟨c, hc, hblank⟩ := h.last
  obtain ⟨init, rfl⟩ := List.getLast?_eq_some_iff.mp hc
  unfold trimEnd
  rw [← List.append_assoc, List.reverse_append, List.reverse_singleton, List.singleton_append,
    List.dropWhile_cons_of_neg (by simp [hblank]), ← List.reverse_singleton,
    ← List.singleton_append]
  simp

theorem isBlankLine_append (h : Tidy cs) (front : List Char) :
    isBlankLine (front ++ cs) = false := by
  obtain ⟨c, rest, rfl, hblank⟩ := h.exists_cons
  simp [isBlankLine, hblank]

theorem margin_append (h : Tidy cs) (width : Nat) :
    margin (List.replicate width ' ' ++ cs) = width := by
  obtain ⟨c, rest, rfl, hblank⟩ := h.exists_cons
  rw [margin_append_cons (fun _ => isBlank_of_mem_spaces) hblank, List.length_replicate]

end Tidy

/-! ## Rows -/

/-- A line of code at some depth. -/
structure Row where
  depth : Nat
  text : String

namespace Row

/-- The row with its indentation. -/
def chars (row : Row) : List Char :=
  List.replicate (2 * row.depth) ' ' ++ row.text.toList

/-- The row one level deeper. -/
def deeper (row : Row) : Row :=
  { row with depth := row.depth + 1 }

end Row

/-- The text of rows, at some level. -/
def rowsText (level : Nat) (rows : List Row) : String :=
  String.join (rows.map fun row => indentation (level + row.depth) ++ row.text ++ "\n")

theorem rowsText_append (level : Nat) (first second : List Row) :
    rowsText level (first ++ second) = rowsText level first ++ rowsText level second := by
  simp [rowsText]

theorem rowsText_deeper (level : Nat) (rows : List Row) :
    rowsText level (rows.map Row.deeper) = rowsText (level + 1) rows := by
  simp [rowsText, Function.comp_def, Row.deeper, Nat.add_assoc, Nat.add_comm 1]

theorem toList_rowsText (rows : List Row) :
    (rowsText 0 rows).toList = rows.flatMap fun row => row.chars ++ ['\n'] := by
  simp [rowsText, String.toList_join, List.flatMap_map, Row.chars, indentation]

/-! ## Cutting rows apart -/

/-- A carriage return is only dropped at the end of a line. -/
theorem lines_append_newline {row : List Char} (hnewline : '\n' ∉ row)
    (hreturn : row.getLast? ≠ some '\r')
    (rest : List Char) : lines (row ++ '\n' :: rest) = row :: lines rest := by
  induction row with
  | nil => simp [lines]
  | cons c row ih =>
      obtain ⟨hc, hrow⟩ := not_or.mp (mt List.mem_cons.mpr hnewline)
      cases row with
      | nil =>
          have hc' : c ≠ '\r' := fun heq => hreturn (by rw [heq]; rfl)
          rw [List.cons_append, lines, ih hrow (by simp)]
          · exact Ne.symm hc
          · exact fun _ heq => absurd heq hc'
      | cons d row =>
          have hd : d ≠ '\n' := fun heq => hrow (heq ▸ List.mem_cons_self ..)
          rw [List.cons_append, lines, ih hrow (by rwa [List.getLast?_cons_cons] at hreturn)]
          · exact Ne.symm hc
          · exact fun _ _ heq => absurd (List.cons.inj heq).1 hd

theorem lines_rows {rows : List (List Char)}
    (hrows : ∀ row ∈ rows, '\n' ∉ row ∧ row.getLast? ≠ some '\r') :
    lines (rows.flatMap fun row => row ++ ['\n']) = rows := by
  induction rows with
  | nil => simp
  | cons row rest ih =>
      obtain ⟨⟨hnewline, hreturn⟩, hrest⟩ := List.forall_mem_cons.mp hrows
      rw [List.flatMap_cons, List.append_assoc, List.singleton_append,
        lines_append_newline hnewline hreturn, ih hrest]

theorem Row.not_mem_chars {row : Row} (htidy : Tidy row.text.toList) : '\n' ∉ row.chars := by
  intro hmem
  rcases List.mem_append.mp hmem with hmem | hmem
  · exact absurd (List.eq_of_mem_replicate hmem) (by decide)
  · exact htidy.oneLine hmem

/-- Code without blank lines is not stripped of any line. -/
theorem codeLines_of_not_blank {text : List Char}
    (hblank : ∀ line ∈ lines text, isBlankLine line = false)
    (hmargin : lines text ≠ [] → ∃ line ∈ lines text, margin line = 0) :
    codeLines text = (lines text).map trimEnd := by
  have hkeep : ∀ ls : List (List Char), (∀ line ∈ ls, isBlankLine line = false) →
      ls.dropWhile isBlankLine = ls := by
    intro ls hls
    cases ls with
    | nil => rfl
    | cons line rest =>
        exact List.dropWhile_cons_of_neg (by simp [hls line (List.mem_cons_self ..)])
  have hbody : ((lines text).dropWhile isBlankLine).reverse.dropWhile isBlankLine =
      (lines text).reverse := by
    rw [hkeep _ hblank]
    exact hkeep _ fun line hline => hblank line (List.mem_reverse.mp hline)
  have hfilter : (lines text).filter (!isBlankLine ·) = lines text :=
    List.filter_eq_self.mpr fun line hline => by simp [hblank line hline]
  have hshared : ((lines text).map margin).min?.getD 0 = 0 := by
    by_cases hempty : lines text = []
    · rw [hempty]
      rfl
    · obtain ⟨line, hline, hzero⟩ := hmargin hempty
      have hmin : ((lines text).map margin).min? = some 0 :=
        List.min?_eq_some_iff.mpr ⟨List.mem_map.mpr ⟨line, hline, hzero⟩, fun _ _ => Nat.zero_le _⟩
      rw [hmin, Option.getD_some]
  unfold codeLines
  rw [hbody, List.reverse_reverse]
  dsimp only
  rw [hfilter, hshared]
  refine List.map_congr_left fun line hline => ?_
  rw [hblank line hline, if_neg Bool.false_ne_true, List.drop_zero]

/-- The rows of a text, some of them at depth zero, are the lines of that text as code. -/
theorem codeLines_rowsText {rows : List Row} (htidy : ∀ row ∈ rows, Tidy row.text.toList)
    (hdepth : rows ≠ [] → ∃ row ∈ rows, row.depth = 0) :
    codeLines (rowsText 0 rows).toList = rows.map Row.chars := by
  have hlines : lines (rowsText 0 rows).toList = rows.map Row.chars := by
    rw [toList_rowsText, ← List.flatMap_map Row.chars fun cs => cs ++ ['\n']]
    refine lines_rows fun cs hcs => ?_
    obtain ⟨row, hrow, rfl⟩ := List.mem_map.mp hcs
    obtain ⟨c, hc, hblank⟩ := (htidy row hrow).last
    refine ⟨Row.not_mem_chars (htidy row hrow), ?_⟩
    rw [Row.chars, List.getLast?_append, Option.mem_def.mp hc, Option.some_or]
    intro heq
    rw [Option.some.inj heq] at hblank
    exact absurd hblank (by decide)
  rw [codeLines_of_not_blank, hlines, List.map_map]
  · exact List.map_congr_left fun row hrow => (htidy row hrow).trimEnd_append _
  · rw [hlines]
    intro cs hcs
    obtain ⟨row, hrow, rfl⟩ := List.mem_map.mp hcs
    exact (htidy row hrow).isBlankLine_append _
  · rw [hlines]
    intro hne
    obtain ⟨row, hrow, hzero⟩ := hdepth (mt (congrArg (List.map Row.chars)) hne)
    refine ⟨row.chars, List.mem_map_of_mem hrow, ?_⟩
    have hmargin : margin row.chars = 2 * row.depth :=
      (htidy row hrow).margin_append (2 * row.depth)
    rw [hmargin, hzero]

/-! ## Writing rows -/

namespace Page

variable {page : Page}

/-- A tidy line ends up on the page as a row at depth zero. -/
theorem line_eq_rowsText (hfresh : page.fresh = true) {s : String} (htidy : Tidy s.toList) :
    page.line s = { page with text := page.text ++ rowsText page.level [⟨0, s⟩] } := by
  have hs : s ≠ "" := by
    rintro rfl
    obtain ⟨c, hc, -⟩ := htidy.first
    exact absurd hc (by simp)
  have htext : rowsText page.level [⟨0, s⟩] = indentation page.level ++ s ++ "\n" := by
    simp [rowsText]
  rw [line_eq hfresh hs htidy.oneLine, htext]

theorem line_chars (hfresh : page.fresh = true) {row : Row} (htidy : Tidy row.text.toList) :
    page.line (String.ofList row.chars) =
      { page with text := page.text ++ rowsText page.level [row] } := by
  have hne : String.ofList row.chars ≠ "" := by
    intro hempty
    obtain ⟨c, rest, hcons, -⟩ := htidy.exists_cons
    have hchars := congrArg String.toList hempty
    simp [Row.chars, hcons] at hchars
  have hnewline : '\n' ∉ (String.ofList row.chars).toList := by
    rw [String.toList_ofList]
    exact Row.not_mem_chars htidy
  -- the spaces of the page and those of the row together
  have hspaces : indentation page.level ++ String.ofList row.chars =
      indentation (page.level + row.depth) ++ row.text := by
    apply String.toList_injective
    simp [indentation, Row.chars, Nat.mul_add, ← List.append_assoc, List.replicate_append_replicate]
  have htext : rowsText page.level [row] = indentation page.level ++
      String.ofList row.chars ++ "\n" := by
    rw [hspaces]
    simp [rowsText]
  rw [line_eq hfresh hne hnewline, htext]

theorem foldl_line_chars (hfresh : page.fresh = true) {rows : List Row}
    (htidy : ∀ row ∈ rows, Tidy row.text.toList) :
    (rows.map Row.chars).foldl (fun written cs => written.line (String.ofList cs)) page =
      { page with text := page.text ++ rowsText page.level rows } := by
  induction rows generalizing page with
  | nil =>
      have htext : page.text ++ rowsText page.level [] = page.text := by simp [rowsText]
      rw [List.map_nil, List.foldl_nil, htext]
  | cons row rest ih =>
      obtain ⟨hrow, hrest⟩ := List.forall_mem_cons.mp htidy
      have hnext : ({ page with text := page.text ++ rowsText page.level [row] } : Page).fresh =
        true := hfresh
      rw [List.map_cons, List.foldl_cons, line_chars hfresh hrow, ih hnext hrest]
      show Page.mk _ _ _ _ = _
      rw [String.append_assoc, ← rowsText_append, List.singleton_append]

/-- The text of tidy rows, written as code, is the rows at the level of the page. -/
theorem code_rowsText (hfresh : page.fresh = true) {rows : List Row}
    (htidy : ∀ row ∈ rows, Tidy row.text.toList)
    (hdepth : rows ≠ [] → ∃ row ∈ rows, row.depth = 0) :
    page.code (rowsText 0 rows) = { page with text := page.text ++ rowsText page.level rows } := by
  unfold code
  rw [codeLines_rowsText htidy hdepth]
  exact foldl_line_chars hfresh htidy

end Page

end Constitutive.Text
