import Constitutive.Proofs.Section.Loop
import Constitutive.Proofs.Text.Solid

/-!
# Code at another level

A text that is written as code loses blank lines at either end, the margin that its lines share, and
blanks at the end of lines; what is left is moved to the level of the page.  So it keeps its shape,
and nothing that is solid is lost.

Lines that have been written to a page of their own, and then as code to another page, read as if
they had been written there directly.  This is how the comparison with the numerical Jacobian and
the call for blocks of the inverse get into the loop.

## Strategy

* **One text.**  Every text has a `Cut`, and code is its body, line by line (`code_eq_add_moved`).
  The margin of a line changes by as much as that of any other (`margin_moved`).
* **Many writes.**  A write adds one row, at a depth that does not depend on the level of the page
  (`Write.on_eq`).  So writes add the same rows wherever they are performed (`text_perform`), and
  code gives the rows back (`Page.code_rowsText`).
-/

namespace Constitutive

namespace Text

/-! ## Moved lines -/

/-- A line of code on a page at some level: behind the indentation, without the shared margin and
without trailing blanks.  A blank line is empty. -/
def moved (level shared : Nat) (line : List Char) : List Char :=
  if isBlankLine line then [] else List.replicate (2 * level) ' ' ++ trimEnd (line.drop shared)

theorem moved_of_not_blank {line : List Char} (h : isBlankLine line = false) (level shared : Nat) :
    moved level shared line = List.replicate (2 * level) ' ' ++ trimEnd (line.drop shared) := by
  rw [moved, h, if_neg Bool.false_ne_true]

/-- Lines have no line feeds. -/
theorem not_mem_of_mem_lines {cs line : List Char} (h : line ∈ lines cs) : '\n' ∉ line := by
  fun_induction lines cs generalizing line with
  | case1 => exact absurd h List.not_mem_nil
  | case2 rest ih =>
      rcases List.mem_cons.mp h with rfl | h
      · exact List.not_mem_nil
      · exact ih h
  | case3 rest ih =>
      rcases List.mem_cons.mp h with rfl | h
      · exact List.not_mem_nil
      · exact ih h
  | case4 c rest hc _ hlines ih =>
      rw [List.mem_singleton.mp h, List.mem_singleton]
      exact fun heq => hc heq.symm
  | case5 c rest hc _ line more hlines ih =>
      rw [hlines] at ih
      rcases List.mem_cons.mp h with rfl | h
      · rw [List.mem_cons, not_or]
        exact ⟨fun heq => hc heq.symm, ih (List.mem_cons_self ..)⟩
      · exact ih (List.mem_cons_of_mem _ h)

theorem not_mem_stripped {line : List Char} (h : '\n' ∉ line) (shared : Nat) :
    '\n' ∉ stripped shared line := by
  unfold stripped
  split
  · exact List.not_mem_nil
  · intro hmem
    have hdrop : '\n' ∈ line.drop shared :=
      List.mem_reverse.mp ((List.dropWhile_sublist _).mem (List.mem_reverse.mp hmem))
    exact h (List.mem_of_mem_drop hdrop)

/-- Of a line that is not blank, the part from its first solid character on is only trimmed. -/
theorem trimEnd_append_cons (front : List Char) {c : Char} (hc : isBlank c = false)
    (rest : List Char) :
    trimEnd (front ++ c :: rest) = front ++ c :: trimEnd rest := by
  have hfront : (c :: front.reverse).dropWhile isBlank = c :: front.reverse :=
    List.dropWhile_cons_of_neg (by simp [hc])
  have hreverse : (front ++ c :: rest).reverse = rest.reverse ++ (c :: front.reverse) := by simp
  unfold trimEnd
  rw [hreverse, List.dropWhile_append, hfront]
  split
  · rename_i hempty
    rw [List.isEmpty_iff.mp hempty]
    simp
  · simp

theorem exists_eq_takeWhile_append {line : List Char} (h : isBlankLine line = false) :
    ∃ c rest, line = line.takeWhile isBlank ++ c :: rest ∧ isBlank c = false := by
  have hne : line.dropWhile isBlank ≠ [] := by
    intro hnil
    have hall : isBlankLine line = true := List.all_eq_true.mpr (List.dropWhile_eq_nil_iff.mp hnil)
    simp [hall] at h
  obtain ⟨c, rest, hcons⟩ := List.exists_cons_of_ne_nil hne
  refine ⟨c, rest, ?_, ?_⟩
  · rw [← hcons, List.takeWhile_append_dropWhile]
  · simpa [hcons] using List.head_dropWhile_not isBlank hne

/-- The margin gets the indentation in place of what is shared. -/
theorem margin_moved {line : List Char} {shared : Nat} (hblank : isBlankLine line = false)
    (hshared : shared ≤ margin line)
    (level : Nat) : margin (moved level shared line) + shared = margin line + 2 * level := by
  obtain ⟨c, rest, hline, hc⟩ := exists_eq_takeWhile_append hblank
  have hdrop : line.drop shared = (line.takeWhile isBlank).drop shared ++ c :: rest := by
    conv_lhs => rw [hline]
    exact List.drop_append_of_le_length hshared
  have hblanks : ∀ d ∈ List.replicate (2 * level) ' ' ++ (line.takeWhile isBlank).drop shared,
      isBlank d = true := by
    intro d hd
    rcases List.mem_append.mp hd with hd | hd
    · exact isBlank_of_mem_spaces hd
    · exact List.mem_takeWhile_imp (List.mem_of_mem_drop hd)
  rw [moved_of_not_blank hblank, hdrop, trimEnd_append_cons _ hc, ← List.append_assoc,
    margin_append_cons hblanks hc, List.length_append, List.length_replicate, List.length_drop]
  show 2 * level + (margin line - shared) + shared = margin line + 2 * level
  omega

namespace Cut

variable {text : List Char} {front body back : List (List Char)} {shared : Nat}

theorem indented_stripped (h : Cut text front body back shared) {line : List Char}
    (hline : line ∈ body) (level : Nat) :
    indented level (stripped shared line) = moved level shared line := by
  unfold indented
  by_cases hblank : isBlankLine line = true
  · have hstripped : stripped shared line = [] := if_pos hblank
    rw [hstripped, if_pos rfl, moved, if_pos hblank]
  · have hstripped : stripped shared line = trimEnd (line.drop shared) := if_neg hblank
    -- something solid is left
    have hne : stripped shared line ≠ [] := by
      intro hnil
      have hsolid := h.solid_stripped hline
      rw [hnil] at hsolid
      exact hblank (solid_eq_nil_iff.mp hsolid.symm)
    rw [if_neg hne, hstripped, moved, if_neg hblank]

/-- Lines of code take up one line each. -/
theorem flatMap_written (h : Cut text front body back shared) (level : Nat) :
    (body.map (stripped shared)).flatMap (written level) = body.map (moved level shared) := by
  have hline : ∀ line ∈ body, written level (stripped shared line) = [moved level shared line] := by
    intro line hline
    rw [written_of_not_mem (not_mem_stripped (not_mem_of_mem_lines (h.mem_lines hline)) shared),
      h.indented_stripped hline]
  rw [List.flatMap_map, List.flatMap_def, List.map_congr_left hline, ← List.flatMap_def,
    List.map_eq_flatMap]

/-- What is solid stays. -/
theorem solid_unlines_moved (h : Cut text front body back shared) (level : Nat) :
    solid (unlines (body.map (moved level shared))) = solid text := by
  have hline : ∀ line ∈ body, solid (moved level shared line) = solid line := by
    intro line hline
    rw [← h.indented_stripped hline, solid_indented, h.solid_stripped hline]
  rw [solid_unlines, List.flatMap_map, ← h.flatMap_solid_body, List.flatMap_def, List.flatMap_def,
    List.map_congr_left hline]

/-- Lines keep their distance. -/
theorem margin_moved_sub (h : Cut text front body back shared) {line line' : List Char}
    (hline : line ∈ body)
    (hline' : line' ∈ body) (hblank : isBlankLine line = false)
    (hblank' : isBlankLine line' = false) (level : Nat) :
    (margin (moved level shared line) : Int) - margin (moved level shared line') = margin line -
      margin line' := by
  have hmargin := margin_moved hblank (h.shared_le line (h.mem_lines hline) hblank) level
  have hmargin' := margin_moved hblank' (h.shared_le line' (h.mem_lines hline') hblank') level
  omega

end Cut

/-- Code on a page is its body, moved. -/
theorem code_eq_add_moved {page : Page} (hfresh : page.fresh = true) (text : String) :
    ∃ front body back shared, Cut text.toList front body back shared ∧
      page.code text = page.add (body.map (moved page.level shared)) := by
  obtain ⟨front, body, back, shared, hcut, hcode⟩ := exists_cut text.toList
  refine ⟨front, body, back, shared, hcut, ?_⟩
  rw [Stmt.code_eq_add hfresh, hcode, hcut.flatMap_written]

/-! ## Writes -/

/-- A step of writing. -/
inductive Write where
  | line (text : String)
  | enter (head : String)
  | leave (foot : String)

namespace Write

/-- The line that is written. -/
def text : Write → String
  | line s | enter s | leave s => s

/-- The page after the write. -/
def on (page : Page) : Write → Page
  | line s => page.line s
  | enter s => page.enter s
  | leave s => page.leave s

/-- There is a block to leave, if so many have been entered. -/
def Fits (depth : Nat) : Write → Prop
  | line _ | enter _ => True
  | leave _ => 0 < depth

/-- How many blocks are open after the write. -/
def after (depth : Nat) : Write → Nat
  | line _ => depth
  | enter _ => depth + 1
  | leave _ => depth - 1

/-- The row that is written. -/
def row (depth : Nat) : Write → Row
  | line s | enter s => ⟨depth, s⟩
  | leave s => ⟨depth - 1, s⟩

end Write

/-- Every block that is left has been entered before, or is one of so many that are open. -/
def Nested : Nat → List Write → Prop
  | _, [] => True
  | depth, w :: rest => w.Fits depth ∧ Nested (w.after depth) rest

/-- The rows of writes, if so many blocks are open. -/
def rowsOf : Nat → List Write → List Row
  | _, [] => []
  | depth, w :: rest => w.row depth :: rowsOf (w.after depth) rest

/-- The page after all writes. -/
def perform (writes : List Write) (page : Page) : Page :=
  writes.foldl Write.on page

section Writes

variable {page : Page} {level depth : Nat}

/-- A write adds its row, and moves between levels as it does between depths. -/
theorem Write.on_eq (w : Write) (htidy : Tidy w.text.toList) (hfits : w.Fits depth)
    (hfresh : page.fresh = true) (hlevel : page.level = level + depth) :
    w.on page =
      { page with
        text := page.text ++ rowsText level [w.row depth], level := level + w.after depth } := by
  have hrow : ∀ (d : Nat) (s : String),
      rowsText (level + d) [⟨0, s⟩] = rowsText level [⟨d, s⟩] := by
    intro d s
    simp [rowsText]
  cases w with
  | line s =>
      have hs : Tidy s.toList := htidy
      rw [on, Page.line_eq_rowsText hfresh hs, hlevel, hrow]
      rfl
  | enter s =>
      have hs : Tidy s.toList := htidy
      rw [on, Page.enter, Page.line_eq_rowsText hfresh hs, hlevel, hrow]
      rfl
  | leave s =>
      have hs : Tidy s.toList := htidy
      have hdepth : page.level - 1 = level + (depth - 1) := by
        have hopen : 0 < depth := hfits
        omega
      rw [on, Page.leave, hdepth, Page.line_eq_rowsText (by exact hfresh) hs, hrow]
      rfl

/-- Writes add their rows. -/
theorem text_perform {writes : List Write} (htidy : ∀ w ∈ writes, Tidy w.text.toList)
    (hnested : Nested depth writes)
    (hfresh : page.fresh = true) (hlevel : page.level = level + depth) :
    (perform writes page).text = page.text ++ rowsText level (rowsOf depth writes) := by
  induction writes generalizing page depth with
  | nil => simp [perform, rowsOf, rowsText]
  | cons w rest ih =>
      obtain ⟨hw, hrest⟩ := List.forall_mem_cons.mp htidy
      obtain ⟨hfits, hnext⟩ := hnested
      have hstep := w.on_eq hw hfits hfresh hlevel
      have hperform : perform (w :: rest) page = perform rest (w.on page) := rfl
      rw [hperform, hstep, ih hrest hnext (by exact hfresh) rfl, String.append_assoc,
        ← rowsText_append, List.singleton_append, rowsOf]

theorem tidy_rowsOf {writes : List Write} (htidy : ∀ w ∈ writes, Tidy w.text.toList) (depth : Nat) :
    ∀ row ∈ rowsOf depth writes, Tidy row.text.toList := by
  induction writes generalizing depth with
  | nil => exact fun _ hrow => absurd hrow List.not_mem_nil
  | cons w rest ih =>
      obtain ⟨hw, hrest⟩ := List.forall_mem_cons.mp htidy
      have htext : (w.row depth).text = w.text := by cases w <;> rfl
      refine List.forall_mem_cons.mpr ⟨?_, ih hrest _⟩
      rw [htext]
      exact hw

/-- The first row stands at depth zero. -/
theorem exists_row_depth_zero {writes : List Write} (h : rowsOf 0 writes ≠ []) :
    ∃ row ∈ rowsOf 0 writes, row.depth = 0 := by
  cases writes with
  | nil => exact absurd rfl h
  | cons w rest =>
      refine ⟨_, List.mem_cons_self .., ?_⟩
      cases w <;> rfl

/-- The text of writes on a page of their own, written as code, reads as the writes. -/
theorem text_code_perform {writes : List Write} (htidy : ∀ w ∈ writes, Tidy w.text.toList)
    (hnested : Nested 0 writes) (hfresh : page.fresh = true) (comments : Bool) :
    (page.code (perform writes { comments := comments }).text).text =
      (perform writes page).text := by
  have hown : (perform writes { comments := comments }).text = rowsText 0 (rowsOf 0 writes) := by
    rw [text_perform htidy hnested rfl rfl, String.empty_append]
  rw [hown, Page.code_rowsText hfresh (tidy_rowsOf htidy 0) exists_row_depth_zero,
    text_perform htidy hnested hfresh rfl]

end Writes

end Text

/-! ## Code and the loop -/

open Text Blueprint

/-- **Code keeps its shape, and composes.**  Whatever text is written as code where a line starts,
only blank lines at its ends, the shared margin and trailing blanks are lost, and the rest is moved
to the level of the page.  Lines that are written to a page of their own and then as code read as if
they had been written directly.  So the loop, into which the comparison and the call for blocks of
the inverse are put as texts, is the loop with their statements. -/
theorem code_keeps_shape_and_composes :
    (∀ (page : Page) (text : String), page.fresh = true →
      ∃ front body back shared, Cut text.toList front body back shared ∧
        page.code text = page.add (body.map (moved page.level shared)) ∧
        solid (unlines (body.map (moved page.level shared))) = solid text.toList ∧
        ∀ line ∈ body, ∀ line' ∈ body, isBlankLine line = false → isBlankLine line' = false →
          (margin (moved page.level shared line) : Int) - margin (moved page.level shared line') =
            margin line - margin line') ∧
    (∀ (page : Page) (comments : Bool) (writes : List Write), page.fresh = true →
      (∀ w ∈ writes, Tidy w.text.toList) → Nested 0 writes →
        (page.code (perform writes { comments := comments }).text).text =
          (perform writes page).text) ∧
    ∀ (compiler : Compiler) (description : Description) (hypothesis : Hypothesis)
        (generated : GeneratedClass)
      (plan : Blueprint), (compiler.compile description hypothesis).outcome = .ok generated →
      (compiler.blueprint description hypothesis).outcome = .ok plan →
      ∃ build : plan.Build,
        plan.loopSection (Build.comparisonText plan) build.callText =
        .ok (plan.sectionOf .integrate build.loop) ∧
        plan.sectionOf .integrate build.loop ∈ generated.sections := by
  refine ⟨fun page text hfresh => ?_, fun page comments writes hfresh htidy hnested => ?_,
    fun compiler description hypothesis generated plan hcompile hplan => ?_⟩
  · obtain ⟨front, body, back, shared, hcut, hcode⟩ := code_eq_add_moved hfresh text
    exact ⟨front, body, back, shared, hcut, hcode, hcut.solid_unlines_moved page.level,
      fun line hline line' hline' hblank hblank' =>
        hcut.margin_moved_sub hline hline' hblank hblank' page.level⟩
  · exact text_code_perform htidy hnested hfresh comments
  · obtain ⟨build, hsections⟩ := Compiler.exists_build hcompile hplan
    refine ⟨build, build.loopSection_eq (Compiler.grounded_of_blueprint hplan), ?_⟩
    rw [hsections]
    exact List.mem_map.mpr ⟨(.integrate, build.loop), by simp [Build.parts], rfl⟩

/-- Code with a margin, with blank lines at its ends and in between, and with blanks at the end of a
line. -/
def marginCode : String :=
  "\n    a = 1;\r\n \t\n      b = 2;  \n  \n"

/-- A block with a line in it. -/
def guardedLine : List Write :=
  [.enter "if(a)\x7b", .line "b = 2;", .leave "\x7d", .line "c = 3;"]

/-- A description whose loop holds both texts. -/
def comparedBlocks : Description where
  className := "Compared"
  events :=
    [{ declaration := .integrationVariable "p" .scalar 1 },
      { declaration := .integrationVariable "eel" .symmetricTensor 1 },
      { declaration := .compareToNumericalJacobian true },
      { declaration := .tangentBlocks [⟨"eel", "p"⟩] }]

theorem code_keeps_shape_and_composes_compared :
    (∃ front body back shared, Cut marginCode.toList front body back shared ∧
      ({ level := 1 } : Page).code marginCode =
        ({ level := 1 } : Page).add (body.map (moved 1 shared)) ∧
      ({ level := 1 } : Page).code marginCode =
        { text := "  a = 1;\n\n    b = 2;\n", level := 1 }) ∧
    (∀ w ∈ guardedLine, Tidy w.text.toList) ∧ Nested 0 guardedLine ∧
    (({ level := 2 } : Page).code (perform guardedLine {}).text).text =
    (perform guardedLine { level := 2 }).text ∧
    ∃ generated plan, (({} : Compiler).compile comparedBlocks .tridimensional).outcome =
    .ok generated ∧
      (({} : Compiler).blueprint comparedBlocks .tridimensional).outcome = .ok plan ∧
      plan.compares = true ∧ plan.draft.inverseBlocks = [⟨"eel", "p"⟩] ∧
      ∃ build : plan.Build,
        plan.loopSection (Build.comparisonText plan) build.callText =
        .ok (plan.sectionOf .integrate build.loop) := by
  obtain ⟨hshape, hcomposes, hloop⟩ := code_keeps_shape_and_composes
  have htidy : ∀ w ∈ guardedLine, Tidy w.text.toList := by
    simp only [guardedLine, List.forall_mem_cons, List.not_mem_nil, false_implies,
      implies_true, and_true]
    exact ⟨⟨⟨'i', rfl, rfl⟩, ⟨'\x7b', rfl, rfl⟩, by decide⟩,
      ⟨⟨'b', rfl, rfl⟩, ⟨';', rfl, rfl⟩, by decide⟩, ⟨⟨'\x7d', rfl, rfl⟩, ⟨'\x7d', rfl, rfl⟩,
        by decide⟩, ⟨⟨'c', rfl, rfl⟩, ⟨';', rfl, rfl⟩, by decide⟩⟩
  have hnested : Nested 0 guardedLine := ⟨trivial, trivial, Nat.one_pos, trivial, trivial⟩
  have haccepted :
      (({} : Compiler).compile comparedBlocks .tridimensional).outcome.toOption.isSome = true := by
    decide +kernel
  have hchecked :
      ((({} : Compiler).blueprint comparedBlocks .tridimensional).outcome.toOption.map fun plan =>
      (plan.compares, plan.draft.inverseBlocks)) = some (true, [⟨"eel", "p"⟩]) := by
    decide +kernel
  cases hcompile : (({} : Compiler).compile comparedBlocks .tridimensional).outcome with
  | error fault =>
      rw [hcompile] at haccepted
      cases haccepted
  | ok generated =>
      obtain ⟨plan, _, hplan, -, -⟩ := Compiler.compile_eq_ok_iff.mp hcompile
      rw [hplan] at hchecked
      obtain ⟨hcompares, hblocks⟩ := Prod.mk.inj (Option.some.inj hchecked)
      obtain ⟨build, hbuild, -⟩ := hloop _ _ _ generated plan hcompile hplan
      obtain ⟨front, body, back, shared, hcut, hcode, -, -⟩ := hshape { level := 1 } marginCode rfl
      exact ⟨⟨front, body, back, shared, hcut, hcode, by decide +kernel⟩, htidy, hnested,
        hcomposes { level := 2 } true guardedLine rfl htidy hnested, generated, plan, rfl, hplan,
        hcompares, hblocks, build,
        hbuild⟩

end Constitutive
