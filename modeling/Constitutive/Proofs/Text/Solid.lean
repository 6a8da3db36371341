import Constitutive.Proofs.Code.Output

/-!
# What is not blank

The *solid* part of a text is the text without its blanks.  It says what a text consists of whatever
way it is laid out: the solid part stays when a text is trimmed, cut into lines, indented
(`solid_unlines_written`), or written as code without its margins (`solid_unlines_code`).
-/

namespace Constitutive.Text

/-- The characters that are not blank, in order. -/
def solid (cs : List Char) : List Char :=
  cs.filter (!isBlank ·)

@[simp] theorem solid_nil : solid [] = [] := rfl

@[simp] theorem solid_append (first second : List Char) :
    solid (first ++ second) = solid first ++ solid second :=
  List.filter_append ..

theorem solid_cons_of_blank {c : Char} (h : isBlank c = true) (rest : List Char) :
    solid (c :: rest) = solid rest :=
  List.filter_cons_of_neg (by simp [h])

theorem solid_cons_of_not_blank {c : Char} (h : isBlank c = false) (rest : List Char) :
    solid (c :: rest) = c :: solid rest :=
  List.filter_cons_of_pos (by simp [h])

theorem solid_eq_nil_iff {line : List Char} : solid line = [] ↔ isBlankLine line = true := by
  unfold solid isBlankLine
  rw [List.filter_eq_nil_iff, List.all_eq_true]
  simp

/-- Another character in front comes before the solid part, or is lost. -/
theorem solid_cons_congr {rest : List Char} {ls : List (List Char)} (c : Char) {line : List Char}
    (h : (line :: ls).flatMap solid = solid rest) :
    ((c :: line) :: ls).flatMap solid = solid (c :: rest) := by
  rw [List.flatMap_cons] at h ⊢
  cases hblank : isBlank c with
  | true => rw [solid_cons_of_blank hblank, solid_cons_of_blank hblank, h]
  | false =>
      rw [solid_cons_of_not_blank hblank, solid_cons_of_not_blank hblank, List.cons_append, h]

/-! ## Lines -/

theorem solid_indented (level : Nat) (line : List Char) :
    solid (indented level line) = solid line := by
  have hspaces : isBlankLine (List.replicate (2 * level) ' ') = true :=
    List.all_eq_true.mpr fun _ => isBlank_of_mem_spaces
  unfold indented
  split
  · rename_i hempty
    rw [hempty]
  · rw [solid_append, solid_eq_nil_iff.mpr hspaces, List.nil_append]

theorem flatMap_solid_splitOn (cs : List Char) : (cs.splitOn '\n').flatMap solid = solid cs := by
  induction cs with
  | nil => rfl
  | cons c rest ih =>
      rw [List.splitOn_cons_eq_if_modifyHead]
      split
      · rename_i hnewline
        rw [beq_iff_eq.mp hnewline, List.flatMap_cons, ih]
        rfl
      · obtain ⟨line, more, hlines⟩ := List.exists_cons_of_ne_nil (List.splitOn_ne_nil '\n' rest)
        rw [hlines] at ih ⊢
        exact solid_cons_congr c ih

theorem solid_unlines (ls : List (List Char)) : solid (unlines ls) = ls.flatMap solid := by
  induction ls with
  | nil => rfl
  | cons line rest ih =>
      have hcons : unlines (line :: rest) = line ++ ['\n'] ++ unlines rest := rfl
      have hnewline : solid ['\n'] = [] := rfl
      rw [hcons, solid_append, solid_append, hnewline, List.append_nil, ih, List.flatMap_cons]

theorem solid_unlines_written (level : Nat) (cs : List Char) :
    solid (unlines (written level cs)) = solid cs := by
  rw [solid_unlines, written, List.flatMap_map]
  simp only [solid_indented]
  exact flatMap_solid_splitOn cs

theorem flatMap_solid_lines (cs : List Char) : (lines cs).flatMap solid = solid cs := by
  fun_induction lines cs with
  | case1 => rfl
  | case2 rest ih => exact ih
  | case3 rest ih => exact ih
  | case4 c rest _ _ hlines ih =>
      rw [hlines] at ih
      exact solid_cons_congr c ih
  | case5 c rest _ _ line more hlines ih =>
      rw [hlines] at ih
      exact solid_cons_congr c ih

/-! ## Trimming -/

theorem solid_trimStart (cs : List Char) : solid (trimStart cs) = solid cs := by
  unfold trimStart
  induction cs with
  | nil => rfl
  | cons c rest ih =>
      rw [List.dropWhile_cons]
      split
      · rename_i hblank
        rw [ih, solid_cons_of_blank hblank]
      · rfl

theorem solid_trimEnd (cs : List Char) : solid (trimEnd cs) = solid cs := by
  have hdrop := solid_trimStart cs.reverse
  unfold trimStart solid at hdrop
  unfold trimEnd solid
  rw [List.filter_reverse, hdrop, List.filter_reverse, List.reverse_reverse]

theorem solid_trim (cs : List Char) : solid (trim cs) = solid cs := by
  rw [trim, solid_trimEnd, solid_trimStart]

/-- Nothing solid stands in the margin. -/
theorem solid_drop {line : List Char} {count : Nat} (h : count ≤ margin line) :
    solid (line.drop count) = solid line := by
  obtain ⟨rest, hrest⟩ : line.takeWhile isBlank <+: line := List.takeWhile_prefix isBlank
  have hblank : isBlankLine (line.take count) = true := by
    refine List.all_eq_true.mpr fun c hc => ?_
    rw [← hrest, List.take_append_of_le_length h] at hc
    exact List.mem_takeWhile_imp (List.mem_of_mem_take hc)
  calc solid (line.drop count)
      = solid (line.take count ++ line.drop count) := by
        rw [solid_append, solid_eq_nil_iff.mpr hblank, List.nil_append]
    _ = solid line := by rw [List.take_append_drop]

/-! ## Code -/

/-- How a text is cut when it is written as code.  Between blank lines in front and at the back is a
body that neither begins nor ends with a blank line, and the shared margin is the least one of a
line that is not blank. -/
structure Cut (text : List Char) (front body back : List (List Char)) (shared : Nat) : Prop where
  lines_eq : lines text = front ++ body ++ back
  front_blank : ∀ line ∈ front, isBlankLine line = true
  back_blank : ∀ line ∈ back, isBlankLine line = true
  first : ∀ line ∈ body.head?, isBlankLine line = false
  last : ∀ line ∈ body.getLast?, isBlankLine line = false
  shared_le : ∀ line ∈ lines text, isBlankLine line = false → shared ≤ margin line
  exists_margin : body ≠ [] → ∃ line ∈ lines text, isBlankLine line = false ∧ margin line = shared

/-- A line of code without the shared margin and without trailing blanks.  Nothing is left of a
blank line. -/
def stripped (shared : Nat) (line : List Char) : List Char :=
  if isBlankLine line then [] else trimEnd (line.drop shared)

/-- The lines without blank ones at either end. -/
def inner (ls : List (List Char)) : List (List Char) :=
  ((ls.dropWhile isBlankLine).reverse.dropWhile isBlankLine).reverse

/-- The margins of the lines that are not blank. -/
def margins (ls : List (List Char)) : List Nat :=
  (ls.filter (!isBlankLine ·)).map margin

/-- The least of these margins. -/
def leastMargin (ls : List (List Char)) : Nat :=
  (margins ls).min?.getD 0

theorem codeLines_eq (text : List Char) :
    codeLines text = (inner (lines text)).map (stripped (leastMargin (inner (lines text)))) :=
  rfl

theorem dropWhile_eq_inner_append (ls : List (List Char)) :
    ls.dropWhile isBlankLine = inner ls ++
      ((ls.dropWhile isBlankLine).reverse.takeWhile isBlankLine).reverse := by
  rw [inner, ← List.reverse_append, List.takeWhile_append_dropWhile, List.reverse_reverse]

theorem not_blank_of_head?_dropWhile {ls : List (List Char)} {line : List Char}
    (h : (ls.dropWhile isBlankLine).head? = some line) : isBlankLine line = false := by
  obtain ⟨rest, hrest⟩ := List.head?_eq_some_iff.mp h
  have hne : ls.dropWhile isBlankLine ≠ [] := by simp [hrest]
  simpa [hrest] using List.head_dropWhile_not isBlankLine hne

theorem not_blank_of_head?_inner {ls : List (List Char)} {line : List Char}
    (h : (inner ls).head? = some line) :
    isBlankLine line = false := by
  have hhead : (ls.dropWhile isBlankLine).head? = some line := by
    rw [dropWhile_eq_inner_append, List.head?_append, h, Option.some_or]
  exact not_blank_of_head?_dropWhile hhead

theorem not_blank_of_getLast?_inner {ls : List (List Char)} {line : List Char}
    (h : (inner ls).getLast? = some line) :
    isBlankLine line = false := by
  rw [inner, List.getLast?_reverse] at h
  exact not_blank_of_head?_dropWhile h

theorem mem_margins {ls : List (List Char)} {width : Nat} :
    width ∈ margins ls ↔ ∃ line ∈ ls, isBlankLine line = false ∧ margin line = width := by
  simp [margins, and_assoc]

theorem min?_margins {ls : List (List Char)} {width : Nat} (h : width ∈ margins ls) :
    (margins ls).min? = some (leastMargin ls) := by
  obtain ⟨least, hleast⟩ := Option.isSome_iff_exists.mp (List.isSome_min?_of_mem h)
  rw [leastMargin, hleast, Option.getD_some]

theorem leastMargin_le {ls : List (List Char)} {line : List Char} (hline : line ∈ ls)
    (hblank : isBlankLine line = false) :
    leastMargin ls ≤ margin line := by
  have hmargin : margin line ∈ margins ls := mem_margins.mpr ⟨line, hline, hblank, rfl⟩
  exact (List.min?_eq_some_iff.mp (min?_margins hmargin)).2 _ hmargin

theorem exists_margin_eq_leastMargin {ls : List (List Char)}
    (h : ∃ line ∈ ls, isBlankLine line = false) :
    ∃ line ∈ ls, isBlankLine line = false ∧ margin line = leastMargin ls := by
  obtain ⟨line, hline, hblank⟩ := h
  have hmargin : margin line ∈ margins ls := mem_margins.mpr ⟨line, hline, hblank, rfl⟩
  exact mem_margins.mp (List.min?_eq_some_iff.mp (min?_margins hmargin)).1

/-- Every text can be cut, and code is what is left of the lines of its body. -/
theorem exists_cut (text : List Char) :
    ∃ front body back shared, Cut text front body back shared ∧
      codeLines text = body.map (stripped shared) := by
  generalize hback : (((lines text).dropWhile isBlankLine).reverse.takeWhile isBlankLine).reverse =
    back
  have hlines : lines text = (lines text).takeWhile isBlankLine ++ inner (lines text) ++ back := by
    rw [List.append_assoc, ← hback, ← dropWhile_eq_inner_append, List.takeWhile_append_dropWhile]
  have hfront : ∀ line ∈ (lines text).takeWhile isBlankLine, isBlankLine line = true :=
    fun _ hline => List.mem_takeWhile_imp hline
  have hblanks : ∀ line ∈ back, isBlankLine line = true := by
    intro line hline
    rw [← hback] at hline
    exact List.mem_takeWhile_imp (List.mem_reverse.mp hline)
  have hinner : ∀ line ∈ inner (lines text), line ∈ lines text := by
    intro line hline
    rw [hlines]
    exact List.mem_append_left _ (List.mem_append_right _ hline)
  refine ⟨_, inner (lines text), back, leastMargin (inner (lines text)),
    ⟨hlines, hfront, hblanks, ?_, ?_, ?_, ?_⟩, codeLines_eq text⟩
  · exact fun _ hline => not_blank_of_head?_inner hline
  · exact fun _ hline => not_blank_of_getLast?_inner hline
  · intro line hline hblank
    -- a line that is not blank is in the body
    rw [hlines, List.mem_append, List.mem_append] at hline
    rcases hline with (hline | hline) | hline
    · simp [hfront line hline] at hblank
    · exact leastMargin_le hline hblank
    · simp [hblanks line hline] at hblank
  · intro hne
    have hsome : ∃ line ∈ inner (lines text), isBlankLine line = false :=
      ⟨_, List.head_mem hne, not_blank_of_head?_inner (List.head?_eq_some_head hne)⟩
    obtain ⟨line, hline, hblank, hmargin⟩ := exists_margin_eq_leastMargin hsome
    exact ⟨line, hinner line hline, hblank, hmargin⟩

namespace Cut

variable {text : List Char} {front body back : List (List Char)} {shared : Nat}

theorem mem_lines (h : Cut text front body back shared) {line : List Char} (hline : line ∈ body) :
    line ∈ lines text := by
  rw [h.lines_eq]
  exact List.mem_append_left _ (List.mem_append_right _ hline)

/-- All that is solid is in the body. -/
theorem flatMap_solid_body (h : Cut text front body back shared) :
    body.flatMap solid = solid text := by
  have hfront : front.flatMap solid = [] :=
    List.flatMap_eq_nil_iff.mpr fun line hline => solid_eq_nil_iff.mpr (h.front_blank line hline)
  have hback : back.flatMap solid = [] :=
    List.flatMap_eq_nil_iff.mpr fun line hline => solid_eq_nil_iff.mpr (h.back_blank line hline)
  calc body.flatMap solid = (front ++ body ++ back).flatMap solid := by
        rw [List.flatMap_append, List.flatMap_append, hfront, hback, List.nil_append,
          List.append_nil]
    _ = solid text := by rw [← h.lines_eq, flatMap_solid_lines]

theorem solid_stripped (h : Cut text front body back shared) {line : List Char}
    (hline : line ∈ body) :
    solid (stripped shared line) = solid line := by
  unfold stripped
  split
  · rename_i hblank
    exact (solid_eq_nil_iff.mpr hblank).symm
  · rename_i hblank
    rw [solid_trimEnd, solid_drop (h.shared_le line (h.mem_lines hline) (by simpa using hblank))]

end Cut

/-- Writing a text as code does not touch what is solid. -/
theorem solid_unlines_code (level : Nat) (text : List Char) :
    solid (unlines ((codeLines text).flatMap (written level))) = solid text := by
  obtain ⟨front, body, back, shared, hcut, hcode⟩ := exists_cut text
  have hline : ∀ line ∈ body, (written level (stripped shared line)).flatMap solid =
      solid line := by
    intro line hline
    rw [← solid_unlines, solid_unlines_written, hcut.solid_stripped hline]
  rw [solid_unlines, List.flatMap_assoc, hcode, List.flatMap_map, ← hcut.flatMap_solid_body,
    List.flatMap_def, List.flatMap_def, List.map_congr_left hline]

end Constitutive.Text
