import Constitutive.Proofs.Code.Rows

/-!
# Lines of output

Whatever statements are written, and whatever is in them, the page gets whole lines: `outputIn`
lists them.  A text with line feeds takes up several lines, each behind the indentation of its
level, and an empty line stays empty (`Page.line_eq_written`).  So the text of statements is their
lines, one after the other (`toList_render`), and a page is left at the level at which it was
(`level_emitAll`).
-/

namespace Constitutive

namespace Text

/-! ## Lines on a page -/

/-- A line at some level. -/
def indented (level : Nat) (line : List Char) : List Char :=
  if line = [] then [] else List.replicate (2 * level) ' ' ++ line

/-- The lines that a text takes up. -/
def written (level : Nat) (cs : List Char) : List (List Char) :=
  (cs.splitOn '\n').map (indented level)

/-- Lines as one text. -/
def unlines (ls : List (List Char)) : List Char :=
  ls.flatMap (· ++ ['\n'])

@[simp] theorem unlines_nil : unlines [] = [] := rfl

@[simp] theorem unlines_append (first second : List (List Char)) :
    unlines (first ++ second) = unlines first ++ unlines second := by
  simp [unlines]

theorem written_of_not_mem {cs : List Char} (h : '\n' ∉ cs) (level : Nat) :
    written level cs = [indented level cs] := by
  rw [written, List.splitOn_eq_singleton h, List.map_singleton]

theorem written_append_newline (level : Nat) (first second : List Char) :
    written level (first ++ '\n' :: second) = written level first ++ written level second := by
  rw [written, List.splitOn_append_cons_self, List.map_append]
  rfl

/-- Lines have no line feeds. -/
theorem not_mem_of_mem_splitOn {cs line : List Char} (h : line ∈ cs.splitOn '\n') :
    '\n' ∉ line := by
  induction hlength : cs.length using Nat.strongRecOn generalizing cs with
  | ind n ih =>
      by_cases hnewline : '\n' ∈ cs
      · obtain ⟨first, second, rfl, hfirst⟩ := List.eq_append_cons_of_mem hnewline
        rw [List.splitOn_append_cons_self_of_not_mem hfirst] at h
        rcases List.mem_cons.mp h with rfl | h
        · exact hfirst
        · exact ih second.length (by simp at hlength; omega) h rfl
      · rw [List.splitOn_eq_singleton hnewline] at h
        rwa [List.mem_singleton.mp h]

theorem not_mem_of_mem_written {level : Nat} {cs line : List Char} (h : line ∈ written level cs) :
    '\n' ∉ line := by
  obtain ⟨line, hline, rfl⟩ := List.mem_map.mp h
  unfold indented
  split
  · exact List.not_mem_nil
  · rw [List.mem_append, not_or]
    exact ⟨fun hmem => absurd (List.eq_of_mem_replicate hmem) (by decide),
      not_mem_of_mem_splitOn hline⟩

/-- Lines without line feeds can be told from their text. -/
theorem splitOn_unlines {ls : List (List Char)} (h : ∀ line ∈ ls, '\n' ∉ line) :
    (unlines ls).splitOn '\n' = ls ++ [[]] := by
  induction ls with
  | nil => rfl
  | cons line rest ih =>
      obtain ⟨hline, hrest⟩ := List.forall_mem_cons.mp h
      have hcons : unlines (line :: rest) = line ++ '\n' :: unlines rest := by simp [unlines]
      rw [hcons, List.splitOn_append_cons_self_of_not_mem hline, ih hrest, List.cons_append]

namespace Page

variable {page : Page}

/-- The page with lines more. -/
def add (page : Page) (ls : List (List Char)) : Page :=
  { page with text := page.text ++ String.ofList (unlines ls) }

theorem add_nil (page : Page) : page.add [] = page := by
  have htext : page.text ++ String.ofList (unlines []) = page.text := by simp
  unfold add
  rw [htext]

theorem add_append (page : Page) (first second : List (List Char)) :
    page.add (first ++ second) = (page.add first).add second := by
  unfold add
  rw [unlines_append, String.ofList_append, String.append_assoc]

theorem line_of_not_mem (hfresh : page.fresh = true) {s : String} (h : '\n' ∉ s.toList) :
    page.line s = page.add (written page.level s.toList) := by
  rw [written_of_not_mem h]
  unfold add indented
  by_cases hs : s = ""
  · subst hs
    have hpush : page.line "" = { page with text := page.text.push '\n', fresh := true } := rfl
    rw [hpush, ← hfresh]
    congr 1
  · rw [line_eq hfresh hs h, if_neg (mt String.toList_eq_nil_iff.mp hs)]
    congr 1
    apply String.toList_injective
    simp [indentation, unlines]

/-- Whatever is written, the page gets whole lines. -/
theorem line_eq_written (hfresh : page.fresh = true) (s : String) :
    page.line s = page.add (written page.level s.toList) := by
  induction hlength : s.toList.length using Nat.strongRecOn generalizing s page with
  | ind n ih =>
      by_cases hnewline : '\n' ∈ s.toList
      · -- the first line, and then the others
        obtain ⟨first, second, hs, hfirst⟩ := List.eq_append_cons_of_mem hnewline
        have hline :
            page.line s = (page.line (String.ofList first)).line (String.ofList second) := by
          simp only [line, write, String.toList_append, String.toList_ofList, hs, List.append_assoc,
            List.cons_append, List.foldl_append, List.foldl_cons]
          rfl
        have hfirst' := line_of_not_mem hfresh
          (by rwa [String.toList_ofList] : '\n' ∉ (String.ofList first).toList)
        have hshorter : second.length < n := by
          rw [← hlength, hs]
          simp
          omega
        have hadded : (page.add (written page.level first)).fresh = true := hfresh
        have hrest :=
          ih second.length hshorter hadded (String.ofList second) (by rw [String.toList_ofList])
        rw [hline, hfirst', String.toList_ofList, hrest, String.toList_ofList, hs,
          written_append_newline, add_append]
        rfl
      · exact line_of_not_mem hfresh hnewline

end Page

end Text

namespace Stmt

open Text

/-! ## The output of statements -/

mutual

/-- The lines of a statement at some level. -/
def output (comments : Bool) (level : Nat) : Stmt → List (List Char)
  | line l => written level l.render.toList
  | block head body =>
    written level (head.render ++ "\x7b").toList ++ outputIn comments (level + 1) body ++
      written level "\x7d".toList
  | comment text => if comments then written level ("// " ++ text).toList else []
  | code text => (codeLines text.toList).flatMap (written level)

/-- The lines of statements, one after the other. -/
def outputIn (comments : Bool) (level : Nat) : List Stmt → List (List Char)
  | [] => []
  | stmt :: rest => output comments level stmt ++ outputIn comments level rest

end

theorem outputIn_append (comments : Bool) (level : Nat) (first second : List Stmt) :
    outputIn comments level (first ++ second) = outputIn comments level first ++
      outputIn comments level second := by
  induction first with
  | nil => rfl
  | cons stmt rest ih => rw [List.cons_append, outputIn, outputIn, ih, List.append_assoc]

theorem code_eq_add {page : Page} (hfresh : page.fresh = true) (text : String) :
    page.code text = page.add ((codeLines text.toList).flatMap (written page.level)) := by
  unfold Page.code
  generalize codeLines text.toList = ls
  induction ls generalizing page with
  | nil => exact page.add_nil.symm
  | cons cs rest ih =>
      rw [List.foldl_cons, Page.line_eq_written hfresh, String.toList_ofList, ih (by exact hfresh),
        List.flatMap_cons, Page.add_append]
      rfl

mutual

/-- A statement adds its lines to the page. -/
theorem emit_eq_add (stmt : Stmt) {page : Page} (hfresh : page.fresh = true) :
    emit stmt page = page.add (output page.comments page.level stmt) := by
  cases stmt with
  | line l => exact Page.line_eq_written hfresh l.render
  | block head body =>
      have henter : page.enter (head.render ++ "\x7b") =
          { page.add (written page.level (head.render ++ "\x7b").toList) with
            level := page.level + 1 } := by
        unfold Page.enter
        rw [Page.line_eq_written hfresh]
        rfl
      rw [emit, henter, emitAll_eq_add body (by exact hfresh), output, Page.add_append,
        Page.add_append]
      unfold Page.leave
      rw [Page.line_eq_written (by exact hfresh)]
      rfl
  | comment text =>
      unfold emit Page.comment output
      split
      · exact Page.line_eq_written hfresh _
      · exact page.add_nil.symm
  | code text => exact code_eq_add hfresh text

theorem emitAll_eq_add (body : List Stmt) {page : Page} (hfresh : page.fresh = true) :
    emitAll body page = page.add (outputIn page.comments page.level body) := by
  cases body with
  | nil => exact page.add_nil.symm
  | cons stmt rest =>
      rw [emitAll, emit_eq_add stmt hfresh, emitAll_eq_add rest (by exact hfresh), outputIn,
        Page.add_append]
      rfl

end

/-! ## The level of a page -/

theorem level_line (page : Page) (s : String) : (page.line s).level = page.level := by
  unfold Page.line Page.write
  generalize (s ++ "\n").toList = cs
  induction cs generalizing page with
  | nil => rfl
  | cons c rest ih => rw [List.foldl_cons, ih, Page.push_level]

theorem level_code (page : Page) (text : String) : (page.code text).level = page.level := by
  unfold Page.code
  generalize codeLines text.toList = ls
  induction ls generalizing page with
  | nil => rfl
  | cons cs rest ih => rw [List.foldl_cons, ih, level_line]

mutual

theorem level_emit (stmt : Stmt) (page : Page) : (emit stmt page).level = page.level := by
  cases stmt with
  | line l => exact level_line page _
  | block head body =>
      have hbody : (emitAll body (page.enter (head.render ++ "\x7b"))).level = page.level + 1 := by
        rw [level_emitAll, Page.enter, level_line]
      rw [emit, Page.leave, level_line, hbody, Nat.add_sub_cancel]
  | comment text =>
      unfold emit Page.comment
      split
      · exact level_line page _
      · rfl
  | code text => exact level_code page text

/-- Statements leave a page at the level at which they found it. -/
theorem level_emitAll (body : List Stmt) (page : Page) :
    (emitAll body page).level = page.level := by
  cases body with
  | nil => rfl
  | cons stmt rest => rw [emitAll, level_emitAll, level_emit]

end

/-! ## The text of statements -/

mutual

/-- Lines of output have no line feeds. -/
theorem not_mem_of_mem_output {comments : Bool} {level : Nat} {stmt : Stmt} {line : List Char}
    (h : line ∈ output comments level stmt) : '\n' ∉ line := by
  cases stmt with
  | line l => exact not_mem_of_mem_written h
  | block head body =>
      rw [output, List.mem_append, List.mem_append] at h
      rcases h with (h | h) | h
      · exact not_mem_of_mem_written h
      · exact not_mem_of_mem_outputIn h
      · exact not_mem_of_mem_written h
  | comment text =>
      unfold output at h
      split at h
      · exact not_mem_of_mem_written h
      · exact absurd h List.not_mem_nil
  | code text =>
      obtain ⟨cs, -, hline⟩ := List.mem_flatMap.mp h
      exact not_mem_of_mem_written hline

theorem not_mem_of_mem_outputIn {comments : Bool} {level : Nat} {body : List Stmt}
    {line : List Char} (h : line ∈ outputIn comments level body) : '\n' ∉ line := by
  cases body with
  | nil => exact absurd h List.not_mem_nil
  | cons stmt rest =>
      rcases List.mem_append.mp h with h | h
      · exact not_mem_of_mem_output h
      · exact not_mem_of_mem_outputIn h

end

theorem toList_render (comments : Bool) (body : List Stmt) :
    (render comments body).toList = unlines (outputIn comments 0 body) := by
  unfold render
  rw [emitAll_eq_add body rfl]
  simp [Page.add]

end Stmt

end Constitutive
