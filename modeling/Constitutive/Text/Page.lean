import Constitutive.Text.Blank

/-!
# Pages of nested text

A `Page` collects generated text.  It knows the nesting level it is at, and whatever starts a line
is preceded by two spaces per level.  Empty lines stay empty.

`Page.code` writes a text that comes from elsewhere.  Its blank lines at either end are dropped, and
so is the margin that all its lines share; what is left keeps its shape at the level of the page.
-/

namespace Constitutive.Text

/-- Text written so far, with what decides how the next character is written. -/
structure Page where
  /-- Everything written. -/
  text : String := ""
  /-- Depth of the open blocks. -/
  level : Nat := 0
  /-- Nothing has been written since the last line feed. -/
  fresh : Bool := true
  /-- Comments are written rather than left out. -/
  comments : Bool := true
  deriving DecidableEq, Repr

/-- Two spaces per level. -/
def indentation (level : Nat) : String :=
  String.ofList (List.replicate (2 * level) ' ')

/-- The lines of a code text without blank lines at either end, without the margin shared by the
lines that are not blank, and without trailing blanks.  A blank line in between becomes empty. -/
def codeLines (text : List Char) : List (List Char) :=
  let body := (((lines text).dropWhile isBlankLine).reverse.dropWhile isBlankLine).reverse
  let shared := ((body.filter (!isBlankLine ·)).map margin).min?.getD 0
  body.map fun line => if isBlankLine line then [] else trimEnd (line.drop shared)

namespace Page

/-- Writes one character, after the indentation if it starts a line. -/
def push (page : Page) (c : Char) : Page :=
  if c = '\n' then
    { page with text := page.text.push c, fresh := true }
  else if page.fresh then
    { page with text := (page.text ++ indentation page.level).push c, fresh := false }
  else
    { page with text := page.text.push c }

/-- Writes a text character by character. -/
def write (page : Page) (text : String) : Page :=
  text.toList.foldl push page

/-- Writes a text and ends the line. -/
def line (page : Page) (text : String) : Page :=
  page.write (text ++ "\n")

/-- Writes a line and goes one level deeper. -/
def enter (page : Page) (head : String) : Page :=
  let written := page.line head
  { written with level := written.level + 1 }

/-- Goes one level up, as far as there is one, and writes a line. -/
def leave (page : Page) (foot : String) : Page :=
  { page with level := page.level - 1 }.line foot

/-- Writes a comment line, unless comments are left out. -/
def comment (page : Page) (text : String) : Page :=
  if page.comments then page.line ("// " ++ text) else page

/-- Writes a code text at the level of the page. -/
def code (page : Page) (text : String) : Page :=
  (codeLines text.toList).foldl (fun written cs => written.line (String.ofList cs)) page

theorem push_level (page : Page) (c : Char) : (page.push c).level = page.level := by
  unfold push
  split
  · rfl
  · split <;> rfl

theorem push_comments (page : Page) (c : Char) : (page.push c).comments = page.comments := by
  unfold push
  split
  · rfl
  · split <;> rfl

end Page

end Constitutive.Text
