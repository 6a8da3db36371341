import Constitutive.Code.Line
import Constitutive.Text.Page

/-!
# Statements of generated code

Generated code is a tree: a block has a head and a body, and its braces are written by the block
itself, so code is well nested by construction.  Text that comes from elsewhere is written as it is,
moved to the current nesting.
-/

namespace Constitutive

/-- A statement of generated code. -/
inductive Stmt where
  | line (line : Line)
  /-- A head, and in braces after it the statements of the body, one level deeper. -/
  | block (head : Line) (body : List Stmt)
  | comment (text : String)
  /-- Code given as a text. -/
  | code (text : String)

namespace Stmt

mutual

/-- Writes a statement. -/
def emit : Stmt → Text.Page → Text.Page
  | line l, page => page.line l.render
  | block head body, page => (emitAll body (page.enter (head.render ++ "\x7b"))).leave "\x7d"
  | comment text, page => page.comment text
  | code text, page => page.code text

/-- Writes statements one after the other. -/
def emitAll : List Stmt → Text.Page → Text.Page
  | [], page => page
  | stmt :: rest, page => emitAll rest (emit stmt page)

end

/-- The text of statements on a page of their own. -/
def render (comments : Bool) (body : List Stmt) : String :=
  (emitAll body { comments := comments }).text

@[simp] theorem emitAll_nil (page : Text.Page) : emitAll [] page = page := by
  simp [emitAll]

theorem emitAll_append (first second : List Stmt) (page : Text.Page) :
    emitAll (first ++ second) page = emitAll second (emitAll first page) := by
  induction first generalizing page with
  | nil => simp
  | cons stmt rest ih => simp [emitAll, ih]

end Stmt

end Constitutive
