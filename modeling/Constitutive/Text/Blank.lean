/-!
# Blank characters and lines

Text of a description is cut into lines and stripped of blank margins.  A character is *blank* when
it has the Unicode property `White_Space`; the 25 code points of that property are listed here.
Everything works on lists of characters, so that each function is a plain recursion on the text.
-/

namespace Constitutive.Text

/-- Characters with the Unicode property `White_Space`. -/
def isBlank (c : Char) : Bool :=
  let n := c.toNat
  (9 ≤ n && n ≤ 13) || n == 0x20 || n == 0x85 || n == 0xA0 || n == 0x1680 ||
    (0x2000 ≤ n && n ≤ 0x200A) ||
    n == 0x2028 || n == 0x2029 || n == 0x202F || n == 0x205F || n == 0x3000

/-- The text without its leading blanks. -/
def trimStart (text : List Char) : List Char :=
  text.dropWhile isBlank

/-- The text without its trailing blanks. -/
def trimEnd (text : List Char) : List Char :=
  (text.reverse.dropWhile isBlank).reverse

/-- The text without blanks at either end. -/
def trim (text : List Char) : List Char :=
  trimEnd (trimStart text)

/-- A line of blanks only, the empty line included. -/
def isBlankLine (line : List Char) : Bool :=
  line.all isBlank

/-- Number of blanks a line starts with. -/
def margin (line : List Char) : Nat :=
  (line.takeWhile isBlank).length

/-- The lines of a text.  A line ends at a line feed, which is dropped together with a carriage
return right before it; a text that ends with a line feed has no empty line after it. -/
def lines : List Char → List (List Char)
  | [] => []
  | '\n' :: rest => [] :: lines rest
  | '\r' :: '\n' :: rest => [] :: lines rest
  | c :: rest =>
    match lines rest with
    | [] => [[c]]
    | line :: more => (c :: line) :: more

@[simp] theorem lines_nil : lines [] = [] := by
  simp [lines]

end Constitutive.Text
