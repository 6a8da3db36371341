import Constitutive.Text.Blank

/-!
# Lexemes of code text

Code given in a description is not parsed.  It is cut into *words*, which are the identifiers, and
the text between them.  A run of letters, digits and underscores that starts with a digit is a
numeral; it also takes up decimal points, so that the `e` of `1.5e3` is never mistaken for an
identifier.

`lex` loses nothing: the texts of the lexemes, joined, are the text.
-/

namespace Constitutive.Text

/-- Characters of identifiers: ASCII letters, digits and the underscore. -/
def isWordChar (c : Char) : Bool :=
  c.isAlphanum || c == '_'

/-- Characters of numerals: those of identifiers and the decimal point. -/
def isNumeralChar (c : Char) : Bool :=
  isWordChar c || c == '.'

/-- An identifier is a non-empty run of word characters that does not start with a digit. -/
def isIdentifier : List Char → Bool
  | [] => false
  | c :: rest => (c.isAlpha || c == '_') && rest.all isWordChar

/-- A piece of code text. -/
inductive Lexeme where
  /-- An identifier. -/
  | word (text : List Char)
  /-- A numeral, or text without word characters. -/
  | other (text : List Char)
  deriving DecidableEq, Repr

namespace Lexeme

/-- The characters a lexeme stands for. -/
def text : Lexeme → List Char
  | word cs => cs
  | other cs => cs

/-- The identifier, if the lexeme is one. -/
def word? : Lexeme → Option (List Char)
  | word cs => some cs
  | other _ => none

end Lexeme

/-- Cuts a text into its lexemes, each as long as possible. -/
def lex : List Char → List Lexeme
  | [] => []
  | c :: rest =>
    if c.isDigit then
      .other (c :: rest.takeWhile isNumeralChar) :: lex (rest.dropWhile isNumeralChar)
    else if isWordChar c then
      .word (c :: rest.takeWhile isWordChar) :: lex (rest.dropWhile isWordChar)
    else
      .other (c :: rest.takeWhile (!isWordChar ·)) :: lex (rest.dropWhile (!isWordChar ·))
termination_by text => text.length
decreasing_by
  all_goals
    simp only [List.length_cons]
    exact Nat.lt_succ_of_le (List.dropWhile_sublist _).length_le

/-- The identifiers of a text, in order. -/
def words (text : List Char) : List (List Char) :=
  (lex text).filterMap Lexeme.word?

/-- Whether what stands before an identifier makes it a member access: the last characters that are
not blank are a point or an arrow. -/
def isMemberAccess (before : List Char) : Bool :=
  ['.'].isSuffixOf (trimEnd before) || ['-', '>'].isSuffixOf (trimEnd before)

/-- Replacements of identifiers; the first entry of a name counts. -/
abbrev Substitution := List (String × String)

/-- Appends a lexeme to the text written so far, replacing an identifier that is bound and no member
access. -/
def Lexeme.append (replacements : Substitution) (written : List Char) : Lexeme → List Char
  | .other cs => written ++ cs
  | .word cs =>
    if isMemberAccess written then written ++ cs
    else match replacements.lookup (String.ofList cs) with
      | some expression => written ++ expression.toList
      | none => written ++ cs

/-- Replaces the bound identifiers of a text.  Whether an identifier is a member access is decided
on the text written so far. -/
def substitute (replacements : Substitution) (text : List Char) : List Char :=
  (lex text).foldl (Lexeme.append replacements) []

end Constitutive.Text
