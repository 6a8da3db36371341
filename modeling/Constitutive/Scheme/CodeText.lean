import Constitutive.Scheme.Factors

/-!
# Code texts of a description

Code in a description speaks of variables and their increments by name.  Before it is put into the
generated class these names are replaced by expressions of the class; which expressions depends on
what the code is for.

Code also says which blocks of the Jacobian it fills, simply by mentioning them.  A block counts as
mentioned when its name is no member access, or one right after `this->`.
-/

namespace Constitutive

/-- The expressions that stand for a variable and for its increment in code of a given role.  The
integrator works on increments themselves rather than normalised ones, and a stress is computed from
the value of a variable within the time step. -/
def codeExpressions (role : Role) (factors : Factors) (name : String) : String × String :=
  match role with
  | .integrator => (s!"(this->{name})", factors.incrementExpression name)
  | .computeStress =>
    let increment := factors.incrementExpression name
    (s!"(this->{name}+(this->theta)*{increment})", increment)
  | _ => (s!"this->{name}", s!"this->{incrementName name}")

/-- The replacements made in code of a given role.  What a later variable says about a name
counts. -/
def codeSubstitution (role : Role) (vars : List Variable) (factors : Factors) : Text.Substitution :=
  vars.foldl (fun bound v =>
    let (value, increment) := codeExpressions role factors v.name
    (incrementName v.name, increment) :: (v.name, value) :: bound) []

/-- The code as it is put into the generated class. -/
def adaptCode (role : Role) (vars : List Variable) (factors : Factors) (text : String) : String :=
  String.ofList (Text.substitute (codeSubstitution role vars factors) text.toList)

/-- Whether an identifier after the given text is a member of some object other than `this`. -/
def isForeignMember (before : List Char) : Bool :=
  Text.isMemberAccess before && !"this->".toList.isSuffixOf (Text.trimEnd before)

/-- The blocks named by lexemes that follow a given text. -/
def blocksNamed (known : String → Bool) :
    (before : List Char) → List Text.Lexeme → List (String × String)
  | _, [] => []
  | before, lexeme :: rest =>
    let here := match lexeme with
      | .other _ => none
      | .word cs =>
        if isForeignMember before then none else splitBlockName? known (String.ofList cs)
    here.toList ++ blocksNamed known (before ++ lexeme.text) rest

/-- The order of pairs by their first names, then by their second. -/
def pairLe (p q : String × String) : Bool :=
  p.1 < q.1 || (p.1 == q.1 && p.2 ≤ q.2)

/-- Pairs in order, each once. -/
def sortedPairs (pairs : List (String × String)) : List (String × String) :=
  pairs.eraseDups.mergeSort pairLe

/-- The blocks of the Jacobian that a code mentions, in order. -/
def blocksUsed (known : String → Bool) (text : String) : List (String × String) :=
  sortedPairs (blocksNamed known [] (Text.lex text.toList))

/-- Whether an identifier occurs in a code. -/
def mentions (text name : String) : Bool :=
  (Text.words text.toList).contains name.toList

/-- The variables whose residual occurs in a code. -/
def residualsUsed (text : String) (vars : List Variable) : List String :=
  (vars.map (·.name)).filter fun name => mentions text (residualName name)

/-- Normalises the increments that a predictor has assigned. -/
def normaliseIncrements (vars : List Variable) (factors : Factors) : List Line :=
  vars.filterMap fun v => factors.normaliseIncrement? v.name

end Constitutive
