import Constitutive.Unknowns.Layout

/-!
# Sections of a generated class

The code of a behaviour consists of sections.  Each kind of section occurs at most once, and they
follow each other in a fixed order.
-/

namespace Constitutive

/-- The kinds of sections, in their order. -/
inductive SectionKind where
  | offsets
  | members
  | views
  | predictor
  | stress
  | residual
  | numericalJacobian
  | update
  | finalStress
  | inverseBlocks
  | integrate
  deriving DecidableEq, Repr

namespace SectionKind

/-- All kinds, in order. -/
def all : List SectionKind :=
  [offsets, members, views, predictor, stress, residual, numericalJacobian, update, finalStress,
    inverseBlocks, integrate]

/-- The title of a section. -/
def title : SectionKind → String
  | offsets => "offsets"
  | members => "members"
  | views => "views"
  | predictor => "predictor"
  | stress => "stress computation"
  | residual => "residual evaluation"
  | numericalJacobian => "numerical jacobian"
  | update => "update of the integration variables"
  | finalStress => "final stress computation"
  | inverseBlocks => "tangent operator blocks"
  | integrate => "integration loop"

end SectionKind

/-- A section. -/
structure CodeSection where
  kind : SectionKind
  text : String
  deriving DecidableEq, Repr

/-- The code of a behaviour under one hypothesis. -/
structure GeneratedClass where
  className : String
  hypothesis : Hypothesis
  layout : Layout
  sections : List CodeSection
  deriving DecidableEq, Repr

namespace GeneratedClass

/-- The text of a section, if it is there. -/
def section? (generated : GeneratedClass) (kind : SectionKind) : Option String :=
  (generated.sections.find? (·.kind == kind)).map (·.text)

/-- All sections as one text. -/
def source (generated : GeneratedClass) : String :=
  s!"// {generated.className} ({generated.hypothesis.name})\n" ++
    String.join (generated.sections.map fun s => "\n" ++ s.text)

end GeneratedClass

end Constitutive
