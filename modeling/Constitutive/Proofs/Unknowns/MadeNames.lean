import Constitutive.Proofs.Unknowns.Roster

/-!
# Which made names coincide

Declarations compare made names with declared names, never with one another.  What can then still be
equal among the names made from the variables of one roster follows from how block names can be cut.

* Two increments, two residuals, an increment and a residual, a residual and a block name: never.
* An increment and a block name: the increment of a variable called `f<a>_dd<b>` is the block name
  of `a` and `b`.
* The block names of two pairs: those of `a`, `m_dd<e>` and of `a_dd<m>`, `e`.

Code that mentions a block name of several pairs means the one with the shortest first part.  So a
pair is meant by its own block name unless its first name ends in a piece `_dd<m>` that can be moved
to its second name.
-/

namespace Constitutive.Roster

variable {roster : Roster}

theorem splitBlockName?_contains_iff (hwell : roster.WellNamed) {name a b : String} :
    splitBlockName? roster.contains name = some (a, b) ↔
      (a ∈ roster.names ∧ b ∈ roster.names ∧ name = blockName a b) ∧
        ∀ c ∈ roster.names, ∀ e ∈ roster.names, name = blockName c e → a.length ≤ c.length := by
  rw [splitBlockName?_eq_some_iff, isBlockOf_contains hwell.identifiers]
  refine and_congr_right fun _ => ⟨fun h c hc e he heq => ?_, fun h c e hblock => ?_⟩
  · exact h c e ((isBlockOf_contains hwell.identifiers).mpr ⟨hc, he, heq⟩)
  · obtain ⟨hc, he, heq⟩ := (isBlockOf_contains hwell.identifiers).mp hblock
    exact h c hc e he heq

/-- A block name of declared variables is read as one of its pairs. -/
theorem exists_split_of_blockName (hwell : roster.WellNamed) {a b : String} (ha : a ∈ roster.names)
    (hb : b ∈ roster.names) :
    ∃ c ∈ roster.names, ∃ e ∈ roster.names,
      splitBlockName? roster.contains (blockName a b) = some (c, e) ∧
        blockName c e = blockName a b ∧
        ∀ c' ∈ roster.names, ∀ e' ∈ roster.names, blockName c' e' = blockName a b →
          c.length ≤ c'.length := by
  obtain ⟨c, e, hsplit⟩ :=
    exists_splitBlockName? ((isBlockOf_contains hwell.identifiers).mpr ⟨ha, hb, rfl⟩)
  obtain ⟨⟨hc, he, heq⟩, hleast⟩ := (splitBlockName?_contains_iff hwell).mp hsplit
  exact ⟨c, hc, e, he, hsplit, heq.symm, fun c' hc' e' he' heq' => hleast c' hc' e' he' heq'.symm⟩

theorem length_lt_append_separator (c m : String) : c.length < (c ++ "_dd" ++ m).length := by
  simp only [String.length_append]
  have : "_dd".length = 3 := rfl
  omega

/-- A pair is what its block name is read as, unless a piece of its first name can be moved to the
second. -/
theorem split_blockName_eq_self_iff (hwell : roster.WellNamed) {a b : String}
    (ha : a ∈ roster.names) (hb : b ∈ roster.names) :
    splitBlockName? roster.contains (blockName a b) = some (a, b) ↔
      ¬ ∃ c ∈ roster.names, ∃ m, a = c ++ "_dd" ++ m ∧ m ++ "_dd" ++ b ∈ roster.names := by
  rw [splitBlockName?_contains_iff hwell]
  constructor
  · rintro ⟨-, hleast⟩ ⟨c, hc, m, rfl, he⟩
    -- the pair with the piece moved has a shorter first name
    have hle := hleast c hc _ he (blockName_eq_iff.mpr (Or.inr (Or.inr ⟨m, rfl, rfl⟩)))
    exact absurd (length_lt_append_separator c m) (Nat.not_lt.mpr hle)
  · intro hnone
    refine ⟨⟨ha, hb, rfl⟩, fun c hc e he heq => ?_⟩
    -- any other pair of that block name is this one with a piece moved one way or the other
    rcases blockName_eq_iff.mp heq with ⟨rfl, rfl⟩ | ⟨m, rfl, rfl⟩ | ⟨m, hac, rfl⟩
    · exact Nat.le_refl _
    · exact Nat.le_of_lt (length_lt_append_separator a m)
    · exact absurd ⟨c, hc, m, hac, he⟩ hnone

/-- **Made names.**  For the variables of any roster made by declarations: increments are distinct,
residuals are distinct, and neither an increment nor a block name is a residual; an increment is a
block name, and two pairs have one block name, only around the separator `_dd`; and a block name is
read as its pair with the shortest first name. -/
theorem made_names_coincide_only_at_separators (reservations : List String)
    (calls : List Variable) :
    let names := (declared reservations calls).names
    let read := splitBlockName? (declared reservations calls).contains
    (∀ v ∈ names, ∀ w ∈ names, (incrementName v = incrementName w → v = w) ∧
        (residualName v = residualName w → v = w) ∧ incrementName v ≠ residualName w) ∧
      (∀ v ∈ names, ∀ a ∈ names, ∀ b ∈ names, residualName v ≠ blockName a b ∧
        (incrementName v = blockName a b ↔ v = residualName a ++ "_dd" ++ b)) ∧
      (∀ a ∈ names, ∀ b ∈ names, ∀ c ∈ names, ∀ e ∈ names, blockName a b = blockName c e ↔
        (a = c ∧ b = e) ∨ (∃ m, c = a ++ "_dd" ++ m ∧ b = m ++ "_dd" ++ e) ∨
          ∃ m, a = c ++ "_dd" ++ m ∧ e = m ++ "_dd" ++ b) ∧
      ∀ a ∈ names, ∀ b ∈ names,
        (∃ c ∈ names, ∃ e ∈ names, read (blockName a b) = some (c, e) ∧
          blockName c e = blockName a b ∧
          ∀ c' ∈ names, ∀ e' ∈ names, blockName c' e' = blockName a b → c.length ≤ c'.length) ∧
        (read (blockName a b) = some (a, b) ↔
          ¬ ∃ c ∈ names, ∃ m, a = c ++ "_dd" ++ m ∧ m ++ "_dd" ++ b ∈ names) := by
  intro names read
  have hwell := declared_wellNamed reservations calls
  refine ⟨fun v _ w _ => ⟨incrementName_inj.mp, residualName_inj.mp,
    incrementName_ne_residualName v w⟩, fun v _ a _ b _ => ⟨residualName_ne_blockName v a b,
    incrementName_eq_blockName_iff⟩, fun a _ b _ c _ e _ => blockName_eq_iff,
    fun a ha b hb => ⟨?_, ?_⟩⟩
  · exact exists_split_of_blockName hwell ha hb
  · exact split_blockName_eq_self_iff hwell ha hb

/-- Both coincidences occur: one block name of two pairs, which is read as the first of them, and an
increment that is a block name. -/
theorem made_names_can_coincide :
    let roster := declared [] [⟨"x", .scalar, 1⟩, ⟨"y_ddz", .scalar, 1⟩, ⟨"x_ddy", .scalar, 1⟩,
      ⟨"z", .scalar, 1⟩, ⟨"fx_ddz", .scalar, 1⟩]
    roster.names = ["x", "y_ddz", "x_ddy", "z", "fx_ddz"] ∧
      blockName "x" "y_ddz" = blockName "x_ddy" "z" ∧
      splitBlockName? roster.contains (blockName "x_ddy" "z") = some ("x", "y_ddz") ∧
      incrementName "fx_ddz" = blockName "x" "z" := by
  decide

end Constitutive.Roster
