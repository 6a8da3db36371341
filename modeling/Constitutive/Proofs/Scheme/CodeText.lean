import Constitutive.Proofs.Text.Access
import Constitutive.Scheme.CodeText

/-!
# Names in code texts

Code is put into a class with its free identifiers replaced, those that are bound and no member
access.  All expressions that stand for variables and increments end in a parenthesis or a name, so
it does not matter that member accesses are looked for in the text that has been written already
(`adapted_code_replaces_free_identifiers`).

Which blocks a code mentions is decided on the characters before an identifier, where a member
access through `this` counts.  Read as lexemes, it counts if the lexeme before the arrow ends in
`this` and the arrow follows at once (`blocksUsed_eq_sortedPairs`).  That is an access through
`this` unless the object has a longer name, and all such accesses are found unless there are blanks
before the arrow.
-/

namespace Constitutive

open Text

/-! ## Pairs in order -/

theorem nodup_eraseDups {α : Type} [BEq α] [LawfulBEq α] (xs : List α) : xs.eraseDups.Nodup := by
  -- the recursion erases the head from the tail, so it is the length that decreases
  induction hlength : xs.length using Nat.strongRecOn generalizing xs with
  | ind n ih =>
      cases xs with
      | nil => exact List.nodup_nil
      | cons x rest =>
          have hshorter : (rest.filter fun y => !y == x).length < n := by
            rw [← hlength, List.length_cons]
            exact Nat.lt_succ_of_le (List.length_filter_le _ rest)
          rw [List.eraseDups_cons]
          refine List.nodup_cons.mpr ⟨?_, ih _ hshorter _ rfl⟩
          simp [List.mem_eraseDups]

theorem mem_sortedPairs {pairs : List (String × String)} {pair : String × String} :
    pair ∈ sortedPairs pairs ↔ pair ∈ pairs := by
  rw [sortedPairs, List.mem_mergeSort, List.mem_eraseDups]

theorem nodup_sortedPairs (pairs : List (String × String)) : (sortedPairs pairs).Nodup :=
  (List.mergeSort_perm _ _).nodup_iff.mpr (nodup_eraseDups pairs)

/-! ## Free identifiers -/

section Expressions

variable {role : Role} {vars : List Variable} {factors : Factors} {name : String}

theorem exists_of_mem_codeSubstitution {entry : String × String}
    (h : entry ∈ codeSubstitution role vars factors) :
    ∃ v ∈ vars, entry.2 = (codeExpressions role factors v.name).1 ∨
      entry.2 = (codeExpressions role factors v.name).2 := by
  have hfold : ∀ (vars : List Variable) (bound : Substitution),
      entry ∈
      vars.foldl (fun bound v => (incrementName v.name, (codeExpressions role factors v.name).2) ::
        (v.name, (codeExpressions role factors v.name).1) :: bound) bound →
      entry ∈ bound ∨ ∃ v ∈ vars, entry.2 = (codeExpressions role factors v.name).1 ∨
        entry.2 = (codeExpressions role factors v.name).2 := by
    intro vars
    induction vars with
    | nil => exact fun bound h => Or.inl h
    | cons v rest ih =>
        intro bound h
        rcases ih _ h with hentry | ⟨w, hw, hentry⟩
        · simp only [List.mem_cons] at hentry
          rcases hentry with rfl | rfl | hentry
          · exact Or.inr ⟨v, List.mem_cons_self .., Or.inr rfl⟩
          · exact Or.inr ⟨v, List.mem_cons_self .., Or.inl rfl⟩
          · exact Or.inl hentry
        · exact Or.inr ⟨w, List.mem_cons_of_mem _ hw, hentry⟩
  rcases hfold vars [] h with hentry | hentry
  · cases hentry
  · exact hentry

/-- What a name is replaced by stands for a variable or its increment. -/
theorem exists_of_lookup_codeSubstitution {expression : String}
    (h : (codeSubstitution role vars factors).lookup name = some expression) :
    ∃ v ∈ vars, expression = (codeExpressions role factors v.name).1 ∨
      expression = (codeExpressions role factors v.name).2 := by
  obtain ⟨front, back, heq, -⟩ := List.lookup_eq_some_iff.mp h
  have hmem : (name, expression) ∈ codeSubstitution role vars factors :=
    heq ▸ List.mem_append_right front (List.mem_cons_self ..)
  exact exists_of_mem_codeSubstitution hmem

theorem endsPlain_parenthesis : EndsPlain ")".toList :=
  ⟨')', rfl, by decide⟩

theorem endsPlain_incrementExpression (factors : Factors) (name : String) :
    EndsPlain (factors.incrementExpression name).toList := by
  have htext : ∀ text : String, toString text = text := fun _ => rfl
  unfold Factors.incrementExpression
  split
  · rw [htext "))", String.toList_append]
    exact (endsPlain_parenthesis.append [')']).append _
  · rw [htext ")", String.toList_append]
    exact endsPlain_parenthesis.append _

/-- The expressions for a variable end in a parenthesis or in its name. -/
theorem endsPlain_codeExpressions (role : Role) (factors : Factors)
    (hname : isVariableName name = true) :
    EndsPlain (codeExpressions role factors name).1.toList ∧
      EndsPlain (codeExpressions role factors name).2.toList := by
  have htext : ∀ text : String, toString text = text := fun _ => rfl
  have hplain : EndsPlain name.toList := (Lexeme.proper_word_of_isIdentifier hname).endsPlain_word
  unfold codeExpressions
  split
  · rw [htext ")", String.toList_append]
    exact ⟨endsPlain_parenthesis.append _, endsPlain_incrementExpression factors name⟩
  · rw [htext ")", String.toList_append]
    exact ⟨endsPlain_parenthesis.append _, endsPlain_incrementExpression factors name⟩
  · simp only [htext, incrementName, String.toList_append]
    exact ⟨hplain.append _, (hplain.append _).append _⟩

theorem endsPlain_codeSubstitution (role : Role) (factors : Factors)
    (hnames : ∀ v ∈ vars, isVariableName v.name = true) :
    (codeSubstitution role vars factors).EndsPlain := by
  intro name expression hfound
  obtain ⟨v, hv, hexpression⟩ := exists_of_lookup_codeSubstitution hfound
  obtain ⟨hvalue, hincrement⟩ := endsPlain_codeExpressions role factors (hnames v hv)
  rcases hexpression with rfl | rfl
  · exact hvalue
  · exact hincrement

end Expressions

/-- Code and adapted code, lexeme by lexeme: an identifier that is bound is replaced by its
expression unless the *given* text before it ends in a point or an arrow, and everything else is
kept.  So a code without free identifiers is not changed. -/
theorem adapted_code_replaces_free_identifiers (role : Role) (vars : List Variable)
    (factors : Factors) (hnames : ∀ v ∈ vars, isVariableName v.name = true) (text : String) :
    let bound := codeSubstitution role vars factors
    text.toList = (contexts text.toList).flatMap (fun context => context.2.text) ∧
      (adaptCode role vars factors text).toList =
        (contexts text.toList).flatMap
          (fun context => context.2.replaced bound (textOf context.1)) ∧
      ((∀ before cs, (before, .word cs) ∈ contexts text.toList →
          isMemberAccess (textOf before) = false →
        bound.lookup (String.ofList cs) = none) → adaptCode role vars factors text = text) := by
  intro bound
  have hadapted : (adaptCode role vars factors text).toList =
      (contexts text.toList).flatMap
        (fun context => context.2.replaced bound (textOf context.1)) := by
    rw [adaptCode, String.toList_ofList,
      substitute_eq (endsPlain_codeSubstitution role factors hnames)]
  refine ⟨(flatMap_text_contexts _).symm, hadapted, fun hfree => ?_⟩
  rw [← String.toList_inj, hadapted, flatMap_replaced_eq_self hfree]

/-- The variable `p` with a factor that ends in a point. -/
def pressureByPoint : Factors where
  entries := [(("p", .unknown), "2.")]

/-- A member of an expression that is replaced, and an identifier behind a numeral that ends in a
point. -/
theorem adapted_code_replaces_free_identifiers_afterPoint :
    (∀ v ∈ [Variable.mk "p" .scalar 1], isVariableName v.name = true) ∧
      adaptCode .integrator [⟨"p", .scalar, 1⟩] pressureByPoint "dp -> p + 1. p - p" =
        "((2.)*(this->dp)) -> p + 1. p - (this->p)" ∧
      adaptCode .integrator [⟨"p", .scalar, 1⟩] pressureByPoint "x.p + 1.p" = "x.p + 1.p" := by
  have hnames : ∀ v ∈ [Variable.mk "p" .scalar 1], isVariableName v.name = true := by decide
  obtain ⟨-, hadapted, -⟩ :=
    adapted_code_replaces_free_identifiers .integrator _ pressureByPoint hnames "dp -> p + 1. p - p"
  obtain ⟨-, hkept, -⟩ :=
    adapted_code_replaces_free_identifiers .integrator _ pressureByPoint hnames "x.p + 1.p"
  refine ⟨hnames, ?_, ?_⟩
  · rw [← String.toList_inj, hadapted]
    decide +kernel
  · rw [← String.toList_inj, hkept]
    decide +kernel

/-! ## Blocks that are mentioned -/

/-- The blocks that identifiers of a code name.  Member accesses count if `through` says so of what
stands before them. -/
def blocksNamedWhere (through : List Lexeme → Bool) (known : String → Bool) (text : String) :
    List (String × String) :=
  (contexts text.toList).filterMap fun context =>
    match context.2 with
    | .other _ => none
    | .word cs =>
      if isMemberAccess (textOf context.1) && !through context.1 then none
        else splitBlockName? known (String.ofList cs)

/-- The last lexemes are the identifier `this` and an arrow, with any blanks around the arrow. -/
def endsInThisArrow (before : List Lexeme) : Bool :=
  match before.reverse with
  | .other gap :: object :: _ => object == .word ['t', 'h', 'i', 's'] && trim gap == ['-', '>']
  | _ => false

/-- The last lexemes are one that ends in `this` and an arrow, without blanks before the arrow. -/
def endsInArrowAfterThis (before : List Lexeme) : Bool :=
  match before.reverse with
  | .other gap :: object :: _ =>
      ['t', 'h', 'i', 's'].isSuffixOf object.text && trimEnd gap == ['-', '>']
  | _ => false

theorem endsInArrowAfterThis_iff {before : List Lexeme} :
    endsInArrowAfterThis before = true ↔
      ∃ front object gap, before = front ++ [object] ++ [.other gap] ∧ ['t', 'h', 'i', 's'] <:+
        object.text ∧
        trimEnd gap = ['-', '>'] := by
  constructor
  · intro h
    unfold endsInArrowAfterThis at h
    split at h
    · rename_i gap object rest heq
      simp only [Bool.and_eq_true, List.isSuffixOf_iff_suffix, beq_iff_eq] at h
      refine ⟨rest.reverse, object, gap, ?_, h⟩
      rw [← List.reverse_reverse before, heq]
      simp
    · cases h
  · rintro ⟨front, object, gap, rfl, hobject, hgap⟩
    simp [endsInArrowAfterThis, hgap, List.isSuffixOf_iff_suffix.mpr hobject]

/-- Which member accesses count, in characters and in lexemes. -/
theorem isForeignMember_eq {text : List Char} {before : List Lexeme} {cs : List Char}
    (h : (before, .word cs) ∈ contexts text) :
    isForeignMember (textOf before) =
      (isMemberAccess (textOf before) && !endsInArrowAfterThis before) := by
  have hend : "this->".toList.isSuffixOf (trimEnd (textOf before)) =
      endsInArrowAfterThis before := by
    rw [Bool.eq_iff_iff, endsInArrowAfterThis_iff, ← endsIn_thisArrow_iff h]
    exact isSuffixOf_trimEnd_iff ['t', 'h', 'i', 's', '-'] rfl
  rw [isForeignMember, hend]

theorem blocksNamed_eq (known : String → Bool) (before lexemes : List Lexeme) :
    blocksNamed known (textOf before) lexemes =
      (contextsAfter before lexemes).filterMap fun context =>
        match context.2 with
        | .other _ => none
        | .word cs =>
            if isForeignMember (textOf context.1) then none
            else splitBlockName? known (String.ofList cs) := by
  induction lexemes generalizing before with
  | nil => rfl
  | cons lexeme rest ih =>
      have hrest := ih (before ++ [lexeme])
      rw [textOf_concat] at hrest
      rw [contextsAfter, List.filterMap_cons, ← hrest]
      cases lexeme with
      | other cs => rfl
      | word cs =>
          change (if isForeignMember (textOf before) then none
            else splitBlockName? known (String.ofList cs)).toList ++ _ = _
          dsimp only
          cases (if isForeignMember (textOf before) then none
            else splitBlockName? known (String.ofList cs)) <;> rfl

/-- Blocks are counted as if by lexemes. -/
theorem blocksUsed_eq_sortedPairs (known : String → Bool) (text : String) :
    blocksUsed known text = sortedPairs (blocksNamedWhere endsInArrowAfterThis known text) := by
  have hnamed := blocksNamed_eq known [] (lex text.toList)
  have hcongr : blocksNamed known [] (lex text.toList) =
      blocksNamedWhere endsInArrowAfterThis known text := by
    refine hnamed.trans (List.filterMap_congr ?_)
    rintro ⟨before, lexeme⟩ hmem
    cases lexeme with
    | other cs => rfl
    | word cs =>
        dsimp only
        rw [isForeignMember_eq hmem]
  rw [blocksUsed, hcongr]

/-- An arrow right behind a lexeme that ends in `this` is behind `this` itself, and `this` has no
arrow with blanks before it. -/
def hasPlainArrow (before : List Lexeme) : Bool :=
  match before.reverse with
  | .other gap :: object :: _ =>
    if object == .word ['t', 'h', 'i', 's'] then trim gap != ['-', '>'] || trimEnd gap == ['-', '>']
    else trimEnd gap != ['-', '>'] || !(['t', 'h', 'i', 's'].isSuffixOf object.text)
  | _ => true

theorem trim_eq_of_trimEnd {gap : List Char} (h : trimEnd gap = ['-', '>']) :
    trim gap = ['-', '>'] := by
  obtain ⟨blanks, heq, -⟩ := exists_eq_trimEnd_append gap
  have hstart : trimStart gap = gap := by
    rw [heq, h]
    rfl
  rw [trim, hstart, h]

/-- The two ways to see an access through `this` differ only at arrows that are not plain. -/
theorem endsInArrowAfterThis_eq_iff {before : List Lexeme} :
    endsInArrowAfterThis before = endsInThisArrow before ↔ hasPlainArrow before = true := by
  unfold hasPlainArrow endsInArrowAfterThis endsInThisArrow
  split
  · rename_i gap object rest heq
    cases hobject : object == .word ['t', 'h', 'i', 's'] with
    | true =>
        have hthis : ['t', 'h', 'i', 's'].isSuffixOf object.text = true := by
          rw [beq_iff_eq.mp hobject]
          decide
        rw [hthis, if_pos rfl, bne]
        cases hgap : trimEnd gap == ['-', '>'] with
        | true => simp [trim_eq_of_trimEnd (beq_iff_eq.mp hgap)]
        | false => cases trim gap == ['-', '>'] <;> decide
    | false =>
        rw [if_neg Bool.false_ne_true, bne]
        cases trimEnd gap == ['-', '>'] <;> cases ['t', 'h', 'i', 's'].isSuffixOf object.text <;>
          simp
  · simp

/-- The blocks that a code mentions are named by identifiers that are no member access, or one by an
arrow right behind a lexeme that ends in `this`.  Where all such arrows are those of `this`, these
are the blocks named by identifiers that are no member access or one through `this`. -/
theorem blocks_used_through_arrows_after_this (known : String → Bool) (text : String) :
    (blocksUsed known text).Nodup ∧
      (∀ pair, pair ∈ blocksUsed known text ↔
        pair ∈ blocksNamedWhere endsInArrowAfterThis known text) ∧
      ((∀ context ∈ contexts text.toList, hasPlainArrow context.1 = true) →
        ∀ pair, pair ∈ blocksUsed known text ↔
          pair ∈ blocksNamedWhere endsInThisArrow known text) := by
  have hused : ∀ pair, pair ∈ blocksUsed known text ↔
      pair ∈ blocksNamedWhere endsInArrowAfterThis known text := by
    intro pair
    rw [blocksUsed_eq_sortedPairs, mem_sortedPairs]
  refine ⟨nodup_sortedPairs _, hused, fun hplain pair => ?_⟩
  have hsame : blocksNamedWhere endsInArrowAfterThis known text =
      blocksNamedWhere endsInThisArrow known text := by
    refine List.filterMap_congr fun context hmem => ?_
    rw [endsInArrowAfterThis_eq_iff.mpr (hplain context hmem)]
  rw [hused, hsame]

/-- The names `a` and `b`. -/
def isAOrB (name : String) : Bool :=
  name == "a" || name == "b"

theorem blocks_used_through_arrows_after_this_plain :
    (∀ context ∈ contexts "this-> dfa_dda = x->dfb_ddb + y.dfb_dda;".toList,
      hasPlainArrow context.1 = true) ∧
      ∀ pair, pair ∈ blocksUsed isAOrB "this-> dfa_dda = x->dfb_ddb + y.dfb_dda;" ↔
        pair ∈ [("a", "a")] := by
  have hplain : ∀ context ∈ contexts "this-> dfa_dda = x->dfb_ddb + y.dfb_dda;".toList,
      hasPlainArrow context.1 = true := by
    decide +kernel
  have hnamed : blocksNamedWhere endsInThisArrow isAOrB "this-> dfa_dda = x->dfb_ddb + y.dfb_dda;" =
      [("a", "a")] := by
    decide +kernel
  obtain ⟨-, -, hused⟩ :=
    blocks_used_through_arrows_after_this isAOrB "this-> dfa_dda = x->dfb_ddb + y.dfb_dda;"
  exact ⟨hplain, hnamed ▸ hused hplain⟩

/-- A member of `xthis` is taken for one of `this`, and a member of `this` is missed for a blank
before the arrow. -/
theorem accesses_through_this_mistaken :
    blocksUsed isAOrB "xthis->dfa_ddb = 1;" = [("a", "b")] ∧
      blocksNamedWhere endsInThisArrow isAOrB "xthis->dfa_ddb = 1;" = [] ∧
      blocksUsed isAOrB "this ->dfa_ddb = 1;" = [] ∧
      blocksNamedWhere endsInThisArrow isAOrB "this ->dfa_ddb = 1;" = [("a", "b")] := by
  decide +kernel

end Constitutive
