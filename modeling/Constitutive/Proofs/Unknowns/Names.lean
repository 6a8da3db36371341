import Constitutive.Behaviour.Variable

/-!
# Cutting the names made from variables

The names made from variables are concatenations without a separator that variables could not
contain, so how far a made name determines what it was made from is a question about lists of
characters.  Increments and residuals are no problem, their mark is one leading character.  A block
name `df<a>_dd<b>` can be cut at each occurrence of `_dd`.

`separatorCuts` lists these cuts: all of them (`mem_separatorCuts`), by growing first part
(`separatorCuts_increasing`).  Nothing is missed by stepping over a whole `_dd` at a time, because
no two occurrences of `_dd` overlap.  So `splitBlockName?` finds the cut with the shortest first
part among those whose parts are known (`splitBlockName?_eq_some_iff`).

Two block names are equal only if they are cut from one text at two occurrences of `_dd`; what
stands between the two occurrences is then a common piece of both (`blockName_eq_iff`).
-/

namespace Constitutive

/-! ## The characters of made names -/

theorem toList_incrementName (v : String) : (incrementName v).toList = 'd' :: v.toList := by
  simp [incrementName]

theorem toList_residualName (v : String) : (residualName v).toList = 'f' :: v.toList := by
  simp [residualName]

theorem toList_blockName (a b : String) :
    (blockName a b).toList = 'd' :: 'f' :: (a.toList ++ '_' :: 'd' :: 'd' :: b.toList) := by
  simp [blockName]

theorem incrementName_inj {v w : String} : incrementName v = incrementName w ↔ v = w := by
  rw [← String.toList_inj, toList_incrementName, toList_incrementName, List.cons_inj_right,
    String.toList_inj]

theorem residualName_inj {v w : String} : residualName v = residualName w ↔ v = w := by
  rw [← String.toList_inj, toList_residualName, toList_residualName, List.cons_inj_right,
    String.toList_inj]

/-- A name is not made from itself: each made name is longer than what it is made from. -/
theorem length_lt_incrementName (v : String) : v.length < (incrementName v).length := by
  rw [← String.length_toList, ← String.length_toList, toList_incrementName]
  exact Nat.lt_succ_self _

theorem length_lt_residualName (v : String) : v.length < (residualName v).length := by
  rw [← String.length_toList, ← String.length_toList, toList_residualName]
  exact Nat.lt_succ_self _

theorem length_blockName (a b : String) : (blockName a b).length = a.length + b.length + 5 := by
  rw [← String.length_toList, toList_blockName]
  simp only [List.length_cons, List.length_append, String.length_toList]
  omega

theorem dropFirst?_eq_some_iff {c : Char} {name rest : String} :
    dropFirst? c name = some rest ↔ name.toList = c :: rest.toList := by
  unfold dropFirst?
  split
  · rename_i first tail heq
    rw [heq]
    constructor
    · intro h
      split at h
      · rename_i hfirst
        rw [← Option.some_inj.mp h, hfirst, String.toList_ofList]
      · exact absurd h.symm (Option.some_ne_none rest)
    · intro h
      obtain ⟨rfl, rfl⟩ := List.cons.inj h
      rw [if_pos rfl, String.ofList_toList]
  · rename_i heq
    rw [heq]
    constructor
    · intro h
      exact absurd h.symm (Option.some_ne_none rest)
    · intro h
      exact absurd h.symm (List.cons_ne_nil _ _)

theorem dropFirst?_residual {name v : String} :
    dropFirst? 'f' name = some v ↔ name = residualName v := by
  rw [dropFirst?_eq_some_iff, ← toList_residualName, String.toList_inj]

theorem dropFirst?_increment {name v : String} :
    dropFirst? 'd' name = some v ↔ name = incrementName v := by
  rw [dropFirst?_eq_some_iff, ← toList_incrementName, String.toList_inj]

/-! ## All cuts, and their order -/

/-- The cuts are exactly the ways to write the text as two parts around `_dd`. -/
theorem mem_separatorCuts {text first second : List Char} :
    (first, second) ∈ separatorCuts text ↔ text = first ++ '_' :: 'd' :: 'd' :: second := by
  fun_induction separatorCuts text generalizing first with
  | case1 => simp
  | case2 rest ih =>
      simp only [List.mem_cons, Prod.mk.injEq, List.mem_map, Prod.exists]
      constructor
      · rintro (⟨rfl, rfl⟩ | ⟨before, after, hmem, rfl, rfl⟩)
        · rfl
        · rw [ih.mp hmem]
          rfl
      · intro htext
        -- the first part is empty or contains the whole of the leading `_dd`
        match first with
        | [] => exact Or.inl ⟨rfl, by simpa using htext.symm⟩
        | [c] => simp at htext
        | [c, c'] => simp at htext
        | c :: c' :: c'' :: before =>
            simp only [List.cons_append, List.cons.injEq] at htext
            obtain ⟨rfl, rfl, rfl, hrest⟩ := htext
            exact Or.inr ⟨before, second, ih.mpr hrest, rfl, rfl⟩
  | case3 c rest hno ih =>
      simp only [List.mem_map, Prod.mk.injEq, Prod.exists]
      constructor
      · rintro ⟨before, after, hmem, rfl, rfl⟩
        rw [ih.mp hmem]
        rfl
      · intro htext
        -- there is no cut at the very beginning
        match first with
        | [] =>
            simp only [List.nil_append, List.cons.injEq] at htext
            exact absurd htext.2 (hno second htext.1)
        | d :: before =>
            obtain ⟨rfl, hrest⟩ := List.cons.inj htext
            exact ⟨before, second, ih.mpr hrest, rfl, rfl⟩

/-- The cuts come by growing first part. -/
theorem separatorCuts_increasing (text : List Char) :
    (separatorCuts text).Pairwise fun p q => p.1.length < q.1.length := by
  fun_induction separatorCuts text with
  | case1 => exact List.Pairwise.nil
  | case2 rest ih =>
      refine List.pairwise_cons.mpr ⟨?_, ?_⟩
      · intro q hq
        obtain ⟨p, -, rfl⟩ := List.mem_map.mp hq
        simp
      · rw [List.pairwise_map]
        exact ih.imp fun {p q} hpq => by simpa using hpq
  | case3 c rest hno ih =>
      rw [List.pairwise_map]
      exact ih.imp fun {p q} hpq => by simpa using hpq

/-- Every way to read a name as a block name, by growing first part. -/
def blockCuts (name : String) : List (String × String) :=
  match name.toList with
  | 'd' :: 'f' :: rest => (separatorCuts rest).map fun (a, b) => (String.ofList a, String.ofList b)
  | _ => []

theorem mem_blockCuts {name a b : String} : (a, b) ∈ blockCuts name ↔ name = blockName a b := by
  rw [← String.toList_inj, toList_blockName]
  unfold blockCuts
  split
  · rename_i rest heq
    rw [heq, List.mem_map]
    constructor
    · rintro ⟨⟨first, second⟩, hmem, hpair⟩
      obtain ⟨rfl, rfl⟩ := Prod.mk.inj hpair
      rw [mem_separatorCuts.mp hmem, String.toList_ofList, String.toList_ofList]
    · intro htext
      refine ⟨(a.toList, b.toList), mem_separatorCuts.mpr ?_, ?_⟩
      · simpa using htext
      · simp
  · rename_i hno
    constructor
    · intro hmem
      exact absurd hmem List.not_mem_nil
    · intro htext
      exact absurd htext (hno _)

theorem blockCuts_increasing (name : String) :
    (blockCuts name).Pairwise fun p q => p.1.length < q.1.length := by
  unfold blockCuts
  split
  · rw [List.pairwise_map]
    exact (separatorCuts_increasing _).imp fun {p q} hpq => by
      simpa [← String.length_toList] using hpq
  · exact List.Pairwise.nil

/-! ## The first cut with known parts -/

/-- A name reads as the block name of two known names, which are not empty. -/
structure IsBlockOf (known : String → Bool) (name a b : String) : Prop where
  eq_blockName : name = blockName a b
  first_ne : a ≠ ""
  second_ne : b ≠ ""
  first_known : known a = true
  second_known : known b = true

/-- In a list that grows along a measure, the first hit is the hit of least measure. -/
theorem find?_eq_some_iff_of_increasing {α : Type} {measure : α → Nat} {xs : List α} {p : α → Bool}
    {x : α} (hxs : xs.Pairwise fun y z => measure y < measure z) :
    xs.find? p = some x ↔ x ∈ xs ∧ p x = true ∧ ∀ y ∈ xs, p y = true → measure x ≤ measure y := by
  constructor
  · intro hfind
    obtain ⟨hx, before, after, rfl, hbefore⟩ := List.find?_eq_some_iff_append.mp hfind
    refine ⟨List.mem_append_right _ (List.mem_cons_self ..), hx, ?_⟩
    intro y hy hpy
    rcases List.mem_append.mp hy with hy | hy
    · have := hbefore y hy
      simp [hpy] at this
    · rcases List.mem_cons.mp hy with rfl | hy
      · exact Nat.le_refl _
      · have htail := (List.pairwise_append.mp hxs).2.1
        exact Nat.le_of_lt ((List.pairwise_cons.mp htail).1 y hy)
  · rintro ⟨hmem, hx, hleast⟩
    -- a hit in front of `x` would have a smaller measure
    induction xs with
    | nil => exact absurd hmem List.not_mem_nil
    | cons head rest ih =>
        rw [List.pairwise_cons] at hxs
        cases hhead : p head with
        | true =>
            rw [List.find?_cons_of_pos hhead]
            rcases List.mem_cons.mp hmem with rfl | hrest
            · rfl
            · have hlt := hxs.1 x hrest
              have hle := hleast head (List.mem_cons_self ..) hhead
              omega
        | false =>
            rw [List.find?_cons_of_neg (by simp [hhead])]
            rcases List.mem_cons.mp hmem with rfl | hrest
            · rw [hx] at hhead
              cases hhead
            · exact ih hxs.2 hrest fun y hy => hleast y (List.mem_cons_of_mem _ hy)

theorem splitBlockName?_eq_find (known : String → Bool) (name : String) :
    splitBlockName? known name =
      (blockCuts name).find? fun (a, b) => a ≠ "" && b ≠ "" && known a && known b := by
  by_cases hstart : ∃ rest, name.toList = 'd' :: 'f' :: rest
  · obtain ⟨rest, hrest⟩ := hstart
    unfold splitBlockName? blockCuts
    simp only [hrest]
  · -- neither function looks any further
    have hcuts : blockCuts name = [] := by
      unfold blockCuts
      split
      · rename_i rest hrest
        exact absurd ⟨rest, hrest⟩ hstart
      · rfl
    rw [hcuts]
    unfold splitBlockName?
    split
    · rename_i rest hrest
      exact absurd ⟨rest, hrest⟩ hstart
    · rfl

theorem isBlockOf_iff {known : String → Bool} {name a b : String} :
    IsBlockOf known name a b ↔
      (a, b) ∈ blockCuts name ∧ (a ≠ "" && b ≠ "" && known a && known b) = true := by
  rw [mem_blockCuts]
  constructor
  · rintro ⟨hname, ha, hb, hka, hkb⟩
    exact ⟨hname, by simp [ha, hb, hka, hkb]⟩
  · rintro ⟨hname, hparts⟩
    simp only [ne_eq, Bool.and_eq_true, decide_eq_true_eq] at hparts
    obtain ⟨⟨⟨ha, hb⟩, hka⟩, hkb⟩ := hparts
    exact ⟨hname, ha, hb, hka, hkb⟩

/-- The split of a block name is the cut with the shortest first part among those with known
parts. -/
theorem splitBlockName?_eq_some_iff {known : String → Bool} {name a b : String} :
    splitBlockName? known name = some (a, b) ↔
      IsBlockOf known name a b ∧ ∀ c e, IsBlockOf known name c e → a.length ≤ c.length := by
  rw [splitBlockName?_eq_find, find?_eq_some_iff_of_increasing (blockCuts_increasing name),
    ← and_assoc, ← isBlockOf_iff]
  refine and_congr_right fun _ => ⟨fun h c e hce => ?_, fun h ⟨c, e⟩ hmem hparts => ?_⟩
  · exact h (c, e) (isBlockOf_iff.mp hce).1 (isBlockOf_iff.mp hce).2
  · exact h c e (isBlockOf_iff.mpr ⟨hmem, hparts⟩)

theorem exists_splitBlockName? {known : String → Bool} {name a b : String}
    (hblock : IsBlockOf known name a b) : ∃ c e, splitBlockName? known name = some (c, e) := by
  rw [splitBlockName?_eq_find]
  obtain ⟨hmem, hparts⟩ := isBlockOf_iff.mp hblock
  have hsome : ((blockCuts name).find? fun (a, b) =>
      a ≠ "" && b ≠ "" && known a && known b).isSome = true :=
    List.find?_isSome.mpr ⟨(a, b), hmem, hparts⟩
  obtain ⟨⟨c, e⟩, hfound⟩ := Option.isSome_iff_exists.mp hsome
  exact ⟨c, e, hfound⟩

/-! ## When two made names are equal -/

theorem incrementName_ne_residualName (v w : String) : incrementName v ≠ residualName w := by
  intro h
  have := congrArg String.toList h
  rw [toList_incrementName, toList_residualName] at this
  simp at this

theorem residualName_ne_blockName (w a b : String) : residualName w ≠ blockName a b := by
  intro h
  have := congrArg String.toList h
  rw [toList_residualName, toList_blockName] at this
  simp at this

/-- The increment of a variable has a block name exactly if the variable is called like the residual
of the first part, followed by the rest of the block name. -/
theorem incrementName_eq_blockName_iff {v a b : String} :
    incrementName v = blockName a b ↔ v = residualName a ++ "_dd" ++ b := by
  rw [← String.toList_inj, toList_incrementName, toList_blockName, ← String.toList_inj]
  simp [toList_residualName]

/-- Two cuts of one text at `_dd`, the first one further left: what stands between the two
occurrences belongs to the second part of the one and to the first part of the other. -/
theorem exists_between_cuts {a b c e : List Char}
    (heq : a ++ '_' :: 'd' :: 'd' :: b = c ++ '_' :: 'd' :: 'd' :: e) (hlt : a.length < c.length) :
    ∃ m, c = a ++ '_' :: 'd' :: 'd' :: m ∧ b = m ++ '_' :: 'd' :: 'd' :: e := by
  obtain ⟨gap, rfl, hgap⟩ | ⟨gap, rfl, hgap⟩ := List.append_eq_append_iff.mp heq
  · -- `gap` stands between the beginnings of the two occurrences, so it starts with a whole `_dd`
    match gap with
    | [] => simp at hlt
    | [x] => simp at hgap
    | [x, y] => simp at hgap
    | x :: y :: z :: m =>
        simp only [List.cons_append, List.cons.injEq] at hgap
        obtain ⟨rfl, rfl, rfl, rfl⟩ := hgap
        exact ⟨m, rfl, rfl⟩
  · rw [List.length_append] at hlt
    omega

/-- One block name of two pairs of names. -/
theorem blockName_eq_iff {a b c e : String} :
    blockName a b = blockName c e ↔
      (a = c ∧ b = e) ∨
        (∃ m, c = a ++ "_dd" ++ m ∧ b = m ++ "_dd" ++ e) ∨
        ∃ m, a = c ++ "_dd" ++ m ∧ e = m ++ "_dd" ++ b := by
  constructor
  · intro h
    have heq : a.toList ++ '_' :: 'd' :: 'd' :: b.toList = c.toList ++ '_' :: 'd' :: 'd' ::
        e.toList := by
      have := congrArg String.toList h
      rw [toList_blockName, toList_blockName] at this
      simpa using this
    -- the pair that is cut further left has the longer second name
    rcases Nat.lt_trichotomy a.toList.length c.toList.length with hlt | hsame | hgt
    · obtain ⟨m, hc, hb⟩ := exists_between_cuts heq hlt
      refine Or.inr (Or.inl ⟨String.ofList m, ?_, ?_⟩)
      · rw [← String.toList_inj, hc]
        simp
      · rw [← String.toList_inj, hb]
        simp
    · obtain ⟨hac, hbe⟩ := List.append_inj heq hsame
      refine Or.inl ⟨String.toList_inj.mp hac, String.toList_inj.mp ?_⟩
      simpa using hbe
    · obtain ⟨m, ha, he⟩ := exists_between_cuts heq.symm hgt
      refine Or.inr (Or.inr ⟨String.ofList m, ?_, ?_⟩)
      · rw [← String.toList_inj, ha]
        simp
      · rw [← String.toList_inj, he]
        simp
  · rintro (⟨rfl, rfl⟩ | ⟨m, rfl, rfl⟩ | ⟨m, rfl, rfl⟩)
    · rfl
    · simp [← String.toList_inj, toList_blockName]
    · simp [← String.toList_inj, toList_blockName]

end Constitutive
