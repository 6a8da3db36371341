import Constitutive.Proofs.Unknowns.Names
import Mathlib.Data.List.Infix

/-!
# Where block names are split

A block name is read by trying the places at which `_dd` is found.  A search from left to right goes
on *behind* each find, so in general it misses places: of the two places of `aa` in `aaa` it finds
the first one only.  It misses nothing if the pattern has no border, that is, if no end of it is
also a beginning of it, because then no two places overlap (`mem_disjointMatches_iff`).

`_dd` has no border, so every way to read a name as a block name is tried, and the first one that
fits has the shortest first part (`block_name_split_is_first`).
-/

namespace Constitutive

/-! ## Searching behind each find -/

/-- The places at which a search finds a pattern.  After a find the rest of the pattern is passed
over; `skip` counts the characters of it that are still ahead. -/
def matchesFrom (pattern : List Char) : (skip place : Nat) → List Char → List Nat
  | _, _, [] => []
  | skip + 1, place, _ :: rest => matchesFrom pattern skip (place + 1) rest
  | 0, place, c :: rest =>
    if pattern.isPrefixOf (c :: rest) then place :: matchesFrom pattern (pattern.length - 1)
      (place + 1) rest
    else matchesFrom pattern 0 (place + 1) rest

/-- The places of a pattern in a text, from left to right and without overlap. -/
def disjointMatches (pattern text : List Char) : List Nat :=
  matchesFrom pattern 0 0 text

/-- No end of the pattern, the pattern itself apart, is a beginning of it. -/
def Borderless (pattern : List Char) : Prop :=
  ∀ k < pattern.length, 0 < k → ¬ pattern.drop k <+: pattern

variable {pattern : List Char}

theorem Borderless.not_prefix_drop (hborder : Borderless pattern) {text : List Char}
    (hmatch : pattern <+: text) {k : Nat}
    (hk : k < pattern.length) (hpos : 0 < k) : ¬ pattern <+: text.drop k := by
  intro hnext
  -- the end of the first occurrence and the second occurrence begin at the same place
  have hend : pattern.drop k <+: text.drop k := hmatch.drop k
  refine hborder k hk hpos (List.prefix_of_prefix_length_le hend hnext ?_)
  rw [List.length_drop]
  exact Nat.sub_le _ _

/-- Where nothing is found among the characters that are passed over, the search misses nothing. -/
theorem mem_matchesFrom_iff (hborder : Borderless pattern) (hpattern : pattern ≠ [])
    {text : List Char} {skip place i : Nat} (hskip : ∀ k < skip, ¬ pattern <+: text.drop k) :
    i ∈ matchesFrom pattern skip place text ↔ ∃ k, i = place + k ∧ pattern <+: text.drop k := by
  -- a place in `c :: rest` is the first one, or one in `rest`
  have hcons : ∀ (c : Char) (rest : List Char) (place : Nat),
      (∃ k, i = place + k ∧ pattern <+: (c :: rest).drop k) ↔
        (i = place ∧ pattern <+: c :: rest) ∨ ∃ k, i = place + 1 + k ∧ pattern <+: rest.drop k := by
    intro c rest place
    constructor
    · rintro ⟨k, rfl, hk⟩
      cases k with
      | zero => exact Or.inl ⟨rfl, hk⟩
      | succ k => exact Or.inr ⟨k, by omega, hk⟩
    · rintro (⟨rfl, hfirst⟩ | ⟨k, rfl, hk⟩)
      · exact ⟨0, rfl, hfirst⟩
      · exact ⟨k + 1, by omega, hk⟩
  fun_induction matchesFrom pattern skip place text with
  | case1 => simp [hpattern]
  | case2 skip place c rest ih =>
      have hfirst : ¬ pattern <+: c :: rest := hskip 0 (Nat.succ_pos skip)
      rw [hcons]
      simp only [hfirst, and_false, false_or]
      exact ih fun k hk => hskip (k + 1) (Nat.succ_lt_succ hk)
  | case3 place c rest hfound ih =>
      have hfirst : pattern <+: c :: rest := List.isPrefixOf_iff_prefix.mp hfound
      rw [List.mem_cons, hcons]
      simp only [hfirst, and_true]
      -- what is passed over overlaps the find
      exact or_congr_right
        (ih fun k hk => hborder.not_prefix_drop hfirst (Nat.add_lt_of_lt_sub hk) (Nat.succ_pos k))
  | case4 place c rest hfound ih =>
      have hfirst : ¬ pattern <+: c :: rest := fun h => hfound (List.isPrefixOf_iff_prefix.mpr h)
      rw [hcons]
      simp only [hfirst, and_false, false_or]
      exact ih fun k hk => absurd hk (Nat.not_lt_zero k)

/-- A search for a pattern without a border finds all its places. -/
theorem mem_disjointMatches_iff (hborder : Borderless pattern) (hpattern : pattern ≠ [])
    {text : List Char} {i : Nat} :
    i ∈ disjointMatches pattern text ↔ pattern <+: text.drop i := by
  rw [disjointMatches,
    mem_matchesFrom_iff hborder hpattern fun k hk => absurd hk (Nat.not_lt_zero k)]
  simp only [Nat.zero_add, exists_eq_left']

/-- With a border there may be places that are not found. -/
example : disjointMatches "aa".toList "aaa".toList = [0] ∧ "aa".toList <+: "aaa".toList.drop 1 := by
  decide

theorem matchesFrom_add (text : List Char) (skip place k : Nat) :
    matchesFrom pattern skip (place + k) text =
      (matchesFrom pattern skip place text).map (· + k) := by
  fun_induction matchesFrom pattern skip place text with
  | case1 skip place => simp [matchesFrom]
  | case2 place c rest skip ih => rw [matchesFrom, ← ih, Nat.add_right_comm]
  | case3 place c rest hfound ih =>
      rw [matchesFrom, if_pos hfound, List.map_cons, ← ih, Nat.add_right_comm]
  | case4 place c rest hfound ih => rw [matchesFrom, if_neg hfound, ← ih, Nat.add_right_comm]

/-! ## Cuts at a separator -/

/-- A text cut at the disjoint places of a separator, which goes to neither part. -/
def disjointCuts (separator text : String) : List (String × String) :=
  (disjointMatches separator.toList text.toList).map fun i =>
    (String.ofList (text.toList.take i), String.ofList (text.toList.drop (i + separator.length)))

theorem borderless_separator : Borderless "_dd".toList := by
  unfold Borderless
  decide

/-- The cuts that are tried are those at the places that a search finds. -/
theorem separatorCuts_eq (text : List Char) :
    separatorCuts text = (disjointMatches "_dd".toList text).map fun i =>
      (text.take i, text.drop (i + 3)) := by
  have hseparator : "_dd".toList = ['_', 'd', 'd'] := rfl
  rw [hseparator]
  fun_induction separatorCuts text with
  | case1 => rfl
  | case2 rest ih =>
      have hfound : disjointMatches ['_', 'd', 'd'] ('_' :: 'd' :: 'd' :: rest) =
          0 :: (disjointMatches ['_', 'd', 'd'] rest).map (· + 3) := by
        rw [disjointMatches, disjointMatches, ← matchesFrom_add]
        rfl
      rw [hfound, ih]
      simp
  | case3 c rest hno ih =>
      have hnone : ¬ ['_', 'd', 'd'].isPrefixOf (c :: rest) = true := by
        rw [List.isPrefixOf_iff_prefix]
        rintro ⟨more, hmore⟩
        obtain ⟨hc, hrest⟩ := List.cons.inj hmore
        exact hno more hc.symm hrest.symm
      have hmissed : disjointMatches ['_', 'd', 'd'] (c :: rest) =
          (disjointMatches ['_', 'd', 'd'] rest).map (· + 1) := by
        rw [disjointMatches, disjointMatches, ← matchesFrom_add, matchesFrom, if_neg hnone]
      rw [hmissed, ih]
      simp

/-- Every way to write a text as two parts around the separator is a cut at a place that is
found. -/
theorem mem_disjointCuts_separator {text a b : String} :
    (a, b) ∈ disjointCuts "_dd" text ↔ text = a ++ "_dd" ++ b := by
  have hlength : "_dd".length = 3 := rfl
  simp only [disjointCuts, List.mem_map, mem_disjointMatches_iff borderless_separator (by decide),
    Prod.mk.injEq, hlength]
  constructor
  · rintro ⟨i, ⟨more, hmore⟩, rfl, rfl⟩
    have hdrop : text.toList.drop (i + 3) = more := by
      rw [← List.drop_drop, ← hmore]
      rfl
    rw [← String.toList_inj]
    simp only [String.toList_append, String.toList_ofList, hdrop, List.append_assoc, hmore,
      List.take_append_drop]
  · rintro rfl
    refine ⟨a.length, ?_, ?_, ?_⟩
    · simp [← String.length_toList]
    · simp [← String.length_toList]
    · simp [← String.length_toList]

/-! ## Reading block names -/

variable {known : String → Bool} {name : String}

theorem blockCuts_eq_disjointCuts (rest : String) :
    blockCuts ("df" ++ rest) = disjointCuts "_dd" rest := by
  have htext : ("df" ++ rest).toList = 'd' :: 'f' :: rest.toList := by simp
  unfold blockCuts disjointCuts
  simp only [htext, separatorCuts_eq, List.map_map]
  rfl

/-- Of two readings of one name, the first part of the one is the beginning of the first part of the
other. -/
theorem IsBlockOf.prefix_of_length_le {a b c e : String} (h : IsBlockOf known name a b)
    (h' : IsBlockOf known name c e) (hle : a.length ≤ c.length) : a.toList <+: c.toList := by
  have hname : 'd' :: 'f' :: (a.toList ++ '_' :: 'd' :: 'd' :: b.toList) =
      'd' :: 'f' :: (c.toList ++ '_' :: 'd' :: 'd' :: e.toList) := by
    rw [← toList_blockName, ← toList_blockName, ← h.eq_blockName, ← h'.eq_blockName]
  have hparts : a.toList ++ '_' :: 'd' :: 'd' :: b.toList = c.toList ++ '_' :: 'd' :: 'd' ::
      e.toList := by
    simpa using hname
  have hmatch : a.toList <+: c.toList ++ '_' :: 'd' :: 'd' :: e.toList :=
    hparts ▸ List.prefix_append _ _
  refine List.prefix_of_prefix_length_le hmatch (List.prefix_append _ _) ?_
  simpa only [String.length_toList] using hle

/-- **Reading block names.**  A name is split if and only if it is the block name of two known names
that are not empty.  It is then split into two such names, and there is no way to do so with a
shorter first name: it is the beginning of the first name of every other way.  Only disjoint places
of `_dd` are tried, but these are all its places. -/
theorem block_name_split_is_first (known : String → Bool) (name : String) :
    ((∃ a b, splitBlockName? known name = some (a, b)) ↔ ∃ a b, IsBlockOf known name a b) ∧
      (∀ a b, splitBlockName? known name = some (a, b) →
        IsBlockOf known name a b ∧ ∀ c e, IsBlockOf known name c e → a.toList <+: c.toList) ∧
      ∀ rest, name = "df" ++ rest →
        (splitBlockName? known name = (disjointCuts "_dd" rest).find? fun parts =>
          parts.1 ≠ "" && parts.2 ≠ "" && known parts.1 && known parts.2) ∧
        ∀ a b, (a, b) ∈ disjointCuts "_dd" rest ↔ rest = a ++ "_dd" ++ b := by
  refine ⟨⟨?_, ?_⟩, ?_, ?_⟩
  · rintro ⟨a, b, hsplit⟩
    exact ⟨a, b, (splitBlockName?_eq_some_iff.mp hsplit).1⟩
  · rintro ⟨a, b, hblock⟩
    exact exists_splitBlockName? hblock
  · intro a b hsplit
    obtain ⟨hblock, hleast⟩ := splitBlockName?_eq_some_iff.mp hsplit
    exact ⟨hblock, fun c e hother => hblock.prefix_of_length_le hother (hleast c e hother)⟩
  · rintro rest rfl
    refine ⟨?_, fun a b => mem_disjointCuts_separator⟩
    rw [splitBlockName?_eq_find, blockCuts_eq_disjointCuts]

/-- Separators next to each other, where the first two cuts have an empty part or an unknown one. -/
example : splitBlockName? (fun part => part == "_dd_dd" || part == "_dd_ddx") "df_dd_dd_dd_dd_ddx" =
    some ("_dd_dd", "_dd_ddx") := by
  decide

end Constitutive
