import Constitutive.Proofs.Unknowns.Layout
import Mathlib.Algebra.Ring.Nat

/-!
# What is stored at an index

A layout can be planned in the dimensions one, two and three only.  Its slots are then the variables
in order, each one beginning where those before it end (`getElem?_slotsFrom`), so the slots cut the
indices below the total into pieces, one for each variable that is not empty.

`locate` takes the last slot that begins at or before an index.  Variables without elements have
slots that begin where the next one does, and several slots may have one name; neither matters,
because the slot that holds an index is the last one that does not begin after it, and elements and
components are told apart inside that slot (`locate_plan_eq_some_iff`).
-/

namespace Constitutive

namespace Dimension

theorem ofNat?_eq_none_iff {n : Nat} : ofNat? n = none ↔ n ∉ [1, 2, 3] := by
  rw [Option.eq_none_iff_forall_ne_some]
  constructor
  · intro h hmem
    rcases List.mem_cons.mp hmem with rfl | hmem
    · exact h one rfl
    · rcases List.mem_cons.mp hmem with rfl | hmem
      · exact h two rfl
      · rw [List.mem_singleton.mp hmem] at h
        exact h three rfl
  · rintro hmem d hd
    rw [ofNat?_eq_some_iff] at hd
    subst hd
    cases d <;> exact hmem (by decide)

end Dimension

namespace Layout

theorem plan?_toNat (d : Dimension) (vars : List Variable) :
    plan? d.toNat vars = .ok (plan d vars) := by
  rw [plan?, Dimension.ofNat?_toNat]

/-- Planning fails in all other dimensions. -/
theorem exists_plan?_eq_error_iff {n : Nat} {vars : List Variable} :
    (∃ fault, plan? n vars = .error fault) ↔ n ∉ [1, 2, 3] := by
  rw [← Dimension.ofNat?_eq_none_iff, plan?]
  cases Dimension.ofNat? n with
  | none => simp
  | some d => simp

/-! ## Offsets -/

/-- The number of unknowns of the first `k` variables. -/
def sizeBefore (dim : Dimension) (vars : List Variable) (k : Nat) : Nat :=
  ((vars.take k).map fun v => v.components dim * v.arraySize).sum

/-- Each slot begins where the slots before it end. -/
theorem getElem?_slotsFrom (dim : Dimension) (start : Nat) (vars : List Variable) (k : Nat) :
    (slotsFrom dim start vars)[k]? = vars[k]?.map fun v =>
      ⟨v, start + sizeBefore dim vars k, v.components dim⟩ := by
  induction vars generalizing start k with
  | nil => rfl
  | cons v rest ih =>
      cases k with
      | zero => rfl
      | succ k =>
          have hbefore : start + sizeBefore dim (v :: rest) (k + 1) = start + v.size dim +
              sizeBefore dim rest k := by
            simp only [sizeBefore, List.take_succ_cons, List.map_cons, List.sum_cons, Variable.size,
              Nat.add_assoc]
          rw [slotsFrom, List.getElem?_cons_succ, List.getElem?_cons_succ, ih, hbefore]

theorem total_slotsFrom (dim : Dimension) (start : Nat) (vars : List Variable) :
    total ⟨dim, slotsFrom dim start vars⟩ = sizeBefore dim vars vars.length := by
  induction vars generalizing start with
  | nil => rfl
  | cons v rest ih =>
      rw [slotsFrom, total_cons, ih]
      simp only [sizeBefore, List.length_cons, List.take_succ_cons, List.map_cons, List.sum_cons]
      rfl

/-! ## Places -/

variable {layout : Layout} {dim : Dimension} {vars : List Variable} {index : Nat}

theorem lt_total_of_contains {slot : Slot} (hslot : slot ∈ (plan dim vars).slots)
    (h : slot.Contains index) :
    index < (plan dim vars).total := by
  have hstop := (bounds_of_mem_slotsFrom hslot).2
  rw [Nat.zero_add] at hstop
  exact Nat.lt_of_lt_of_le h.2 hstop

/-- An index below the total is in one slot, also if other slots are equal to it. -/
theorem existsUnique_slot_of_lt_total (h : index < (plan dim vars).total) :
    ∃! k : Nat, ∃ slot : Slot, (plan dim vars).slots[k]? = some slot ∧ slot.Contains index := by
  obtain ⟨slot, hslot, hcontains⟩ := exists_contains_of_lt_total h
  obtain ⟨k, hk, hget⟩ := List.getElem_of_mem hslot
  refine ⟨k, ⟨slot, by rw [List.getElem?_eq_getElem hk, hget], hcontains⟩, ?_⟩
  rintro j ⟨other, hother, hcontains'⟩
  obtain ⟨hj, rfl⟩ := List.getElem?_eq_some_iff.mp hother
  -- of two slots in different places the first ends before the second begins
  have hordered := List.pairwise_iff_getElem.mp (plan_ordered dim vars)
  obtain ⟨hstart, hstop⟩ := hcontains
  obtain ⟨hstart', hstop'⟩ := hcontains'
  rcases Nat.lt_trichotomy j k with hlt | heq | hgt
  · have := hordered j k hj hk hlt
    rw [hget] at this
    omega
  · exact heq
  · have := hordered k j hk hj hgt
    rw [hget] at this
    omega

/-- What `locate` finds in any list of slots is stored at the index. -/
theorem exists_slot_of_locate {c : Component} (h : layout.locate index = some c) :
    ∃ slot ∈ layout.slots, slot.name = c.name ∧ c.element < slot.arraySize ∧
      c.component < slot.components ∧
      slot.index c.element c.component = index := by
  unfold locate at h
  split at h
  · cases h
  · rename_i slot hlast
    obtain ⟨hslot, hstart⟩ := mem_of_lastFrom? hlast
    simp only at h
    split at h
    · rename_i hinside
      have hcontains : slot.Contains index := ⟨hstart, by unfold Slot.stop; omega⟩
      obtain ⟨element, helement, component, hcomponent, rfl⟩ :=
        Slot.exists_index_of_contains hcontains
      obtain ⟨hdiv, hmod⟩ := slot.index_sub_div_mod element hcomponent
      rw [hdiv, hmod] at h
      obtain rfl := Option.some.inj h
      exact ⟨slot, hslot, rfl, helement, hcomponent, rfl⟩
    · cases h

theorem locate_plan_eq_some_iff {c : Component} :
    (plan dim vars).locate index = some c ↔
      ∃ slot ∈ (plan dim vars).slots, slot.name = c.name ∧ c.element < slot.arraySize ∧
        c.component < slot.components ∧
        slot.index c.element c.component = index := by
  constructor
  · exact exists_slot_of_locate
  · rintro ⟨slot, hslot, hname, helement, hcomponent, rfl⟩
    rw [(plan_ordered dim vars).locate_index hslot helement hcomponent, hname]

theorem isSome_locate_plan_iff :
    ((plan dim vars).locate index).isSome = true ↔ index < (plan dim vars).total := by
  rw [Option.isSome_iff_exists]
  constructor
  · rintro ⟨c, hc⟩
    obtain ⟨slot, hslot, -, helement, hcomponent, rfl⟩ := locate_plan_eq_some_iff.mp hc
    exact lt_total_of_contains hslot (slot.contains_index helement hcomponent)
  · intro h
    obtain ⟨slot, hslot, hcontains⟩ := exists_contains_of_lt_total h
    obtain ⟨element, helement, component, hcomponent, hindex⟩ :=
      Slot.exists_index_of_contains hcontains
    exact ⟨⟨slot.name, element, component⟩,
      locate_plan_eq_some_iff.mpr ⟨slot, hslot, rfl, helement, hcomponent, hindex⟩⟩

/-- Variables of any ranks and array sizes, with any names, can be laid out in the dimensions one,
two and three and in no others.  Each index below the total is then in exactly one slot, and
`locate` is the inverse of counting offset, elements and components together. -/
theorem layout_partitioned_and_located (vars : List Variable) :
    (∀ n, (∃ fault, plan? n vars = .error fault) ↔ n ∉ [1, 2, 3]) ∧
      ∀ n ∈ [1, 2, 3], ∃ layout, plan? n vars = .ok layout ∧ layout.dimension.toNat = n ∧
        (∀ k : Nat, layout.slots[k]? = vars[k]?.map fun v =>
          Slot.mk v (sizeBefore layout.dimension vars k) (v.components layout.dimension)) ∧
        layout.total = sizeBefore layout.dimension vars vars.length ∧
        (∀ index, index < layout.total ↔ ∃! k : Nat, ∃ slot : Slot, layout.slots[k]? = some slot ∧
          slot.Contains index) ∧
        (∀ index, (layout.locate index).isSome = true ↔ index < layout.total) ∧
        ∀ index c, layout.locate index = some c ↔
          ∃ slot ∈ layout.slots, slot.name = c.name ∧ c.element < slot.arraySize ∧
            c.component < slot.components ∧
            slot.offset + c.element * slot.components + c.component = index := by
  refine ⟨fun n => exists_plan?_eq_error_iff, fun n hn => ?_⟩
  obtain ⟨d, hd⟩ :=
    Option.ne_none_iff_exists'.mp (mt Dimension.ofNat?_eq_none_iff.mp (not_not_intro hn))
  obtain rfl := Dimension.ofNat?_eq_some_iff.mp hd
  refine ⟨plan d vars, plan?_toNat d vars, rfl, fun k => ?_, total_slotsFrom d 0 vars,
    fun index => ⟨fun h => ?_, ?_⟩, fun index => isSome_locate_plan_iff, fun index c =>
      locate_plan_eq_some_iff⟩
  · have hslot := getElem?_slotsFrom d 0 vars k
    rw [Nat.zero_add] at hslot
    exact hslot
  · exact existsUnique_slot_of_lt_total h
  · rintro ⟨k, ⟨slot, hslot, hcontains⟩, -⟩
    exact lt_total_of_contains (List.mem_of_getElem? hslot) hcontains

/-- Variables without elements before and between others, and one name for two variables. -/
def emptyAndRepeated : List Variable :=
  [⟨"e", .symmetricTensor, 0⟩, ⟨"v", .vector, 2⟩, ⟨"z", .scalar, 0⟩, ⟨"v", .scalar, 1⟩]

theorem layout_partitioned_and_located_emptyAndRepeated :
    2 ∈ [1, 2, 3] ∧ ∃ layout, plan? 2 emptyAndRepeated = .ok layout ∧ layout.total = 5 ∧
      layout.slots.map Slot.offset = [0, 0, 4, 4] ∧ layout.locate 3 = some ⟨"v", 1, 1⟩ ∧
      layout.locate 4 = some ⟨"v", 0, 0⟩ ∧ layout.locate 5 = none := by
  refine ⟨by decide, ?_⟩
  obtain ⟨layout, hplan, -, -, htotal, -, hsome, hlocate⟩ :=
    (layout_partitioned_and_located emptyAndRepeated).2 2 (by decide)
  obtain rfl : plan .two emptyAndRepeated = layout := Except.ok.inj hplan
  refine ⟨_, hplan, htotal, rfl, (hlocate 3 _).mpr ?_, (hlocate 4 _).mpr ?_, ?_⟩
  · exact ⟨⟨⟨"v", .vector, 2⟩, 0, 2⟩, by decide, rfl, by decide, by decide, rfl⟩
  · exact ⟨⟨⟨"v", .scalar, 1⟩, 4, 1⟩, by decide, rfl, by decide, by decide, rfl⟩
  · rw [← Option.not_isSome_iff_eq_none, hsome 5]
    decide

end Layout

end Constitutive
