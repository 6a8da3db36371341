import Constitutive.Unknowns.Derivative
import Mathlib.Data.List.Nodup

/-!
# Who owns an index

The slots of a layout follow each other without gaps and without overlap, so every index below the
total belongs to exactly one slot, and inside its slot to exactly one component of one element.
`Holds` says so about a layout; `locate` computes it.

`slotsFrom` starts at an arbitrary offset, and so do the facts about it: the slots lie between the
start and the start plus the sizes (`bounds_of_mem_slotsFrom`), each ends before the next begins
(`slotsFrom_ordered`), and together they leave nothing out (`exists_contains_of_lt`).
-/

namespace Constitutive

namespace Slot

/-- The index of a component of an element. -/
def index (slot : Slot) (element component : Nat) : Nat :=
  slot.offset + element * slot.components + component

/-- The indices between the beginning and the end of a slot. -/
def Contains (slot : Slot) (i : Nat) : Prop :=
  slot.offset ≤ i ∧ i < slot.stop

theorem stop_eq (slot : Slot) : slot.stop = slot.offset + slot.arraySize * slot.components := by
  rw [stop, size, Nat.mul_comm]

theorem contains_index (slot : Slot) {element component : Nat} (helement : element < slot.arraySize)
    (hcomponent : component < slot.components) : slot.Contains (slot.index element component) := by
  -- the next element begins at or before the end of the slot
  have hstep : (element + 1) * slot.components ≤ slot.arraySize * slot.components :=
    Nat.mul_le_mul_right _ helement
  rw [Nat.succ_mul] at hstep
  unfold Contains index
  rw [stop_eq]
  omega

theorem exists_index_of_contains {slot : Slot} {i : Nat} (h : slot.Contains i) :
    ∃ element < slot.arraySize, ∃ component < slot.components,
      slot.index element component = i := by
  obtain ⟨hstart, hstop⟩ := h
  rw [stop_eq] at hstop
  have hinside : i - slot.offset < slot.arraySize * slot.components := by omega
  have hpos : 0 < slot.components := by
    rcases Nat.eq_zero_or_pos slot.components with hzero | hpos
    · rw [hzero, Nat.mul_zero] at hinside
      exact absurd hinside (Nat.not_lt_zero _)
    · exact hpos
  refine ⟨(i - slot.offset) / slot.components, (Nat.div_lt_iff_lt_mul hpos).mpr hinside,
    (i - slot.offset) % slot.components, Nat.mod_lt _ hpos, ?_⟩
  have hdivision := Nat.div_add_mod' (i - slot.offset) slot.components
  unfold index
  omega

/-- Element and component can be read off an index of the slot. -/
theorem index_sub_div_mod (slot : Slot) (element : Nat) {component : Nat}
    (hcomponent : component < slot.components) :
    (slot.index element component - slot.offset) / slot.components = element ∧
      (slot.index element component - slot.offset) % slot.components = component := by
  have hinside : slot.index element component - slot.offset = component + element *
      slot.components := by
    unfold index
    omega
  have hpos : 0 < slot.components := Nat.lt_of_le_of_lt (Nat.zero_le _) hcomponent
  rw [hinside, Nat.add_mul_div_right _ _ hpos, Nat.add_mul_mod_self_right,
    Nat.div_eq_of_lt hcomponent, Nat.mod_eq_of_lt hcomponent, Nat.zero_add]
  exact ⟨rfl, rfl⟩

theorem index_inj {slot : Slot} {element component element' component' : Nat}
    (hcomponent : component < slot.components) (hcomponent' : component' < slot.components)
    (h : slot.index element component = slot.index element' component') :
    element = element' ∧ component = component' := by
  obtain ⟨hdiv, hmod⟩ := slot.index_sub_div_mod element hcomponent
  obtain ⟨hdiv', hmod'⟩ := slot.index_sub_div_mod element' hcomponent'
  rw [h] at hdiv hmod
  exact ⟨hdiv.symm.trans hdiv', hmod.symm.trans hmod'⟩

end Slot

namespace Layout

/-! ## The slots that start at an offset -/

theorem owner_slotsFrom (dim : Dimension) (start : Nat) (vars : List Variable) :
    (slotsFrom dim start vars).map Slot.owner = vars := by
  induction vars generalizing start with
  | nil => rfl
  | cons v rest ih => rw [slotsFrom, List.map_cons, ih]

theorem components_of_mem_slotsFrom {dim : Dimension} {start : Nat} {vars : List Variable}
    {slot : Slot}
    (h : slot ∈ slotsFrom dim start vars) : slot.components = slot.owner.components dim := by
  induction vars generalizing start with
  | nil => exact absurd h List.not_mem_nil
  | cons v rest ih =>
      rcases List.mem_cons.mp h with rfl | h
      · rfl
      · exact ih h

theorem total_cons (dim : Dimension) (slot : Slot) (slots : List Slot) :
    total ⟨dim, slot :: slots⟩ = slot.size + total ⟨dim, slots⟩ := rfl

theorem bounds_of_mem_slotsFrom {dim : Dimension} {start : Nat} {vars : List Variable} {slot : Slot}
    (h : slot ∈ slotsFrom dim start vars) :
    start ≤ slot.offset ∧ slot.stop ≤ start + total ⟨dim, slotsFrom dim start vars⟩ := by
  induction vars generalizing start with
  | nil => exact absurd h List.not_mem_nil
  | cons v rest ih =>
      rw [slotsFrom, total_cons]
      rcases List.mem_cons.mp h with rfl | h
      · exact ⟨Nat.le_refl _, Nat.add_le_add_left (Nat.le_add_right _ _) _⟩
      · obtain ⟨hstart, hstop⟩ := ih h
        have hsize : Slot.size ⟨v, start, v.components dim⟩ = v.size dim := rfl
        omega

theorem stop_le_total {dim : Dimension} {vars : List Variable} {slot : Slot}
    (h : slot ∈ (plan dim vars).slots) : slot.stop ≤ (plan dim vars).total := by
  have hbounds := (bounds_of_mem_slotsFrom h).2
  rwa [Nat.zero_add] at hbounds

/-- Each slot ends before the next ones begin. -/
theorem slotsFrom_ordered (dim : Dimension) (start : Nat) (vars : List Variable) :
    (slotsFrom dim start vars).Pairwise fun s t => s.stop ≤ t.offset := by
  induction vars generalizing start with
  | nil => exact List.Pairwise.nil
  | cons v rest ih =>
      refine List.pairwise_cons.mpr ⟨fun t ht => ?_, ih _⟩
      exact (bounds_of_mem_slotsFrom ht).1

/-- The slots leave no index out. -/
theorem exists_contains_of_lt {dim : Dimension} {start i : Nat} {vars : List Variable}
    (hstart : start ≤ i) (hstop : i < start + total ⟨dim, slotsFrom dim start vars⟩) :
    ∃ slot ∈ slotsFrom dim start vars, slot.Contains i := by
  induction vars generalizing start with
  | nil => exact absurd hstop (Nat.not_lt.mpr hstart)
  | cons v rest ih =>
      rw [slotsFrom, total_cons] at hstop
      have hsize : Slot.size ⟨v, start, v.components dim⟩ = v.size dim := rfl
      -- either the first slot reaches as far as `i`, or `i` is left to the others
      by_cases hfirst : i < start + v.size dim
      · exact ⟨⟨v, start, v.components dim⟩, List.mem_cons_self .., hstart, hfirst⟩
      · obtain ⟨slot, hslot, hcontains⟩ := ih (by omega : start + v.size dim ≤ i) (by omega)
        exact ⟨slot, List.mem_cons_of_mem _ hslot, hcontains⟩

/-! ## The slots of a layout -/

/-- No two slots have an index in common. -/
def Ordered (layout : Layout) : Prop :=
  layout.slots.Pairwise fun s t => s.stop ≤ t.offset

theorem plan_ordered (dim : Dimension) (vars : List Variable) : (plan dim vars).Ordered :=
  slotsFrom_ordered dim 0 vars

variable {layout : Layout}

theorem Ordered.eq_of_contains (hordered : layout.Ordered) {s t : Slot} (hs : s ∈ layout.slots)
    (ht : t ∈ layout.slots) {i : Nat} (hsi : s.Contains i) (hti : t.Contains i) : s = t := by
  obtain ⟨hsstart, hsstop⟩ := hsi
  obtain ⟨htstart, htstop⟩ := hti
  obtain ⟨before, after, heq⟩ := List.append_of_mem hs
  unfold Ordered at hordered
  rw [heq] at ht hordered
  obtain ⟨-, hafter, hbefore⟩ := List.pairwise_append.mp hordered
  -- a slot before `s` ends too early for `i`, one after it begins too late
  rcases List.mem_append.mp ht with ht | ht
  · have := hbefore t ht s (List.mem_cons_self ..)
    omega
  · rcases List.mem_cons.mp ht with rfl | ht
    · rfl
    · have := (List.pairwise_cons.mp hafter).1 t ht
      omega

theorem exists_contains_of_lt_total {dim : Dimension} {vars : List Variable} {i : Nat}
    (h : i < (plan dim vars).total) : ∃ slot ∈ (plan dim vars).slots, slot.Contains i :=
  exists_contains_of_lt (Nat.zero_le i) ((Nat.zero_add _).symm ▸ h)

theorem map_owner_plan (dim : Dimension) (vars : List Variable) :
    (plan dim vars).slots.map Slot.owner = vars :=
  owner_slotsFrom dim 0 vars

theorem owner_mem_of_mem_plan {dim : Dimension} {vars : List Variable} {slot : Slot}
    (h : slot ∈ (plan dim vars).slots) : slot.owner ∈ vars := by
  have hmem : slot.owner ∈ (plan dim vars).slots.map Slot.owner := List.mem_map_of_mem h
  rwa [map_owner_plan] at hmem

theorem exists_slot_of_mem (dim : Dimension) {vars : List Variable} {v : Variable} (h : v ∈ vars) :
    ∃ slot ∈ (plan dim vars).slots, slot.owner = v := by
  rw [← map_owner_plan dim vars] at h
  exact List.mem_map.mp h

theorem components_of_mem_plan {dim : Dimension} {vars : List Variable} {slot : Slot}
    (h : slot ∈ (plan dim vars).slots) : slot.components = slot.owner.components dim :=
  components_of_mem_slotsFrom h

theorem arraySize_le_total {dim : Dimension} {vars : List Variable} {slot : Slot}
    (h : slot ∈ (plan dim vars).slots) : slot.arraySize ≤ (plan dim vars).total := by
  have hcomponents : 0 < slot.components := by
    rw [components_of_mem_plan h]
    exact slot.owner.rank.components_pos dim
  have hstop := stop_le_total h
  have hsize : slot.arraySize ≤ slot.components * slot.arraySize :=
    Nat.le_mul_of_pos_left _ hcomponents
  unfold Slot.stop Slot.size at hstop
  omega

/-! ## Finding a slot by name -/

/-- Each name is that of at most one slot. -/
def NamesDistinct (layout : Layout) : Prop :=
  (layout.slots.map Slot.name).Nodup

theorem plan_namesDistinct (dim : Dimension) {vars : List Variable}
    (h : (vars.map (·.name)).Nodup) :
    (plan dim vars).NamesDistinct := by
  have hnames : (plan dim vars).slots.map Slot.name = vars.map (·.name) := by
    rw [← map_owner_plan dim vars, List.map_map, map_owner_plan]
    rfl
  rw [NamesDistinct, hnames]
  exact h

theorem slot?_eq_some_iff (hdistinct : layout.NamesDistinct) {name : String} {slot : Slot} :
    layout.slot? name = some slot ↔ slot ∈ layout.slots ∧ slot.name = name := by
  constructor
  · intro h
    exact ⟨List.mem_reverse.mp (List.mem_of_find?_eq_some h), by simpa using List.find?_some h⟩
  · rintro ⟨hmem, rfl⟩
    have hsome : (layout.slot? slot.name).isSome = true :=
      List.find?_isSome.mpr ⟨slot, List.mem_reverse.mpr hmem, beq_self_eq_true _⟩
    obtain ⟨found, hfound⟩ := Option.isSome_iff_exists.mp hsome
    have hname : found.name = slot.name := by simpa using List.find?_some hfound
    have hfoundmem := List.mem_reverse.mp (List.mem_of_find?_eq_some hfound)
    rw [hfound, List.inj_on_of_nodup_map hdistinct hfoundmem hmem hname]

/-- An index is that of a component of an element of the slot of a name. -/
def Holds (layout : Layout) (i : Nat) (c : Component) : Prop :=
  ∃ slot, layout.slot? c.name = some slot ∧ c.element < slot.arraySize ∧
    c.component < slot.components ∧
    i = slot.index c.element c.component

/-- Every index below the total is held once. -/
theorem existsUnique_holds {dim : Dimension} {vars : List Variable}
    (hnames : (vars.map (·.name)).Nodup) {i : Nat} (h : i < (plan dim vars).total) :
    ∃ c, (plan dim vars).Holds i c ∧ ∀ c', (plan dim vars).Holds i c' → c' = c := by
  have hdistinct := plan_namesDistinct dim hnames
  obtain ⟨slot, hslot, hcontains⟩ := exists_contains_of_lt_total h
  obtain ⟨element, helement, component, hcomponent, hindex⟩ :=
    Slot.exists_index_of_contains hcontains
  refine ⟨⟨slot.name, element, component⟩, ?_, ?_⟩
  · exact ⟨slot, (slot?_eq_some_iff hdistinct).mpr ⟨hslot, rfl⟩, helement, hcomponent, hindex.symm⟩
  · -- whatever holds the index does so in the same slot, and there at the same place
    rintro ⟨name', element', component'⟩ ⟨slot', hslot', helement', hcomponent', hindex'⟩
    obtain ⟨hmem', rfl⟩ := (slot?_eq_some_iff hdistinct).mp hslot'
    have hcontains' : slot'.Contains i := hindex' ▸ slot'.contains_index helement' hcomponent'
    obtain rfl := (plan_ordered dim vars).eq_of_contains hslot hmem' hcontains hcontains'
    obtain ⟨rfl, rfl⟩ := Slot.index_inj hcomponent hcomponent' (hindex.trans hindex')
    rfl

/-! ## Finding a slot by an index -/

/-- Halving finds where the elements that pass end, if they come first. -/
theorem partitionPoint_eq {α : Type} {test : α → Bool} {xs : List α}
    (hpartitioned : xs.Pairwise fun x y => test y = true → test x = true) :
    partitionPoint test xs = (xs.takeWhile test).length := by
  fun_induction partitionPoint test xs with
  | case1 xs hmiddle =>
      -- only an empty list has no middle
      have hlength := congrArg List.length hmiddle
      rw [List.length_drop, List.length_nil] at hlength
      rw [List.eq_nil_of_length_eq_zero (by omega : xs.length = 0), List.takeWhile_nil,
        List.length_nil]
  | case2 xs x rest hmiddle htest ih =>
      rw [← List.take_append_drop (xs.length / 2) xs, hmiddle] at hpartitioned
      obtain ⟨-, hrest, hfront⟩ := List.pairwise_append.mp hpartitioned
      have hpass : ∀ y ∈ xs.take (xs.length / 2), test y = true :=
        fun y hy => hfront y hy x (List.mem_cons_self ..) htest
      have hhalf : (xs.take (xs.length / 2)).length = xs.length / 2 := by
        rw [List.length_take]
        omega
      conv_rhs => rw [← List.take_append_drop (xs.length / 2) xs, hmiddle]
      rw [ih (List.pairwise_cons.mp hrest).2, List.takeWhile_append_of_pos hpass,
        List.takeWhile_cons_of_pos htest, List.length_append, List.length_cons, hhalf]
      omega
  | case3 xs x rest hmiddle htest ih =>
      have hsplit := List.take_append_drop (xs.length / 2) xs
      rw [hmiddle] at hsplit
      rw [← hsplit] at hpartitioned
      rw [ih (List.pairwise_append.mp hpartitioned).1]
      conv_rhs => rw [← hsplit]
      rw [List.takeWhile_append]
      split
      · rename_i hall
        rw [List.takeWhile_cons_of_neg htest, List.append_nil, hall]
      · rfl

/-- In front of the partition point there is an element that passes, whatever the list is. -/
theorem exists_of_partitionPoint {α : Type} {test : α → Bool} {xs : List α} {point : Nat}
    (h : partitionPoint test xs = point + 1) : ∃ x, xs[point]? = some x ∧ test x = true := by
  fun_induction partitionPoint test xs generalizing point with
  | case1 xs hmiddle => cases h
  | case2 xs x rest hmiddle htest ih =>
      have hget : ∀ k, xs[xs.length / 2 + k]? = (x :: rest)[k]? := by
        intro k
        rw [← hmiddle, List.getElem?_drop]
      cases hrest : partitionPoint test rest with
      | zero =>
          obtain rfl : point = xs.length / 2 + 0 := by omega
          exact ⟨x, hget 0, htest⟩
      | succ k =>
          obtain rfl : point = xs.length / 2 + (k + 1) := by omega
          obtain ⟨y, hy, htest⟩ := ih hrest
          exact ⟨y, (hget (k + 1)).trans hy, htest⟩
  | case3 xs x rest hmiddle htest ih =>
      obtain ⟨y, hy, htest⟩ := ih h
      rw [List.getElem?_take] at hy
      split at hy
      · exact ⟨y, hy, htest⟩
      · cases hy

/-- The slots that start at an index or before come first, as the search for the last of them
needs. -/
theorem Ordered.partitioned (hordered : layout.Ordered) (index : Nat) :
    layout.slots.Pairwise fun s t =>
      decide (t.offset ≤ index) = true → decide (s.offset ≤ index) = true := by
  refine List.Pairwise.imp (fun {s t} hle => ?_) hordered
  have hstop : s.stop = s.offset + s.size := rfl
  simp only [decide_eq_true_eq]
  omega

theorem mem_of_lastFrom? {index : Nat} {slot : Slot} (h : layout.lastFrom? index = some slot) :
    slot ∈ layout.slots ∧ slot.offset ≤ index := by
  unfold lastFrom? at h
  split at h
  · cases h
  · rename_i point hpoint
    obtain ⟨found, hfound, hstart⟩ := exists_of_partitionPoint hpoint
    obtain rfl := Option.some.inj (hfound.symm.trans h)
    exact ⟨List.mem_of_getElem? hfound, of_decide_eq_true hstart⟩

/-- The last slot that starts at an index or before is the one that contains it. -/
theorem Ordered.lastFrom?_eq (hordered : layout.Ordered) {slot : Slot} (hslot : slot ∈ layout.slots)
    {index : Nat} (hcontains : slot.Contains index) : layout.lastFrom? index = some slot := by
  obtain ⟨hstart, hstop⟩ := hcontains
  have hpoint := partitionPoint_eq (hordered.partitioned index)
  obtain ⟨before, after, heq⟩ := List.append_of_mem hslot
  unfold Ordered at hordered
  rw [heq] at hordered
  obtain ⟨-, hafter, hbefore⟩ := List.pairwise_append.mp hordered
  -- the slots before it start before it, and no later one starts at or before the index
  have hpass : ∀ s ∈ before, decide (s.offset ≤ index) = true := by
    intro s hs
    have hle := hbefore s hs slot (List.mem_cons_self ..)
    have hstop : s.stop = s.offset + s.size := rfl
    simp only [decide_eq_true_eq]
    omega
  have hlast : (slot :: after).takeWhile (fun s => decide (s.offset ≤ index)) = [slot] := by
    rw [List.takeWhile_cons, if_pos (decide_eq_true hstart)]
    cases after with
    | nil => rfl
    | cons next rest =>
        have hle := (List.pairwise_cons.mp hafter).1 next (List.mem_cons_self ..)
        rw [List.takeWhile_cons, if_neg]
        simp only [decide_eq_true_eq]
        omega
  rw [heq, List.takeWhile_append_of_pos hpass, hlast, List.length_append] at hpoint
  unfold lastFrom?
  rw [heq, hpoint]
  simp

/-- The place of an index in a slot is what `locate` finds. -/
theorem Ordered.locate_index (hordered : layout.Ordered) {slot : Slot} (hslot : slot ∈ layout.slots)
    {element component : Nat} (helement : element < slot.arraySize)
    (hcomponent : component < slot.components) :
    layout.locate (slot.index element component) = some ⟨slot.name, element, component⟩ := by
  have hcontains := slot.contains_index helement hcomponent
  obtain ⟨hdiv, hmod⟩ := slot.index_sub_div_mod element hcomponent
  have hinside : slot.index element component - slot.offset < slot.size := by
    obtain ⟨hstart, hstop⟩ := hcontains
    have hsize : slot.stop = slot.offset + slot.size := rfl
    omega
  unfold locate
  rw [hordered.lastFrom?_eq hslot hcontains]
  simp only [hinside, if_true, hdiv, hmod]

end Layout

end Constitutive
