import Constitutive.Proofs.Unknowns.Names
import Constitutive.Unknowns.Roster

/-!
# What declarations keep

A roster that has only been changed by declarations is `WellNamed`: its names are distinct
identifiers, and neither they nor their increments and residuals are reserved, and no declared name
is made from declared names, whichever of them came first.

The checks of `declare` are not symmetric.  The new name is compared with what can be made from the
old names; the increment and the residual of the new name are compared with the old names; and for
the block names that the new name is a part of, every old name is cut once, at its first cut into
known parts.  That one cut is enough because the roster was well named before: a cut into old names
alone does not exist, so the first cut involves the new name whenever any does
(`newBlockName?_eq_none_iff`).
-/

namespace Constitutive

/-! ## Names made from declared names -/

/-- A name is the residual, the increment or a block of some of the given names. -/
def MadeFrom (names : List String) (name : String) : Prop :=
  (∃ x ∈ names, name = residualName x) ∨ (∃ x ∈ names, name = incrementName x) ∨
    ∃ a ∈ names, ∃ b ∈ names, name = blockName a b

/-- None of the given names is made from them. -/
def NamesApart (names : List String) : Prop :=
  ∀ name ∈ names, ¬ MadeFrom names name

/-- A name is made from the given names and one more, and the one more has a part in it. -/
def MadeWith (names : List String) (extra name : String) : Prop :=
  name = residualName extra ∨ name = incrementName extra ∨
    ∃ a ∈ names ++ [extra], ∃ b ∈ names ++ [extra], (a = extra ∨ b = extra) ∧ name = blockName a b

theorem mem_append_singleton {names : List String} {extra name : String} :
    name ∈ names ++ [extra] ↔ name ∈ names ∨ name = extra := by
  rw [List.mem_append, List.mem_singleton]

/-- What is made from more names is made without or with the added one. -/
theorem madeFrom_append_singleton {names : List String} {extra name : String} :
    MadeFrom (names ++ [extra]) name ↔ MadeFrom names name ∨ MadeWith names extra name := by
  constructor
  · rintro (⟨x, hx, heq⟩ | ⟨x, hx, heq⟩ | ⟨a, ha, b, hb, heq⟩)
    · rcases mem_append_singleton.mp hx with hx | rfl
      · exact Or.inl (Or.inl ⟨x, hx, heq⟩)
      · exact Or.inr (Or.inl heq)
    · rcases mem_append_singleton.mp hx with hx | rfl
      · exact Or.inl (Or.inr (Or.inl ⟨x, hx, heq⟩))
      · exact Or.inr (Or.inr (Or.inl heq))
    · -- a block counts as made with the added name as soon as one of its parts is it
      by_cases hpart : a = extra ∨ b = extra
      · exact Or.inr (Or.inr (Or.inr ⟨a, ha, b, hb, hpart, heq⟩))
      · obtain ⟨hane, hbne⟩ := not_or.mp hpart
        have ha' : a ∈ names := (mem_append_singleton.mp ha).resolve_right hane
        have hb' : b ∈ names := (mem_append_singleton.mp hb).resolve_right hbne
        exact Or.inl (Or.inr (Or.inr ⟨a, ha', b, hb', heq⟩))
  · have hextra : extra ∈ names ++ [extra] := mem_append_singleton.mpr (Or.inr rfl)
    rintro ((⟨x, hx, heq⟩ | ⟨x, hx, heq⟩ | ⟨a, ha, b, hb, heq⟩) | heq | heq | ⟨a, ha, b,
      hb, -, heq⟩)
    · exact Or.inl ⟨x, List.mem_append_left _ hx, heq⟩
    · exact Or.inr (Or.inl ⟨x, List.mem_append_left _ hx, heq⟩)
    · exact Or.inr (Or.inr ⟨a, List.mem_append_left _ ha, b, List.mem_append_left _ hb, heq⟩)
    · exact Or.inl ⟨extra, hextra, heq⟩
    · exact Or.inr (Or.inl ⟨extra, hextra, heq⟩)
    · exact Or.inr (Or.inr ⟨a, ha, b, hb, heq⟩)

/-- No name has a part in itself: a made name is longer than each of its parts. -/
theorem not_madeWith_self (names : List String) (name : String) : ¬ MadeWith names name name := by
  rintro (heq | heq | ⟨a, -, b, -, hpart, heq⟩)
  · exact absurd (congrArg String.length heq) (Nat.ne_of_lt (length_lt_residualName name))
  · exact absurd (congrArg String.length heq) (Nat.ne_of_lt (length_lt_incrementName name))
  · have hlength := congrArg String.length heq
    rw [length_blockName] at hlength
    rcases hpart with rfl | rfl <;> omega

/-- When one more name keeps all names apart. -/
theorem namesApart_append_singleton {names : List String} {name : String}
    (hapart : NamesApart names) :
    NamesApart (names ++ [name]) ↔
      ¬ MadeFrom names name ∧ ∀ v ∈ names, ¬ MadeWith names name v := by
  constructor
  · intro hall
    refine ⟨fun hmade => ?_, fun v hv hmade => ?_⟩
    · exact hall name (mem_append_singleton.mpr (Or.inr rfl))
        (madeFrom_append_singleton.mpr (Or.inl hmade))
    · exact hall v (List.mem_append_left _ hv) (madeFrom_append_singleton.mpr (Or.inr hmade))
  · rintro ⟨hnew, hold⟩ v hv hmade
    rcases mem_append_singleton.mp hv with hv | rfl
    · rcases madeFrom_append_singleton.mp hmade with hmade | hmade
      · exact hapart v hv hmade
      · exact hold v hv hmade
    · rcases madeFrom_append_singleton.mp hmade with hmade | hmade
      · exact hnew hmade
      · exact not_madeWith_self names v hmade

namespace Roster

/-- The declared names, in the order of their declaration. -/
def names (roster : Roster) : List String :=
  roster.vars.map (·.name)

theorem contains_iff {roster : Roster} {name : String} :
    roster.contains name = true ↔ name ∈ roster.names := by
  simp [contains, names]

theorem isReserved_iff {roster : Roster} {name : String} :
    roster.isReserved name = true ↔ name ∈ roster.reserved := by
  simp [isReserved]

/-- What every roster made by declarations is like. -/
structure WellNamed (roster : Roster) : Prop where
  /-- No variable is declared twice. -/
  nodup : roster.names.Nodup
  identifiers : ∀ name ∈ roster.names, isVariableName name = true
  /-- Arrays have elements. -/
  sized : ∀ v ∈ roster.vars, 1 ≤ v.arraySize
  /-- No declared name is reserved. -/
  unreserved : ∀ name ∈ roster.names, name ∉ roster.reserved
  /-- No increment of a variable is reserved. -/
  increments_unreserved : ∀ name ∈ roster.names, incrementName name ∉ roster.reserved
  /-- No residual of a variable is reserved. -/
  residuals_unreserved : ∀ name ∈ roster.names, residualName name ∉ roster.reserved
  /-- No declared name is made from declared names. -/
  apart : NamesApart roster.names

/-- A made name that stands against a new name: the new name itself, which is made from declared
names; a declared name, which is made with the new one; or a reserved name, which is its increment
or residual. -/
def Collides (roster : Roster) (name made : String) : Prop :=
  (made = name ∧ MadeFrom roster.names name) ∨
    (made ∈ roster.names ∧ MadeWith roster.names name made) ∨
    (made ∈ roster.reserved ∧ (made = residualName name ∨ made = incrementName name))

/-! ## The three checks -/

theorem ne_empty_of_isVariableName {name : String} (h : isVariableName name = true) :
    name ≠ "" := by
  rintro rfl
  cases h

variable {roster : Roster} {name : String}

/-- Declared names that meet a block name are its parts in the sense of `IsBlockOf`. -/
theorem isBlockOf_contains (hidentifiers : ∀ v ∈ roster.names, isVariableName v = true)
    {a b : String} :
    IsBlockOf roster.contains name a b ↔ a ∈ roster.names ∧ b ∈ roster.names ∧
      name = blockName a b := by
  constructor
  · intro h
    exact ⟨contains_iff.mp h.first_known, contains_iff.mp h.second_known, h.eq_blockName⟩
  · rintro ⟨ha, hb, heq⟩
    exact ⟨heq, ne_empty_of_isVariableName (hidentifiers a ha),
      ne_empty_of_isVariableName (hidentifiers b hb), contains_iff.mpr ha, contains_iff.mpr hb⟩

theorem madeName?_sound {made : String} (h : roster.madeName? name = some made) :
    made = name ∧ MadeFrom roster.names name := by
  simp only [madeName?, Option.orElse_eq_orElse, Option.orElse_eq_or, Option.or_eq_some_iff,
    Option.map_eq_some_iff, Option.filter_eq_some_iff, dropFirst?_residual, dropFirst?_increment,
    contains_iff] at h
  rcases h with ⟨x, ⟨heq, hx⟩, rfl⟩ | ⟨-, ⟨x, ⟨heq, hx⟩, rfl⟩ | ⟨-, ⟨a, b⟩, hsplit, rfl⟩⟩
  · exact ⟨heq.symm, Or.inl ⟨x, hx, heq⟩⟩
  · exact ⟨heq.symm, Or.inr (Or.inl ⟨x, hx, heq⟩)⟩
  · have hblock := (splitBlockName?_eq_some_iff.mp hsplit).1
    exact ⟨hblock.eq_blockName.symm, Or.inr (Or.inr ⟨a, contains_iff.mp hblock.first_known, b,
      contains_iff.mp hblock.second_known, hblock.eq_blockName⟩)⟩

/-- The first check passes exactly if the new name is not made from declared names. -/
theorem madeName?_eq_none_iff (hidentifiers : ∀ v ∈ roster.names, isVariableName v = true) :
    roster.madeName? name = none ↔ ¬ MadeFrom roster.names name := by
  constructor
  · intro hnone hmade
    simp only [madeName?, Option.orElse_eq_orElse, Option.orElse_eq_or, Option.or_eq_none_iff,
      Option.map_eq_none_iff, Option.filter_eq_none_iff, dropFirst?_residual, dropFirst?_increment,
      contains_iff] at hnone
    obtain ⟨hresidual, hincrement, hsplit⟩ := hnone
    rcases hmade with ⟨x, hx, heq⟩ | ⟨x, hx, heq⟩ | ⟨a, ha, b, hb, heq⟩
    · exact hresidual x heq hx
    · exact hincrement x heq hx
    · obtain ⟨c, e, hfound⟩ :=
        exists_splitBlockName? ((isBlockOf_contains hidentifiers).mpr ⟨ha, hb, heq⟩)
      rw [hsplit] at hfound
      cases hfound
  · intro hmade
    cases hfound : roster.madeName? name with
    | none => rfl
    | some made => exact absurd (madeName?_sound hfound).2 hmade

theorem takenName?_sound {made : String} (h : roster.takenName? name = some made) :
    (made = residualName name ∨ made = incrementName name) ∧
      (made ∈ roster.reserved ∨ made ∈ roster.names) := by
  have hmem := List.mem_of_find?_eq_some h
  have htaken := List.find?_some h
  simp only [Bool.or_eq_true, isReserved_iff, contains_iff] at htaken
  exact ⟨by simpa using hmem, htaken⟩

/-- The second check passes exactly if the increment and the residual of the new name are free. -/
theorem takenName?_eq_none_iff :
    roster.takenName? name = none ↔
      (residualName name ∉ roster.reserved ∧ incrementName name ∉ roster.reserved) ∧
        residualName name ∉ roster.names ∧ incrementName name ∉ roster.names := by
  simp only [takenName?, List.find?_eq_none, List.forall_mem_cons, List.not_mem_nil, false_imp_iff,
    implies_true, and_true, Bool.or_eq_true, isReserved_iff, contains_iff, not_or]
  exact and_and_and_comm

/-- The names that are known once the new name is declared. -/
theorem known_iff {c : String} :
    (c == name || roster.contains c) = true ↔ c ∈ roster.names ++ [name] := by
  rw [Bool.or_eq_true, beq_iff_eq, contains_iff, mem_append_singleton]
  exact Or.comm

theorem newBlockName?_sound {made : String} (h : roster.newBlockName? name = some made) :
    made ∈ roster.names ∧ ∃ a ∈ roster.names ++ [name], ∃ b ∈ roster.names ++ [name],
      (a = name ∨ b = name) ∧ made = blockName a b := by
  simp only [newBlockName?, Option.map_eq_some_iff] at h
  obtain ⟨⟨a, b⟩, hfound, rfl⟩ := h
  have hpart := List.find?_some hfound
  obtain ⟨v, hv, hsplit⟩ := List.mem_filterMap.mp (List.mem_of_find?_eq_some hfound)
  have hblock := (splitBlockName?_eq_some_iff.mp hsplit).1
  have hname : v.name = blockName a b := hblock.eq_blockName
  refine ⟨hname ▸ List.mem_map_of_mem hv, a, known_iff.mp hblock.first_known, b,
    known_iff.mp hblock.second_known, ?_, rfl⟩
  simpa using hpart

/-- The third check passes exactly if no declared name is a block name with the new name as a
part. -/
theorem newBlockName?_eq_none_iff (hwell : roster.WellNamed) (hname : name ≠ "") :
    roster.newBlockName? name = none ↔
      ∀ v ∈ roster.names, ∀ a ∈ roster.names ++ [name], ∀ b ∈ roster.names ++ [name],
        a = name ∨ b = name → v ≠ blockName a b := by
  constructor
  · rintro hnone v hv a ha b hb hpart rfl
    simp only [newBlockName?, Option.map_eq_none_iff, List.find?_eq_none] at hnone
    obtain ⟨w, hw, hwname⟩ := List.mem_map.mp hv
    have hne : ∀ c ∈ roster.names ++ [name], c ≠ "" := by
      intro c hc
      rcases mem_append_singleton.mp hc with hc | rfl
      · exact ne_empty_of_isVariableName (hwell.identifiers c hc)
      · exact hname
    -- the declared name has some cut into known parts, so it has a first one
    have hblock : IsBlockOf (fun c => c == name || roster.contains c) w.name a b :=
      ⟨hwname, hne a ha, hne b hb, known_iff.mpr ha, known_iff.mpr hb⟩
    obtain ⟨c, e, hsplit⟩ := exists_splitBlockName? hblock
    have hfirst := (splitBlockName?_eq_some_iff.mp hsplit).1
    have hnopart := hnone (c, e) (List.mem_filterMap.mpr ⟨w, hw, hsplit⟩)
    simp only [Bool.or_eq_true, beq_iff_eq, not_or] at hnopart
    -- without the new name it would be a cut into declared names, of which there is none
    refine hwell.apart w.name (List.mem_map_of_mem hw)
      (Or.inr (Or.inr ⟨c, ?_, e, ?_, hfirst.eq_blockName⟩))
    · exact (mem_append_singleton.mp (known_iff.mp hfirst.first_known)).resolve_right hnopart.1
    · exact (mem_append_singleton.mp (known_iff.mp hfirst.second_known)).resolve_right hnopart.2
  · intro hfree
    cases hfound : roster.newBlockName? name with
    | none => rfl
    | some made =>
        obtain ⟨hmem, a, ha, b, hb, hpart, heq⟩ := newBlockName?_sound hfound
        exact absurd heq (hfree made hmem a ha b hb hpart)

theorem collision?_sound {made : String} (h : roster.collision? name = some made) :
    roster.Collides name made := by
  simp only [collision?, Option.orElse_eq_orElse, Option.orElse_eq_or, Option.or_eq_some_iff] at h
  rcases h with hmade | ⟨-, htaken | ⟨-, hblock⟩⟩
  · exact Or.inl (madeName?_sound hmade)
  · obtain ⟨hform, hreserved | hdeclared⟩ := takenName?_sound htaken
    · exact Or.inr (Or.inr ⟨hreserved, hform⟩)
    · exact Or.inr (Or.inl ⟨hdeclared, hform.imp_right Or.inl⟩)
  · obtain ⟨hdeclared, hparts⟩ := newBlockName?_sound hblock
    exact Or.inr (Or.inl ⟨hdeclared, Or.inr (Or.inr hparts)⟩)

/-- All checks together: the new name keeps the names apart, and its increment and residual are not
reserved. -/
theorem collision?_eq_none_iff (hwell : roster.WellNamed) (hname : isVariableName name = true) :
    roster.collision? name = none ↔
      NamesApart (roster.names ++ [name]) ∧ residualName name ∉ roster.reserved ∧
        incrementName name ∉ roster.reserved := by
  simp only [collision?, Option.orElse_eq_orElse, Option.orElse_eq_or, Option.or_eq_none_iff]
  rw [madeName?_eq_none_iff hwell.identifiers, takenName?_eq_none_iff,
    newBlockName?_eq_none_iff hwell (ne_empty_of_isVariableName hname),
    namesApart_append_singleton hwell.apart]
  constructor
  · rintro ⟨hmade, ⟨hreserved, hresidual, hincrement⟩, hblock⟩
    -- the last two checks together cover whatever is made with the new name
    refine ⟨⟨hmade, ?_⟩, hreserved⟩
    rintro v hv (rfl | rfl | ⟨a, ha, b, hb, hpart, heq⟩)
    · exact hresidual hv
    · exact hincrement hv
    · exact hblock v hv a ha b hb hpart heq
  · rintro ⟨⟨hmade, hwith⟩, hreserved⟩
    refine ⟨hmade, ⟨hreserved, ?_, ?_⟩, ?_⟩
    · exact fun hmem => hwith _ hmem (Or.inl rfl)
    · exact fun hmem => hwith _ hmem (Or.inr (Or.inl rfl))
    · exact fun v hv a ha b hb hpart heq => hwith v hv (Or.inr (Or.inr ⟨a, ha, b, hb, hpart, heq⟩))

/-! ## One declaration -/

/-- A name that passes all checks but the one for collisions. -/
structure Admissible (roster : Roster) (name : String) (arraySize : Nat) : Prop where
  identifier : isVariableName name = true
  sized : arraySize ≠ 0
  unreserved : name ∉ roster.reserved
  fresh : name ∉ roster.names

theorem declare_of_admissible {rank : Rank} {arraySize : Nat}
    (h : roster.Admissible name arraySize) :
    roster.declare name rank arraySize =
      match roster.collision? name with
      | some made => .error (.generatedNameCollision name made)
      | none => .ok { roster with vars := roster.vars ++ [⟨name, rank, arraySize⟩] } := by
  have hreserved : ¬ roster.isReserved name = true := fun hr => h.unreserved (isReserved_iff.mp hr)
  have hcontains : ¬ roster.contains name = true := fun hc => h.fresh (contains_iff.mp hc)
  have hidentifier : ¬ (!isVariableName name) = true := by simp [h.identifier]
  unfold declare
  exact (if_neg hidentifier).trans <| (if_neg h.sized).trans <| (if_neg hreserved).trans <|
    if_neg hcontains

theorem admissible_of_declare_eq_ok {rank : Rank} {arraySize : Nat} {next : Roster}
    (h : roster.declare name rank arraySize = .ok next) : roster.Admissible name arraySize := by
  unfold declare at h
  split at h
  · cases h
  · rename_i hidentifier
    split at h
    · cases h
    · rename_i hsized
      split at h
      · cases h
      · rename_i hreserved
        split at h
        · cases h
        · rename_i hcontains
          exact ⟨by simpa using hidentifier, hsized, fun hr => hreserved (isReserved_iff.mpr hr),
            fun hc => hcontains (contains_iff.mpr hc)⟩

/-- What a successful declaration does, and when there is one. -/
theorem declare_eq_ok_iff {rank : Rank} {arraySize : Nat} {next : Roster} :
    roster.declare name rank arraySize = .ok next ↔
      roster.Admissible name arraySize ∧ roster.collision? name = none ∧
        next = { roster with vars := roster.vars ++ [⟨name, rank, arraySize⟩] } := by
  constructor
  · intro h
    have hadmissible := admissible_of_declare_eq_ok h
    rw [declare_of_admissible hadmissible] at h
    split at h
    · cases h
    · rename_i hnone
      exact ⟨hadmissible, hnone, (Except.ok.inj h).symm⟩
  · rintro ⟨hadmissible, hnone, rfl⟩
    rw [declare_of_admissible hadmissible, hnone]

/-- An admissible name is refused exactly for a collision. -/
theorem declare_eq_collision_iff {rank : Rank} {arraySize : Nat} {made : String}
    (h : roster.Admissible name arraySize) :
    roster.declare name rank arraySize = .error (.generatedNameCollision name made) ↔
      roster.collision? name = some made := by
  rw [declare_of_admissible h]
  cases roster.collision? name with
  | none => exact ⟨(nomatch ·), (nomatch ·)⟩
  | some found =>
      constructor
      · intro heq
        cases heq
        rfl
      · intro heq
        cases heq
        rfl

/-- A successful declaration keeps a roster well named. -/
theorem WellNamed.declare {rank : Rank} {arraySize : Nat} {next : Roster} (hwell : roster.WellNamed)
    (h : roster.declare name rank arraySize = .ok next) : next.WellNamed := by
  obtain ⟨hadmissible, hnone, rfl⟩ := declare_eq_ok_iff.mp h
  obtain ⟨hapart, hresidual, hincrement⟩ :=
    (collision?_eq_none_iff hwell hadmissible.identifier).mp hnone
  have hnames : ({ roster with vars := roster.vars ++ [⟨name, rank, arraySize⟩] } : Roster).names =
      roster.names ++ [name] := by
    simp [names]
  -- what holds of the old names and of the new one holds of all names
  have hall : ∀ p : String → Prop, (∀ v ∈ roster.names, p v) → p name →
      ∀ v ∈ roster.names ++ [name], p v := by
    intro p hold hnew v hv
    rcases mem_append_singleton.mp hv with hv | rfl
    · exact hold v hv
    · exact hnew
  refine ⟨?_, ?_, ?_, ?_, ?_, ?_, ?_⟩
  · rw [hnames]
    refine List.nodup_append.mpr ⟨hwell.nodup,
      List.nodup_cons.mpr ⟨List.not_mem_nil, List.nodup_nil⟩, ?_⟩
    intro v hv w hw heq
    rw [heq, List.mem_singleton.mp hw] at hv
    exact hadmissible.fresh hv
  · rw [hnames]
    exact hall _ hwell.identifiers hadmissible.identifier
  · intro v hv
    rcases List.mem_append.mp hv with hv | hv
    · exact hwell.sized v hv
    · obtain rfl := List.mem_singleton.mp hv
      exact Nat.one_le_iff_ne_zero.mpr hadmissible.sized
  · rw [hnames]
    exact hall _ hwell.unreserved hadmissible.unreserved
  · rw [hnames]
    exact hall _ hwell.increments_unreserved hincrement
  · rw [hnames]
    exact hall _ hwell.residuals_unreserved hresidual
  · rw [hnames]
    exact hapart

/-! ## Any sequence of declarations -/

/-- The roster after a declaration, which is the old one if the declaration fails. -/
def attempt (roster : Roster) (v : Variable) : Roster :=
  match roster.declare v.name v.rank v.arraySize with
  | .ok next => next
  | .error _ => roster

/-- A new roster in which further names have been reserved. -/
def withReserved (reservations : List String) : Roster :=
  reservations.foldl reserve {}

/-- The roster after some reservations and then some declarations, successful or not. -/
def declared (reservations : List String) (calls : List Variable) : Roster :=
  calls.foldl attempt (withReserved reservations)

/-- The declarations that succeed when they are made one after the other. -/
def accepted (roster : Roster) : List Variable → List Variable
  | [] => []
  | v :: rest =>
    match roster.declare v.name v.rank v.arraySize with
    | .ok next => v :: next.accepted rest
    | .error _ => roster.accepted rest

/-- A declaration succeeds and appends its variable, or it leaves the roster as it was. -/
theorem attempt_cases (roster : Roster) (v : Variable) :
    (∃ next, roster.declare v.name v.rank v.arraySize = .ok next ∧ roster.attempt v = next ∧
        next = { roster with vars := roster.vars ++ [v] }) ∨
      ∃ fault, roster.declare v.name v.rank v.arraySize = .error fault ∧
      roster.attempt v = roster := by
  unfold attempt
  cases h : roster.declare v.name v.rank v.arraySize with
  | ok next => exact Or.inl ⟨next, rfl, rfl, (declare_eq_ok_iff.mp h).2.2⟩
  | error fault => exact Or.inr ⟨fault, rfl, rfl⟩

theorem WellNamed.attempt (hwell : roster.WellNamed) (v : Variable) :
    (roster.attempt v).WellNamed := by
  obtain ⟨next, hok, heq, -⟩ | ⟨fault, -, heq⟩ := attempt_cases roster v
  · rw [heq]
    exact hwell.declare hok
  · rw [heq]
    exact hwell

theorem WellNamed.foldl_attempt (hwell : roster.WellNamed) (calls : List Variable) :
    (calls.foldl Roster.attempt roster).WellNamed := by
  induction calls generalizing roster with
  | nil => exact hwell
  | cons v rest ih => exact ih (hwell.attempt v)

theorem reserved_foldl_attempt (roster : Roster) (calls : List Variable) :
    (calls.foldl attempt roster).reserved = roster.reserved := by
  induction calls generalizing roster with
  | nil => rfl
  | cons v rest ih =>
      rw [List.foldl_cons, ih]
      obtain ⟨next, -, heq, hnext⟩ | ⟨fault, -, heq⟩ := attempt_cases roster v
      · rw [heq, hnext]
      · rw [heq]

theorem vars_foldl_attempt (roster : Roster) (calls : List Variable) :
    (calls.foldl attempt roster).vars = roster.vars ++ roster.accepted calls := by
  induction calls generalizing roster with
  | nil => simp [accepted]
  | cons v rest ih =>
      rw [List.foldl_cons, ih, accepted]
      obtain ⟨next, hok, heq, hnext⟩ | ⟨fault, herror, heq⟩ := attempt_cases roster v
      · rw [hok, heq, hnext]
        simp
      · rw [herror, heq]

theorem foldl_reserve (roster : Roster) (reservations : List String) :
    reservations.foldl reserve roster =
      { roster with reserved := reservations.reverse ++ roster.reserved } := by
  induction reservations generalizing roster with
  | nil => rfl
  | cons name rest ih =>
      rw [List.foldl_cons, ih]
      simp [reserve]

theorem vars_withReserved (reservations : List String) : (withReserved reservations).vars = [] := by
  rw [withReserved, foldl_reserve]

theorem wellNamed_of_vars_eq_nil (h : roster.vars = []) : roster.WellNamed := by
  have hnames : roster.names = [] := by
    rw [names, h, List.map_nil]
  constructor <;> simp [hnames, h, NamesApart]

theorem declared_wellNamed (reservations : List String) (calls : List Variable) :
    (declared reservations calls).WellNamed :=
  (wellNamed_of_vars_eq_nil (vars_withReserved reservations)).foldl_attempt calls

theorem isReserved_declared (reservations : List String) (calls : List Variable) (name : String) :
    (declared reservations calls).isReserved name = true ↔ name ∈ reservations ∨
      name ∈ reservedNames := by
  rw [isReserved_iff, declared, reserved_foldl_attempt, withReserved, foldl_reserve,
    List.mem_append, List.mem_reverse]

/-- **Declarations.**  Whatever is reserved first and declared then, with whatever success, the
roster is well named, it lists the successful declarations in their order, and a failed declaration
changes nothing.  An admissible name is refused for a collision exactly if with it the names would
not be apart, or its residual or increment is reserved; the fault then names a name that does
collide. -/
theorem declarations_keep_names_apart (reservations : List String) (calls : List Variable) :
    let roster := declared reservations calls
    roster.WellNamed ∧
      (∀ name, roster.contains name = true ↔ ∃ v ∈ roster.vars, v.name = name) ∧
      roster.vars = (withReserved reservations).accepted calls ∧
      (∀ name, roster.isReserved name = true ↔ name ∈ reservations ∨ name ∈ reservedNames) ∧
      (∀ v fault, roster.declare v.name v.rank v.arraySize = .error fault →
        roster.attempt v = roster) ∧
      ∀ name rank arraySize, roster.Admissible name arraySize →
        ((∃ made, roster.declare name rank arraySize = .error (.generatedNameCollision name made)) ↔
          ¬ NamesApart (roster.names ++ [name]) ∨ residualName name ∈ roster.reserved ∨
            incrementName name ∈ roster.reserved) ∧
        ∀ made, roster.declare name rank arraySize = .error (.generatedNameCollision name made) →
          roster.Collides name made := by
  intro roster
  have hwell : roster.WellNamed := declared_wellNamed reservations calls
  refine ⟨hwell, ?_, ?_, isReserved_declared reservations calls, ?_, ?_⟩
  · intro name
    rw [contains_iff, names, List.mem_map]
  · show (declared reservations calls).vars = _
    rw [declared, vars_foldl_attempt, vars_withReserved, List.nil_append]
  · intro v fault herror
    rw [attempt, herror]
  · intro name rank arraySize hadmissible
    constructor
    · have hnone := collision?_eq_none_iff hwell hadmissible.identifier
      simp only [declare_eq_collision_iff hadmissible]
      rw [← Option.isSome_iff_exists, Option.isSome_iff_ne_none, ne_eq, hnone,
        Classical.not_and_iff_not_or_not, Classical.not_and_iff_not_or_not, Classical.not_not,
        Classical.not_not]
    · intro made herror
      exact collision?_sound ((declare_eq_collision_iff hadmissible).mp herror)

/-- A new name can be refused for a name that was declared before any of its parts. -/
theorem declarations_keep_names_apart_of_block :
    let roster :=
  declared ["young"] [⟨"dfa_ddb", .scalar, 1⟩, ⟨"young", .vector, 2⟩, ⟨"a", .scalar, 3⟩]
    roster.Admissible "b" 1 ∧ roster.Collides "b" "dfa_ddb" ∧
    ¬ NamesApart (roster.names ++ ["b"]) := by
  intro roster
  have hadmissible : roster.Admissible "b" 1 := ⟨by decide, by decide, by decide, by decide⟩
  have hrefused : roster.declare "b" .scalar 1 = .error (.generatedNameCollision "b" "dfa_ddb") :=
    rfl
  have hall := (declarations_keep_names_apart ["young"]
    [⟨"dfa_ddb", .scalar, 1⟩, ⟨"young", .vector, 2⟩, ⟨"a", .scalar, 3⟩]).2.2.2.2.2 "b" .scalar
    1 hadmissible
  refine ⟨hadmissible, hall.2 "dfa_ddb" hrefused, ?_⟩
  rcases hall.1.mp ⟨"dfa_ddb", hrefused⟩ with hapart | hreserved | hreserved
  · exact hapart
  · exact absurd hreserved (by decide)
  · exact absurd hreserved (by decide)

end Roster

end Constitutive
