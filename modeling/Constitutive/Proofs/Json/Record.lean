import Constitutive.Json.Record
import Mathlib.Data.List.Forall2
import Mathlib.Data.List.Perm.Basic

/-!
# The spellings of a record

A record can be spelled in many ways.  As an object it shows its fields in any order, some of which
may be left out, among any other fields; as an array it lists the values of its fields in order,
some of which may be missing at the end.  `SpellsRecord` says so once for all records, given which
values stand for a field and whether it may be left out.

The reading of a record accepts exactly these documents, and finds in them a value that stands for
each field that is not left out (`spellsRecord_iff`).  For an object the point is that the fields of
the record are shown at most once, so that it does not matter which of several fields of one name
would be found first (`exists_shown_iff`).
-/

namespace Constitutive.Json

/-! ## Values without parts -/

/-- A string with a given text. -/
def SpellsText (s : String) (j : Json) : Prop :=
  j = .text s

/-- A natural number below a bound. -/
def SpellsNat (bound n : ℕ) (j : Json) : Prop :=
  j = .nat n ∧ n < bound

/-- A number whose digits are read as a given double. -/
def SpellsFloat (x : Float) (j : Json) : Prop :=
  ∃ n : Number, j = .number n ∧ n.toFloat? = some x

/-- A name chosen among several. -/
def SpellsChoice (name : String) (j : Json) : Prop :=
  j = .text name ∨ j = .record [(name, .null)]

theorem spellsText_text (s : String) : SpellsText s (.text s) :=
  rfl

theorem text?_eq_some_iff {j : Json} {s : String} : j.text? = some s ↔ SpellsText s j := by
  cases j <;> simp [text?, SpellsText, text]

theorem bool?_eq_some_iff {j : Json} {b : Bool} : j.bool? = some b ↔ j = .bool b := by
  cases j <;> simp [bool?]

theorem array?_eq_some_iff {j : Json} {items : List Json} :
    j.array? = some items ↔ j = .array items := by
  cases j <;> simp [array?]

theorem toNat?_eq_some_iff {n : Number} {k : ℕ} : n.toNat? = some k ↔ n = .ofNat k := by
  obtain ⟨negative, whole, decimals, exponent⟩ := n
  simp only [Number.toNat?, Number.ofNat, Option.ite_none_right_eq_some, Option.some.injEq,
    Number.mk.injEq]
  tauto

theorem nat?_eq_some_iff {bound : ℕ} {j : Json} {k : ℕ} :
    j.nat? bound = some k ↔ SpellsNat bound k j := by
  cases j <;> simp [nat?, SpellsNat, nat, toNat?_eq_some_iff, Option.filter_eq_some_iff]

theorem float?_eq_some_iff {j : Json} {x : Float} : j.float? = some x ↔ SpellsFloat x j := by
  cases j <;> simp [float?, SpellsFloat]

theorem choice?_eq_some_iff {j : Json} {name : String} :
    j.choice? = some name ↔ SpellsChoice name j := by
  unfold choice?
  split
  · simp [SpellsChoice, text, record]
  · simp [SpellsChoice, text, record]
  · rename_i hstring hobject
    refine iff_of_false (by simp) ?_
    rintro (rfl | rfl)
    · exact hstring _ rfl
    · exact hobject _ rfl

/-! ## Lists and values that may be nothing -/

/-- An array of documents that stand for the members of a list. -/
def SpellsList {α : Type} (spells : α → Json → Prop) (members : List α) (j : Json) : Prop :=
  ∃ items, j = .array items ∧ List.Forall₂ spells members items

/-- A document that stands for a value, or `null` if there is none. -/
def SpellsOption {α : Type} (spells : α → Json → Prop) : Option α → Json → Prop
  | none, j => j = .null
  | some a, j => spells a j

/-- A reader accepts exactly the documents that stand for some value, and gives that value. -/
def Reads {α : Type} (read : Json → Option α) (spells : α → Json → Prop) : Prop :=
  ∀ j a, read j = some a ↔ spells a j

section Readers

variable {α : Type} {read : Json → Option α} {spells : α → Json → Prop}

theorem Reads.list (hread : Reads read spells) :
    Reads (fun j => j.array?.bind (·.mapM read)) (SpellsList spells) := by
  have hmapM : ∀ (items : List Json) (members : List α),
      items.mapM read = some members ↔ List.Forall₂ spells members items := by
    intro items
    induction items with
    | nil => simp
    | cons item items ih =>
        intro members
        rw [List.mapM_cons, List.forall₂_cons_right_iff]
        simp only [Option.bind_eq_bind, Option.bind_eq_some_iff, Option.pure_def, Option.some.injEq,
          hread item, ih]
        constructor
        · rintro ⟨a, ha, rest, hrest, rfl⟩
          exact ⟨a, rest, ha, hrest, rfl⟩
        · rintro ⟨a, rest, ha, hrest, rfl⟩
          exact ⟨a, ha, rest, hrest, rfl⟩
  intro j members
  simp only [Option.bind_eq_some_iff, array?_eq_some_iff, hmapM, SpellsList]

theorem Reads.option (hread : Reads read spells) (hnull : read .null = none) :
    Reads (nullable read) (SpellsOption spells) := by
  intro j value
  by_cases hj : j = .null
  · subst hj
    cases value with
    | none => simp [nullable, SpellsOption]
    | some a => simp [nullable, SpellsOption, ← hread .null a, hnull]
  · have hvalue : nullable read j = (read j).map some := by
      cases j with
      | null => exact absurd rfl hj
      | _ => rfl
    cases value with
    | none => simp [hvalue, SpellsOption, hj]
    | some a => simp [hvalue, SpellsOption, ← hread j a]

end Readers

/-! ## Records -/

/-- What a record says of one of its fields. -/
structure Field where
  name : String
  /-- The values that stand for the field. -/
  spelled : Json → Prop
  /-- Whether the field may be left out. -/
  omissible : Prop := False

/-- A field is shown with a value that stands for it, or it is left out. -/
def Field.Holds (field : Field) : Option Json → Prop
  | none => field.omissible
  | some value => field.spelled value

/-- The fields of a record in order, without some of those that may be left out. -/
inductive Shown : List Field → List (String × Json) → Prop where
  | nil : Shown [] []
  | shown {field : Field} {value : Json} {fields : List Field} {entries : List (String × Json)} :
      field.spelled value → Shown fields entries →
      Shown (field :: fields) ((field.name, value) :: entries)
  | omitted {field : Field} {fields : List Field} {entries : List (String × Json)} :
      field.omissible → Shown fields entries → Shown (field :: fields) entries

/-- The values of the fields of a record in order, without some at the end that may be left out. -/
inductive Listed : List Field → List Json → Prop where
  | nil {fields : List Field} : (∀ field ∈ fields, field.omissible) → Listed fields []
  | cons {field : Field} {value : Json} {fields : List Field} {values : List Json} :
      field.spelled value → Listed fields values → Listed (field :: fields) (value :: values)

/-- The documents that stand for a record with given fields. -/
inductive SpellsRecord (fields : List Field) : Json → Prop where
  /-- The fields of the record and others, in any order. -/
  | object {shown others entries : List (String × Json)} : Shown fields shown →
      (∀ entry ∈ others, entry.1 ∉ fields.map Field.name) → entries.Perm (shown ++ others) →
      SpellsRecord fields (.record entries)
  | array {values : List Json} : Listed fields values → SpellsRecord fields (.array values)

/-- A record can be written as the object of its fields in order. -/
theorem SpellsRecord.of_shown {fields : List Field} {entries : List (String × Json)}
    (h : Shown fields entries) :
    SpellsRecord fields (.record entries) := by
  have hperm : entries.Perm (entries ++ []) := by simp
  exact .object h (by simp) hperm

/-! ## Reading an array -/

theorem holds_replicate_iff {fields : List Field} :
    List.Forall₂ Field.Holds fields (List.replicate fields.length none) ↔ ∀ field ∈ fields,
      field.omissible := by
  induction fields with
  | nil => simp
  | cons field fields ih => simp [List.replicate_succ, Field.Holds, ih]

theorem listed_iff {fields : List Field} {values : List Json} :
    Listed fields values ↔ values.length ≤ fields.length ∧
      List.Forall₂ Field.Holds fields (values.map some ++
        List.replicate (fields.length - values.length) none) := by
  induction fields generalizing values with
  | nil =>
      cases values with
      | nil => simpa using Listed.nil (by simp)
      | cons value values => exact iff_of_false (fun h => nomatch h) (by simp)
  | cons field fields ih =>
      cases values with
      | nil =>
          constructor
          · intro h
            cases h with
            | nil homissible => exact ⟨Nat.zero_le _, holds_replicate_iff.mpr homissible⟩
          · intro h
            exact .nil (holds_replicate_iff.mp h.2)
      | cons value values =>
          have hcons : Listed (field :: fields) (value :: values) ↔ field.spelled value ∧
              Listed fields values := by
            constructor
            · intro h
              cases h with
              | cons hvalue hrest => exact ⟨hvalue, hrest⟩
            · intro h
              exact .cons h.1 h.2
          rw [hcons, ih]
          simp only [List.length_cons, Nat.add_le_add_iff_right, Nat.add_sub_add_right,
            List.map_cons, List.cons_append, List.forall₂_cons, Field.Holds]
          tauto

/-! ## Reading an object -/

/-- Among the entries of an object, a field stands once, or not at all if it may be left out. -/
def Field.Stands (field : Field) (entries : List (String × Json)) : Prop :=
  entries.filter (·.1 == field.name) = [] ∧ field.omissible ∨
    ∃ value, entries.filter (·.1 == field.name) = [(field.name, value)] ∧ field.spelled value

theorem lookup_eq_head?_filter (name : String) (entries : List (String × Json)) :
    entries.lookup name = (entries.filter (·.1 == name)).head?.map (·.2) := by
  induction entries with
  | nil => rfl
  | cons entry entries ih =>
      obtain ⟨key, value⟩ := entry
      by_cases hkey : name = key
      · simp [hkey]
      · simp [List.lookup_cons, ih, beq_false_of_ne hkey, Ne.symm hkey]

theorem stands_iff {field : Field} {entries : List (String × Json)} :
    field.Stands entries ↔ entries.countP (·.1 == field.name) ≤ 1 ∧
      field.Holds (entries.lookup field.name) := by
  rw [Field.Stands, List.countP_eq_length_filter, lookup_eq_head?_filter]
  have hkeys : ∀ entry ∈ entries.filter (·.1 == field.name), entry.1 = field.name := by
    intro entry hentry
    simpa using (List.mem_filter.mp hentry).2
  cases hfound : entries.filter (·.1 == field.name) with
  | nil => simp [Field.Holds]
  | cons entry rest =>
      obtain ⟨key, value⟩ := entry
      have hkey : key = field.name := hkeys (key, value) (by simp [hfound])
      simp [Field.Holds, hkey]

theorem Shown.name_mem {fields : List Field} {shown : List (String × Json)}
    (h : Shown fields shown) :
    ∀ entry ∈ shown, entry.1 ∈ fields.map Field.name := by
  induction h with
  | nil => simp
  | shown hvalue hrest ih =>
      intro entry hentry
      rcases List.mem_cons.mp hentry with rfl | hrest
      · simp
      · exact List.mem_cons_of_mem _ (ih entry hrest)
  | omitted homissible hrest ih =>
      intro entry hentry
      exact List.mem_cons_of_mem _ (ih entry hentry)

/-- Entries without a field's name do not count for the field. -/
theorem Field.stands_congr {field : Field} {entries entries' : List (String × Json)}
    (h : entries.filter (·.1 == field.name) = entries'.filter (·.1 == field.name)) :
    field.Stands entries ↔ field.Stands entries' := by
  rw [Field.Stands, Field.Stands, h]

theorem filter_eq_nil_of_name {name : String} {entries : List (String × Json)}
    (h : ∀ entry ∈ entries, entry.1 ≠ name) :
    entries.filter (·.1 == name) = [] := by
  simpa [List.filter_eq_nil_iff] using fun key value hentry => h (key, value) hentry

/-- Of the fields that are shown, each stands once. -/
theorem Shown.stands {fields : List Field} {shown : List (String × Json)} (h : Shown fields shown)
    (hnames : (fields.map Field.name).Nodup) : ∀ field ∈ fields, field.Stands shown := by
  induction h with
  | nil => simp
  | @shown field value fields entries hvalue hrest ih =>
      obtain ⟨hnew, hnames⟩ := List.nodup_cons.mp hnames
      intro other hother
      rcases List.mem_cons.mp hother with rfl | hother
      · refine .inr ⟨value, ?_, hvalue⟩
        have hnil : entries.filter (·.1 == other.name) = [] := by
          refine filter_eq_nil_of_name fun entry hentry hname => hnew ?_
          exact hname ▸ hrest.name_mem entry hentry
        simp [hnil]
      · have hne : field.name ≠ other.name := by
          intro hname
          exact hnew (hname ▸ List.mem_map_of_mem hother)
        exact (Field.stands_congr (by simp [hne])).mp (ih hnames other hother)
  | @omitted field fields entries homissible hrest ih =>
      obtain ⟨hnew, hnames⟩ := List.nodup_cons.mp hnames
      intro other hother
      rcases List.mem_cons.mp hother with rfl | hother
      · refine .inl ⟨filter_eq_nil_of_name fun entry hentry hname => hnew ?_, homissible⟩
        exact hname ▸ hrest.name_mem entry hentry
      · exact ih hnames other hother

/-- The order of entries does not matter. -/
theorem Field.Stands.perm {field : Field} {entries entries' : List (String × Json)}
    (h : field.Stands entries) (hperm : entries'.Perm entries) : field.Stands entries' := by
  have hfilter := hperm.filter (·.1 == field.name)
  rcases h with ⟨hnil, homissible⟩ | ⟨value, hsingle, hvalue⟩
  · exact .inl ⟨List.perm_nil.mp (hnil ▸ hfilter), homissible⟩
  · exact .inr ⟨value, List.perm_singleton.mp (hsingle ▸ hfilter), hvalue⟩

/-- If every field stands once or may be left out, the entries are those of the record and
others. -/
theorem exists_shown {fields : List Field} (hnames : (fields.map Field.name).Nodup) :
    ∀ {entries : List (String × Json)}, (∀ field ∈ fields, field.Stands entries) →
      ∃ shown others, Shown fields shown ∧ (∀ entry ∈ others, entry.1 ∉ fields.map Field.name) ∧
        entries.Perm (shown ++ others) := by
  induction fields with
  | nil =>
      intro entries _
      exact ⟨[], entries, .nil, by simp, by simp⟩
  | cons field fields ih =>
      intro entries hstands
      obtain ⟨hnew, hnames⟩ := List.nodup_cons.mp hnames
      -- what is left when the field is taken out still has every other field
      have hrest : ∀ other ∈ fields,
          other.Stands (entries.filter fun entry => !(entry.1 == field.name)) := by
        intro other hother
        have hne : other.name ≠ field.name := by
          intro hname
          exact hnew (hname ▸ List.mem_map_of_mem hother)
        refine (Field.stands_congr ?_).mpr (hstands other (List.mem_cons_of_mem _ hother))
        rw [List.filter_filter]
        refine List.filter_congr fun entry _ => ?_
        by_cases hname : entry.1 = other.name
        · simp [hname, hne]
        · simp [hname]
      obtain ⟨shown, others, hshown, hothers, hperm⟩ := ih hnames hrest
      have hothers' : ∀ entry ∈ others, entry.1 ∉ (field :: fields).map Field.name := by
        intro entry hentry
        have hkept := hperm.symm.subset (List.mem_append_right shown hentry)
        have hne : entry.1 ≠ field.name := by simpa using (List.mem_filter.mp hkept).2
        simpa [hne] using hothers entry hentry
      have hsplit := (List.filter_append_perm (fun entry => entry.1 == field.name) entries).symm
      rcases hstands field List.mem_cons_self with ⟨hnil, homissible⟩ | ⟨value, hsingle, hvalue⟩
      · refine ⟨shown, others, .omitted homissible hshown, hothers', ?_⟩
        rw [hnil] at hsplit
        exact hsplit.trans hperm
      · refine ⟨(field.name, value) :: shown, others, .shown hvalue hshown, hothers', ?_⟩
        rw [hsingle] at hsplit
        exact hsplit.trans (hperm.cons _)

/-- An object has the fields of a record, in any order and among others, just when each of them
stands once or may be left out. -/
theorem exists_shown_iff {fields : List Field} (hnames : (fields.map Field.name).Nodup)
    (entries : List (String × Json)) :
    (∃ shown others, Shown fields shown ∧ (∀ entry ∈ others, entry.1 ∉ fields.map Field.name) ∧
        entries.Perm (shown ++ others)) ↔ ∀ field ∈ fields, field.Stands entries := by
  constructor
  · rintro ⟨shown, others, hshown, hothers, hperm⟩ field hfield
    have hnil : others.filter (·.1 == field.name) = [] := by
      refine filter_eq_nil_of_name fun entry hentry hname => hothers entry hentry ?_
      exact hname ▸ List.mem_map_of_mem hfield
    refine Field.Stands.perm ?_ hperm
    refine (Field.stands_congr ?_).mp (hshown.stands hnames field hfield)
    rw [List.filter_append, hnil, List.append_nil]
  · exact exists_shown hnames

theorem lookup_some_map (name : String) (entries : List (String × Json)) :
    (entries.map fun (key, value) => (some key, value)).lookup (some name) =
      entries.lookup name := by
  induction entries with
  | nil => rfl
  | cons entry entries ih =>
      obtain ⟨key, value⟩ := entry
      simp only [List.map_cons, List.lookup_cons, ih, Option.some_beq_some]

theorem fields?_record (names : List String) (entries : List (String × Json)) :
    (record entries).fields? names =
      if ∀ name ∈ names, entries.countP (·.1 == name) ≤
        1 then some (names.map fun name => entries.lookup name)
      else none := by
  simp only [record, fields?, lookup_some_map, List.countP_map, List.all_map]
  refine if_congr ?_ rfl rfl
  simp only [Function.comp_def, Option.some_beq_some, Option.isSome_some, List.all_eq_true,
    Bool.and_eq_true, implies_true, true_and]
  exact forall₂_congr fun _ _ => decide_eq_true_iff

/-- An object can only be read as a record if its names have a text. -/
theorem eq_record_of_fields? {names : List String} {fields : List (Option String × Json)}
    {values : List (Option Json)}
    (h : (Json.object fields).fields? names = some values) :
    ∃ entries, Json.object fields = record entries := by
  simp only [fields?, Option.ite_none_right_eq_some, Bool.and_eq_true, List.all_eq_true] at h
  refine ⟨fields.map fun (key, value) => (key.getD "", value), ?_⟩
  rw [record, List.map_map, Json.object.injEq]
  refine (List.map_id fields).symm.trans (List.map_congr_left fun field hfield => ?_)
  obtain ⟨key, value⟩ := field
  obtain ⟨name, rfl⟩ := Option.isSome_iff_exists.mp (h.1.1 (key, value) hfield)
  rfl

theorem record_injective : Function.Injective record := by
  intro entries entries' h
  have hmap := Json.object.inj h
  refine List.map_injective_iff.mpr ?_ hmap
  intro entry entry' hentry
  simpa [Prod.ext_iff] using hentry

theorem spellsRecord_array_iff {fields : List Field} {items : List Json} :
    SpellsRecord fields (.array items) ↔ Listed fields items := by
  constructor
  · intro h
    generalize hj : Json.array items = j at h
    cases h with
    | object => cases hj
    | array hlisted =>
        cases hj
        exact hlisted
  · exact .array

theorem spellsRecord_record_iff {fields : List Field} (hnames : (fields.map Field.name).Nodup)
    {entries : List (String × Json)} :
    SpellsRecord fields (record entries) ↔ ∀ field ∈ fields, field.Stands entries := by
  rw [← exists_shown_iff hnames]
  constructor
  · intro h
    generalize hj : record entries = j at h
    cases h with
    | object hshown hothers hperm =>
        cases record_injective hj
        exact ⟨_, _, hshown, hothers, hperm⟩
    | array => cases hj
  · rintro ⟨shown, others, hshown, hothers, hperm⟩
    exact .object hshown hothers hperm

/-- Reading finds in a document that stands for a record a value for each of its fields that is not
left out, and accepts no other document. -/
theorem spellsRecord_iff {fields : List Field} (hnames : (fields.map Field.name).Nodup) (j : Json) :
    SpellsRecord fields j ↔
      ∃ values, j.fields? (fields.map Field.name) = some values ∧
        List.Forall₂ Field.Holds fields values := by
  have hrecord : ∀ entries, SpellsRecord fields (record entries) ↔
      ∃ values, (record entries).fields? (fields.map Field.name) = some values ∧
      List.Forall₂ Field.Holds fields values := by
    intro entries
    rw [spellsRecord_record_iff hnames, fields?_record]
    simp only [stands_iff, Option.ite_none_right_eq_some, Option.some.injEq, List.map_map]
    simp only [and_assoc, exists_and_left, exists_eq_left', List.forall₂_map_right_iff,
      List.forall₂_same, Function.comp_apply, List.forall_mem_map, forall_and]
  cases j with
  | array items =>
      rw [spellsRecord_array_iff, listed_iff]
      simp [fields?]
  | object entries =>
      constructor
      · intro h
        generalize hj : Json.object entries = j at h
        cases h with
        | object hshown hothers hperm => exact (hrecord _).mp (.object hshown hothers hperm)
        | array => cases hj
      · rintro ⟨values, hvalues, hholds⟩
        obtain ⟨named, hnamed⟩ := eq_record_of_fields? hvalues
        rw [hnamed] at hvalues ⊢
        exact (hrecord named).mpr ⟨values, hvalues, hholds⟩
  | _ => exact iff_of_false (fun h => nomatch h) (by simp [fields?])

/-- A reader that asks for the fields of a record accepts the spellings of the record, if it makes
of the values of the fields what they stand for. -/
theorem bind_fields?_eq_some_iff {α : Type} {fields : List Field} {names : List String}
    (hfields : fields.map Field.name = names)
    (hnames : names.Nodup) {parts : List (Option Json) → Option α} {a : α}
    (hparts : ∀ values, parts values = some a ↔ List.Forall₂ Field.Holds fields values) (j : Json) :
    (j.fields? names).bind parts = some a ↔ SpellsRecord fields j := by
  subst hfields
  simp only [spellsRecord_iff hnames, Option.bind_eq_some_iff, hparts]

/-- A field with a default may be left out if it has that value. -/
theorem orDefault_eq_some_iff {α : Type} {read : Json → Option α} {spells : α → Json → Prop}
    (hread : Reads read spells) (name : String) (default a : α) (value : Option Json) :
    orDefault default read value = some a ↔ Field.Holds ⟨name, spells a, a = default⟩ value := by
  cases value with
  | none => simp [orDefault, Field.Holds, eq_comm]
  | some j => simp [orDefault, Field.Holds, hread j a]

end Constitutive.Json
