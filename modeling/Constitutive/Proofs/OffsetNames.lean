import Constitutive.Proofs.Closed

/-!
# Names around the layout

For each variable `v` a class has the value `v`, the increment `d<v>` and the offset `<v>_offset`,
and once it has the number of unknowns `N`.  The increments are declared by the views, and the
offsets and the number by the section of offsets; the method that updates the variables adds the
increments to the values.

Declarations keep values and increments apart, and `N` is reserved, but no declaration is compared
with an offset.  So two of these symbols have one name exactly if one of them is an offset
(`name_eq_iff`): that of a variable `w` beside the value of a variable called `<w>_offset`, or that
of a variable `d<w>` beside the increment of a variable called `<w>_offset`.
-/

namespace Constitutive

open Stmt

/-! ## The symbols -/

/-- The symbols that the lines of statements define, in order. -/
def Stmt.defined (body : List Stmt) : List Symbol :=
  (linesIn body).flatMap Line.defines

/-- The symbols that the lines of statements use, in order. -/
def Stmt.used (body : List Stmt) : List Symbol :=
  (linesIn body).flatMap Line.uses

/-- The value, the increment and the offset of each of some variables, and the number of
unknowns. -/
def unknownSymbols (names : List String) : List Symbol :=
  names.map (fun v => .member (.value v)) ++ names.map (fun v => .member (.increment v)) ++
    (names.map (fun v => .constant (.offset v)) ++ [.constant .size])

/-- An offset and a symbol of another kind with the same name. -/
inductive OffsetClash : Symbol → Symbol → Prop
  | value (w : String) : OffsetClash (.member (.value (w ++ "_offset"))) (.constant (.offset w))
  | increment (w : String) :
      OffsetClash (.member (.increment (w ++ "_offset"))) (.constant (.offset (incrementName w)))

/-- What is read off the lines of statements that are made one by one. -/
theorem flatMap_linesIn_map {α β : Type} (g : Line → List β) (f : α → Stmt) (xs : List α) :
    (linesIn (xs.map f)).flatMap g = xs.flatMap fun x => (linesIn [f x]).flatMap g := by
  induction xs with
  | nil => rfl
  | cons x rest ih =>
      rw [List.map_cons, List.flatMap_cons, ← ih, ← List.singleton_append, linesIn_append,
        List.flatMap_append]

theorem defined_offsetConstants (layout : Layout) :
    defined layout.offsetConstants =
      (layout.slots.map Slot.name).map (fun v => .constant (.offset v)) ++ [.constant .size] := by
  unfold defined Layout.offsetConstants
  rw [List.cons_append, linesIn, lines, List.nil_append, linesIn_append, List.flatMap_append,
    flatMap_linesIn_map, List.map_map, List.map_eq_flatMap]
  rfl

theorem defines_vectorView (symbol : Symbol) (slot : Slot) (vector : Member) :
    (linesIn [vectorView (.define symbol) slot vector]).flatMap Line.defines = [symbol] := by
  unfold vectorView
  dsimp only
  split
  · rfl
  · rfl

theorem defined_views (plan : Blueprint) :
    defined plan.views = (plan.layout.slots.map Slot.name).map fun v => .member (.increment v) := by
  unfold defined Blueprint.views
  rw [linesIn, lines, List.nil_append, flatMap_linesIn_map, List.map_map, List.map_eq_flatMap]
  simp only [defines_vectorView, Function.comp_apply]

theorem used_updateMethod (plan : Blueprint) :
    used plan.updateMethod =
      plan.draft.roster.names.flatMap fun v => [.member (.value v), .member (.increment v)] := by
  unfold used Blueprint.updateMethod Roster.names
  rw [linesIn, lines, linesIn, List.append_nil, List.flatMap_cons, flatMap_linesIn_map,
    List.flatMap_map]
  rfl

theorem mem_unknownSymbols {names : List String} {s : Symbol} :
    s ∈ unknownSymbols names ↔
      (∃ v ∈ names, s = .member (.value v)) ∨ (∃ v ∈ names, s = .member (.increment v)) ∨
        (∃ v ∈ names, s = .constant (.offset v)) ∨ s = .constant .size := by
  simp only [unknownSymbols, List.mem_append, List.mem_map, List.mem_singleton, or_assoc, eq_comm]

theorem nodup_unknownSymbols {names : List String} (h : names.Nodup) :
    (unknownSymbols names).Nodup := by
  have hmap : ∀ f : String → Symbol, (∀ v w, f v = f w → v = w) → (names.map f).Nodup :=
    fun f hf => h.map hf
  refine List.nodup_append.mpr ⟨List.nodup_append.mpr ⟨hmap _ ?_, hmap _ ?_, ?_⟩,
    List.nodup_append.mpr ⟨hmap _ ?_, List.nodup_singleton _, ?_⟩, ?_⟩
  · intro v w heq
    simpa using heq
  · intro v w heq
    simpa using heq
  · simp
  · intro v w heq
    simpa using heq
  · simp
  · intro s hs t ht
    simp only [List.mem_append, List.mem_map, List.mem_singleton] at hs ht
    rcases hs with ⟨v, -, rfl⟩ | ⟨v, -, rfl⟩ <;> rcases ht with ⟨w, -, rfl⟩ | rfl <;> exact nofun

/-! ## Their names -/

theorem append_offset_inj {v w : String} : v ++ "_offset" = w ++ "_offset" ↔ v = w := by
  rw [← String.toList_inj, ← String.toList_inj, String.toList_append, String.toList_append,
    List.append_left_inj]

/-- An increment has the name of an offset exactly if the variable of the offset is called like an
increment. -/
theorem incrementName_eq_append_offset_iff {v w : String} (hw : w ≠ "") :
    incrementName v = w ++ "_offset" ↔ ∃ u, w = incrementName u ∧ v = u ++ "_offset" := by
  constructor
  · intro h
    have hlist := congrArg String.toList h
    rw [toList_incrementName, String.toList_append] at hlist
    cases hcs : w.toList with
    | nil => exact absurd (String.toList_eq_nil_iff.mp hcs) hw
    | cons c cs =>
        rw [hcs, List.cons_append] at hlist
        obtain ⟨rfl, hrest⟩ := List.cons.inj hlist
        refine ⟨String.ofList cs, ?_, ?_⟩
        · rw [← String.toList_inj, toList_incrementName, String.toList_ofList, hcs]
        · rw [← String.toList_inj, String.toList_append, String.toList_ofList, hrest]
  · rintro ⟨u, rfl, rfl⟩
    rw [incrementName, incrementName, String.append_assoc]

theorem incrementName_ne_size (v : String) : incrementName v ≠ "N" := by
  intro h
  have hlist := congrArg String.toList h
  rw [toList_incrementName] at hlist
  exact absurd (List.cons.inj hlist).1 (by decide)

theorem append_offset_ne_size (v : String) : v ++ "_offset" ≠ "N" := by
  intro h
  have hlength := congrArg String.length h
  rw [String.length_append] at hlength
  have hsuffix : "_offset".length = 7 := rfl
  have hsize : "N".length = 1 := rfl
  omega

namespace Roster

variable {roster : Roster}

/-- **Names around the layout.**  Two symbols have one name only if they are the same, or clash
around an offset. -/
theorem name_eq_iff (hwell : roster.WellNamed) (hsize : "N" ∈ roster.reserved) {s t : Symbol}
    (hs : s ∈ unknownSymbols roster.names) (ht : t ∈ unknownSymbols roster.names) :
    s.name = t.name ↔ s = t ∨ OffsetClash s t ∨ OffsetClash t s := by
  constructor
  · intro h
    -- what follows from the checks of declarations, and from the form of the names
    have hincrement : ∀ v ∈ roster.names, ∀ w ∈ roster.names, v ≠ incrementName w :=
      fun v hv w hw heq => hwell.apart v hv (Or.inr (Or.inl ⟨w, hw, heq⟩))
    have hreserved : ∀ v ∈ roster.names, v ≠ "N" :=
      fun v hv heq => hwell.unreserved v hv (heq ▸ hsize)
    have hnonempty : ∀ v ∈ roster.names, v ≠ "" :=
      fun v hv => ne_empty_of_isVariableName (hwell.identifiers v hv)
    rcases mem_unknownSymbols.mp hs with ⟨v, hv, rfl⟩ | ⟨v, hv, rfl⟩ | ⟨v, hv, rfl⟩ | rfl <;>
      rcases mem_unknownSymbols.mp ht with ⟨w, hw, rfl⟩ | ⟨w, hw, rfl⟩ | ⟨w, hw, rfl⟩ | rfl <;>
      simp only [Symbol.name, Member.name, Constant.name] at h
    · exact Or.inl (h ▸ rfl)
    · exact absurd h (hincrement v hv w hw)
    · exact Or.inr (Or.inl (h ▸ .value w))
    · exact absurd h (hreserved v hv)
    · exact absurd h.symm (hincrement w hw v hv)
    · exact Or.inl (incrementName_inj.mp h ▸ rfl)
    · obtain ⟨u, rfl, rfl⟩ := (incrementName_eq_append_offset_iff (hnonempty w hw)).mp h
      exact Or.inr (Or.inl (.increment u))
    · exact absurd h (incrementName_ne_size v)
    · exact Or.inr (Or.inr (h ▸ .value v))
    · obtain ⟨u, rfl, rfl⟩ := (incrementName_eq_append_offset_iff (hnonempty v hv)).mp h.symm
      exact Or.inr (Or.inr (.increment u))
    · exact Or.inl (append_offset_inj.mp h ▸ rfl)
    · exact absurd h (append_offset_ne_size v)
    · exact absurd h.symm (hreserved w hw)
    · exact absurd h.symm (incrementName_ne_size w)
    · exact absurd h.symm (append_offset_ne_size w)
    · exact Or.inl rfl
  · have hname : ∀ {a b : Symbol}, OffsetClash a b → a.name = b.name := by
      rintro _ _ (w | w)
      · rfl
      · exact (String.append_assoc).symm
    rintro (rfl | hclash | hclash)
    · rfl
    · exact hname hclash
    · exact (hname hclash).symm

/-- All names are different exactly if no variable is called `<w>_offset` beside one that is called
`w` or `d<w>`. -/
theorem nodup_names_iff (hwell : roster.WellNamed) (hsize : "N" ∈ roster.reserved) :
    ((unknownSymbols roster.names).map Symbol.name).Nodup ↔
      ∀ w, w ++ "_offset" ∈ roster.names → w ∉ roster.names ∧ incrementName w ∉ roster.names := by
  rw [List.nodup_map_iff_inj_on (nodup_unknownSymbols hwell.nodup)]
  constructor
  · intro hinj
    -- a variable of that name has a symbol that clashes
    refine fun w hclash => ⟨fun hw => ?_, fun hw => ?_⟩
    · have heq :=
        hinj (.member (.value (w ++ "_offset"))) (mem_unknownSymbols.mpr (Or.inl ⟨_, hclash, rfl⟩))
        (.constant (.offset w)) (mem_unknownSymbols.mpr (Or.inr (Or.inr (Or.inl ⟨w, hw, rfl⟩)))) rfl
      cases heq
    · have heq := hinj (.member (.increment (w ++ "_offset")))
        (mem_unknownSymbols.mpr (Or.inr (Or.inl ⟨_, hclash, rfl⟩)))
        (.constant (.offset (incrementName w)))
        (mem_unknownSymbols.mpr (Or.inr (Or.inr (Or.inl ⟨_, hw, rfl⟩)))) String.append_assoc.symm
      cases heq
  · intro hapart s hs t ht hname
    have hno : ∀ a ∈ unknownSymbols roster.names, ∀ b ∈ unknownSymbols roster.names,
        ¬ OffsetClash a b := by
      rintro _ ha _ hb (w | w)
      · simp only [mem_unknownSymbols, reduceCtorEq, and_false, exists_false, false_or, or_false,
          Symbol.member.injEq, Member.value.injEq, Symbol.constant.injEq, Constant.offset.injEq,
          exists_eq_right'] at ha hb
        exact (hapart w ha).1 hb
      · simp only [mem_unknownSymbols, reduceCtorEq, and_false, exists_false, false_or, or_false,
          Symbol.member.injEq, Member.increment.injEq, Symbol.constant.injEq, Constant.offset.injEq,
          exists_eq_right'] at ha hb
        exact (hapart w ha).2 hb
    rcases (name_eq_iff hwell hsize hs ht).mp hname with heq | hclash | hclash
    · exact heq
    · exact absurd hclash (hno s hs t ht)
    · exact absurd hclash (hno t ht s hs)

end Roster

/-! ## Drafts reserve no further names -/

theorem Draft.reserved_apply (solvers : Solvers) (draft : Draft) (event : Event) :
    (draft.apply solvers event).draft.roster.reserved = draft.roster.reserved := by
  unfold Draft.apply
  split
  · obtain ⟨hroster, -⟩ | ⟨_, _, _, hdeclare, -⟩ | ⟨_, _, _, -, hroster, -⟩ :=
      Draft.applyDeclaration_cases solvers event.location draft event.declaration
    · exact congrArg Roster.reserved hroster
    · obtain ⟨-, -, hroster⟩ := Roster.declare_eq_ok_iff.mp hdeclare
      exact (congrArg Roster.reserved hroster :)
    · exact congrArg Roster.reserved hroster
  · rfl

theorem Description.reserved_of_draft_eq_ok {description : Description} {solvers : Solvers}
    {defaultAlgorithm : String} {hypothesis : Hypothesis} {draft : Draft}
    (h : (description.draft solvers defaultAlgorithm hypothesis).outcome = .ok draft) :
    draft.roster.reserved = reservedNames := by
  obtain ⟨collected, hcollected, hfault, rfl⟩ := draft_eq_ok_iff.mp h
  have hreserved : collected.roster.reserved = reservedNames := by
    refine foldlM_keeps (P := fun draft => draft.roster.reserved = reservedNames)
      (fun s event _ t hs hstep => ?_) rfl hcollected
    rw [← (Applied.traced_eq_ok_iff.mp hstep).2, Draft.reserved_apply, hs]
  obtain ⟨chosen, -, hdraft⟩ := Draft.finish_eq hfault
  rw [hdraft]
  exact hreserved

theorem Layout.map_name_plan (dim : Dimension) (vars : List Variable) :
    (Layout.plan dim vars).slots.map Slot.name = vars.map (·.name) := by
  conv_rhs => rw [← Layout.map_owner_plan dim vars, List.map_map]
  rfl

namespace Compiler

open Blueprint

variable {compiler : Compiler} {description : Description} {hypothesis : Hypothesis}
  {plan : Blueprint}

/-- The sections of a class declare the increments, the offsets and the number of unknowns, and use
the values.  These symbols are all different, and two of them have one name exactly if they clash
around an offset; so all names are different if and only if no variable is called `<w>_offset`
beside one that is called `w` or `d<w>`. -/
theorem unknown_symbols_clash_only_at_offsets {generated : GeneratedClass}
    (hcompile : (compiler.compile description hypothesis).outcome = .ok generated)
    (hplan : (compiler.blueprint description hypothesis).outcome = .ok plan) :
    let names := plan.draft.roster.names
    (∃ build : plan.Build,
        generated.sections = build.parts.map (fun part => plan.sectionOf part.1 part.2) ∧
        (SectionKind.offsets, plan.layout.offsetConstants) ∈ build.parts ∧
        (SectionKind.views, plan.views) ∈ build.parts ∧
        (SectionKind.update, plan.updateMethod) ∈ build.parts) ∧
      used plan.updateMethod =
      names.flatMap (fun v => [.member (.value v), .member (.increment v)]) ∧
      unknownSymbols names =
        names.map (fun v => .member (.value v)) ++ defined plan.views ++
        defined plan.layout.offsetConstants ∧
      (unknownSymbols names).Nodup ∧
      (∀ s ∈ unknownSymbols names, ∀ t ∈ unknownSymbols names,
        s.name = t.name ↔ s = t ∨ OffsetClash s t ∨ OffsetClash t s) ∧
      (((unknownSymbols names).map Symbol.name).Nodup ↔
        ∀ w, w ++ "_offset" ∈ names → w ∉ names ∧ incrementName w ∉ names) := by
  intro names
  have hgrounded := grounded_of_blueprint hplan
  have hwell := hgrounded.sound.wellNamed
  have hsize : "N" ∈ plan.draft.roster.reserved := by
    obtain ⟨draft, _, hdraft, -, rfl⟩ := blueprint_eq_ok_iff.mp hplan
    rw [Description.reserved_of_draft_eq_ok hdraft]
    decide
  have hslots : plan.layout.slots.map Slot.name = names := by
    rw [hgrounded.layout_eq]
    exact Layout.map_name_plan _ _
  obtain ⟨build, hsections⟩ := exists_build hcompile hplan
  refine ⟨⟨build, hsections, build.offsets_mem, build.views_mem, build.update_mem⟩,
    used_updateMethod plan, ?_, nodup_unknownSymbols hwell.nodup, fun s hs t ht =>
      Roster.name_eq_iff hwell hsize hs ht, Roster.nodup_names_iff hwell hsize⟩
  rw [defined_views, defined_offsetConstants, hslots]
  rfl

/-- A description with two scalars. -/
def twoScalars (v w : String) : Description where
  className := "TwoScalars"
  events :=
    [{ location := ⟨1, 1⟩, declaration := .integrationVariable v .scalar 1 },
      { location := ⟨2, 1⟩, declaration := .integrationVariable w .scalar 1 }]

/-- If its names are accepted, the description is. -/
theorem exists_compile_twoScalars {v w : String}
    (h : (({} : Compiler).blueprint (twoScalars v w) .tridimensional).outcome.toOption.any
      (fun plan => plan.draft.roster.vars = [⟨v, .scalar, 1⟩, ⟨w, .scalar, 1⟩] &&
        plan.draft.inverseBlocks = []) = true) :
    ∃ generated plan, (({} : Compiler).compile (twoScalars v w) .tridimensional).outcome =
      .ok generated ∧
      (({} : Compiler).blueprint (twoScalars v w) .tridimensional).outcome = .ok plan ∧
      plan.draft.roster.names = [v, w] := by
  cases hplan : (({} : Compiler).blueprint (twoScalars v w) .tridimensional).outcome with
  | error fault =>
      rw [hplan] at h
      cases h
  | ok plan =>
      rw [hplan] at h
      simp only [Except.toOption, Option.any_some, Bool.and_eq_true, decide_eq_true_eq] at h
      obtain ⟨hvars, hblocks⟩ := h
      obtain ⟨generated, hcompile⟩ := exists_compile_eq_ok hplan hblocks <| by
        rw [hvars]
        rintro r hr u - - ⟨hrank, -⟩
        simp only [List.mem_cons, List.not_mem_nil, or_false] at hr
        rcases hr with rfl | rfl <;> cases hrank
      exact ⟨generated, plan, hcompile, rfl, by rw [Roster.names, hvars]; rfl⟩

/-- Variables can be accepted one of which is called like the offset of the other, or one of which
has the increment that is called so. -/
theorem offsets_can_clash :
    (∃ generated plan, (({} : Compiler).compile (twoScalars "x" "x_offset")
      .tridimensional).outcome = .ok generated ∧
        (({} : Compiler).blueprint (twoScalars "x" "x_offset") .tridimensional).outcome = .ok plan ∧
        plan.draft.roster.names = ["x", "x_offset"] ∧
        Symbol.name (.member (.value "x_offset")) = Symbol.name (.constant (.offset "x"))) ∧
      ∃ generated plan, (({} : Compiler).compile (twoScalars "dx" "x_offset")
        .tridimensional).outcome = .ok generated ∧
        (({} : Compiler).blueprint (twoScalars "dx" "x_offset") .tridimensional).outcome =
          .ok plan ∧
        plan.draft.roster.names = ["dx", "x_offset"] ∧
        Symbol.name (.member (.increment "x_offset")) = Symbol.name (.constant (.offset "dx")) := by
  obtain ⟨generated, plan, hcompile, hplan, hnames⟩ :=
    exists_compile_twoScalars (v := "x") (w := "x_offset") (by decide +kernel)
  obtain ⟨generated', plan', hcompile', hplan', hnames'⟩ :=
    exists_compile_twoScalars (v := "dx") (w := "x_offset") (by decide +kernel)
  exact ⟨⟨generated, plan, hcompile, hplan, hnames, rfl⟩, generated', plan', hcompile', hplan',
    hnames', rfl⟩

theorem unknown_symbols_clash_only_at_offsets_twoScalars :
    ∃ generated plan, (({} : Compiler).compile (twoScalars "x" "x_offset")
      .tridimensional).outcome = .ok generated ∧
      (({} : Compiler).blueprint (twoScalars "x" "x_offset") .tridimensional).outcome = .ok plan ∧
      ¬ ((unknownSymbols plan.draft.roster.names).map Symbol.name).Nodup := by
  obtain ⟨generated, plan, hcompile, hplan, hnames⟩ :=
    exists_compile_twoScalars (v := "x") (w := "x_offset") (by decide +kernel)
  obtain ⟨-, -, -, -, -, hdistinct⟩ := unknown_symbols_clash_only_at_offsets hcompile hplan
  refine ⟨generated, plan, hcompile, hplan, ?_⟩
  rw [hdistinct, hnames]
  intro hapart
  exact (hapart "x" (by decide)).1 (by decide)

end Compiler

end Constitutive
