import Constitutive.Proofs.Code.Arithmetic
import Constitutive.Proofs.Numeric.Double
import Constitutive.Proofs.Numeric.Inverse
import Constitutive.Proofs.Unknowns.Tiling
import Constitutive.Section.Inverse

/-!
# Factors as expressions and as numbers

Factors are expressions of generated code, which scales blocks by quotients of them.  Where all of
them are numbers, a `Scaling` holds them for every unknown, and matrices can be scaled without any
code.  The two agree as long as code divides reals: the value of the text that scales a block is
then the quotient of the entries of the scaling (`factor_of_code_eq_factor_of_scaling_if_real`).
Texts of whole numbers are divided differently, and some numbers are written differently in code
(`factor_of_code_can_differ`).

## Strategy

* **Texts.**  The text of a scale is read as a quotient of numbers in brackets (`quotient?`).  A
  literal holds no closing bracket (`not_mem_of_ofLiteral?`), so what is read is what was written.
* **Numbers.**  The scaling is made by going through the factors one by one (`toScaling_eq`).  After
  any such run an entry is what it was, or the number of a factor that was visited
  (`exists_run_visits`).  Slots have no index in common, so the factor is that of the variable that
  holds the index.
-/

namespace Constitutive

/-! ## Numerals -/

namespace Decimal

/-- What follows the sign of a text, and the sign, hold its characters. -/
theorem mem_takeSign {text : List Char} {c : Char} (hplus : c ≠ '+') (hminus : c ≠ '-') :
    c ∈ (takeSign text).2 ↔ c ∈ text := by
  unfold takeSign
  split
  · simp [hminus]
  · simp [hplus]
  · rfl

theorem not_mem_of_all_isDigit {ds : List Char} (h : ds.all Char.isDigit = true) : ')' ∉ ds := by
  intro hmem
  have hdigit := List.all_eq_true.mp h _ hmem
  exact absurd hdigit (by decide)

theorem not_mem_of_exponentPart? {text : List Char} {e : Int} (h : exponentPart? text = some e) :
    ')' ∉ text := by
  cases text with
  | nil => exact List.not_mem_nil
  | cons c rest =>
      unfold exponentPart? at h
      dsimp only at h
      split at h
      · rename_i hletter
        split at h
        · rename_i hdigits
          have hrest : ')' ∉ (takeSign rest).2 := not_mem_of_all_isDigit hdigits.2
          rw [mem_takeSign (by decide) (by decide)] at hrest
          intro hmem
          rcases List.mem_cons.mp hmem with rfl | hmem
          · exact absurd hletter (by decide)
          · exact hrest hmem
        · cases h
      · cases h

/-- Digits in front of a text do not matter. -/
theorem not_mem_of_dropWhile_isDigit {text : List Char} (h : ')' ∉ text.dropWhile Char.isDigit) :
    ')' ∉ text := by
  intro hmem
  rw [← List.takeWhile_append_dropWhile (p := Char.isDigit) (l := text)] at hmem
  rcases List.mem_append.mp hmem with hmem | hmem
  · exact absurd (List.mem_takeWhile_imp hmem) (by decide)
  · exact h hmem

theorem not_mem_of_unsigned? {text : List Char} {d : Scaled} (h : unsigned? text = some d) :
    ')' ∉ text := by
  refine not_mem_of_dropWhile_isDigit ?_
  unfold unsigned? at h
  dsimp only at h
  split at h
  · rename_i more hrest
    split at h
    · cases h
    · obtain ⟨e, hexponent, -⟩ := Option.map_eq_some_iff.mp h
      have htail : ')' ∉ more.dropWhile Char.isDigit := not_mem_of_exponentPart? hexponent
      -- the decimals after the point are digits
      rw [hrest]
      intro hmem
      rcases List.mem_cons.mp hmem with heq | hmem
      · exact absurd heq (by decide)
      · exact not_mem_of_dropWhile_isDigit htail hmem
  · split at h
    · cases h
    · obtain ⟨e, hexponent, -⟩ := Option.map_eq_some_iff.mp h
      exact not_mem_of_exponentPart? hexponent

/-- A literal holds no closing bracket. -/
theorem not_mem_of_ofLiteral? {text : String} {x : Quantity Float}
    (h : Quantity.ofLiteral? text = some x) : ')' ∉ text.toList := by
  rw [← mem_takeSign (by decide) (by decide)]
  unfold Quantity.ofLiteral? at h
  dsimp only at h
  split at h
  · rename_i hdigits
    exact not_mem_of_all_isDigit hdigits.2
  · obtain ⟨y, hy, -⟩ := Option.map_eq_some_iff.mp h
    obtain ⟨hy, -⟩ := Option.filter_eq_some_iff.mp hy
    obtain ⟨d, hd, -⟩ := Option.map_eq_some_iff.mp hy
    exact not_mem_of_unsigned? hd

end Decimal

/-! ## The value of a text -/

section Texts

variable {α : Type} (ofWhole : Int → α) (number : String → Option (Quantity α))

/-- Whether a text starts with the name of the type of reals, and what follows it. -/
def takeReal : List Char → Bool × List Char
  | 'r' :: 'e' :: 'a' :: 'l' :: rest => (true, rest)
  | text => (false, text)

/-- The number in the brackets with which a text starts, and what follows them. -/
def inBrackets? : List Char → Option (Quantity α × List Char)
  | '(' :: rest =>
    if ')' ∈ rest then
      (number (String.ofList (rest.takeWhile (· ≠ ')')))).map
        (·, (rest.dropWhile (· ≠ ')')).drop 1)
    else none
  | _ => none

/-- The same, where the name of the type of reals may convert the number. -/
def operand? (text : List Char) : Option (Quantity α × List Char) :=
  (inBrackets? number (takeReal text).2).map fun (x, after) =>
    (if (takeReal text).1 then .real (x.toReal ofWhole) else x, after)

/-- The value of a number in brackets, or of the quotient of two. -/
def quotient? [Div α] (text : List Char) : Option (Quantity α) := do
  let (x, rest) ← operand? ofWhole number text
  match rest with
  | [] => some x
  | '/' :: rest =>
    let (y, rest) ← operand? ofWhole number rest
    if rest = [] then x.div? ofWhole y else none
  | _ => none

/-- The factor that code applies.  Where nothing is written it is one. -/
def factorOf? [One α] [Div α] (scale : Option Scale) : Option α :=
  match scale.map (·.line.render) with
  | none => some 1
  | some text => (quotient? ofWhole number text.toList).map (·.toReal ofWhole)

variable {ofWhole number}

theorem inBrackets?_eq {s : String} (hs : ')' ∉ s.toList) (after : List Char) :
    inBrackets? number ('(' :: (s.toList ++ ')' :: after)) = (number s).map (·, after) := by
  have hall : ∀ c ∈ s.toList, (c ≠ ')' : Bool) = true := by
    intro c hc
    have hne : c ≠ ')' := fun heq => hs (heq ▸ hc)
    simpa using hne
  have htake : (s.toList ++ ')' :: after).takeWhile (· ≠ ')') = s.toList := by
    rw [List.takeWhile_append_of_pos hall]
    simp
  have hdrop : (s.toList ++ ')' :: after).dropWhile (· ≠ ')') = ')' :: after := by
    rw [List.dropWhile_append_of_pos hall]
    simp
  refine (if_pos (List.mem_append_right _ (List.mem_cons_self ..))).trans ?_
  rw [hdrop, htake, String.ofList_toList, List.drop_one, List.tail_cons]

theorem operand?_eq {s : String} (hs : ')' ∉ s.toList) (after : List Char) :
    operand? ofWhole number ('(' :: (s.toList ++ ')' :: after)) = (number s).map (·, after) := by
  have hstart : takeReal ('(' :: (s.toList ++ ')' :: after)) =
      (false, '(' :: (s.toList ++ ')' :: after)) := rfl
  rw [operand?, hstart, inBrackets?_eq hs]
  cases number s with
  | none => rfl
  | some x => rfl

theorem operand?_one (hone : number "1" = some (.whole 1)) (after : List Char) :
    operand? ofWhole number ('r' :: 'e' :: 'a' :: 'l' :: '(' :: '1' :: ')' :: after) =
      some (.real (ofWhole 1), after) := by
  have hbrackets : inBrackets? number ('(' :: ("1".toList ++ ')' :: after)) =
      (number "1").map (·, after) := inBrackets?_eq (by decide) after
  rw [hone] at hbrackets
  have hstart : takeReal ('r' :: 'e' :: 'a' :: 'l' :: '(' :: '1' :: ')' :: after) =
      (true, '(' :: '1' :: ')' :: after) := rfl
  rw [operand?, hstart]
  exact congrArg (Option.map _) hbrackets

section Quotients

variable [Div α]

theorem quotient?_of_single {text : List Char} {x : Option (Quantity α)}
    (h : operand? ofWhole number text = x.map (·, [])) : quotient? ofWhole number text = x := by
  unfold quotient?
  rw [h]
  cases x with
  | none => rfl
  | some x => rfl

theorem quotient?_of_pair {text rest : List Char} {x y : Option (Quantity α)}
    (h : operand? ofWhole number text = x.map (·, '/' :: rest))
    (hrest : operand? ofWhole number rest = y.map (·, [])) :
    quotient? ofWhole number text = x.bind fun x => y.bind fun y => x.div? ofWhole y := by
  unfold quotient?
  rw [h]
  cases x with
  | none => rfl
  | some x =>
      show (operand? ofWhole number rest).bind _ = _
      rw [hrest]
      cases y with
      | none => rfl
      | some y => rfl

end Quotients

variable [One α] [Div α]

/-- The text of a scale is read as it is meant. -/
theorem quotient?_render (hone : number "1" = some (.whole 1)) (hreal : ofWhole 1 = 1)
    {scale : Scale} (hgiven : ∀ s, .given s ∈ scale.line → ')' ∉ s.toList) :
    quotient? ofWhole number scale.line.render.toList = scale.value? ofWhole number := by
  cases scale with
  | times s =>
      have htext : (Scale.times s).line.render.toList = '(' :: (s.toList ++ ')' :: []) := by
        simp [Scale.line, Line.render, Piece.render]
      rw [htext]
      exact quotient?_of_single (operand?_eq (hgiven s (by simp [Scale.line])) [])
  | reciprocal r =>
      have htext : (Scale.reciprocal r).line.render.toList =
          'r' :: 'e' :: 'a' :: 'l' :: '(' :: '1' :: ')' :: '/' :: '(' ::
          (r.toList ++ ')' :: []) := by
        simp [Scale.line, Line.render, Piece.render]
      have hfirst : operand? ofWhole number (Scale.reciprocal r).line.render.toList =
          (some (.real 1)).map (·, '/' :: '(' :: (r.toList ++ ')' :: [])) := by
        rw [htext, operand?_one hone, hreal]
        rfl
      exact quotient?_of_pair hfirst (operand?_eq (hgiven r (by simp [Scale.line])) [])
  | ratio s r =>
      have htext : (Scale.ratio s r).line.render.toList =
          '(' :: (s.toList ++ ')' :: '/' :: '(' :: (r.toList ++ ')' :: [])) := by
        simp [Scale.line, Line.render, Piece.render]
      have hfirst : operand? ofWhole number (Scale.ratio s r).line.render.toList =
          (number s).map (·, '/' :: '(' :: (r.toList ++ ')' :: [])) := by
        rw [htext]
        exact operand?_eq (hgiven s (by simp [Scale.line])) _
      exact quotient?_of_pair hfirst (operand?_eq (hgiven r (by simp [Scale.line])) [])

/-- The value of the text that scales a block is the quotient in code of the values of its
factors. -/
theorem factorOf?_of? (hone : number "1" = some (.whole 1)) (hreal : ofWhole 1 = 1)
    (hdiv : ∀ x : α, x / 1 = x) {s r : Option String} {x y : Quantity α}
    (hs : (s.map number).getD (some (.real 1)) = some x)
    (hr : (r.map number).getD (some (.real 1)) = some y)
    (hgiven : ∀ t, t ∈ s ∨ t ∈ r → ')' ∉ t.toList) :
    factorOf? ofWhole number (Scale.of? s r) = (x.div? ofWhole y).map (·.toReal ofWhole) := by
  rw [← Scale.applied?_of? hdiv hs hr]
  cases hscale : Scale.of? s r with
  | none => rfl
  | some scale =>
      refine congrArg (Option.map _) (quotient?_render hone hreal fun t ht => hgiven t ?_)
      cases s with
      | none =>
          cases r with
          | none => cases hscale
          | some r =>
              obtain rfl := Option.some.inj hscale
              exact Or.inr (by simpa [Scale.line, eq_comm] using ht)
      | some s =>
          cases r with
          | none =>
              obtain rfl := Option.some.inj hscale
              exact Or.inl (by simpa [Scale.line, eq_comm] using ht)
          | some r =>
              obtain rfl := Option.some.inj hscale
              simpa [Scale.line, eq_comm] using ht

end Texts

/-! ## Going through the factors -/

namespace Numeric.Scaling

variable {α β : Type} {n : Nat}

/-- The factors of one side. -/
def vector (scaling : Scaling α n) : Side → Vec α n
  | .unknown => scaling.unknown
  | .residual => scaling.residual

/-- Sets the factor of a range on one side. -/
def setSide [Zero α] [BEq α] (scaling : Scaling α n) (side : Side) (start stop : Nat) (factor : α) :
    Except Violation (Scaling α n) :=
  match side with
  | .unknown => scaling.setUnknown start stop factor
  | .residual => scaling.setResidual start stop factor

/-- The entries in the range become the factor, on that side only. -/
theorem exists_setSide [Zero α] [BEq α] (scaling : Scaling α n) (side : Side) {start stop : Nat}
    {factor : α} (hfactor : (factor == 0) = false) (hstart : start ≤ stop) (hstop : stop ≤ n) :
    ∃ next, scaling.setSide side start stop factor = .ok next ∧
      ∀ other k, (next.vector other).entry k =
        if other = side ∧ start ≤ k.val ∧
          k.val < stop then factor else (scaling.vector other).entry k := by
  have hcheck : check n start stop factor = .ok () := by
    unfold check
    rw [hfactor, if_neg Bool.false_ne_true, if_neg (by omega)]
  have hrange : start + (stop - start) = stop := by omega
  cases side with
  | unknown =>
      refine ⟨{ scaling with unknown := fill scaling.unknown start (stop - start) factor }, ?_, ?_⟩
      · unfold setSide setUnknown
        dsimp only
        rw [hcheck]
        rfl
      · intro other k
        cases other with
        | unknown => simp [vector, fill, hrange]
        | residual => simp [vector]
  | residual =>
      refine ⟨{ scaling with residual := fill scaling.residual start (stop - start) factor }, ?_,
        ?_⟩
      · unfold setSide setResidual
        dsimp only
        rw [hcheck]
        rfl
      · intro other k
        cases other with
        | unknown => simp [vector]
        | residual => simp [vector, fill, hrange]

/-- A scaling with all factors mapped. -/
def map (f : α → β) (scaling : Scaling α n) : Scaling β n :=
  ⟨scaling.unknown.map f, scaling.residual.map f⟩

theorem entry_vector_map (f : α → β) (scaling : Scaling α n) (side : Side) (k : Fin n) :
    ((scaling.map f).vector side).entry k = f ((scaling.vector side).entry k) := by
  cases side with
  | unknown => simp [vector, map, Vec.entry]
  | residual => simp [vector, map, Vec.entry]

theorem entry_scaleJacobian {K : Type} [Field K] (scaling : Scaling K n) (jacobian : Mat K n n)
    (row column : Fin n) :
    (scaling.scaleJacobian jacobian).entry row column =
      jacobian.entry row column * (scaling.unknown.entry column / scaling.residual.entry row) := by
  rw [scaleJacobian, Mat.entry_ofFn, mul_div_assoc]

end Numeric.Scaling

/-- A factor on its way into a scaling. -/
structure Visit where
  slot : Slot
  side : Side
  text : String

namespace Visit

/-- The entries that the factor belongs to. -/
def Covers (visit : Visit) (side : Side) (k : Nat) : Prop :=
  visit.side = side ∧ visit.slot.Contains k

/-- Puts the factor into a scaling. -/
def run {n : Nat} (scaling : Numeric.Scaling Float n) (visit : Visit) :
    ExceptT Numeric.Violation Option (Numeric.Scaling Float n) := do
  let x ← (Decimal.read? visit.text : Option Float)
  (scaling.setSide visit.side visit.slot.offset visit.slot.stop x : Except Numeric.Violation _)

end Visit

namespace Factors

variable {factors : Factors}

/-- The factors of a slot in the order in which they are visited. -/
def visitsOf (factors : Factors) (slot : Slot) : List Visit :=
  (factors.get? slot.name .unknown).toList.map (⟨slot, .unknown, ·⟩) ++
    (factors.get? slot.name .residual).toList.map (⟨slot, .residual, ·⟩)

theorem mem_visitsOf {slot : Slot} {visit : Visit} :
    visit ∈ factors.visitsOf slot ↔ visit.slot = slot ∧ factors.get? slot.name visit.side =
      some visit.text := by
  obtain ⟨slot', side, text⟩ := visit
  cases side with
  | unknown => simp [visitsOf, eq_comm, and_comm]
  | residual => simp [visitsOf, eq_comm, and_comm]

theorem scaleSlot_eq {n : Nat} (slot : Slot) (scaling : Numeric.Scaling Float n) :
    factors.scaleSlot slot scaling = (factors.visitsOf slot).foldlM Visit.run scaling := by
  unfold scaleSlot visitsOf
  cases factors.get? slot.name .unknown with
  | none =>
      cases factors.get? slot.name .residual with
      | none => rfl
      | some r => simp [Visit.run, Numeric.Scaling.setSide]
  | some s =>
      cases factors.get? slot.name .residual with
      | none => simp [Visit.run, Numeric.Scaling.setSide]
      | some r => simp [Visit.run, Numeric.Scaling.setSide]

theorem toScaling_eq (factors : Factors) (layout : Layout) :
    factors.toScaling layout =
      (layout.slots.flatMap factors.visitsOf).foldlM Visit.run (.identity layout.total) := by
  have hslots : ∀ (slots : List Slot) (scaling : Numeric.Scaling Float layout.total),
      slots.foldlM (fun scaling slot => factors.scaleSlot slot scaling) scaling =
        (slots.flatMap factors.visitsOf).foldlM Visit.run scaling := by
    intro slots
    induction slots with
    | nil =>
        intro scaling
        rfl
    | cons slot rest ih =>
        intro scaling
        rw [List.foldlM_cons, List.flatMap_cons, List.foldlM_append, scaleSlot_eq]
        exact bind_congr ih
  exact hslots layout.slots _

end Factors

namespace Visit

variable {n : Nat} {scaling : Numeric.Scaling Float n} {visit : Visit} {rest : List Visit}

theorem run_foldlM_cons_of_unreadable (h : Decimal.read? visit.text = none) :
    ((visit :: rest).foldlM run scaling).run = none := by
  rw [List.foldlM_cons]
  unfold run
  rw [h]
  rfl

theorem run_foldlM_cons {x : Float} {next : Numeric.Scaling Float n}
    (h : Decimal.read? visit.text = some x)
    (hnext : scaling.setSide visit.side visit.slot.offset visit.slot.stop x = .ok next) :
    ((visit :: rest).foldlM run scaling).run = (rest.foldlM run next).run := by
  have hrun : run scaling visit = pure next := by
    unfold run
    rw [h]
    show ((scaling.setSide visit.side visit.slot.offset visit.slot.stop x :
      Except Numeric.Violation _) : ExceptT Numeric.Violation Option _) = _
    rw [hnext]
    rfl
  rw [List.foldlM_cons, hrun, pure_bind]

/-- A visit whose factor is a number other than zero, and whose slot is in range. -/
def Fits (n : Nat) (visit : Visit) : Prop :=
  visit.slot.stop ≤ n ∧ ∃ x, Decimal.read? visit.text = some x ∧ (x == 0) = false

/-- After visits that fit, an entry is as before if no visit covers it, and otherwise the number of
a visit that does. -/
theorem exists_run_visits {visits : List Visit} (hfits : ∀ visit ∈ visits, visit.Fits n)
    (scaling : Numeric.Scaling Float n) :
    ∃ result, (visits.foldlM run scaling).run = some (.ok result) ∧
      ∀ side (k : Fin n), ((∀ visit ∈ visits, ¬ visit.Covers side k) ∧
          (result.vector side).entry k = (scaling.vector side).entry k) ∨
        ∃ visit ∈ visits, visit.Covers side k ∧ Decimal.read? visit.text =
          some ((result.vector side).entry k) := by
  induction visits generalizing scaling with
  | nil => exact ⟨scaling, rfl, fun side k => Or.inl ⟨fun _ h => absurd h List.not_mem_nil, rfl⟩⟩
  | cons visit rest ih =>
      obtain ⟨⟨hstop, x, hread, hx⟩, hrest⟩ := List.forall_mem_cons.mp hfits
      obtain ⟨next, hnext, hentries⟩ := scaling.exists_setSide visit.side hx
        (Nat.le_add_right visit.slot.offset visit.slot.size) hstop
      obtain ⟨result, hrun, hresult⟩ := ih hrest next
      refine ⟨result, (run_foldlM_cons hread hnext).trans hrun, fun side k => ?_⟩
      rcases hresult side k with ⟨hnone, hsame⟩ | ⟨other, hother, hcovers, hvalue⟩
      · -- later visits leave the entry alone, so this one decides
        rw [hentries side k] at hsame
        by_cases hcovers : visit.Covers side k
        · rw [if_pos ⟨hcovers.1.symm, hcovers.2⟩] at hsame
          exact Or.inr ⟨visit, List.mem_cons_self .., hcovers, hsame ▸ hread⟩
        · rw [if_neg fun h => hcovers ⟨h.1.symm, h.2⟩] at hsame
          exact Or.inl ⟨List.forall_mem_cons.mpr ⟨hcovers, hnone⟩, hsame⟩
      · exact Or.inr ⟨other, List.mem_cons_of_mem _ hother, hcovers, hvalue⟩

/-- A visit whose factor is no number ends everything, unless a zero comes first. -/
theorem run_visits_eq_none {before after : List Visit} (hread : Decimal.read? visit.text = none)
    (hbefore : ∀ other ∈ before, other.slot.stop ≤ n ∧ ∀ x, Decimal.read? other.text = some x →
      (x == 0) = false)
    (scaling : Numeric.Scaling Float n) :
    ((before ++ visit :: after).foldlM run scaling).run = none := by
  induction before generalizing scaling with
  | nil => exact run_foldlM_cons_of_unreadable hread
  | cons other rest ih =>
      obtain ⟨⟨hstop, hnonzero⟩, hrest⟩ := List.forall_mem_cons.mp hbefore
      cases hother : Decimal.read? other.text with
      | none => exact run_foldlM_cons_of_unreadable hother
      | some x =>
          obtain ⟨next, hnext, -⟩ := scaling.exists_setSide other.side (hnonzero x hother)
            (Nat.le_add_right other.slot.offset other.slot.size) hstop
          rw [List.cons_append, run_foldlM_cons hother hnext]
          exact ih hrest next

end Visit

/-! ## Blocks of the inverse -/

namespace Numeric

/-- A block with all entries multiplied by a factor. -/
def ExtractedBlock.times {α : Type} [Mul α] (block : ExtractedBlock α) (factor : α) :
    ExtractedBlock α :=
  ⟨block.place, Mat.ofFn fun i j => block.entries.entry i j * factor⟩

variable {K : Type} [Field K] {n : Nat}

/-- A block whose unknowns have one factor, and whose residuals have one, is multiplied by their
quotient. -/
theorem ExtractedBlock.mapBack_eq_times {scaling : Scaling K n} {block : ExtractedBlock K} {x y : K}
    (hrows : block.place.rows.stop ≤ n) (hcolumns : block.place.columns.stop ≤ n)
    (hx : ∀ k : Fin n, block.place.rows.start ≤ k.val → k.val < block.place.rows.stop →
      scaling.unknown.entry k = x)
    (hy : ∀ k : Fin n, block.place.columns.start ≤ k.val → k.val < block.place.columns.stop →
      scaling.residual.entry k = y) :
    block.mapBack scaling = (block.mapBack (.identity n)).times (x / y) := by
  refine congrArg (ExtractedBlock.mk block.place)
    (congrArg Mat.ofFn (funext fun i => funext fun j => ?_))
  have hi : i.val < block.place.rows.stop - block.place.rows.start := i.isLt
  have hj : j.val < block.place.columns.stop - block.place.columns.start := j.isLt
  let row : Fin n := ⟨block.place.rows.start + i, by omega⟩
  let column : Fin n := ⟨block.place.columns.start + j, by omega⟩
  have hrow : scaling.unknown.entryOrZero (block.place.rows.start + i) = x :=
    (Vec.entryOrZero_of_lt _ row.isLt).trans
      (hx row (Nat.le_add_right _ _) (by show block.place.rows.start + i.val < _; omega))
  have hcolumn : scaling.residual.entryOrZero (block.place.columns.start + j) = y :=
    (Vec.entryOrZero_of_lt _ column.isLt).trans
      (hy column (Nat.le_add_right _ _) (by show block.place.columns.start + j.val < _; omega))
  have hone : ∀ k : Fin n, Vec.entryOrZero (Vector.replicate n (1 : K)) k = 1 := by
    intro k
    rw [Vec.entryOrZero_of_lt _ k.isLt]
    simp [Vec.entry]
  unfold mapBack Scaling.identity
  dsimp only
  rw [Mat.entry_ofFn, hrow, hcolumn, hone row, hone column, mul_one, div_one, mul_div_assoc]

end Numeric

/-! ## Factors of a layout -/

namespace Factors

variable {factors : Factors} {dim : Dimension} {vars : List Variable}

/-- The number of a factor, which is one if the factor is not given. -/
def number? (factors : Factors) (name : String) (side : Side) : Option Float :=
  match factors.get? name side with
  | none => some 1
  | some s => Decimal.read? s

/-- The factors of the variables are numbers other than zero. -/
def NumbersFor (factors : Factors) (vars : List Variable) : Prop :=
  ∀ v ∈ vars, ∀ side s, factors.get? v.name side = some s → ∃ x, Decimal.read? s = some x ∧
    (x == 0) = false

theorem numbersFor_of_entries
    (h : ∀ entry ∈ factors.entries, ∃ x, Decimal.read? entry.2 = some x ∧ (x == 0) = false) :
    factors.NumbersFor vars := by
  intro v _ side s hget
  obtain ⟨before, after, heq, -⟩ := List.lookup_eq_some_iff.mp hget
  exact h ((v.name, side), s) (heq ▸ List.mem_append_right before (List.mem_cons_self ..))

/-- The expressions of the factors, in the order in which they are read. -/
def visited (factors : Factors) (layout : Layout) : List String :=
  layout.slots.flatMap fun slot =>
    (factors.get? slot.name .unknown).toList ++ (factors.get? slot.name .residual).toList

theorem visited_eq (factors : Factors) (layout : Layout) :
    factors.visited layout = (layout.slots.flatMap factors.visitsOf).map Visit.text := by
  unfold visited visitsOf
  rw [List.map_flatMap]
  simp [Function.comp_def]

/-- A factor is a literal of code in base ten.  One that is not given counts as the real number
one. -/
def Literal (factors : Factors) (name : String) (side : Side) (x : Quantity Float) : Prop :=
  factors.quantity? Quantity.ofLiteral? name side = some x ∧
    ∀ s, factors.get? name side = some s → Quantity.isOctal s = false

/-- The factors of an unknown and a residual are literals in base ten, and not both are whole. -/
def RealQuotient (factors : Factors) (unknown residual : String) : Prop :=
  ∃ x y, factors.Literal unknown .unknown x ∧ factors.Literal residual .residual y ∧
    (x.isWhole && y.isWhole) = false

/-- Numbers are written as real literals. -/
theorem literal_of_number {name : String} {side : Side} {x : Float} (hpos : 0 < x)
    (hfinite : x.isFinite = true) (h : factors.get? name side = some (Decimal.literal x)) :
    factors.Literal name side (.real x) := by
  obtain ⟨hliteral, hoctal⟩ := Quantity.ofLiteral?_literal hpos hfinite
  refine ⟨?_, fun s hs => ?_⟩
  · rw [quantity?, h]
    exact hliteral
  · obtain rfl := Option.some.inj (h.symm.trans hs)
    exact hoctal

theorem number?_of_literal {name : String} {side : Side} {x : Quantity Float}
    (h : factors.Literal name side x) :
    factors.number? name side = some (x.toReal Quantity.doubleOf) := by
  obtain ⟨hx, hdecimal⟩ := h
  unfold quantity? at hx
  unfold number?
  cases hget : factors.get? name side with
  | none =>
      rw [hget] at hx
      obtain rfl : Quantity.real 1 = x := Option.some.inj hx
      rfl
  | some s =>
      rw [hget] at hx
      exact Quantity.read?_of_ofLiteral? hx (hdecimal s hget)

/-- A factor with a value has a text without brackets. -/
theorem not_mem_of_quantity? {name : String} {side : Side} {x : Quantity Float}
    (h : factors.quantity? Quantity.ofLiteral? name side = some x) :
    ∀ s ∈ factors.get? name side, ')' ∉ s.toList := by
  intro s hs
  rw [quantity?, Option.mem_def.mp hs] at h
  exact Decimal.not_mem_of_ofLiteral? h

theorem fits_of_mem_visits (hnumbers : factors.NumbersFor vars) {visit : Visit}
    (h : visit ∈ (Layout.plan dim vars).slots.flatMap factors.visitsOf) :
    visit.Fits (Layout.plan dim vars).total := by
  obtain ⟨slot, hslot, hvisit⟩ := List.mem_flatMap.mp h
  obtain ⟨rfl, hget⟩ := mem_visitsOf.mp hvisit
  refine ⟨Layout.stop_le_total hslot, ?_⟩
  exact hnumbers visit.slot.owner (Layout.owner_mem_of_mem_plan hslot) visit.side visit.text hget

/-- If all factors are numbers there is a scaling, and it holds the factors of the variables at the
indices of their slots. -/
theorem exists_toScaling (hnumbers : factors.NumbersFor vars) (dim : Dimension) :
    ∃ scaling, (factors.toScaling (Layout.plan dim vars)).run = some (.ok scaling) ∧
      ∀ slot ∈ (Layout.plan dim vars).slots, ∀ side (k : Fin (Layout.plan dim vars).total),
        slot.Contains k →
        factors.number? slot.name side = some ((scaling.vector side).entry k) := by
  rw [toScaling_eq]
  obtain ⟨scaling, hrun, hentries⟩ :=
    Visit.exists_run_visits (fun _ hmem => fits_of_mem_visits hnumbers hmem)
    (Numeric.Scaling.identity (Layout.plan dim vars).total)
  refine ⟨scaling, hrun, fun slot hslot side k hk => ?_⟩
  -- a visit that covers the index belongs to this very slot
  have hvisit : ∀ visit ∈ (Layout.plan dim vars).slots.flatMap factors.visitsOf,
      visit.Covers side k →
      factors.get? slot.name side = some visit.text := by
    rintro visit hvisit ⟨rfl, hcontains⟩
    obtain ⟨other, hother, hmem⟩ := List.mem_flatMap.mp hvisit
    obtain ⟨rfl, hget⟩ := mem_visitsOf.mp hmem
    rwa [(Layout.plan_ordered dim vars).eq_of_contains hslot hother hk hcontains]
  unfold number?
  rcases hentries side k with ⟨hnone, hsame⟩ | ⟨visit, hmem, hcovers, hvalue⟩
  · cases hget : factors.get? slot.name side with
    | none =>
        have hone : ((Numeric.Scaling.identity (Layout.plan dim vars).total).vector side).entry k =
            (1 : Float) := by
          cases side <;> simp [Numeric.Scaling.vector, Numeric.Scaling.identity, Numeric.Vec.entry]
        exact congrArg some (hsame.trans hone).symm
    | some s =>
        have hmem :
            (⟨slot, side, s⟩ : Visit) ∈ (Layout.plan dim vars).slots.flatMap factors.visitsOf :=
          List.mem_flatMap.mpr ⟨slot, hslot, mem_visitsOf.mpr ⟨rfl, hget⟩⟩
        exact absurd ⟨rfl, hk⟩ (hnone _ hmem)
  · rw [hvisit visit hmem hcovers]
    exact hvalue

/-- If a factor is no number there is no result, unless a zero comes first. -/
theorem toScaling_eq_none {before after : List String} {text : String}
    (hvisited : factors.visited (Layout.plan dim vars) = before ++ text :: after)
    (htext : Decimal.read? text = none)
    (hbefore : ∀ earlier ∈ before, ∀ x, Decimal.read? earlier = some x → (x == 0) = false) :
    (factors.toScaling (Layout.plan dim vars)).run = none := by
  rw [visited_eq] at hvisited
  obtain ⟨visits, rest, hsplit, rfl, hrest⟩ := List.map_eq_append_iff.mp hvisited
  obtain ⟨visit, later, rfl, rfl, rfl⟩ := List.map_eq_cons_iff.mp hrest
  rw [toScaling_eq, hsplit]
  refine Visit.run_visits_eq_none htext (fun other hother => ⟨?_, ?_⟩) _
  · have hmem : other ∈ (Layout.plan dim vars).slots.flatMap factors.visitsOf := by
      rw [hsplit]
      exact List.mem_append_left _ hother
    obtain ⟨slot, hslot, hvisit⟩ := List.mem_flatMap.mp hmem
    obtain ⟨rfl, -⟩ := mem_visitsOf.mp hvisit
    exact Layout.stop_le_total hslot
  · exact hbefore other.text (List.mem_map_of_mem hother)


/-! ## Agreement -/

section Values

variable {α : Type} [One α]

/-- The value of a literal, where doubles have values of some type. -/
def literalIn (value : Float → α) (text : String) : Option (Quantity α) :=
  (Quantity.ofLiteral? text).map (Quantity.map value)

theorem quantity?_literalIn {value : Float → α} (hvalue : value 1 = 1) {name : String} {side : Side}
    {x : Quantity Float} (h : factors.quantity? Quantity.ofLiteral? name side = some x) :
    factors.quantity? (literalIn value) name side = some (x.map value) := by
  unfold quantity? at h ⊢
  cases hget : factors.get? name side with
  | none =>
      rw [hget] at h
      obtain rfl : Quantity.real 1 = x := Option.some.inj h
      show some (Quantity.real 1) = some (.real (value 1))
      rw [hvalue]
  | some s =>
      rw [hget] at h
      exact congrArg (Option.map _) (show Quantity.ofLiteral? s = some x from h)

theorem ofLiteral?_one : Quantity.ofLiteral? "1" = some (.whole 1) := by
  decide +kernel

theorem doubleOf_one : Quantity.doubleOf 1 = 1 := by
  decide +kernel

variable [Div α]

/-- The value of the text of a quotient of literals is the quotient in code of their values. -/
theorem factorOf?_literalIn {value : Float → α} (hvalue : value 1 = 1) (hdiv : ∀ x : α, x / 1 = x)
    {unknown residual : String} {x y : Quantity Float}
    (hx : factors.quantity? Quantity.ofLiteral? unknown .unknown = some x)
    (hy : factors.quantity? Quantity.ofLiteral? residual .residual = some y) :
    factorOf? (value ∘ Quantity.doubleOf) (literalIn value)
        (Scale.of? (factors.get? unknown .unknown) (factors.get? residual .residual)) =
      ((x.map value).div? (value ∘ Quantity.doubleOf) (y.map value)).map
        (·.toReal (value ∘ Quantity.doubleOf)) := by
  have hone : literalIn value "1" = some (.whole 1) := congrArg (Option.map _) ofLiteral?_one
  have hreal : (value ∘ Quantity.doubleOf) 1 = 1 := (congrArg value doubleOf_one).trans hvalue
  refine factorOf?_of? hone hreal hdiv (quantity?_literalIn hvalue hx)
    (quantity?_literalIn hvalue hy) ?_
  rintro t (ht | ht)
  · exact not_mem_of_quantity? hx t ht
  · exact not_mem_of_quantity? hy t ht

/-- If not both are whole, it is the quotient of the numbers. -/
theorem factorOf?_of_realQuotient {value : Float → α} (hvalue : value 1 = 1)
    (hdiv : ∀ x : α, x / 1 = x) {unknown residual : String}
    (h : factors.RealQuotient unknown residual) :
    ∃ s r, factors.number? unknown .unknown = some s ∧ factors.number? residual .residual = some r ∧
      factorOf? (value ∘ Quantity.doubleOf) (literalIn value)
          (Scale.of? (factors.get? unknown .unknown) (factors.get? residual .residual)) =
        some (value s / value r) := by
  obtain ⟨x, y, hx, hy, hreal⟩ := h
  refine ⟨_, _, number?_of_literal hx, number?_of_literal hy, ?_⟩
  rw [factorOf?_literalIn hvalue hdiv hx.1 hy.1, Quantity.div?_of_real (by simpa using hreal)]
  show some ((x.map value).toReal _ / (y.map value).toReal _) = _
  rw [Quantity.toReal_map, Quantity.toReal_map]

end Values

/-- The code and a scaling agree on the factors of all blocks of a layout for which code divides
reals, where doubles have values in a field. -/
structure Agrees {K : Type} [Field K] [LT K] [DecidableLT K] [BEq K] [Numeric.ScalarFunctions K]
    (factors : Factors) (layout : Layout) (value : Float → K)
    (scaling : Numeric.Scaling K layout.total) : Prop where
  /-- The text that scales a block of the Jacobian is what each of its cells is multiplied by. -/
  jacobian : ∀ a ∈ layout.slots, ∀ b ∈ layout.slots, factors.RealQuotient b.name a.name →
    ∃ factor, factorOf? (value ∘ Quantity.doubleOf) (literalIn value)
        (factors.jacobianScale? a.name b.name) = some factor ∧
      ∀ (matrix : Numeric.Mat K layout.total layout.total) (row column : Fin layout.total),
        a.Contains row → b.Contains column →
          (scaling.scaleJacobian matrix).entry row column = matrix.entry row column * factor
  /-- The text that maps a block of the inverse back is what the block of the scaled inverse is
  multiplied by. -/
  inverse : ∃ factor : Slot → Slot → K,
    (∀ a ∈ layout.slots, ∀ b ∈ layout.slots, factors.RealQuotient a.name b.name →
      factorOf? (value ∘ Quantity.doubleOf) (literalIn value)
        (factors.inverseScale? a.name b.name) = some (factor a b)) ∧
    ∀ (matrix : Numeric.Mat K layout.total layout.total) (blocks : List PlacedBlock),
      (∀ placed ∈ blocks, placed.unknown ∈ layout.slots ∧ placed.residual ∈ layout.slots) →
        Numeric.inverseBlocks matrix (blocks.map PlacedBlock.range) scaling =
          (Numeric.inverseBlocks matrix (blocks.map PlacedBlock.range)
            (.identity layout.total)).map
            (List.zipWith (fun placed block =>
              block.times (factor placed.unknown placed.residual)) blocks)

section Agreement

variable {K : Type} [Field K] [LT K] [DecidableLT K] [BEq K] [Numeric.ScalarFunctions K]

/-- Blocks of the inverse are mapped back by the quotient of the factors of their variables. -/
theorem inverseBlocks_eq_times {scaling : Numeric.Scaling K (Layout.plan dim vars).total}
    {value : Slot → Side → K}
    (hentries : ∀ slot ∈ (Layout.plan dim vars).slots,
      ∀ side (k : Fin (Layout.plan dim vars).total), slot.Contains k →
        (scaling.vector side).entry k = value slot side)
    (matrix : Numeric.Mat K (Layout.plan dim vars).total (Layout.plan dim vars).total)
    {blocks : List PlacedBlock}
    (hblocks : ∀ placed ∈ blocks, placed.unknown ∈ (Layout.plan dim vars).slots ∧
      placed.residual ∈ (Layout.plan dim vars).slots) :
    Numeric.inverseBlocks matrix (blocks.map PlacedBlock.range) scaling =
      (Numeric.inverseBlocks matrix (blocks.map PlacedBlock.range) (.identity _)).map
        (List.zipWith (fun placed block => block.times
          (value placed.unknown .unknown / value placed.residual .residual)) blocks) := by
  have hfits : ∀ place ∈ blocks.map PlacedBlock.range, place.Fits (Layout.plan dim vars).total := by
    refine List.forall_mem_map.mpr fun placed hplaced => ?_
    obtain ⟨hunknown, hresidual⟩ := hblocks placed hplaced
    exact ⟨Layout.stop_le_total hunknown, Layout.stop_le_total hresidual⟩
  cases hfactors : Numeric.factorise? matrix with
  | none =>
      rw [Numeric.inverseBlocks_of_none hfits hfactors,
        Numeric.inverseBlocks_of_none hfits hfactors]
      rfl
  | some solved =>
      rw [Numeric.inverseBlocks_of_some hfits hfactors,
        Numeric.inverseBlocks_of_some hfits hfactors]
      -- block by block
      refine congrArg Except.ok ?_
      rw [List.map_map, List.map_map, List.zipWith_map_right, List.zipWith_self]
      refine List.map_congr_left fun placed hplaced => ?_
      obtain ⟨hunknown, hresidual⟩ := hblocks placed hplaced
      exact Numeric.ExtractedBlock.mapBack_eq_times (Layout.stop_le_total hunknown)
        (Layout.stop_le_total hresidual)
        (fun k hstart hstop => hentries placed.unknown hunknown .unknown k ⟨hstart, hstop⟩)
        (fun k hstart hstop => hentries placed.residual hresidual .residual k ⟨hstart, hstop⟩)

/-- A scaling that has the numbers of the factors at the indices of their slots agrees with the
code. -/
theorem agrees_of_entries {value : Float → K} (hvalue : value 1 = 1)
    {scaling : Numeric.Scaling K (Layout.plan dim vars).total}
    (hentries : ∀ slot ∈ (Layout.plan dim vars).slots,
      ∀ side (k : Fin (Layout.plan dim vars).total), slot.Contains k →
        (scaling.vector side).entry k = value ((factors.number? slot.name side).getD 1)) :
    factors.Agrees (Layout.plan dim vars) value scaling := by
  constructor
  · intro a ha b hb hquotient
    obtain ⟨s, r, hs, hr, hfactor⟩ := factorOf?_of_realQuotient hvalue div_one hquotient
    refine ⟨value s / value r, hfactor, fun matrix row column hrow hcolumn => ?_⟩
    have hunknown : scaling.unknown.entry column = value s := by
      have hentry := hentries b hb .unknown column hcolumn
      rwa [hs] at hentry
    have hresidual : scaling.residual.entry row = value r := by
      have hentry := hentries a ha .residual row hrow
      rwa [hr] at hentry
    rw [Numeric.Scaling.entry_scaleJacobian, hunknown, hresidual]
  · refine ⟨fun a b => value ((factors.number? a.name .unknown).getD 1) /
      value ((factors.number? b.name .residual).getD 1), fun a _ b _ hquotient => ?_,
      fun matrix blocks hblocks => inverseBlocks_eq_times hentries matrix hblocks⟩
    obtain ⟨s, r, hs, hr, hfactor⟩ := factorOf?_of_realQuotient hvalue div_one hquotient
    dsimp only
    rw [hs, hr]
    exact hfactor

end Agreement

theorem literalIn_id : literalIn (id : Float → Float) = Quantity.ofLiteral? := by
  funext text
  unfold literalIn
  cases Quantity.ofLiteral? text with
  | none => rfl
  | some x => cases x <;> rfl

/-- The value of the text of a quotient is the quotient of the entries of a scaling. -/
theorem factorOf?_eq_entries {unknown residual : String} (h : factors.RealQuotient unknown residual)
    {s r : Float} (hs : factors.number? unknown .unknown = some s)
    (hr : factors.number? residual .residual = some r) :
    factorOf? Quantity.doubleOf Quantity.ofLiteral?
      (Scale.of? (factors.get? unknown .unknown) (factors.get? residual .residual)) =
        some (s / r) := by
  obtain ⟨s', r', hs', hr', hfactor⟩ :=
    factorOf?_of_realQuotient (id_eq (1 : Float)) Numeric.div_one_double h
  obtain rfl := Option.some.inj (hs.symm.trans hs')
  obtain rfl := Option.some.inj (hr.symm.trans hr')
  rwa [literalIn_id] at hfactor

/-- Emitted scalings and runtime factors agree where code divides reals.  If the factors of all
variables are numbers other than zero there is a scaling; it holds the factors of the variable that
owns an index.  If the factors of a block are literals in base ten, and not both are whole, the text
that scales the block is the quotient of the entries of the scaling, on doubles, and it is the
factor by which cells and blocks are multiplied, with exact values.  Literals that are written for
positive numbers are of this kind, and real.  If both are whole the text has their cut quotient as
its value.  If some factor is no number, and no zero comes before it, there is
no scaling. -/
theorem factor_of_code_eq_factor_of_scaling_if_real (factors : Factors) (dim : Dimension)
    (vars : List Variable) :
    let layout := Layout.plan dim vars
    (factors.NumbersFor vars →
      ∃ scaling, (factors.toScaling layout).run = some (.ok scaling) ∧
        (∀ k : Fin layout.total, ∃ place, layout.locate k = some place ∧
          factors.number? place.name .unknown = some (scaling.unknown.entry k) ∧
          factors.number? place.name .residual = some (scaling.residual.entry k)) ∧
        (∀ a ∈ layout.slots, ∀ b ∈ layout.slots, ∀ row column : Fin layout.total,
          a.Contains row → b.Contains column →
            (factors.RealQuotient b.name a.name →
              factorOf? Quantity.doubleOf Quantity.ofLiteral?
                (factors.jacobianScale? a.name b.name) =
                some (scaling.unknown.entry column / scaling.residual.entry row)) ∧
            (factors.RealQuotient a.name b.name →
              factorOf? Quantity.doubleOf Quantity.ofLiteral?
                (factors.inverseScale? a.name b.name) =
                some (scaling.unknown.entry row / scaling.residual.entry column))) ∧
        ∀ (K : Type) [Field K] [LT K] [DecidableLT K] [BEq K] [Numeric.ScalarFunctions K]
          (value : Float → K), value 1 = 1 → factors.Agrees layout value (scaling.map value)) ∧
      (∀ unknown residual m n,
        factors.quantity? Quantity.ofLiteral? unknown .unknown = some (.whole m) →
        factors.quantity? Quantity.ofLiteral? residual .residual = some (.whole n) → n ≠ 0 →
          factorOf? Quantity.doubleOf Quantity.ofLiteral?
            (factors.jacobianScale? residual unknown) =
              some (Quantity.doubleOf (m.tdiv n)) ∧
            factorOf? Quantity.doubleOf Quantity.ofLiteral?
                (factors.inverseScale? unknown residual) =
              some (Quantity.doubleOf (m.tdiv n))) ∧
      (∀ name side x, 0 < x → x.isFinite = true →
        factors.get? name side = some (Decimal.literal x) →
          factors.Literal name side (.real x)) ∧
      ∀ before text after, factors.visited layout = before ++ text :: after →
        Decimal.read? text = none →
        (∀ earlier ∈ before, ∀ x, Decimal.read? earlier = some x → (x == 0) = false) →
          (factors.toScaling layout).run = none := by
  intro layout
  refine ⟨fun hnumbers => ?_, fun unknown residual m n hm hn hzero => ?_,
    fun name side x hpos hfinite h => literal_of_number hpos hfinite h,
    fun before text after hvisited htext hbefore => toScaling_eq_none hvisited htext hbefore⟩
  · obtain ⟨scaling, hrun, hentries⟩ := exists_toScaling hnumbers dim
    refine ⟨scaling, hrun, fun k => ?_, fun a ha b hb row column hrow hcolumn =>
      ⟨fun hquotient => ?_, fun hquotient => ?_⟩, fun K _ _ _ _ _ value hvalue => ?_⟩
    · obtain ⟨slot, hslot, hk⟩ := Layout.exists_contains_of_lt_total k.isLt
      obtain ⟨element, helement, component, hcomponent, hindex⟩ := Slot.exists_index_of_contains hk
      refine ⟨⟨slot.name, element, component⟩, ?_, hentries slot hslot .unknown k hk,
        hentries slot hslot .residual k hk⟩
      rw [← hindex]
      exact (Layout.plan_ordered dim vars).locate_index hslot helement hcomponent
    · exact factorOf?_eq_entries hquotient (hentries b hb .unknown column hcolumn)
        (hentries a ha .residual row hrow)
    · exact factorOf?_eq_entries hquotient (hentries a ha .unknown row hrow)
        (hentries b hb .residual column hcolumn)
    · refine agrees_of_entries hvalue fun slot hslot side k hk => ?_
      rw [Numeric.Scaling.entry_vector_map, hentries slot hslot side k hk, Option.getD_some]
  · have hfactor := factorOf?_literalIn (id_eq (1 : Float)) Numeric.div_one_double hm hn
    rw [literalIn_id] at hfactor
    have hcut : factorOf? Quantity.doubleOf Quantity.ofLiteral?
        (Scale.of? (factors.get? unknown .unknown) (factors.get? residual .residual)) =
          some (Quantity.doubleOf (m.tdiv n)) := by
      refine hfactor.trans ?_
      simp [Quantity.map, Quantity.div?, hzero, Quantity.toReal]
    exact ⟨hcut, hcut⟩

/-- A pressure with a factor as an unknown, and a strain with one as a residual. -/
def pressureAndStrain : Factors where
  entries := [(("p", .unknown), "2.0"), (("eel", .residual), "4e3")]

theorem pressureAndStrain_numbersFor (vars : List Variable) :
    pressureAndStrain.NumbersFor vars := by
  refine numbersFor_of_entries fun entry hentry => ?_
  rcases List.mem_pair.mp hentry with rfl | rfl
  · exact ⟨2, by decide +kernel, by decide +kernel⟩
  · exact ⟨4000, by decide +kernel, by decide +kernel⟩

theorem pressureAndStrain_realQuotient : pressureAndStrain.RealQuotient "p" "eel" := by
  refine ⟨.real 2, .real 4000, ⟨by decide +kernel, fun s hs => ?_⟩,
    ⟨by decide +kernel, fun s hs => ?_⟩, rfl⟩
  · obtain rfl : "2.0" = s := Option.some.inj hs
    decide
  · obtain rfl : "4e3" = s := Option.some.inj hs
    decide

/-- The text that scales the derivative of the strain with respect to the pressure is the quotient
of the entries of the scaling in a column of the pressure and a row of the strain.  There is no
scaling if a property of the material is a factor. -/
theorem factor_of_code_eq_factor_of_scaling_if_real_pressureAndStrain :
    let vars : List Variable := [⟨"eel", .symmetricTensor, 1⟩, ⟨"p", .scalar, 1⟩]
    let layout := Layout.plan .three vars
    (pressureAndStrain.NumbersFor vars ∧ pressureAndStrain.RealQuotient "p" "eel" ∧
      ∃ scaling, (pressureAndStrain.toScaling layout).run = some (.ok scaling) ∧
        factorOf? Quantity.doubleOf Quantity.ofLiteral?
          (pressureAndStrain.jacobianScale? "eel" "p") =
          some (scaling.unknown.entry ⟨6, by decide⟩ / scaling.residual.entry ⟨0, by decide⟩)) ∧
      ((⟨[(("p", .unknown), "2.0"), (("p", .residual), "young")], false⟩ : Factors).toScaling
        layout).run = none := by
  intro vars layout
  have hnumbers := pressureAndStrain_numbersFor vars
  refine ⟨⟨hnumbers, pressureAndStrain_realQuotient, ?_⟩, ?_⟩
  · obtain ⟨scaling, hrun, -, hquotients, -⟩ :=
      (factor_of_code_eq_factor_of_scaling_if_real pressureAndStrain .three vars).1 hnumbers
    refine ⟨scaling, hrun, ?_⟩
    exact (hquotients ⟨⟨"eel", .symmetricTensor, 1⟩, 0, 6⟩ (by decide) ⟨⟨"p", .scalar, 1⟩, 6, 1⟩
      (by decide) ⟨0, by decide⟩ ⟨6, by decide⟩ ⟨by decide, by decide⟩ ⟨by decide, by decide⟩).1
      pressureAndStrain_realQuotient
  · refine (factor_of_code_eq_factor_of_scaling_if_real _ .three vars).2.2.2 ["2.0"] "young" []
      (by decide) (by decide +kernel) ?_
    intro earlier hearlier x hx
    obtain rfl := List.mem_singleton.mp hearlier
    have htwo : Decimal.read? "2.0" = some 2 := by decide +kernel
    obtain rfl : 2 = x := Option.some.inj (htwo.symm.trans hx)
    decide +kernel

/-- Factors that are numbers, of a residual `a` and an unknown `b`. -/
def ofPair (residual unknown : String) : Factors where
  entries := [(("a", .residual), residual), (("b", .unknown), unknown)]

/-- The factors of a scaling of two scalars. -/
theorem exists_scaling_ofPair {residual unknown : String} {r s : Float}
    (hr : Decimal.read? residual = some r) (hs : Decimal.read? unknown = some s)
    (hr' : (r == 0) = false) (hs' : (s == 0) = false) :
    let layout := Layout.plan .three [⟨"a", .scalar, 1⟩, ⟨"b", .scalar, 1⟩]
    (ofPair residual unknown).NumbersFor [⟨"a", .scalar, 1⟩, ⟨"b", .scalar, 1⟩] ∧
      ∃ scaling, ((ofPair residual unknown).toScaling layout).run = some (.ok scaling) ∧
        scaling.residual.entry ⟨0, by decide⟩ = r ∧ scaling.unknown.entry ⟨1, by decide⟩ = s := by
  intro layout
  have hnumbers : (ofPair residual unknown).NumbersFor [⟨"a", .scalar, 1⟩, ⟨"b", .scalar, 1⟩] := by
    refine numbersFor_of_entries fun entry hentry => ?_
    rcases List.mem_pair.mp hentry with rfl | rfl
    · exact ⟨r, hr, hr'⟩
    · exact ⟨s, hs, hs'⟩
  obtain ⟨scaling, hrun, hentries⟩ := exists_toScaling hnumbers .three
  refine ⟨hnumbers, scaling, hrun, ?_, ?_⟩
  · have hentry := hentries ⟨⟨"a", .scalar, 1⟩, 0, 1⟩ (by decide) .residual ⟨0, by decide⟩
      ⟨by decide, by decide⟩
    exact Option.some.inj (hentry.symm.trans hr)
  · have hentry := hentries ⟨⟨"b", .scalar, 1⟩, 1, 1⟩ (by decide) .unknown ⟨1, by decide⟩
      ⟨by decide, by decide⟩
    exact Option.some.inj (hentry.symm.trans hs)

/-- Whole factors are divided without remainder by code, a number that starts with zero is octal for
it, and infinity is no number.  A scaling has other factors then. -/
theorem factor_of_code_can_differ :
    let layout := Layout.plan .three [⟨"a", .scalar, 1⟩, ⟨"b", .scalar, 1⟩]
    let code (residual unknown : String) : Option Float :=
      factorOf? Quantity.doubleOf Quantity.ofLiteral?
        ((ofPair residual unknown).jacobianScale? "a" "b")
    let applied (residual unknown : String) (factor : Float) : Prop :=
      ∃ scaling, ((ofPair residual unknown).toScaling layout).run = some (.ok scaling) ∧
        scaling.unknown.entry ⟨1, by decide⟩ / scaling.residual.entry ⟨0, by decide⟩ = factor
    (code "3" "2" = some 0 ∧ applied "3" "2" (2 / 3) ∧ (2 / 3 : Float) ≠ 0) ∧
      (code "2.0" "010" = some 4 ∧ applied "2.0" "010" 5) ∧
      (code "2.0" "inf" = none ∧ applied "2.0" "inf" Decimal.infinity) := by
  intro layout code applied
  have hthree : Decimal.read? "3" = some 3 := by decide +kernel
  have htwo : Decimal.read? "2" = some 2 := by decide +kernel
  have hreal : Decimal.read? "2.0" = some 2 := by decide +kernel
  have hten : Decimal.read? "010" = some 10 := by decide +kernel
  have hinfinite : Decimal.read? "inf" = some Decimal.infinity := by decide +kernel
  refine ⟨⟨by decide +kernel, ?_, by decide +kernel⟩, ⟨by decide +kernel, ?_⟩,
    by decide +kernel, ?_⟩
  · obtain ⟨-, scaling, hrun, hresidual, hunknown⟩ :=
      exists_scaling_ofPair hthree htwo (by decide +kernel) (by decide +kernel)
    exact ⟨scaling, hrun, by rw [hresidual, hunknown]⟩
  · obtain ⟨-, scaling, hrun, hresidual, hunknown⟩ :=
      exists_scaling_ofPair hreal hten (by decide +kernel) (by decide +kernel)
    refine ⟨scaling, hrun, ?_⟩
    rw [hresidual, hunknown]
    decide +kernel
  · obtain ⟨-, scaling, hrun, hresidual, hunknown⟩ :=
      exists_scaling_ofPair hreal hinfinite (by decide +kernel) (by decide +kernel)
    refine ⟨scaling, hrun, ?_⟩
    rw [hresidual, hunknown]
    decide +kernel

end Factors

end Constitutive
