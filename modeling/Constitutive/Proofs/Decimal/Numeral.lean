import Constitutive.Decimal.Numeral
import Constitutive.Decimal.Text
import Constitutive.Proofs.Decimal.Shortest

/-!
# Literals read back

The literal of a positive number is read as that number (`read?_literal`).

## Strategy

A literal has digits, a point and perhaps an exponent.  What `unsigned?` makes of such a text is a
decimal of the same value as the one that was written (`unsigned?_point`), though its coefficient
may have more zeros.  It is near the double, as the one written is, and the double nearest to it is
the double itself.
-/

namespace Constitutive.Decimal

/-! ## Values of decimals -/

theorem Scaled.coefficient_pos {d : Scaled} (h : 0 < d.value) : 0 < d.coefficient := by
  by_contra hzero
  rw [value, Nat.eq_zero_of_not_pos hzero, Nat.cast_zero, zero_mul] at h
  exact lt_irrefl _ h

theorem two_pow_le_ten_pow : (2 : ℚ) ^ 1075 ≤ 10 ^ 400 :=
  calc (2 : ℚ) ^ 1075 ≤ 2 ^ (3 * 400) := pow_le_pow_right₀ one_le_two (by decide)
    _ = (2 ^ 3) ^ 400 := pow_mul _ _ _
    _ ≤ 10 ^ 400 := pow_le_pow_left₀ (by norm_num) (by norm_num) _

/-- A decimal near a double is far from being too large or too small. -/
theorem Scaled.place_of_near {b : Binary} (hregular : b.Regular) {d : Scaled} (h : b.Near d.value) :
    -400 ≤ d.place ∧ d.place ≤ 400 := by
  obtain ⟨hplaceLow, hplaceHigh⟩ := place_bounds (coefficient_pos (h.pos hregular))
  have hten : (1 : ℚ) < 10 := by norm_num
  have hlow : (10 : ℚ) ^ (-400 : ℤ) ≤ d.value := by
    have hmantissa : (1 : ℚ) ≤ b.mantissa := by exact_mod_cast hregular.mantissa_pos
    have hbelow := b.below_le
    calc (10 : ℚ) ^ (-400 : ℤ) = (10 ^ 400)⁻¹ := by rw [zpow_neg]; norm_cast
      _ ≤ (2 ^ 1075)⁻¹ := inv_anti₀ (by positivity) two_pow_le_ten_pow
      _ = 1 / 2 * 2 ^ (-1074 : ℤ) := by
        rw [zpow_neg, pow_succ, mul_inv, mul_comm, one_div]; norm_cast
      _ ≤ (b.mantissa - b.below) * 2 ^ b.exponent := by
        have hexponent := hregular.exponent_ge
        have hpower : (2 : ℚ) ^ (-1074 : ℤ) ≤ 2 ^ b.exponent :=
          zpow_le_zpow_right₀ one_le_two hexponent
        exact mul_le_mul (by linarith) hpower (by positivity) (by linarith)
      _ ≤ d.value := h.bounds.1
  have hhigh : d.value < (10 : ℚ) ^ (400 : ℤ) := by
    have hexponent := hregular.exponent_le
    calc d.value < 2 ^ (b.exponent + 53) := h.lt hregular
      _ ≤ 2 ^ ((1075 : ℕ) : ℤ) := zpow_le_zpow_right₀ one_le_two (by omega)
      _ = 2 ^ 1075 := zpow_natCast _ _
      _ ≤ 10 ^ 400 := two_pow_le_ten_pow
      _ = 10 ^ (400 : ℤ) := (zpow_natCast _ 400).symm
  have h₁ := (zpow_lt_zpow_iff_right₀ hten).mp (hlow.trans_lt hplaceHigh)
  have h₂ := (zpow_lt_zpow_iff_right₀ hten).mp (hplaceLow.trans_lt hhigh)
  omega

/-- A decimal near a double is read as the double. -/
theorem Scaled.toFloat_of_near {b : Binary} (hregular : b.Regular) {d : Scaled}
    (h : b.Near d.value) :
    d.toFloat = Float.ofBits b.bits.toUInt64 := by
  obtain ⟨hlow, hhigh⟩ := place_of_near hregular h
  have hpower := powerRatio_pos (show 0 < 10 by decide) d.exponent
  have hratio := powerRatio_div 10 d.exponent
  unfold toFloat
  rw [if_neg (coefficient_pos (h.pos hregular)).ne', if_neg (by omega), if_neg (by omega)]
  have hvalue : ((d.coefficient * (powerRatio 10 d.exponent).1 : ℕ) : ℚ) /
      (powerRatio 10 d.exponent).2 = d.value := by
    rw [Nat.cast_mul, mul_div_assoc, hratio]
    rfl
  rw [← hvalue] at h
  exact nearestDouble_of_near hregular hpower.2 h

/-! ## Runs of digits -/

theorem ofDigits_eq (ds : List Char) : ofDigits ds = Nat.ofDigitChars 10 ds 0 :=
  Nat.ofDigitChars_eq_foldl.symm

theorem ofDigits_digits (n : ℕ) : ofDigits (digits n) = n := by
  rw [ofDigits_eq]
  exact Nat.ofDigitChars_ten_toDigits

theorem all_isDigit_digits (n : ℕ) : ∀ c ∈ digits n, c.isDigit = true :=
  fun _ hc => Nat.isDigit_of_mem_toDigits (by decide) (by decide) hc

theorem ofDigits_append_zeros (ds : List Char) (k : ℕ) :
    ofDigits (ds ++ List.replicate k '0') = ofDigits ds * 10 ^ k := by
  rw [ofDigits_eq, ofDigits_eq, Nat.ofDigitChars_append, Nat.ofDigitChars_replicate_zero,
    Nat.mul_comm]

theorem ofDigits_zeros_append (k : ℕ) (ds : List Char) :
    ofDigits (List.replicate k '0' ++ ds) = ofDigits ds := by
  rw [ofDigits_eq, ofDigits_eq, Nat.ofDigitChars_append, Nat.ofDigitChars_replicate_zero,
    Nat.mul_zero]

/-- A text that does not start with a digit. -/
def StopsDigits (text : List Char) : Prop :=
  ∀ c ∈ text.head?, c.isDigit = false

theorem takeWhile_digits {ds rest : List Char} (hds : ∀ c ∈ ds, c.isDigit = true)
    (hrest : StopsDigits rest) :
    (ds ++ rest).takeWhile Char.isDigit = ds ∧ (ds ++ rest).dropWhile Char.isDigit = rest := by
  rw [List.takeWhile_append_of_pos hds, List.dropWhile_append_of_pos hds]
  cases rest with
  | nil => exact ⟨List.append_nil _, rfl⟩
  | cons c rest =>
      have hc : c.isDigit = false := hrest c rfl
      simp [hc]

/-! ## Reading -/

variable {whole decimals tail : List Char}

theorem unsigned?_point (hwhole : ∀ c ∈ whole, c.isDigit = true) (hne : whole ≠ [])
    (hdecimals : ∀ c ∈ decimals, c.isDigit = true) (htail : StopsDigits tail) :
    unsigned? (whole ++ '.' :: (decimals ++ tail)) =
      (exponentPart? tail).map fun e => ⟨ofDigits (whole ++ decimals), e - decimals.length⟩ := by
  have hpoint : StopsDigits ('.' :: (decimals ++ tail)) := by
    intro c hc
    obtain rfl : '.' = c := Option.some.inj hc
    decide
  obtain ⟨htake, hdrop⟩ := takeWhile_digits hwhole hpoint
  obtain ⟨htakeDecimals, hdropDecimals⟩ := takeWhile_digits hdecimals htail
  unfold unsigned?
  rw [htake, hdrop]
  show (if whole = [] ∧ (decimals ++ tail).takeWhile Char.isDigit = [] then none
    else (exponentPart? ((decimals ++ tail).dropWhile Char.isDigit)).map fun e =>
      (⟨ofDigits (whole ++ (decimals ++ tail).takeWhile Char.isDigit),
        e - ((decimals ++ tail).takeWhile Char.isDigit).length⟩ : Scaled)) = _
  rw [htakeDecimals, hdropDecimals, if_neg fun h => hne h.1]

theorem unsigned?_whole (hwhole : ∀ c ∈ whole, c.isDigit = true) (hne : whole ≠ [])
    (htail : StopsDigits tail)
    (hpoint : tail.head? ≠ some '.') :
    unsigned? (whole ++ tail) = (exponentPart? tail).map fun e => ⟨ofDigits whole, e⟩ := by
  obtain ⟨htake, hdrop⟩ := takeWhile_digits hwhole htail
  unfold unsigned?
  rw [htake, hdrop]
  dsimp only
  split
  · exact absurd rfl hpoint
  · rw [if_neg fun h => hne h.1]
    simp

theorem not_isUpper_of_isDigit {c : Char} (h : c.isDigit = true) : ¬ c.isUpper = true := by
  rw [Char.isDigit, Bool.and_eq_true, decide_eq_true_eq, decide_eq_true_eq] at h
  rw [Char.isUpper, decide_eq_true_eq]
  intro hupper
  exact absurd (UInt32.le_trans hupper.1 h.2) (by decide)

theorem takeSign_of_isDigit {c : Char} {rest : List Char} (hc : c.isDigit = true) :
    takeSign (c :: rest) = (false, c :: rest) := by
  unfold takeSign
  split
  · rename_i heq
    obtain ⟨rfl, -⟩ := List.cons.inj heq
    exact absurd hc (by decide)
  · rename_i heq
    obtain ⟨rfl, -⟩ := List.cons.inj heq
    exact absurd hc (by decide)
  · rfl

theorem exists_cons_digit (hwhole : ∀ c ∈ whole, c.isDigit = true) (hne : whole ≠ [])
    (rest : List Char) :
    ∃ c more, whole ++ rest = c :: more ∧ c.isDigit = true := by
  obtain ⟨c, more, rfl⟩ := List.exists_cons_of_ne_nil hne
  exact ⟨c, more ++ rest, rfl, hwhole c (List.mem_cons_self ..)⟩

/-- A numeral starts with a digit or a point. -/
theorem head_of_unsigned? {text : List Char} {d : Scaled} (h : unsigned? text = some d) :
    ∃ c rest, text = c :: rest ∧ (c.isDigit = true ∨ c = '.') := by
  cases text with
  | nil => cases h
  | cons c rest =>
      refine ⟨c, rest, rfl, ?_⟩
      by_contra hother
      obtain ⟨hdigit, hpoint⟩ := not_or.mp hother
      have htake : (c :: rest).takeWhile Char.isDigit = [] := List.takeWhile_cons_of_neg hdigit
      have hdrop : (c :: rest).dropWhile Char.isDigit = c :: rest :=
        List.dropWhile_cons_of_neg hdigit
      unfold unsigned? at h
      rw [htake, hdrop] at h
      dsimp only at h
      split at h
      · rename_i heq
        exact hpoint (List.cons.inj heq).1
      · rw [if_pos ⟨rfl, rfl⟩] at h
        cases h

/-- Digits, a point and an exponent are read as they are, whatever the sign is. -/
theorem read?_of_takeSign {text : String} {negative : Bool} {body : List Char} {d : Scaled}
    (htext : takeSign text.toList = (negative, body)) (h : unsigned? body = some d) :
    read? text = some (if negative then -d.toFloat else d.toFloat) := by
  obtain ⟨c, rest, rfl, hc⟩ := head_of_unsigned? h
  have hlower : c.toLower = c := by
    rcases hc with hdigit | rfl
    · exact Char.toLower_eq_of_not_isUpper (not_isUpper_of_isDigit hdigit)
    · decide
  -- no word starts like this
  have hword : ∀ (letter : Char) (word : List Char), letter.isDigit = false → letter ≠ '.' →
      (c :: rest).map Char.toLower ≠ letter :: word := by
    intro letter word hletter hpoint heq
    rw [List.map_cons, hlower] at heq
    obtain ⟨rfl, -⟩ := List.cons.inj heq
    rcases hc with hdigit | rfl
    · rw [hletter] at hdigit
      cases hdigit
    · exact hpoint rfl
  have hinf : "inf".toList = ['i', 'n', 'f'] := rfl
  have hinfinity : "infinity".toList = ['i', 'n', 'f', 'i', 'n', 'i', 't', 'y'] := rfl
  have hnan : "nan".toList = ['n', 'a', 'n'] := rfl
  unfold read?
  rw [htext]
  dsimp only
  rw [hinf, hinfinity, hnan,
    if_neg (not_or.mpr ⟨hword _ _ rfl (by decide), hword _ _ rfl (by decide)⟩),
    if_neg (hword _ _ rfl (by decide)), h, Option.map_some, Option.map_some]

/-! ## Literals -/

theorem digits_ne_nil (n : ℕ) : digits n ≠ [] :=
  Nat.toDigits_ne_nil

theorem exponentPart?_of_sign {text : List Char} {negative : Bool} {n : ℕ}
    (h : takeSign text = (negative, digits n)) :
    exponentPart? ('e' :: text) = some (if negative then -(n : ℤ) else n) := by
  unfold exponentPart?
  dsimp only
  rw [if_pos (Or.inl rfl), h]
  dsimp only
  rw [if_pos ⟨digits_ne_nil n, List.all_eq_true.mpr (all_isDigit_digits n)⟩, ofDigits_digits]

theorem exponentPart?_toString (e : ℤ) : exponentPart? ('e' :: (toString e).toList) = some e := by
  cases e with
  | ofNat n =>
      have htext : (toString (Int.ofNat n)).toList = digits n := Nat.toList_repr
      obtain ⟨c, more, hcons, hc⟩ := exists_cons_digit (all_isDigit_digits n) (digits_ne_nil n) []
      rw [List.append_nil] at hcons
      have hsign : takeSign (digits n) = (false, digits n) := by
        rw [hcons]
        exact takeSign_of_isDigit hc
      rw [htext, exponentPart?_of_sign hsign]
      rfl
  | negSucc n =>
      have htext : (toString (Int.negSucc n)).toList = '-' :: digits (n + 1) := by
        show ("-" ++ Nat.repr (n + 1)).toList = _
        rw [String.toList_append, Nat.toList_repr]
        rfl
      have hsign : takeSign ('-' :: digits (n + 1)) = (true, digits (n + 1)) := rfl
      rw [htext, exponentPart?_of_sign hsign]
      rfl

/-- A text that starts with a digit and is read as a number. -/
def Denotes (text : List Char) (q : ℚ) : Prop :=
  ∃ whole rest d, text = whole ++ rest ∧ (∀ c ∈ whole, c.isDigit = true) ∧ whole ≠ [] ∧
    unsigned? text = some d ∧ d.value = q

theorem denotes_point (hwhole : ∀ c ∈ whole, c.isDigit = true) (hne : whole ≠ [])
    (hdecimals : ∀ c ∈ decimals, c.isDigit = true) {q : ℚ}
    (hvalue : (ofDigits (whole ++ decimals) : ℚ) = q * 10 ^ decimals.length) :
    Denotes (whole ++ '.' :: decimals) q := by
  have hnil : StopsDigits [] := nofun
  have hunsigned := unsigned?_point hwhole hne hdecimals hnil
  rw [List.append_nil] at hunsigned
  refine ⟨whole, '.' :: decimals, _, rfl, hwhole, hne, hunsigned, ?_⟩
  rw [Scaled.value]
  dsimp only
  rw [hvalue, zero_sub, zpow_neg, zpow_natCast, mul_assoc, mul_inv_cancel₀ (by positivity), mul_one]

theorem isDigit_of_mem_zeros {k : ℕ} {c : Char} (hc : c ∈ List.replicate k '0') :
    c.isDigit = true := by
  rw [List.eq_of_mem_replicate hc]
  decide

theorem isDigit_of_mem_append (hwhole : ∀ c ∈ whole, c.isDigit = true)
    (hdecimals : ∀ c ∈ decimals, c.isDigit = true) :
    ∀ c ∈ whole ++ decimals, c.isDigit = true := by
  intro c hc
  rcases List.mem_append.mp hc with hc | hc
  · exact hwhole c hc
  · exact hdecimals c hc

/-- Digits and zeros before the point. -/
theorem denotes_before (n k : ℕ) :
    Denotes ((digits n ++ List.replicate k '0') ++ '.' :: List.replicate 1 '0') (n * 10 ^ k) := by
  refine denotes_point (isDigit_of_mem_append (all_isDigit_digits n) fun _ => isDigit_of_mem_zeros)
    (by simp [digits_ne_nil]) (fun _ => isDigit_of_mem_zeros) ?_
  rw [ofDigits_append_zeros, ofDigits_append_zeros, ofDigits_digits, List.length_replicate]
  push_cast
  rfl

/-- The point stands among the digits. -/
theorem denotes_among {n k : ℕ} (h : k < (digits n).length) :
    Denotes ((digits n).take ((digits n).length - k) ++ '.' ::
      (digits n).drop ((digits n).length - k)) (n / 10 ^ k) := by
  have hlength : ((digits n).drop ((digits n).length - k)).length = k := by
    rw [List.length_drop]
    omega
  have hne : (digits n).take ((digits n).length - k) ≠ [] := by
    intro hnil
    have hempty := congrArg List.length hnil
    rw [List.length_take, List.length_nil] at hempty
    omega
  refine denotes_point (fun c hc => all_isDigit_digits n c (List.mem_of_mem_take hc)) hne
    (fun c hc => all_isDigit_digits n c (List.mem_of_mem_drop hc)) ?_
  rw [List.take_append_drop, ofDigits_digits, hlength, div_mul_cancel₀ _ (by positivity)]

/-- Zeros and digits behind the point. -/
theorem denotes_behind {n k : ℕ} (h : (digits n).length ≤ k) :
    Denotes (List.replicate 1 '0' ++ '.' ::
      (List.replicate (k - (digits n).length) '0' ++ digits n)) (n / 10 ^ k) := by
  refine denotes_point (fun _ => isDigit_of_mem_zeros) (by simp)
    (isDigit_of_mem_append (fun _ => isDigit_of_mem_zeros) (all_isDigit_digits n)) ?_
  have hlength : k - (digits n).length + (digits n).length = k := Nat.sub_add_cancel h
  rw [ofDigits_zeros_append, ofDigits_zeros_append, ofDigits_digits, List.length_append,
    List.length_replicate, hlength, div_mul_cancel₀ _ (by positivity)]

/-- Positional text denotes the value. -/
theorem denotes_positional (d : Scaled) : Denotes (d.positional true).toList d.value := by
  unfold Scaled.positional
  dsimp only
  by_cases hwhole : 0 ≤ d.exponent
  · have htext : (String.ofList (digits d.coefficient) ++ zeros d.exponent.toNat ++
        if true then ".0" else "").toList =
        (digits d.coefficient ++ List.replicate d.exponent.toNat '0') ++ '.' ::
        List.replicate 1 '0' := by
      simp [zeros]
    have hvalue : d.value = d.coefficient * 10 ^ d.exponent.toNat := by
      rw [Scaled.value, ← zpow_natCast, Int.toNat_of_nonneg hwhole]
    rw [if_pos hwhole, htext, hvalue]
    exact denotes_before _ _
  · obtain ⟨k, hk⟩ : ∃ k : ℕ, d.exponent = -k := ⟨(-d.exponent).toNat, by omega⟩
    have hdecimals : (-d.exponent).toNat = k := by omega
    have hvalue : d.value = d.coefficient / 10 ^ k := by
      rw [Scaled.value, hk, zpow_neg, zpow_natCast, div_eq_mul_inv]
    rw [if_neg hwhole, hdecimals, hvalue]
    by_cases hamong : k < (digits d.coefficient).length
    · have htext :
          (String.ofList ((digits d.coefficient).take ((digits d.coefficient).length - k)) ++ "." ++
          String.ofList ((digits d.coefficient).drop ((digits d.coefficient).length - k))).toList =
          (digits d.coefficient).take ((digits d.coefficient).length - k) ++
            '.' :: (digits d.coefficient).drop ((digits d.coefficient).length - k) := by
        simp
      rw [if_pos hamong, htext]
      exact denotes_among hamong
    · have htext : ("0." ++ zeros (k - (digits d.coefficient).length) ++
          String.ofList (digits d.coefficient)).toList =
          List.replicate 1 '0' ++ '.' ::
          (List.replicate (k - (digits d.coefficient).length) '0' ++ digits d.coefficient) := by
        simp [zeros]
      rw [if_neg hamong, htext]
      exact denotes_behind (not_lt.mp hamong)

/-- Text with an exponent denotes the value. -/
theorem denotes_exponential (d : Scaled) : Denotes d.exponential.toList d.value := by
  have hpos : 0 < (digits d.coefficient).length := Nat.length_toDigits_pos
  have htake : ∀ c ∈ (digits d.coefficient).take 1, c.isDigit = true :=
    fun c hc => all_isDigit_digits _ c (List.mem_of_mem_take hc)
  have hne : (digits d.coefficient).take 1 ≠ [] := by
    intro hnil
    have hlength := congrArg List.length hnil
    rw [List.length_take, List.length_nil] at hlength
    omega
  have hstop : StopsDigits ('e' :: (toString d.place).toList) := by
    intro c hc
    obtain rfl : 'e' = c := Option.some.inj hc
    decide
  unfold Scaled.exponential
  dsimp only
  by_cases hshort : (digits d.coefficient).length ≤ 1
  · have hplace : d.place = d.exponent := by
      unfold Scaled.place
      omega
    have htext :
        (String.ofList ((digits d.coefficient).take 1) ++ "" ++ "e" ++ toString d.place).toList =
        (digits d.coefficient).take 1 ++ 'e' :: (toString d.place).toList := by
      simp
    rw [if_pos hshort, htext]
    refine ⟨_, _, d, rfl, htake, hne, ?_, rfl⟩
    rw [unsigned?_whole htake hne hstop (by simp), exponentPart?_toString,
      List.take_of_length_le hshort, ofDigits_digits, Option.map_some, hplace]
  · have hdrop : ∀ c ∈ (digits d.coefficient).drop 1, c.isDigit = true :=
      fun c hc => all_isDigit_digits _ c (List.mem_of_mem_drop hc)
    have hplace : d.place - ((digits d.coefficient).drop 1).length = d.exponent := by
      rw [List.length_drop]
      unfold Scaled.place
      omega
    have htext : (String.ofList ((digits d.coefficient).take 1) ++
        ("." ++ String.ofList ((digits d.coefficient).drop 1)) ++ "e" ++ toString d.place).toList =
        (digits d.coefficient).take 1 ++ '.' ::
        ((digits d.coefficient).drop 1 ++ 'e' :: (toString d.place).toList) := by
      simp
    rw [if_neg hshort, htext]
    refine ⟨_, _, d, rfl, htake, hne, ?_, rfl⟩
    rw [unsigned?_point htake hne hdrop hstop, exponentPart?_toString, List.take_append_drop,
      ofDigits_digits, Option.map_some, hplace]

/-- The literal of a positive number has no sign, and its digits denote the number. -/
theorem exists_unsigned?_literal {x : Float} (hpos : 0 < x) (hfinite : x.isFinite = true) :
    ∃ d, takeSign (literal x).toList = (false, (literal x).toList) ∧
      unsigned? (literal x).toList = some d ∧ d.toFloat = x := by
  obtain ⟨b, hfloat, hregular, hbits⟩ := exists_regular_of_pos hpos hfinite
  have hnear := Binary.near_value_shortest hregular
  have hdenotes : Denotes (literal x).toList b.shortest.value := by
    unfold literal signed
    rw [hfloat, isNegative_of_pos hpos hfinite]
    dsimp only
    rw [if_neg Bool.false_ne_true, if_neg hregular.mantissa_pos.ne', String.empty_append]
    split
    · exact denotes_positional _
    · exact denotes_exponential _
  obtain ⟨whole, rest, d, htext, hwhole, hne, hunsigned, hvalue⟩ := hdenotes
  refine ⟨d, ?_, hunsigned, ?_⟩
  · obtain ⟨c, more, hcons, hc⟩ := exists_cons_digit hwhole hne rest
    rw [htext, hcons, takeSign_of_isDigit hc]
  · rw [← hvalue] at hnear
    have hword : x.toBits.toNat.toUInt64 = x.toBits := UInt64.ofNat_toNat
    rw [Scaled.toFloat_of_near hregular hnear, hbits, hword, ofBits_toBits]

/-- **Literals read back.** -/
theorem read?_literal {x : Float} (hpos : 0 < x) (hfinite : x.isFinite = true) :
    read? (literal x) = some x := by
  obtain ⟨d, hsign, hunsigned, rfl⟩ := exists_unsigned?_literal hpos hfinite
  rw [read?_of_takeSign hsign hunsigned, if_neg Bool.false_ne_true]

/-- A literal has a point or an exponent. -/
theorem all_isDigit_literal {x : Float} (hpos : 0 < x) (hfinite : x.isFinite = true) :
    (literal x).toList.all Char.isDigit = false := by
  have hpoint : ∀ d : Scaled, '.' ∈ (d.positional true).toList := by
    intro d
    unfold Scaled.positional
    dsimp only
    split
    · simp
    · split
      · simp
      · simp
  have hexponent : ∀ d : Scaled, 'e' ∈ d.exponential.toList := by
    intro d
    simp [Scaled.exponential]
  obtain ⟨b, hfloat, hregular, -⟩ := exists_regular_of_pos hpos hfinite
  unfold literal signed
  rw [hfloat, isNegative_of_pos hpos hfinite]
  dsimp only
  rw [if_neg Bool.false_ne_true, if_neg hregular.mantissa_pos.ne', String.empty_append]
  split
  · exact List.all_eq_false.mpr ⟨'.', hpoint _, by decide⟩
  · exact List.all_eq_false.mpr ⟨'e', hexponent _, by decide⟩

end Constitutive.Decimal
