import Constitutive.Proofs.Text.Runs

/-!
# Lexemes in the bytes of a text

A text is stored as bytes in UTF-8.  All characters that words and numerals are made of have one
byte, and no byte of another character looks like one of these.  So the lexemes can be found without
decoding: `scan` goes through the bytes with two cursors, of which one marks the beginning of the
text that belongs to no piece yet.  It steps into the middle of characters, but all its pieces begin
and end between characters, and they are the lexemes (`scan_utf8`).

## Strategy

Three lemmas say what `scan` does next: at a byte of a word (`scan_of_word`), over any number of
other bytes (`scan_of_gap`) and behind these (`scan_behind_gap`).  The induction is along the
lexemes, so that it only sees the cursors between characters.
-/

namespace Constitutive.Text

/-! ## Bytes of characters -/

/-- ASCII letters. -/
def isLetterByte (b : UInt8) : Bool :=
  (65 ≤ b && b ≤ 90) || (97 ≤ b && b ≤ 122)

/-- ASCII digits. -/
def isDigitByte (b : UInt8) : Bool :=
  48 ≤ b && b ≤ 57

/-- ASCII letters, digits and the underscore. -/
def isWordByte (b : UInt8) : Bool :=
  isLetterByte b || b == 95 || isDigitByte b

/-- The bytes that a word with a given first byte goes on with: numerals also take up points. -/
def runByte (first b : UInt8) : Bool :=
  isWordByte b || (isDigitByte first && b == 46)

/-- A class of characters that can be seen from each byte of a character. -/
def SeenFrom (p : UInt8 → Bool) (q : Char → Bool) : Prop :=
  ∀ c, ∀ b ∈ String.utf8EncodeChar c, p b = q c

/-- A character is its only byte, or has no byte of ASCII. -/
theorem utf8EncodeChar_cases (c : Char) :
    (c.toNat < 128 ∧ String.utf8EncodeChar c = [UInt8.ofNat c.toNat]) ∨
      (128 ≤ c.toNat ∧ ∀ b ∈ String.utf8EncodeChar c, 128 ≤ b.toNat) := by
  have hvalue : c.val.toNat = c.toNat := rfl
  have hmarked : ∀ n, 128 ≤ n → n < 256 → 128 ≤ (UInt8.ofNat n).toNat := by
    intro n hlow hhigh
    rw [UInt8.toNat_ofNat', Nat.mod_eq_of_lt hhigh]
    exact hlow
  unfold String.utf8EncodeChar
  simp only [hvalue]
  by_cases hascii : c.toNat ≤ 127
  · rw [if_pos hascii]
    exact Or.inl ⟨by omega, rfl⟩
  · rw [if_neg hascii]
    refine Or.inr ⟨by omega, ?_⟩
    split
    · simp only [List.forall_mem_cons]
      exact ⟨hmarked _ (by omega) (by omega), hmarked _ (by omega) (by omega), by simp⟩
    · split
      · simp only [List.forall_mem_cons]
        exact ⟨hmarked _ (by omega) (by omega), hmarked _ (by omega) (by omega),
          hmarked _ (by omega) (by omega), by simp⟩
      · simp only [List.forall_mem_cons]
        exact ⟨hmarked _ (by omega) (by omega), hmarked _ (by omega) (by omega),
          hmarked _ (by omega) (by omega), hmarked _ (by omega) (by omega), by simp⟩

/-- A class of ASCII characters is seen from the bytes if it is seen from those of ASCII. -/
theorem seenFrom_of_ascii {p : UInt8 → Bool} {q : Char → Bool}
    (hascii : ∀ n < 128, p (UInt8.ofNat n) = q (Char.ofNat n))
    (hp : ∀ b, 128 ≤ b.toNat → p b = false) (hq : ∀ c : Char, 128 ≤ c.toNat → q c = false) :
    SeenFrom p q := by
  intro c b hb
  rcases utf8EncodeChar_cases c with ⟨hsmall, hbytes⟩ | ⟨hlarge, hbytes⟩
  · rw [hbytes, List.mem_singleton] at hb
    rw [hb, hascii c.toNat hsmall, Char.ofNat_toNat]
  · rw [hp b (hbytes b hb), hq c hlarge]

theorem isNumeralChar_of_ge {c : Char} (hc : 128 ≤ c.toNat) : isNumeralChar c = false := by
  cases hnumeral : isNumeralChar c with
  | false => rfl
  | true =>
      have hbounds := bounds_of_isNumeralChar hnumeral
      omega

theorem isNumeralByte_of_ge {b : UInt8} (hb : 128 ≤ b.toNat) :
    (isWordByte b || b == 46) = false := by
  simp only [isWordByte, isLetterByte, isDigitByte, Bool.or_eq_false_iff, Bool.and_eq_false_iff,
    decide_eq_false_iff_not, beq_eq_false_iff_ne, UInt8.le_iff_toNat_le, ne_eq, ← UInt8.toNat_inj,
    UInt8.reduceToNat]
  omega

theorem seenFrom_word : SeenFrom isWordByte isWordChar :=
  seenFrom_of_ascii (by decide) (fun _ hb => (Bool.or_eq_false_iff.mp (isNumeralByte_of_ge hb)).1)
    fun _ hc => (Bool.or_eq_false_iff.mp (isNumeralChar_of_ge hc)).1

theorem seenFrom_numeral : SeenFrom (fun b => isWordByte b || b == 46) isNumeralChar :=
  seenFrom_of_ascii (by decide) (fun _ hb => isNumeralByte_of_ge hb) fun _ hc =>
    isNumeralChar_of_ge hc

/-- A word character has one byte. -/
theorem utf8EncodeChar_of_isWordChar {c : Char} (hc : isWordChar c = true) :
    ∃ b, String.utf8EncodeChar c = [b] ∧ isWordByte b = true ∧ isDigitByte b = c.isDigit ∧
      SeenFrom (runByte b) (runChar c) := by
  rcases utf8EncodeChar_cases c with ⟨hsmall, hbytes⟩ | ⟨hlarge, -⟩
  · have hword : isWordByte (UInt8.ofNat c.toNat) = true := by
      rw [seenFrom_word c _ (by simp [hbytes]), hc]
    have hdigit : isDigitByte (UInt8.ofNat c.toNat) = c.isDigit := by
      have hall : ∀ n < 128, isDigitByte (UInt8.ofNat n) = (Char.ofNat n).isDigit := by decide
      rw [hall c.toNat hsmall, Char.ofNat_toNat]
    refine ⟨_, hbytes, hword, hdigit, ?_⟩
    intro d b hb
    rw [runByte, hdigit]
    cases hc' : c.isDigit with
    | true => rw [runChar_of_isDigit hc', ← seenFrom_numeral d b hb, Bool.true_and]
    | false =>
        rw [runChar_of_isWordChar hc' hc, ← seenFrom_word d b hb, Bool.false_and, Bool.or_false]
  · rw [(Bool.or_eq_false_iff.mp (isNumeralChar_of_ge hlarge)).1] at hc
    cases hc

/-- The bytes of characters. -/
def utf8 (text : List Char) : List UInt8 :=
  text.flatMap String.utf8EncodeChar

/-- The number of bytes of characters. -/
def size (text : List Char) : Nat :=
  (utf8 text).length

theorem utf8_append (text more : List Char) : utf8 (text ++ more) = utf8 text ++ utf8 more :=
  List.flatMap_append

theorem utf8_cons (c : Char) (rest : List Char) :
    utf8 (c :: rest) = String.utf8EncodeChar c ++ utf8 rest :=
  List.flatMap_cons

theorem size_append (text more : List Char) : size (text ++ more) = size text + size more := by
  rw [size, utf8_append, List.length_append]
  rfl

theorem toList_toByteArray (text : String) : text.toByteArray.data.toList = utf8 text.toList := by
  conv_lhs => rw [← String.ofList_toList (s := text)]
  exact List.toList_data_toByteArray

/-- A run of characters of a class is a run of their bytes. -/
theorem takeWhile_utf8 {p : UInt8 → Bool} {q : Char → Bool} (hseen : SeenFrom p q)
    (text : List Char) :
    (utf8 text).takeWhile p = utf8 (text.takeWhile q) := by
  induction text with
  | nil => rfl
  | cons c rest ih =>
      rw [utf8_cons]
      cases hc : q c with
      | true =>
          have hbytes : ∀ b ∈ String.utf8EncodeChar c, p b = true :=
            fun b hb => (hseen c b hb).trans hc
          rw [List.takeWhile_append_of_pos hbytes, ih, List.takeWhile_cons_of_pos hc, utf8_cons]
      | false =>
          obtain ⟨b, more, hbytes⟩ :=
            List.exists_cons_of_ne_nil (String.utf8EncodeChar_ne_nil (c := c))
          have hb : p b = false := (hseen c b (hbytes ▸ List.mem_cons_self ..)).trans hc
          rw [hbytes, List.cons_append, List.takeWhile_cons_of_neg (by simp [hb]),
            List.takeWhile_cons_of_neg (by simp [hc])]
          rfl

/-! ## The scan -/

/-- A piece of a text, from byte `start` up to, and without, byte `stop`. -/
structure Span where
  isWord : Bool
  start : Nat
  stop : Nat
  deriving DecidableEq, Repr

/-- What is between two bytes and no word, unless there is nothing. -/
def gapSpan (start stop : Nat) : List Span :=
  if start < stop then [⟨false, start, stop⟩] else []

/-- The pieces of a text from its bytes, where byte `i` is looked at next and no piece has begun
since byte `start`. -/
def scan (bytes : List UInt8) (start i : Nat) : List Span :=
  if h : i < bytes.length then
    if hword : isWordByte bytes[i] then
      let stop := i + ((bytes.drop i).takeWhile (runByte bytes[i])).length
      gapSpan start i ++ ⟨!isDigitByte bytes[i], i, stop⟩ :: scan bytes stop stop
    else scan bytes start (i + 1)
  else gapSpan start bytes.length
termination_by bytes.length - i
decreasing_by
  · have hrun : runByte bytes[i] bytes[i] = true := by simp [runByte, hword]
    rw [List.drop_eq_getElem_cons h, List.takeWhile_cons_of_pos hrun, List.length_cons]
    omega
  · omega

variable {bytes : List UInt8} {start i : Nat}

theorem getElem_of_drop_eq_cons {b : UInt8} {more : List UInt8} (hdrop : bytes.drop i = b :: more) :
    ∃ h : i < bytes.length, bytes[i] = b ∧ bytes.drop (i + 1) = more := by
  have hi : i < bytes.length := by
    rw [← List.drop_eq_nil_iff.not.trans Nat.not_le, hdrop]
    exact List.cons_ne_nil _ _
  rw [List.drop_eq_getElem_cons hi] at hdrop
  exact ⟨hi, List.cons.inj hdrop⟩

theorem scan_of_word {b : UInt8} {more : List UInt8} (hdrop : bytes.drop i = b :: more)
    (hb : isWordByte b = true) (start : Nat) :
    scan bytes start i =
      let stop := i + ((b :: more).takeWhile (runByte b)).length
      gapSpan start i ++ ⟨!isDigitByte b, i, stop⟩ :: scan bytes stop stop := by
  obtain ⟨hi, hget, -⟩ := getElem_of_drop_eq_cons hdrop
  rw [scan, dif_pos hi, dif_pos (hget ▸ hb)]
  simp only [hget, hdrop]

theorem scan_of_end (hdrop : bytes.drop i = []) (start : Nat) :
    scan bytes start i = gapSpan start bytes.length := by
  rw [scan, dif_neg (Nat.not_lt.mpr (List.drop_eq_nil_iff.mp hdrop))]

/-- Bytes that are no word are passed over one by one, whether a character begins there or not. -/
theorem scan_of_gap {gap more : List UInt8} (hdrop : bytes.drop i = gap ++ more)
    (hgap : ∀ b ∈ gap, isWordByte b = false)
    (start : Nat) : scan bytes start i = scan bytes start (i + gap.length) := by
  induction gap generalizing i with
  | nil => rfl
  | cons b gap ih =>
      obtain ⟨hi, hget, hnext⟩ := getElem_of_drop_eq_cons hdrop
      have hb : ¬ isWordByte bytes[i] = true := by simp [hget, hgap b (List.mem_cons_self ..)]
      rw [scan, dif_pos hi, dif_neg hb, ih hnext fun d hd => hgap d (List.mem_cons_of_mem _ hd),
        List.length_cons, Nat.add_right_comm, Nat.add_assoc]

/-- At the end of the text or at a word, what was passed over becomes a piece. -/
theorem scan_behind_gap (hlt : start < i) (hi : i ≤ bytes.length)
    (hend : ∀ b ∈ (bytes.drop i).head?, isWordByte b = true) :
    scan bytes start i = ⟨false, start, i⟩ :: scan bytes i i := by
  have hgap : gapSpan start i = [⟨false, start, i⟩] := if_pos hlt
  have hnone : gapSpan i i = [] := if_neg (Nat.lt_irrefl i)
  cases hdrop : bytes.drop i with
  | nil =>
      have hlength : bytes.length = i := Nat.le_antisymm (List.drop_eq_nil_iff.mp hdrop) hi
      rw [scan_of_end hdrop, scan_of_end hdrop, hlength, hgap, hnone]
  | cons b more =>
      have hb : isWordByte b = true := hend b (by simp [hdrop])
      rw [scan_of_word hdrop hb, scan_of_word hdrop hb, hgap, hnone]
      rfl

/-! ## Lexemes and their places -/

/-- The places of lexemes that begin at a byte. -/
def spansFrom (start : Nat) : List Lexeme → List Span
  | [] => []
  | lexeme :: rest =>
    ⟨lexeme.word?.isSome, start, start + size lexeme.text⟩ ::
      spansFrom (start + size lexeme.text) rest

theorem isSome_word?_ofRun {c : Char} (hc : isWordChar c = true) (run : List Char) :
    (Lexeme.ofRun c run).word?.isSome = !c.isDigit := by
  unfold Lexeme.ofRun
  cases c.isDigit with
  | true => simp [hc, Lexeme.word?]
  | false => simp [hc, Lexeme.word?]

theorem drop_size_utf8 (before rest : List Char) :
    (utf8 (before ++ rest)).drop (size before) = utf8 rest := by
  rw [utf8_append]
  exact List.drop_left

/-- A text that does not begin with a gap does not begin with a byte of one. -/
theorem isWordByte_of_mem_head? {text : List Char} (htext : Stops (!isWordChar ·) text) :
    ∀ b ∈ (utf8 text).head?, isWordByte b = true := by
  intro b hb
  cases text with
  | nil => cases hb
  | cons c rest =>
      have hc : isWordChar c = true := by simpa using htext c rfl
      obtain ⟨b', hbytes, hword, -⟩ := utf8EncodeChar_of_isWordChar hc
      rw [utf8_cons, hbytes] at hb
      rwa [← Option.some.inj hb]

/-- An identifier or a numeral becomes a piece. -/
theorem scan_utf8_of_isWordChar (before : List Char) {c : Char} (hc : isWordChar c = true)
    (rest : List Char) :
    let stop := size before + size (c :: rest.takeWhile (runChar c))
    scan (utf8 (before ++ c :: rest)) (size before) (size before) =
      ⟨!c.isDigit, size before, stop⟩ :: scan (utf8 (before ++ c :: rest)) stop stop := by
  obtain ⟨b, hbytes, hb, hdigit, hseen⟩ := utf8EncodeChar_of_isWordChar hc
  have hfirst : utf8 (c :: rest) = b :: utf8 rest := by
    rw [utf8_cons, hbytes]
    rfl
  have hself : runChar c c = true := by
    rw [← hseen c b (hbytes ▸ List.mem_singleton_self b), runByte, hb, Bool.true_or]
  have htaken :
      (b :: utf8 rest).takeWhile (runByte b) = utf8 (c :: rest.takeWhile (runChar c)) := by
    rw [← hfirst, takeWhile_utf8 hseen, List.takeWhile_cons_of_pos hself]
  have hnone : gapSpan (size before) (size before) = [] := if_neg (Nat.lt_irrefl _)
  rw [scan_of_word ((drop_size_utf8 before (c :: rest)).trans hfirst) hb, htaken, hnone, hdigit]
  rfl

/-- So does what is between two of them. -/
theorem scan_utf8_of_gap (before : List Char) {gap rest : List Char} (hne : gap ≠ [])
    (hgap : ∀ c ∈ gap, isWordChar c = false) (hrest : Stops (!isWordChar ·) rest) :
    let stop := size before + size gap
    scan (utf8 (before ++ (gap ++ rest))) (size before) (size before) =
      ⟨false, size before, stop⟩ :: scan (utf8 (before ++ (gap ++ rest))) stop stop := by
  intro stop
  have hbytes : ∀ b ∈ utf8 gap, isWordByte b = false := by
    intro b hb
    obtain ⟨c, hc, hb⟩ := List.mem_flatMap.mp hb
    rw [seenFrom_word c b hb, hgap c hc]
  have hstop : stop = size (before ++ gap) := (size_append before gap).symm
  have hpos : 0 < size gap := by
    obtain ⟨c, more, rfl⟩ := List.exists_cons_of_ne_nil hne
    rw [size, utf8_cons, List.length_append]
    exact Nat.add_pos_left (List.length_pos_iff.mpr String.utf8EncodeChar_ne_nil) _
  have hdrop : (utf8 (before ++ (gap ++ rest))).drop stop = utf8 rest := by
    rw [hstop, ← List.append_assoc, drop_size_utf8]
  rw [scan_of_gap ((drop_size_utf8 before _).trans (utf8_append gap rest)) hbytes]
  refine scan_behind_gap (Nat.lt_add_of_pos_right hpos) ?_ (hdrop ▸ isWordByte_of_mem_head? hrest)
  rw [← List.append_assoc, utf8_append, List.length_append]
  exact Nat.le_trans (Nat.le_of_eq hstop) (Nat.le_add_right _ _)

/-- The pieces that are found in the bytes are the lexemes. -/
theorem scan_utf8 (before text : List Char) :
    scan (utf8 (before ++ text)) (size before) (size before) =
      spansFrom (size before) (lex text) := by
  induction text using lex_induction generalizing before with
  | nil =>
      rw [scan_of_end (drop_size_utf8 before []), List.append_nil, lex]
      exact if_neg (Nat.lt_irrefl _)
  | cons c rest ih =>
      have hsplit : c :: rest = c :: rest.takeWhile (runChar c) ++ rest.dropWhile (runChar c) := by
        rw [List.cons_append, List.takeWhile_append_dropWhile]
      have hnext := ih (before ++ c :: rest.takeWhile (runChar c))
      rw [List.append_assoc, ← hsplit, size_append] at hnext
      rw [lex_cons, spansFrom, Lexeme.text_ofRun, ← hnext]
      cases hc : isWordChar c with
      | true => rw [scan_utf8_of_isWordChar before hc, isSome_word?_ofRun hc]
      | false =>
          have hrun := runChar_of_not_isWordChar hc
          have hgap : ∀ d ∈ c :: rest.takeWhile (runChar c), isWordChar d = false := by
            refine List.forall_mem_cons.mpr ⟨hc, fun d hd => ?_⟩
            simpa [hrun] using List.mem_takeWhile_imp hd
          have hrest : Stops (!isWordChar ·) (rest.dropWhile (runChar c)) :=
            hrun ▸ stops_dropWhile _ rest
          have hother : (Lexeme.ofRun c (rest.takeWhile (runChar c))).word?.isSome = false := by
            simp [Lexeme.ofRun, hc, Lexeme.word?]
          rw [hother, hsplit]
          exact scan_utf8_of_gap before (List.cons_ne_nil _ _) hgap hrest

/-- The pieces of a text. -/
def spans (text : String) : List Span :=
  scan text.toByteArray.data.toList 0 0

/-- A piece is a lexeme: it begins and ends between characters, and the bytes from its beginning to
its end are the text of the lexeme. -/
structure Span.Holds (text : String) (span : Span) (lexeme : Lexeme) : Prop where
  isWord_eq : span.isWord = lexeme.word?.isSome
  start_valid : String.Pos.Raw.IsValid text ⟨span.start⟩
  stop_valid : String.Pos.Raw.IsValid text ⟨span.stop⟩
  slice_eq : text.toByteArray.extract span.start span.stop = (String.ofList lexeme.text).toByteArray

theorem size_toByteArray (text : List Char) : (String.ofList text).toByteArray.size = size text :=
  List.size_toByteArray

theorem toByteArray_eq_append {text : String} {before rest : List Char}
    (htext : text.toList = before ++ rest) :
    text.toByteArray = (String.ofList before).toByteArray ++ (String.ofList rest).toByteArray := by
  rw [← String.toByteArray_append, ← String.ofList_append, ← htext, String.ofList_toList]

/-- A part of a text ends between characters. -/
theorem isValid_size {text : String} {before rest : List Char}
    (htext : text.toList = before ++ rest) :
    String.Pos.Raw.IsValid text ⟨size before⟩ := by
  refine String.Pos.Raw.isValid_iff_exists_append.mpr ⟨String.ofList before,
    String.ofList rest, ?_, ?_⟩
  · rw [← String.ofList_append, ← htext, String.ofList_toList]
  · rw [← size_toByteArray]
    rfl

theorem extract_size {text : String} {before run rest : List Char}
    (htext : text.toList = before ++ (run ++ rest)) :
    text.toByteArray.extract (size before) (size before + size run) =
      (String.ofList run).toByteArray := by
  rw [toByteArray_eq_append htext, ← size_toByteArray, ← size_toByteArray run]
  calc
    _ = (String.ofList (run ++ rest)).toByteArray.extract 0 (String.ofList run).toByteArray.size :=
        ByteArray.extract_append_size_add
    _ = (String.ofList run).toByteArray := by
        rw [String.ofList_append, String.toByteArray_append]
        exact ByteArray.extract_append_eq_left rfl

theorem forall₂_spansFrom {text : String} (front : List Lexeme) {lexemes : List Lexeme}
    (htext : text.toList = textOf front ++ textOf lexemes) :
    List.Forall₂ (Span.Holds text) (spansFrom (size (textOf front)) lexemes) lexemes := by
  induction lexemes generalizing front with
  | nil => exact .nil
  | cons lexeme rest ih =>
      rw [textOf_cons] at htext
      have hnext : text.toList = textOf (front ++ [lexeme]) ++ textOf rest := by
        rw [textOf_concat, htext, List.append_assoc]
      have hstop : size (textOf front) + size lexeme.text = size (textOf (front ++ [lexeme])) := by
        rw [textOf_concat, size_append]
      refine .cons ⟨rfl, isValid_size htext, ?_, extract_size htext⟩ ?_
      · exact hstop ▸ isValid_size hnext
      · exact hstop ▸ ih _ hnext

theorem forall₂_spans (text : String) :
    List.Forall₂ (Span.Holds text) (spans text) (lex text.toList) := by
  have hscan : spans text = spansFrom 0 (lex text.toList) := by
    rw [spans, toList_toByteArray]
    exact scan_utf8 [] text.toList
  rw [hscan]
  exact forall₂_spansFrom [] (textOf_lex text.toList).symm

/-! ## What the lexemes of a text are -/

theorem isIdentifier_of_word_mem_lex {text cs : List Char} (h : .word cs ∈ lex text) :
    isIdentifier cs = true := by
  cases proper_of_mem_lex h with
  | @word c run hdigit hword =>
      have hc := hword c (List.mem_cons_self ..)
      have hrun : run.all isWordChar = true := List.all_eq_true.mpr fun d hd =>
        hword d (List.mem_cons_of_mem _ hd)
      rw [isIdentifier, hrun, Bool.and_true]
      simpa [isWordChar, Char.isAlphanum, hdigit] using hc

/-- Nothing is replaced if nothing is bound. -/
theorem substitute_nil (text : List Char) : substitute [] text = text := by
  have hplain : Substitution.EndsPlain [] := fun name expression h => by cases h
  rw [substitute_eq hplain, flatMap_replaced_eq_self fun _ _ _ _ => rfl]

/-- **Lexemes.**  The pieces that a scan finds in the bytes of a text are cut between characters,
and they are the lexemes of the text.  Together these are the text, none is empty, and gaps
alternate with identifiers and numerals.  The words are identifiers, and they are the runs of word
characters that do not begin with a digit, that nothing continues, and that are not part of a
numeral.  So a text without replacements stays as it is. -/
theorem lexemes_lossless_and_maximal (text : String) :
    let lexemes := lex text.toList
    List.Forall₂ (Span.Holds text) (spans text) lexemes ∧
      lexemes.flatMap Lexeme.text = text.toList ∧
      (∀ lexeme ∈ lexemes, lexeme.text ≠ []) ∧
      (∀ cs, .word cs ∈ lexemes → isIdentifier cs = true) ∧
      (∀ before cs after,
        (∃ front back, lexemes = front ++ .word cs :: back ∧ textOf front = before ∧
          textOf back = after) ↔
          text.toList = before ++ cs ++ after ∧ IsWordRun before cs after ∧
          ¬ ContinuesNumeral before) ∧
      (lexemes.IsChain fun first second => first.isGap = !second.isGap) ∧
      substitute [] text.toList = text.toList := by
  intro lexemes
  refine ⟨forall₂_spans text, flatMap_text_lex _, ?_, ?_, ?_, lex_alternates _, substitute_nil _⟩
  · exact fun lexeme h => (proper_of_mem_lex h).text_ne_nil
  · exact fun cs h => isIdentifier_of_word_mem_lex h
  · exact fun before cs after => lex_eq_append_word_iff

/-- Characters of several bytes before, between and in pieces; `x` behind the point belongs to the
numeral. -/
example : spans "é1.x→a_1.b" =
    [⟨false, 0, 2⟩, ⟨false, 2, 5⟩, ⟨false, 5, 8⟩, ⟨true, 8, 11⟩, ⟨false, 11, 12⟩,
      ⟨true, 12, 13⟩] := by
  decide +kernel

end Constitutive.Text
