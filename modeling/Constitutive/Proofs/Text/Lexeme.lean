import Constitutive.Text.Lexeme
import Mathlib.Data.List.Chain
import Mathlib.Data.List.TakeWhile

/-!
# Lexemes of composed text

How `lex` takes a text apart that is written as a first run of characters and a rest that does not
continue it.  There is one statement for each of the three kinds of runs.

The lexemes of any text are identifiers, numerals and gaps (`Lexeme.Proper`), and gaps alternate
with the other two (`lex_alternates`), because each lexeme is as long as possible.
-/

namespace Constitutive.Text

/-- The rest does not begin with a character that would continue a run of `p`. -/
def Stops (p : Char → Bool) (rest : List Char) : Prop :=
  ∀ c ∈ rest.head?, p c = false

theorem stops_nil (p : Char → Bool) : Stops p [] := fun _ hc => nomatch hc

theorem stops_cons {p : Char → Bool} {c : Char} {rest : List Char} (hc : p c = false) :
    Stops p (c :: rest) := by
  intro d hd
  rwa [← Option.some_inj.mp hd]

theorem takeWhile_append_of_stops {p : Char → Bool} {run rest : List Char}
    (hrun : ∀ c ∈ run, p c = true) (hrest : Stops p rest) : (run ++ rest).takeWhile p = run := by
  rw [List.takeWhile_append_of_pos hrun]
  cases rest with
  | nil => simp
  | cons c cs => simp [hrest c rfl]

theorem dropWhile_append_of_stops {p : Char → Bool} {run rest : List Char}
    (hrun : ∀ c ∈ run, p c = true) (hrest : Stops p rest) : (run ++ rest).dropWhile p = rest := by
  rw [List.dropWhile_append_of_pos hrun]
  cases rest with
  | nil => simp
  | cons c cs => simp [hrest c rfl]

theorem lex_numeral_append {c : Char} {run rest : List Char} (hc : c.isDigit = true)
    (hrun : ∀ d ∈ run, isNumeralChar d = true) (hrest : Stops isNumeralChar rest) :
    lex (c :: run ++ rest) = .other (c :: run) :: lex rest := by
  rw [List.cons_append, lex, if_pos hc, takeWhile_append_of_stops hrun hrest,
    dropWhile_append_of_stops hrun hrest]

theorem lex_word_append {c : Char} {run rest : List Char} (hdigit : c.isDigit = false)
    (hc : isWordChar c = true)
    (hrun : ∀ d ∈ run, isWordChar d = true) (hrest : Stops isWordChar rest) :
    lex (c :: run ++ rest) = .word (c :: run) :: lex rest := by
  rw [List.cons_append, lex, if_neg (by simp [hdigit]), if_pos hc,
    takeWhile_append_of_stops hrun hrest, dropWhile_append_of_stops hrun hrest]

theorem lex_other_append {c : Char} {run rest : List Char} (hc : isWordChar c = false)
    (hrun : run.all (!isWordChar ·) = true) (hrest : Stops (!isWordChar ·) rest) :
    lex (c :: run ++ rest) = .other (c :: run) :: lex rest := by
  have hdigit : ¬ c.isDigit = true := by
    intro hdigit
    simp [isWordChar, Char.isAlphanum, hdigit] at hc
  have hothers := List.all_eq_true.mp hrun
  rw [List.cons_append, lex, if_neg hdigit, if_neg (by simp [hc]),
    takeWhile_append_of_stops hothers hrest, dropWhile_append_of_stops hothers hrest]

theorem isWordChar_of_isDigit {c : Char} (hc : c.isDigit = true) : isWordChar c = true := by
  simp [isWordChar, Char.isAlphanum, hc]

/-- An identifier is a word character that is no digit, and then word characters. -/
theorem isIdentifier_cons {c : Char} {run : List Char} (h : isIdentifier (c :: run) = true) :
    c.isDigit = false ∧ isWordChar c = true ∧ ∀ d ∈ run, isWordChar d = true := by
  simp only [isIdentifier, Bool.and_eq_true, Bool.or_eq_true, beq_iff_eq, List.all_eq_true] at h
  obtain ⟨hfirst, hrun⟩ := h
  rcases hfirst with halpha | rfl
  · refine ⟨?_, by simp [isWordChar, Char.isAlphanum, halpha], hrun⟩
    cases hdigit : c.isDigit with
    | false => rfl
    | true =>
        -- the digits come before both alphabets
        have hletter : (decide (c.val ≥ 'A'.val ∧ c.val ≤ 'Z'.val) || c.val ≥ 'a'.val && c.val ≤
            'z'.val) = true :=
          halpha
        simp only [Bool.or_eq_true, Bool.and_eq_true, decide_eq_true_eq, ge_iff_le,
          UInt32.le_iff_toNat_le] at hletter
        have hbound : c.val.toNat ≤ '9'.val.toNat := (Char.isDigit_iff_toNat.mp hdigit).2
        have hnine : '9'.val.toNat = 57 := rfl
        have hupper : 'A'.val.toNat = 65 := rfl
        have hlower : 'a'.val.toNat = 97 := rfl
        omega
  · exact ⟨rfl, rfl, hrun⟩

/-- An identifier that the rest does not continue is one word. -/
theorem lex_identifier_append {name rest : List Char} (hname : isIdentifier name = true)
    (hrest : Stops isWordChar rest) : lex (name ++ rest) = .word name :: lex rest := by
  cases name with
  | nil => cases hname
  | cons c run =>
      obtain ⟨hdigit, hword, hrun⟩ := isIdentifier_cons hname
      exact lex_word_append hdigit hword hrun hrest

theorem stops_identifier_append {name rest : List Char} (hname : isIdentifier name = true) :
    Stops (!isWordChar ·) (name ++ rest) := by
  cases name with
  | nil => cases hname
  | cons c run =>
      obtain ⟨-, hword, -⟩ := isIdentifier_cons hname
      exact stops_cons (by simp [hword])

/-- The digits of a number are a digit and then digits. -/
theorem exists_toDigits_eq_cons (n : Nat) :
    ∃ c run, Nat.toDigits 10 n = c :: run ∧ c.isDigit = true ∧ ∀ d ∈ run, d.isDigit = true := by
  have hdigits : ∀ c ∈ Nat.toDigits 10 n, c.isDigit = true := fun c hc =>
    Nat.isDigit_of_mem_toDigits (by decide) (by decide) hc
  cases hn : Nat.toDigits 10 n with
  | nil => exact absurd hn Nat.toDigits_ne_nil
  | cons c run =>
      rw [hn] at hdigits
      exact ⟨c, run, rfl, hdigits c (List.mem_cons_self ..),
        fun d hd => hdigits d (List.mem_cons_of_mem _ hd)⟩

/-- The digits of a number that the rest does not continue are one lexeme. -/
theorem lex_toDigits_append (n : Nat) {rest : List Char} (hrest : Stops isNumeralChar rest) :
    lex (Nat.toDigits 10 n ++ rest) = .other (Nat.toDigits 10 n) :: lex rest := by
  obtain ⟨c, run, hn, hc, hrun⟩ := exists_toDigits_eq_cons n
  rw [hn]
  refine lex_numeral_append hc (fun d hd => ?_) hrest
  simp [isNumeralChar, isWordChar_of_isDigit (hrun d hd)]

theorem lex_toDigits (n : Nat) : lex (Nat.toDigits 10 n) = [.other (Nat.toDigits 10 n)] := by
  have happend := lex_toDigits_append n (stops_nil isNumeralChar)
  rwa [List.append_nil, lex] at happend

theorem stops_toDigits (n : Nat) : Stops (!isWordChar ·) (Nat.toDigits 10 n) := by
  obtain ⟨c, run, hn, hc, -⟩ := exists_toDigits_eq_cons n
  rw [hn]
  exact stops_cons (by simp [isWordChar_of_isDigit hc])

/-! ## The lexemes of any text -/

theorem flatMap_text_lex (cs : List Char) : (lex cs).flatMap Lexeme.text = cs := by
  fun_induction lex cs with
  | case1 => rfl
  | case2 c rest _ ih => simp [Lexeme.text, ih]
  | case3 c rest _ _ ih => simp [Lexeme.text, ih]
  | case4 c rest _ _ ih => simp [Lexeme.text, ih]

namespace Lexeme

/-- An identifier, a numeral or a gap. -/
inductive Proper : Lexeme → Prop
  | word {c : Char} {run : List Char} (hdigit : c.isDigit = false)
  (h : ∀ d ∈ c :: run, isWordChar d = true) :
      Proper (.word (c :: run))
  | numeral {c : Char} {run : List Char} (hdigit : c.isDigit = true)
      (hrun : ∀ d ∈ run, isNumeralChar d = true) :
      Proper (.other (c :: run))
  | gap {c : Char} {run : List Char} (h : ∀ d ∈ c :: run, isWordChar d = false) : Proper
      (.other (c :: run))

/-- The lexeme is text between identifiers and numerals. -/
def isGap (lexeme : Lexeme) : Bool :=
  lexeme.text.all (!isWordChar ·)

theorem isGap_eq_true_iff {lexeme : Lexeme} :
    lexeme.isGap = true ↔ ∀ c ∈ lexeme.text, isWordChar c = false := by
  simp [isGap]

theorem isGap_eq_false {lexeme : Lexeme} {c : Char} (hc : c ∈ lexeme.text)
    (hword : isWordChar c = true) :
    lexeme.isGap = false := by
  rw [← Bool.not_eq_true, isGap_eq_true_iff]
  intro h
  rw [h c hc] at hword
  cases hword

theorem Proper.isGap_word {cs : List Char} (h : Proper (.word cs)) : isGap (.word cs) = false := by
  cases h with
  | word _ h => exact isGap_eq_false (List.mem_cons_self ..) (h _ (List.mem_cons_self ..))

theorem Proper.text_ne_nil {lexeme : Lexeme} (h : lexeme.Proper) : lexeme.text ≠ [] := by
  cases h <;> exact List.cons_ne_nil _ _

/-- What is no gap has the characters of numerals only. -/
theorem Proper.isNumeralChar_of_mem {lexeme : Lexeme} (h : lexeme.Proper)
    (hgap : lexeme.isGap = false) {c : Char} (hc : c ∈ lexeme.text) : isNumeralChar c = true := by
  cases h with
  | word _ h => simp [isNumeralChar, h c hc]
  | numeral hdigit hrun =>
      rcases List.mem_cons.mp hc with rfl | hc
      · simp [isNumeralChar, isWordChar_of_isDigit hdigit]
      · exact hrun c hc
  | @gap first run h =>
      have htrue : isGap (.other (first :: run)) = true := isGap_eq_true_iff.mpr h
      rw [htrue] at hgap
      cases hgap

end Lexeme

theorem proper_of_mem_lex {cs : List Char} {lexeme : Lexeme} (h : lexeme ∈ lex cs) :
    lexeme.Proper := by
  fun_induction lex cs with
  | case1 => cases h
  | case2 c rest hdigit ih =>
      rcases List.mem_cons.mp h with rfl | h
      · exact .numeral hdigit fun _ hd => List.mem_takeWhile_imp hd
      · exact ih h
  | case3 c rest hdigit hc ih =>
      rcases List.mem_cons.mp h with rfl | h
      · exact .word (by simpa using hdigit)
          (List.forall_mem_cons.mpr ⟨hc, fun _ hd => List.mem_takeWhile_imp hd⟩)
      · exact ih h
  | case4 c rest _ hc ih =>
      rcases List.mem_cons.mp h with rfl | h
      · refine .gap (List.forall_mem_cons.mpr ⟨by simpa using hc, fun d hd => ?_⟩)
        simpa using List.mem_takeWhile_imp hd
      · exact ih h

theorem isWordChar_of_word_mem_lex {cs word : List Char} (h : Lexeme.word word ∈ lex cs) :
    ∀ c ∈ word, isWordChar c = true := by
  cases proper_of_mem_lex h with
  | word _ hword => exact hword

theorem stops_dropWhile (p : Char → Bool) (cs : List Char) : Stops p (cs.dropWhile p) := by
  intro c hc
  have hfirst := List.head?_dropWhile_not p cs
  rw [Option.mem_def.mp hc] at hfirst
  exact hfirst

/-- Whether a text begins with a gap can be seen from its first character. -/
theorem isGap_of_mem_head?_lex {cs : List Char} {lexeme : Lexeme} (h : lexeme ∈ (lex cs).head?) :
    ∃ c ∈ cs.head?, lexeme.isGap = !isWordChar c := by
  fun_cases lex cs with
  | case1 => simp [lex] at h
  | case2 c rest hdigit =>
      rw [lex, if_pos hdigit] at h
      obtain rfl := Option.some.inj h
      have hc := isWordChar_of_isDigit hdigit
      exact ⟨c, rfl, by rw [hc, Lexeme.isGap_eq_false (List.mem_cons_self ..) hc, Bool.not_true]⟩
  | case3 c rest hdigit hc =>
      rw [lex, if_neg hdigit, if_pos hc] at h
      obtain rfl := Option.some.inj h
      exact ⟨c, rfl, by rw [hc, Lexeme.isGap_eq_false (List.mem_cons_self ..) hc, Bool.not_true]⟩
  | case4 c rest hdigit hc =>
      rw [lex, if_neg hdigit, if_neg hc] at h
      obtain rfl := Option.some.inj h
      refine ⟨c, rfl, ?_⟩
      rw [Bool.not_eq_true] at hc
      rw [hc, Bool.not_false, Lexeme.isGap_eq_true_iff]
      exact List.forall_mem_cons.mpr ⟨hc, fun d hd => by simpa using List.mem_takeWhile_imp hd⟩

/-- Between two identifiers or numerals there is one gap. -/
theorem lex_alternates (cs : List Char) :
    (lex cs).IsChain fun first second => first.isGap = !second.isGap := by
  fun_induction lex cs with
  | case1 => exact .nil
  | case2 c rest hdigit ih =>
      refine List.isChain_cons.mpr ⟨fun next hnext => ?_, ih⟩
      obtain ⟨d, hd, hgap⟩ := isGap_of_mem_head?_lex hnext
      have hstops := stops_dropWhile _ _ d hd
      simp only [isNumeralChar, Bool.or_eq_false_iff] at hstops
      rw [hgap, hstops.1,
        Lexeme.isGap_eq_false (List.mem_cons_self ..) (isWordChar_of_isDigit hdigit)]
      rfl
  | case3 c rest _ hc ih =>
      refine List.isChain_cons.mpr ⟨fun next hnext => ?_, ih⟩
      obtain ⟨d, hd, hgap⟩ := isGap_of_mem_head?_lex hnext
      rw [hgap, stops_dropWhile _ _ d hd, Lexeme.isGap_eq_false (List.mem_cons_self ..) hc]
      rfl
  | case4 c rest _ hc ih =>
      refine List.isChain_cons.mpr ⟨fun next hnext => ?_, ih⟩
      obtain ⟨d, hd, hgap⟩ := isGap_of_mem_head?_lex hnext
      have hword : isWordChar d = true := by simpa using stops_dropWhile _ _ d hd
      rw [hgap, hword, Bool.not_true, Bool.not_false, Lexeme.isGap_eq_true_iff]
      exact List.forall_mem_cons.mpr ⟨by simpa using hc,
        fun d hd => by simpa using List.mem_takeWhile_imp hd⟩

end Constitutive.Text
