import Constitutive.Proofs.Text.Access

/-!
# Identifiers are maximal runs

Which identifiers a text has can be said without taking the text apart from its beginning.  An
identifier is a run of word characters that does not begin with a digit, that nothing continues on
either side, and that is not part of a numeral.  A numeral is in turn seen from what stands before a
place: a digit at the beginning of a run, and then characters of numerals only (`ContinuesNumeral`).
`lex_eq_append_word_iff` says that these are the words that `lex` finds, each at its place.

Every lexeme is as long as possible: what its first character decides about the run (`runChar`),
what follows does not continue (`stops_of_lex_eq`), and an identifier or a numeral does not continue
what is before it (`not_isWordChar_of_lex_eq`).  Both directions then look at the one lexeme that a
character is in.
-/

namespace Constitutive.Text

/-! ## Lexemes as runs -/

/-- The characters that a run with a given first character goes on with. -/
def runChar (first : Char) : Char → Bool :=
  if first.isDigit then isNumeralChar else if isWordChar first then isWordChar else (!isWordChar ·)

/-- The lexeme of a first character and the run that follows it. -/
def Lexeme.ofRun (first : Char) (run : List Char) : Lexeme :=
  if isWordChar first && !first.isDigit then .word (first :: run) else .other (first :: run)

theorem Lexeme.text_ofRun (first : Char) (run : List Char) :
    (Lexeme.ofRun first run).text = first :: run := by
  unfold ofRun
  split
  · rfl
  · rfl

theorem runChar_of_isDigit {c : Char} (hc : c.isDigit = true) : runChar c = isNumeralChar :=
  if_pos hc

theorem runChar_of_isWordChar {c : Char} (hdigit : c.isDigit = false) (hc : isWordChar c = true) :
    runChar c = isWordChar := by
  rw [runChar, if_neg (by simp [hdigit]), if_pos hc]

theorem runChar_of_not_isWordChar {c : Char} (hc : isWordChar c = false) :
    runChar c = (!isWordChar ·) := by
  have hdigit : ¬ c.isDigit = true := fun hdigit => by simp [isWordChar_of_isDigit hdigit] at hc
  rw [runChar, if_neg hdigit, if_neg (by simp [hc])]

/-- All lexemes are cut off in the same way. -/
theorem lex_cons (c : Char) (rest : List Char) :
    lex (c :: rest) = .ofRun c (rest.takeWhile (runChar c)) ::
      lex (rest.dropWhile (runChar c)) := by
  rw [lex]
  cases hdigit : c.isDigit with
  | true => simp [runChar, Lexeme.ofRun, hdigit]
  | false =>
      cases hc : isWordChar c with
      | true => simp [runChar, Lexeme.ofRun, hdigit, hc]
      | false => simp [runChar, Lexeme.ofRun, hdigit, hc]

/-- Induction along the lexemes of a text. -/
theorem lex_induction {motive : List Char → Prop} (nil : motive [])
    (cons : ∀ c rest, motive (rest.dropWhile (runChar c)) → motive (c :: rest)) (text : List Char) :
    motive text := by
  induction hlength : text.length using Nat.strongRecOn generalizing text with
  | ind n ih =>
      cases text with
      | nil => exact nil
      | cons c rest =>
          have hshorter : (rest.dropWhile (runChar c)).length < n := by
            rw [← hlength, List.length_cons]
            exact Nat.lt_succ_of_le (List.dropWhile_sublist _).length_le
          exact cons c rest (ih _ hshorter _ rfl)

theorem textOf_lex (text : List Char) : textOf (lex text) = text :=
  flatMap_text_lex text

theorem textOf_append (lexemes others : List Lexeme) :
    textOf (lexemes ++ others) = textOf lexemes ++ textOf others :=
  List.flatMap_append

theorem textOf_cons (lexeme : Lexeme) (rest : List Lexeme) :
    textOf (lexeme :: rest) = lexeme.text ++ textOf rest :=
  List.flatMap_cons

theorem proper_of_lex_eq {text : List Char} {front back : List Lexeme} {lexeme : Lexeme}
    (h : lex text = front ++ lexeme :: back) :
    lexeme.Proper := by
  have hmem : lexeme ∈ lex text := by
    rw [h]
    exact List.mem_append_right _ (List.mem_cons_self ..)
  exact proper_of_mem_lex hmem

/-- What follows a lexeme does not continue it. -/
theorem stops_of_lex_eq {text : List Char} {front back : List Lexeme} {lexeme : Lexeme}
    (h : lex text = front ++ lexeme :: back)
    {c : Char} {run : List Char} (hlexeme : lexeme.text = c :: run) :
    Stops (runChar c) (textOf back) := by
  induction text using lex_induction generalizing front with
  | nil => simp [lex] at h
  | cons d rest ih =>
      rw [lex_cons] at h
      cases front with
      | nil =>
          obtain ⟨rfl, rfl⟩ := List.cons.inj h
          rw [Lexeme.text_ofRun] at hlexeme
          obtain ⟨rfl, -⟩ := List.cons.inj hlexeme
          rw [textOf_lex]
          exact stops_dropWhile _ _
      | cons _ front => exact ih (List.cons.inj h).2

/-- An identifier or a numeral does not continue what is before it. -/
theorem not_isWordChar_of_lex_eq {text : List Char} {front back : List Lexeme} {lexeme : Lexeme}
    (h : lex text = front ++ lexeme :: back) (hgap : lexeme.isGap = false) :
    ∀ c ∈ (textOf front).getLast?, isWordChar c = false := by
  have halternates := lex_alternates text
  rw [h, List.isChain_append] at halternates
  refine isWordChar_of_getLast?_textOf
    (fun other hother => proper_of_mem_lex (h ▸ List.mem_append_left _ hother)) ?_
  intro other hother
  rw [halternates.2.2 other hother lexeme rfl, hgap, Bool.not_false]

/-- Every character of a text is in a lexeme. -/
theorem exists_lexeme_of_append {lexemes : List Lexeme} {before after : List Char} {c : Char}
    (h : textOf lexemes = before ++ c :: after) :
    ∃ front lexeme back u v, lexemes = front ++ lexeme :: back ∧ lexeme.text = u ++ c :: v ∧
      before = textOf front ++ u ∧
      after = v ++ textOf back := by
  induction lexemes generalizing before with
  | nil => simp [textOf] at h
  | cons lexeme rest ih =>
      rw [textOf_cons] at h
      rcases List.append_eq_append_iff.mp h with ⟨more, rfl, hmore⟩ | ⟨more, hmore, hafter⟩
      · -- the character comes after the first lexeme
        obtain ⟨front, found, back, u, v, rfl, hfound, rfl, rfl⟩ := ih hmore
        exact ⟨lexeme :: front, found, back, u, v, rfl, hfound,
          by rw [textOf_cons, List.append_assoc], rfl⟩
      · cases more with
        | nil =>
            -- it is the first one after it
            have hrest : textOf rest = [] ++ c :: after := hafter.symm
            obtain ⟨front, found, back, u, v, rfl, hfound, hbefore, rfl⟩ := ih hrest
            refine ⟨lexeme :: front, found, back, u, v, rfl, hfound, ?_, rfl⟩
            rw [List.append_nil] at hmore
            rw [textOf_cons, hmore, List.append_assoc, ← hbefore, List.append_nil]
        | cons d more =>
            obtain ⟨rfl, rfl⟩ := List.cons.inj hafter
            exact ⟨[], lexeme, rest, before, more, rfl, hmore, rfl, rfl⟩

/-! ## The identifiers of a text -/

/-- What follows is part of a numeral: before it there is a digit at the beginning of a run, and
then there are characters of numerals only. -/
def ContinuesNumeral (before : List Char) : Prop :=
  ∃ front digit run, before = front ++ digit :: run ∧ digit.isDigit = true ∧
    (∀ c ∈ front.getLast?, isWordChar c = false) ∧
    ∀ c ∈ run, isNumeralChar c = true

/-- A run of word characters that does not begin with a digit, between texts that do not continue
it. -/
structure IsWordRun (before run after : List Char) : Prop where
  ne_nil : run ≠ []
  word : ∀ c ∈ run, isWordChar c = true
  no_digit : ∀ c ∈ run.head?, c.isDigit = false
  starts : ∀ c ∈ before.getLast?, isWordChar c = false
  ends : ∀ c ∈ after.head?, isWordChar c = false

/-- Word characters at the end of a text that ends in no word character. -/
theorem eq_nil_of_not_isWordChar {front run : List Char}
    (hend : ∀ c ∈ (front ++ run).getLast?, isWordChar c = false)
    (hrun : ∀ c ∈ run, isWordChar c = true) : run = [] := by
  rcases List.eq_nil_or_concat' run with rfl | ⟨init, last, rfl⟩
  · rfl
  · have hlast := hend last (by simp [← List.append_assoc])
    rw [hrun last (by simp)] at hlast
    cases hlast

section

variable {text cs : List Char} {front back : List Lexeme}

theorem isWordRun_of_lex_eq (h : lex text = front ++ .word cs :: back) :
    IsWordRun (textOf front) cs (textOf back) := by
  have hproper : Lexeme.Proper (.word cs) := proper_of_lex_eq h
  have hstarts := not_isWordChar_of_lex_eq h hproper.isGap_word
  cases hproper with
  | @word first run hdigit hword =>
      have hends := stops_of_lex_eq h rfl
      rw [runChar_of_isWordChar hdigit (hword first (List.mem_cons_self ..))] at hends
      refine ⟨List.cons_ne_nil _ _, hword, fun c hc => ?_, hstarts, hends⟩
      rwa [← Option.some.inj hc]

/-- An identifier is not part of a numeral. -/
theorem not_continuesNumeral_of_lex_eq (h : lex text = front ++ .word cs :: back) :
    ¬ ContinuesNumeral (textOf front) := by
  rintro ⟨start, digit, run, hfront, hdigit, hstart, hrun⟩
  obtain ⟨before, lexeme, after, u, v, rfl, hlexeme, rfl, rfl⟩ := exists_lexeme_of_append hfront
  have hidentifier := isWordRun_of_lex_eq h
  rw [List.append_assoc, List.cons_append] at h
  cases proper_of_lex_eq h with
  | gap hgap =>
      have hgap : ∀ c ∈ u ++ digit :: v, isWordChar c = false := hlexeme ▸ hgap
      exact absurd (isWordChar_of_isDigit hdigit) (by simp [hgap digit])
  | @word first rest hfirst hword =>
      -- the digit would be the first character, since no word character is before it
      have hword : ∀ c ∈ u ++ digit :: v, isWordChar c = true := hlexeme ▸ hword
      obtain rfl : u = [] := eq_nil_of_not_isWordChar hstart fun c hc =>
        hword c (List.mem_append_left _ hc)
      obtain ⟨rfl, -⟩ := List.cons.inj hlexeme
      rw [hdigit] at hfirst
      cases hfirst
  | @numeral first rest hfirst hrest =>
      -- what comes next, up to the identifier, would continue the numeral
      have hstops := stops_of_lex_eq h rfl
      rw [runChar_of_isDigit hfirst, textOf_append, textOf_cons] at hstops
      cases hafter : textOf after with
      | nil =>
          obtain ⟨c, more, rfl⟩ := List.exists_cons_of_ne_nil hidentifier.ne_nil
          have hc := hstops c (by simp [hafter, Lexeme.text])
          simp [isNumeralChar, hidentifier.word c (List.mem_cons_self ..)] at hc
      | cons c more =>
          have hc := hstops c (by simp [hafter])
          rw [hrun c (by simp [hafter])] at hc
          cases hc

/-- A run that is not part of a numeral is an identifier. -/
theorem exists_lex_eq_of_isWordRun {before after : List Char} (hrun : IsWordRun before cs after)
    (hnumeral : ¬ ContinuesNumeral before) :
    ∃ front back, lex (before ++ cs ++ after) = front ++ .word cs :: back ∧ textOf front = before ∧
      textOf back = after := by
  obtain ⟨c, rest, rfl⟩ := List.exists_cons_of_ne_nil hrun.ne_nil
  have hc : isWordChar c = true := hrun.word c (List.mem_cons_self ..)
  have hdigit : c.isDigit = false := hrun.no_digit c rfl
  have htext : textOf (lex (before ++ c :: rest ++ after)) = before ++ c :: (rest ++ after) := by
    rw [textOf_lex, List.append_assoc, List.cons_append]
  obtain ⟨front, lexeme, back, u, v, hlex, hlexeme, rfl, hafter⟩ := exists_lexeme_of_append htext
  cases proper_of_lex_eq hlex with
  | gap hgap =>
      have hgap : ∀ d ∈ u ++ c :: v, isWordChar d = false := hlexeme ▸ hgap
      exact absurd hc (by simp [hgap c])
  | @numeral first run hfirst hnumerals =>
      have hgap : Lexeme.isGap (.other (first :: run)) = false :=
        Lexeme.isGap_eq_false (List.mem_cons_self ..) (isWordChar_of_isDigit hfirst)
      cases u with
      | nil =>
          obtain ⟨rfl, -⟩ := List.cons.inj hlexeme
          rw [hfirst] at hdigit
          cases hdigit
      | cons d u =>
          -- the numeral began before the run
          obtain ⟨rfl, rfl⟩ := List.cons.inj hlexeme
          refine absurd ⟨textOf front, first, u, rfl, hfirst, not_isWordChar_of_lex_eq hlex hgap,
            ?_⟩ hnumeral
          exact fun d hd => hnumerals d (List.mem_append_left _ hd)
  | @word first run hfirst hword =>
      -- both runs begin here, and neither is continued
      have hword : ∀ d ∈ u ++ c :: v, isWordChar d = true := hlexeme ▸ hword
      obtain rfl : u = [] := eq_nil_of_not_isWordChar hrun.starts fun d hd =>
        hword d (List.mem_append_left _ hd)
      obtain ⟨rfl, rfl⟩ := List.cons.inj hlexeme
      have hends := stops_of_lex_eq hlex rfl
      rw [runChar_of_isWordChar hdigit hc] at hends
      have hrest : ∀ d ∈ rest, isWordChar d = true :=
        fun d hd => hrun.word d (List.mem_cons_of_mem _ hd)
      have hmore : ∀ d ∈ run, isWordChar d = true := fun d hd => hword d (List.mem_cons_of_mem _ hd)
      have htaken := takeWhile_append_of_stops hrest hrun.ends
      have hdropped := dropWhile_append_of_stops hrest hrun.ends
      rw [hafter, takeWhile_append_of_stops hmore hends] at htaken
      rw [hafter, dropWhile_append_of_stops hmore hends] at hdropped
      rw [htaken] at hlex
      exact ⟨front, back, hlex, (List.append_nil _).symm, hdropped⟩

/-- The words of a text, each with its place, are the runs that are not part of a numeral. -/
theorem lex_eq_append_word_iff {before after : List Char} :
    (∃ front back, lex text = front ++ .word cs :: back ∧ textOf front = before ∧
      textOf back = after) ↔
      text = before ++ cs ++ after ∧ IsWordRun before cs after ∧ ¬ ContinuesNumeral before := by
  constructor
  · rintro ⟨front, back, hlex, rfl, rfl⟩
    refine ⟨?_, isWordRun_of_lex_eq hlex, not_continuesNumeral_of_lex_eq hlex⟩
    rw [← textOf_lex text, hlex, textOf_append, textOf_cons, List.append_assoc]
    rfl
  · rintro ⟨rfl, hrun, hnumeral⟩
    exact exists_lex_eq_of_isWordRun hrun hnumeral

end

end Constitutive.Text
