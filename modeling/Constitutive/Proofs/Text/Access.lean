import Constitutive.Proofs.Text.Lexeme

/-!
# What stands before an identifier

An identifier is a member access if the text before it ends in a point or an arrow, up to blanks
(`isMemberAccess_iff`).

Substitution asks this of the text it has written, in which identifiers may have been replaced by
expressions that are full of arrows themselves.  It could as well ask it of the text it has read:
what was written last for an identifier ends in a character that takes no part in a member access,
like the identifier itself, and after it both texts go on alike (`EndsAlike`).  So every identifier
is treated by what stands before it in the source (`substitute_eq`).

The last part is about accesses through `this`.  What the text before an identifier ends in is
compared with the lexemes it consists of (`endsIn_thisArrow_iff`).
-/

namespace Constitutive.Text

/-! ## Ends of texts -/

/-- The text ends in `suffix`, up to blanks. -/
def EndsIn (suffix text : List Char) : Prop :=
  ∃ front blanks, text = front ++ suffix ++ blanks ∧ ∀ c ∈ blanks, isBlank c = true

theorem exists_eq_trimEnd_append (text : List Char) :
    ∃ blanks, text = trimEnd text ++ blanks ∧ ∀ c ∈ blanks, isBlank c = true := by
  refine ⟨(text.reverse.takeWhile isBlank).reverse, ?_,
    fun c hc => List.mem_takeWhile_imp (List.mem_reverse.mp hc)⟩
  rw [trimEnd, ← List.reverse_append, List.takeWhile_append_dropWhile, List.reverse_reverse]

theorem trimEnd_append_of_blank {blanks : List Char} (hblanks : ∀ c ∈ blanks, isBlank c = true)
    (front : List Char) :
    trimEnd (front ++ blanks) = trimEnd front := by
  have hreverse : ∀ c ∈ blanks.reverse, isBlank c = true :=
    fun c hc => hblanks c (List.mem_reverse.mp hc)
  rw [trimEnd, List.reverse_append, List.dropWhile_append_of_pos hreverse, trimEnd]

theorem trimEnd_concat_of_not_blank (front : List Char) {c : Char} (hc : isBlank c = false) :
    trimEnd (front ++ [c]) = front ++ [c] := by
  simp [trimEnd, hc]

theorem trimEnd_concat_append (front : List Char) {c : Char} (hc : isBlank c = false)
    {blanks : List Char}
    (hblanks : ∀ d ∈ blanks, isBlank d = true) :
    trimEnd (front ++ [c] ++ blanks) = front ++ [c] := by
  rw [trimEnd_append_of_blank hblanks, trimEnd_concat_of_not_blank front hc]

theorem isSuffixOf_trimEnd_iff (front : List Char) {text : List Char} {c : Char}
    (hc : isBlank c = false) :
    (front ++ [c]).isSuffixOf (trimEnd text) = true ↔ EndsIn (front ++ [c]) text := by
  rw [List.isSuffixOf_iff_suffix]
  constructor
  · rintro ⟨before, hbefore⟩
    obtain ⟨blanks, htext, hblanks⟩ := exists_eq_trimEnd_append text
    exact ⟨before, blanks, by rw [hbefore]; exact htext, hblanks⟩
  · rintro ⟨before, blanks, rfl, hblanks⟩
    rw [← List.append_assoc, trimEnd_concat_append _ hc hblanks]
    exact ⟨before, List.append_assoc .. |>.symm⟩

theorem isMemberAccess_iff {before : List Char} :
    isMemberAccess before = true ↔ EndsIn ['.'] before ∨ EndsIn ['-', '>'] before := by
  rw [isMemberAccess, Bool.or_eq_true]
  exact or_congr (isSuffixOf_trimEnd_iff [] rfl) (isSuffixOf_trimEnd_iff ['-'] rfl)

/-- The text ends in a character that is neither blank nor part of a point or an arrow. -/
def EndsPlain (text : List Char) : Prop :=
  ∃ c ∈ text.getLast?, isBlank c = false ∧ c ∉ ['.', '-', '>']

theorem EndsPlain.append {text : List Char} (h : EndsPlain text) (front : List Char) :
    EndsPlain (front ++ text) := by
  obtain ⟨c, hc, hplain⟩ := h
  refine ⟨c, ?_, hplain⟩
  rw [Option.mem_def] at hc ⊢
  rw [List.getLast?_append, hc, Option.some_or]

theorem bounds_of_isNumeralChar {c : Char} (h : isNumeralChar c = true) :
    46 ≤ c.toNat ∧ c.toNat ≤ 122 := by
  have hranges : (decide (65 ≤ c.val ∧ c.val ≤ 90) || (97 ≤ c.val && c.val ≤ 122) ||
      (48 ≤ c.val && c.val ≤ 57) || c == '_' || c == '.') = true := h
  simp only [Bool.or_eq_true, Bool.and_eq_true, decide_eq_true_eq, beq_iff_eq,
    UInt32.le_iff_toNat_le] at hranges
  rcases hranges with (((⟨hlow, hhigh⟩ | ⟨hlow, hhigh⟩) | ⟨hlow, hhigh⟩) | rfl) | rfl
  all_goals first | decide | exact ⟨Nat.le_trans (by decide) hlow, Nat.le_trans hhigh (by decide)⟩

theorem isBlank_of_isNumeralChar {c : Char} (h : isNumeralChar c = true) : isBlank c = false := by
  have hbounds := bounds_of_isNumeralChar h
  simp only [isBlank, Bool.or_eq_false_iff, Bool.and_eq_false_iff, decide_eq_false_iff_not,
    beq_eq_false_iff_ne]
  omega

theorem endsPlain_of_isWordChar {text : List Char} {c : Char} (hc : c ∈ text.getLast?)
    (hword : isWordChar c = true) :
    EndsPlain text := by
  refine ⟨c, hc, isBlank_of_isNumeralChar (by simp [isNumeralChar, hword]), fun hmem => ?_⟩
  have hnone : ['.', '-', '>'].any isWordChar = false := by decide
  exact List.any_eq_false.mp hnone c hmem hword

theorem Lexeme.proper_word_of_isIdentifier {cs : List Char} (h : isIdentifier cs = true) :
    Proper (.word cs) := by
  cases cs with
  | nil => cases h
  | cons c run =>
      obtain ⟨hdigit, hword, hrun⟩ := isIdentifier_cons h
      exact .word hdigit (List.forall_mem_cons.mpr ⟨hword, hrun⟩)

theorem Lexeme.Proper.endsPlain_word {cs : List Char} (h : Proper (.word cs)) : EndsPlain cs := by
  have hlast : cs.getLast? = some (cs.getLast h.text_ne_nil) :=
    List.getLast?_eq_some_getLast h.text_ne_nil
  cases h with
  | word _ hword => exact endsPlain_of_isWordChar hlast (hword _ (List.getLast_mem _))

/-- A plain end is not part of a member access, so whether there is one is decided behind it. -/
theorem endsIn_append_iff {suffix a : List Char} (hsuffix : ∀ c ∈ suffix, c ∈ ['.', '-', '>'])
    (ha : EndsPlain a) (gap : List Char) : EndsIn suffix (a ++ gap) ↔ EndsIn suffix gap := by
  constructor
  · rintro ⟨front, blanks, heq, hblanks⟩
    rw [List.append_assoc] at heq
    rcases List.append_eq_append_iff.mp heq with ⟨more, -, rfl⟩ | ⟨rest, rfl, hrest⟩
    · exact ⟨more, blanks, (List.append_assoc ..).symm, hblanks⟩
    · -- the end of `a` would be in the suffix or among the blanks
      rcases List.eq_nil_or_concat' rest with rfl | ⟨init, c, rfl⟩
      · exact ⟨[], blanks, hrest.symm, hblanks⟩
      · obtain ⟨d, hd, hblank, hplain⟩ := ha
        obtain rfl : c = d := by simpa [← List.append_assoc] using hd
        have hmem : c ∈ suffix ++ blanks := hrest ▸ by simp
        rcases List.mem_append.mp hmem with hmem | hmem
        · exact absurd (hsuffix c hmem) hplain
        · rw [hblanks c hmem] at hblank
          cases hblank
  · rintro ⟨front, blanks, rfl, hblanks⟩
    exact ⟨a ++ front, blanks, by simp only [List.append_assoc], hblanks⟩

/-! ## What is written and what is read -/

/-- Two texts end alike if they are equal from a point on before which both end plainly. -/
inductive EndsAlike : List Char → List Char → Prop
  | refl (text : List Char) : EndsAlike text text
  | plain {a b : List Char} (ha : EndsPlain a) (hb : EndsPlain b) (gap : List Char) :
      EndsAlike (a ++ gap) (b ++ gap)

namespace EndsAlike

variable {a b : List Char}

theorem append (h : EndsAlike a b) (gap : List Char) : EndsAlike (a ++ gap) (b ++ gap) := by
  cases h with
  | refl => exact .refl _
  | plain ha hb before =>
      rw [List.append_assoc, List.append_assoc]
      exact .plain ha hb _

theorem of_endsPlain (ha : EndsPlain a) (hb : EndsPlain b) : EndsAlike a b := by
  rw [← List.append_nil a, ← List.append_nil b]
  exact .plain ha hb []

theorem isMemberAccess_eq (h : EndsAlike a b) : isMemberAccess a = isMemberAccess b := by
  cases h with
  | refl => rfl
  | plain ha hb gap =>
      have hpoint : ∀ c ∈ ['.'], c ∈ ['.', '-', '>'] := by simp
      have harrow : ∀ c ∈ ['-', '>'], c ∈ ['.', '-', '>'] := by simp
      rw [Bool.eq_iff_iff, isMemberAccess_iff, isMemberAccess_iff, endsIn_append_iff hpoint ha,
        endsIn_append_iff hpoint hb, endsIn_append_iff harrow ha, endsIn_append_iff harrow hb]

end EndsAlike

/-- The text of several lexemes. -/
def textOf (lexemes : List Lexeme) : List Char :=
  lexemes.flatMap Lexeme.text

/-- Lexemes that follow others, each with all those before it. -/
def contextsAfter (before : List Lexeme) : List Lexeme → List (List Lexeme × Lexeme)
  | [] => []
  | lexeme :: rest => (before, lexeme) :: contextsAfter (before ++ [lexeme]) rest

/-- The lexemes of a text, each with those before it. -/
def contexts (text : List Char) : List (List Lexeme × Lexeme) :=
  contextsAfter [] (lex text)

theorem textOf_concat (lexemes : List Lexeme) (lexeme : Lexeme) :
    textOf (lexemes ++ [lexeme]) = textOf lexemes ++ lexeme.text := by
  simp [textOf]

theorem mem_contextsAfter_iff {given before : List Lexeme} {lexemes : List Lexeme}
    {lexeme : Lexeme} :
    (before, lexeme) ∈ contextsAfter given lexemes ↔
      ∃ front rest, before = given ++ front ∧ lexemes = front ++ lexeme :: rest := by
  induction lexemes generalizing given with
  | nil => simp [contextsAfter]
  | cons first more ih =>
      rw [contextsAfter, List.mem_cons, ih, Prod.mk.injEq]
      constructor
      · rintro (⟨rfl, rfl⟩ | ⟨front, rest, rfl, rfl⟩)
        · exact ⟨[], more, (List.append_nil _).symm, rfl⟩
        · exact ⟨first :: front, rest, by simp, rfl⟩
      · rintro ⟨front, rest, rfl, heq⟩
        cases front with
        | nil =>
            obtain ⟨rfl, -⟩ := List.cons.inj heq
            exact .inl ⟨List.append_nil _, rfl⟩
        | cons _ front =>
            obtain ⟨rfl, rfl⟩ := List.cons.inj heq
            exact .inr ⟨front, rest, by simp, rfl⟩

theorem mem_contexts_iff {text : List Char} {before : List Lexeme} {lexeme : Lexeme} :
    (before, lexeme) ∈ contexts text ↔ ∃ rest, lex text = before ++ lexeme :: rest := by
  rw [contexts, mem_contextsAfter_iff]
  constructor
  · rintro ⟨front, rest, rfl, heq⟩
    exact ⟨rest, heq⟩
  · rintro ⟨rest, heq⟩
    exact ⟨before, rest, rfl, heq⟩

theorem map_snd_contextsAfter (before lexemes : List Lexeme) :
    (contextsAfter before lexemes).map Prod.snd = lexemes := by
  induction lexemes generalizing before with
  | nil => rfl
  | cons lexeme rest ih => rw [contextsAfter, List.map_cons, ih]

theorem flatMap_text_contexts (text : List Char) :
    ((contexts text).flatMap fun context => context.2.text) = text :=
  calc (contexts text).flatMap (fun context => context.2.text)
      = ((contexts text).map Prod.snd).flatMap Lexeme.text := (List.flatMap_map ..).symm
    _ = (lex text).flatMap Lexeme.text := by rw [contexts, map_snd_contextsAfter]
    _ = text := flatMap_text_lex text

/-- What a lexeme becomes after a given text: an identifier that is bound and no member access is
replaced, and nothing else. -/
def Lexeme.replaced (replacements : Substitution) (before : List Char) : Lexeme → List Char
  | .other cs => cs
  | .word cs =>
    if isMemberAccess before then cs
    else match replacements.lookup (String.ofList cs) with
      | some expression => expression.toList
      | none => cs

/-- No expression ends in a blank or in a character of a member access. -/
def Substitution.EndsPlain (replacements : Substitution) : Prop :=
  ∀ name expression, replacements.lookup name = some expression → Text.EndsPlain expression.toList

section Substitute

variable {replacements : Substitution}

theorem Lexeme.append_eq (lexeme : Lexeme) {written before : List Char}
    (h : isMemberAccess written = isMemberAccess before) :
    lexeme.append replacements written = written ++ lexeme.replaced replacements before := by
  cases lexeme with
  | other cs => rfl
  | word cs =>
      rw [append, replaced, h]
      cases isMemberAccess before with
      | true => rfl
      | false => cases replacements.lookup (String.ofList cs) <;> rfl

/-- What is written for a lexeme ends like the lexeme itself. -/
theorem EndsAlike.append_replaced (hplain : replacements.EndsPlain) {lexeme : Lexeme}
    (hproper : lexeme.Proper)
    {written before : List Char} (h : EndsAlike written before) (source : List Char) :
    EndsAlike (written ++ lexeme.replaced replacements source) (before ++ lexeme.text) := by
  cases lexeme with
  | other cs => exact h.append cs
  | word cs =>
      rw [Lexeme.replaced]
      split
      · exact h.append cs
      · split
        · rename_i expression hfound
          exact .of_endsPlain ((hplain _ _ hfound).append written)
            (hproper.endsPlain_word.append before)
        · exact h.append cs

theorem foldl_append_eq (hplain : replacements.EndsPlain) {lexemes : List Lexeme}
    (hproper : ∀ lexeme ∈ lexemes, lexeme.Proper)
    {written : List Char} (before : List Lexeme) (h : EndsAlike written (textOf before)) :
    lexemes.foldl (Lexeme.append replacements) written =
      written ++ (contextsAfter before lexemes).flatMap fun context =>
        context.2.replaced replacements (textOf context.1) := by
  induction lexemes generalizing written before with
  | nil => simp [contextsAfter]
  | cons lexeme rest ih =>
      obtain ⟨hfirst, hrest⟩ := List.forall_mem_cons.mp hproper
      have hnext := h.append_replaced hplain hfirst (textOf before)
      rw [← textOf_concat] at hnext
      rw [List.foldl_cons, lexeme.append_eq h.isMemberAccess_eq, ih hrest _ hnext, contextsAfter,
        List.flatMap_cons, List.append_assoc]

/-- Every identifier is replaced or kept by what stands before it in the source. -/
theorem substitute_eq (hplain : replacements.EndsPlain) (text : List Char) :
    substitute replacements text =
      (contexts text).flatMap fun context =>
        context.2.replaced replacements (textOf context.1) := by
  rw [substitute, foldl_append_eq hplain (fun _ h => proper_of_mem_lex h) [] (EndsAlike.refl []),
    List.nil_append, contexts]

/-- A text stays as it is if its bound identifiers are member accesses. -/
theorem flatMap_replaced_eq_self {text : List Char}
    (h : ∀ before cs, (before, .word cs) ∈ contexts text → isMemberAccess (textOf before) = false →
      replacements.lookup (String.ofList cs) = none) :
    ((contexts text).flatMap fun context => context.2.replaced replacements (textOf context.1)) =
      text := by
  have hkept : ∀ context ∈ contexts text, context.2.replaced replacements (textOf context.1) =
      context.2.text := by
    rintro ⟨before, lexeme⟩ hmem
    cases lexeme with
    | other cs => rfl
    | word cs =>
        rw [Lexeme.replaced]
        split
        · rfl
        · rename_i haccess
          rw [h before cs hmem (by simpa using haccess)]
          rfl
  rw [List.flatMap_def, List.map_congr_left hkept, ← List.flatMap_def, flatMap_text_contexts]

end Substitute

/-! ## Accesses through `this` -/

/-- Two cuts of a text are the same if the last character before one is not behind the other, both
ways. -/
theorem append_inj_of_getLast?_not_mem {a b a' b' : List Char} (h : a ++ b = a' ++ b')
    (ha : ∃ c ∈ a.getLast?, c ∉ b') (ha' : ∃ c ∈ a'.getLast?, c ∉ b) : a = a' ∧ b = b' := by
  -- what one cut has more before it ends in a character that the other has behind it
  have hmore : ∀ {x more y : List Char}, (∃ c ∈ (x ++ more).getLast?, c ∉ more ++ y) →
      more = [] := by
    rintro x more y ⟨c, hc, hmem⟩
    rcases List.eq_nil_or_concat' more with rfl | ⟨front, d, rfl⟩
    · rfl
    · obtain rfl : d = c := by simpa [← List.append_assoc] using hc
      exact absurd (by simp) hmem
  rcases List.append_eq_append_iff.mp h with ⟨more, rfl, rfl⟩ | ⟨more, rfl, rfl⟩
  · obtain rfl := hmore ha'
    exact ⟨(List.append_nil _).symm, rfl⟩
  · obtain rfl := hmore ha
    exact ⟨List.append_nil _, rfl⟩

theorem not_mem_arrow_of_isNumeralChar {c : Char} (h : isNumeralChar c = true) {blanks : List Char}
    (hblanks : ∀ d ∈ blanks, isBlank d = true) : c ∉ ['-', '>'] ++ blanks := by
  intro hmem
  rcases List.mem_append.mp hmem with hmem | hmem
  · have hnone : ['-', '>'].any isNumeralChar = false := by decide
    exact List.any_eq_false.mp hnone c hmem h
  · have hblank := isBlank_of_isNumeralChar h
    rw [hblanks c hmem] at hblank
    cases hblank

/-- A word at the end of a text does not reach over a place before which no word ends. -/
theorem suffix_of_append_eq {a b front word : List Char} (h : a ++ b = front ++ word)
    (hword : ∀ c ∈ word, isWordChar c = true) (ha : ∀ c ∈ a.getLast?, isWordChar c = false) :
    word <:+ b := by
  rcases List.append_eq_append_iff.mp h with ⟨more, -, rfl⟩ | ⟨more, rfl, rfl⟩
  · exact List.suffix_append more word
  · rcases List.eq_nil_or_concat' more with rfl | ⟨start, c, rfl⟩
    · exact List.suffix_rfl
    · have hc := ha c (by simp [← List.append_assoc])
      rw [hword c (by simp)] at hc
      cases hc

/-- The text of lexemes whose last one is a gap ends in no word. -/
theorem isWordChar_of_getLast?_textOf {lexemes : List Lexeme}
    (hproper : ∀ lexeme ∈ lexemes, lexeme.Proper)
    (hgap : ∀ lexeme ∈ lexemes.getLast?, lexeme.isGap = true) :
    ∀ c ∈ (textOf lexemes).getLast?, isWordChar c = false := by
  intro c hc
  rcases List.eq_nil_or_concat' lexemes with rfl | ⟨front, last, rfl⟩
  · cases hc
  · have hne := (hproper last (by simp)).text_ne_nil
    rw [textOf_concat, Option.mem_def, List.getLast?_append, List.getLast?_eq_some_getLast hne,
      Option.some_or] at hc
    obtain rfl := Option.some.inj hc
    exact Lexeme.isGap_eq_true_iff.mp (hgap last (by simp)) _ (List.getLast_mem hne)

/-- Before an identifier there is nothing or a gap. -/
theorem exists_gap_of_mem_contexts {text : List Char} {before : List Lexeme} {cs : List Char}
    (h : (before, .word cs) ∈ contexts text) (hne : before ≠ []) :
    ∃ front gap, before = front ++ [.other gap] ∧ ∀ c ∈ gap, isWordChar c = false := by
  obtain ⟨rest, hlex⟩ := mem_contexts_iff.mp h
  obtain ⟨front, last, rfl⟩ := (List.eq_nil_or_concat' before).resolve_left hne
  have hproper : ∀ lexeme ∈ front ++ [last] ++ .word cs :: rest, lexeme.Proper :=
    fun _ hmem => proper_of_mem_lex (hlex ▸ hmem)
  have halternates := lex_alternates text
  rw [hlex, List.isChain_append] at halternates
  have hgap : last.isGap = true := by
    rw [halternates.2.2 last (by simp) (.word cs) rfl, (hproper (.word cs) (by simp)).isGap_word,
      Bool.not_false]
  cases last with
  | word last =>
      rw [(hproper (.word last) (by simp)).isGap_word] at hgap
      cases hgap
  | other gap => exact ⟨front, gap, rfl, Lexeme.isGap_eq_true_iff.mp hgap⟩

/-- Before a gap there is an identifier or a numeral, which does not continue the text before it. -/
theorem object_of_mem_contexts {text gap cs : List Char} {start : List Lexeme} {object : Lexeme}
    (h : (start ++ [object] ++ [.other gap], .word cs) ∈ contexts text)
    (hgap : ∀ c ∈ gap, isWordChar c = false) :
    object.Proper ∧ object.isGap = false ∧ ∀ c ∈ (textOf start).getLast?, isWordChar c = false := by
  obtain ⟨rest, hlex⟩ := mem_contexts_iff.mp h
  have hproper : ∀ lexeme ∈ start ++ [object] ++ [.other gap] ++ .word cs :: rest, lexeme.Proper :=
    fun _ hmem => proper_of_mem_lex (hlex ▸ hmem)
  have halternates := lex_alternates text
  rw [hlex, List.isChain_append, List.isChain_append, List.isChain_append] at halternates
  obtain ⟨⟨⟨-, -, hstart⟩, -, hobject⟩, -, -⟩ := halternates
  have hother : Lexeme.isGap (.other gap) = true := Lexeme.isGap_eq_true_iff.mpr hgap
  have hobject : object.isGap = false := by
    rw [hobject object (by simp) (.other gap) rfl, hother, Bool.not_true]
  refine ⟨hproper object (by simp), hobject,
    isWordChar_of_getLast?_textOf (fun _ hmem => hproper _ (by simp [hmem])) ?_⟩
  intro lexeme hmem
  rw [hstart lexeme hmem object rfl, hobject, Bool.not_false]

/-- The text before an identifier ends in `this->` just when the lexeme before the arrow ends in
`this` and there are no blanks between the two. -/
theorem endsIn_thisArrow_iff {text : List Char} {before : List Lexeme} {cs : List Char}
    (h : (before, .word cs) ∈ contexts text) :
    EndsIn ['t', 'h', 'i', 's', '-', '>'] (textOf before) ↔
      ∃ front object gap, before = front ++ [object] ++ [.other gap] ∧ ['t', 'h', 'i', 's'] <:+
        object.text ∧
        trimEnd gap = ['-', '>'] := by
  constructor
  · rintro ⟨front, blanks, heq, hblanks⟩
    have hs : 's' ∈ textOf before := by rw [heq]; simp
    obtain ⟨init, gap, rfl, hgap⟩ := exists_gap_of_mem_contexts h (by rintro rfl; cases hs)
    have hnotmem : 's' ∉ gap := fun hmem => absurd (hgap 's' hmem) (by decide)
    rcases List.eq_nil_or_concat' init with rfl | ⟨start, object, rfl⟩
    · exact absurd hs (by simpa [textOf, Lexeme.text] using hnotmem)
    obtain ⟨hproper, hobject, hstart⟩ := object_of_mem_contexts h hgap
    have hne := hproper.text_ne_nil
    have hnumeral := hproper.isNumeralChar_of_mem hobject (List.getLast_mem hne)
    have hlast := not_mem_arrow_of_isNumeralChar hnumeral hblanks
    -- the object ends where `this` ends, because neither can reach into what follows the other
    rw [textOf_concat, textOf_concat] at heq
    have hcut : textOf start ++ object.text ++ gap = (front ++ ['t', 'h', 'i', 's']) ++
        (['-', '>'] ++ blanks) := by
      simpa [Lexeme.text] using heq
    have hend : object.text.getLast hne ∈ (textOf start ++ object.text).getLast? := by
      rw [Option.mem_def, List.getLast?_append, List.getLast?_eq_some_getLast hne, Option.some_or]
    obtain ⟨hthis, rfl⟩ :=
      append_inj_of_getLast?_not_mem hcut ⟨_, hend, hlast⟩ ⟨'s', by simp, hnotmem⟩
    refine ⟨start, object, _, rfl, ?_, trimEnd_concat_append ['-'] rfl hblanks⟩
    -- and it begins before `this` begins or there, because nothing continues what is before it
    have hall : ['t', 'h', 'i', 's'].all isWordChar = true := by decide
    exact suffix_of_append_eq hthis (List.all_eq_true.mp hall) hstart
  · rintro ⟨front, object, gap, rfl, ⟨start, hobject⟩, hgap⟩
    obtain ⟨blanks, heq, hblanks⟩ := exists_eq_trimEnd_append gap
    refine ⟨textOf front ++ start, blanks, ?_, hblanks⟩
    rw [textOf_concat, textOf_concat, ← hobject, Lexeme.text, heq, hgap]
    simp

end Constitutive.Text
