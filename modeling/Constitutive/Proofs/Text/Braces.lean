import Constitutive.Proofs.Text.Lexeme
import Constitutive.Proofs.Text.Solid

/-!
# Nested braces

A text is balanced if every brace that it closes was opened in it before, and every brace that it
opens is closed.  This is checked by going through the text with the number of open braces
(`nesting`, `balanced_iff`).

Only braces matter.  So a balanced text stays balanced when it is cut into lines and indented
(`nesting_unlines_written`), when it is written as code without its margins
(`nesting_unlines_code`), and when its identifiers are replaced by balanced expressions
(`nesting_substitute`).
-/

namespace Constitutive.Text

/-- Every closing brace has an opening one before it, and the other way round. -/
structure Balanced (cs : List Char) : Prop where
  opened : ∀ front, front <+: cs → front.count '\x7d' ≤ front.count '\x7b'
  closed : cs.count '\x7d' = cs.count '\x7b'

/-- The number of open braces behind a text, if there are some before it.  There is none if a brace
is closed that was not opened. -/
def nesting : Nat → List Char → Option Nat
  | depth, [] => some depth
  | depth, c :: rest =>
    if c = '\x7b' then nesting (depth + 1) rest
    else if c = '\x7d' then
      match depth with
      | 0 => none
      | depth + 1 => nesting depth rest
    else nesting depth rest

@[simp] theorem nesting_nil (depth : Nat) : nesting depth [] = some depth := rfl

@[simp] theorem nesting_open (depth : Nat) (rest : List Char) :
    nesting depth ('\x7b' :: rest) = nesting (depth + 1) rest := rfl

@[simp] theorem nesting_close (depth : Nat) (rest : List Char) :
    nesting (depth + 1) ('\x7d' :: rest) = nesting depth rest := rfl

theorem nesting_close_zero (rest : List Char) : nesting 0 ('\x7d' :: rest) = none := rfl

@[simp] theorem nesting_cons_of_ne {c : Char} (hopen : c ≠ '\x7b') (hclose : c ≠ '\x7d')
    (depth : Nat) (rest : List Char) :
    nesting depth (c :: rest) = nesting depth rest := by
  cases depth <;> simp [nesting, hopen, hclose]

theorem forall_prefix_cons {P : List Char → Prop} {c : Char} {rest : List Char} :
    (∀ front, front <+: c :: rest → P front) ↔ P [] ∧ ∀ front, front <+: rest → P (c :: front) := by
  constructor
  · exact fun h =>
      ⟨h [] List.nil_prefix, fun front hfront => h _ ((List.prefix_cons_inj c).mpr hfront)⟩
  · rintro ⟨hnil, hcons⟩ front hfront
    rcases List.prefix_cons_iff.mp hfront with rfl | ⟨tail, rfl, htail⟩
    · exact hnil
    · exact hcons tail htail

/-- What is open behind a text, in terms of the braces in it. -/
theorem nesting_eq_some_iff {depth after : Nat} {cs : List Char} :
    nesting depth cs = some after ↔
      (∀ front, front <+: cs → front.count '\x7d' ≤ depth + front.count '\x7b') ∧
        after + cs.count '\x7d' = depth + cs.count '\x7b' := by
  induction cs generalizing depth with
  | nil => simp [List.prefix_nil, eq_comm]
  | cons c rest ih =>
      rw [forall_prefix_cons]
      by_cases hopen : c = '\x7b'
      · subst hopen
        simp only [nesting_open, ih, List.count_cons]
        simp [Nat.add_assoc, Nat.add_comm 1]
      · by_cases hclose : c = '\x7d'
        · subst hclose
          cases depth with
          | zero =>
              -- the brace itself is a front that closes too much
              rw [nesting_close_zero]
              exact ⟨nofun, fun h => absurd (h.1.2 [] List.nil_prefix) (by decide)⟩
          | succ depth =>
              simp only [nesting_close, ih, List.count_cons]
              simp [Nat.add_right_comm depth 1, ← Nat.add_assoc]
        · rw [nesting_cons_of_ne hopen hclose, ih]
          simp [hopen, hclose]

/-- Braces that are open before a text and not closed in it stay open. -/
theorem nesting_add {before after : Nat} {cs : List Char} (h : nesting before cs = some after)
    (depth : Nat) :
    nesting (depth + before) cs = some (depth + after) := by
  obtain ⟨hopened, hclosed⟩ := nesting_eq_some_iff.mp h
  refine nesting_eq_some_iff.mpr ⟨fun front hfront => ?_, by omega⟩
  have hfront := hopened front hfront
  omega

/-- A text is balanced if nothing is open behind it when nothing was before. -/
theorem balanced_iff {cs : List Char} : Balanced cs ↔ nesting 0 cs = some 0 := by
  rw [nesting_eq_some_iff]
  simp only [Nat.zero_add]
  exact ⟨fun h => ⟨h.opened, h.closed⟩, fun h => ⟨h.1, h.2⟩⟩

instance (cs : List Char) : Decidable (Balanced cs) :=
  decidable_of_iff _ balanced_iff.symm

/-- A balanced text leaves open what was open before it. -/
theorem Balanced.nesting_eq {cs : List Char} (h : Balanced cs) (depth : Nat) :
    nesting depth cs = some depth :=
  nesting_add (balanced_iff.mp h) depth

theorem nesting_append (depth : Nat) (first second : List Char) :
    nesting depth (first ++ second) = (nesting depth first).bind fun after =>
      nesting after second := by
  induction first generalizing depth with
  | nil => rfl
  | cons c rest ih =>
      by_cases hopen : c = '\x7b'
      · subst hopen
        exact ih (depth + 1)
      · by_cases hclose : c = '\x7d'
        · subst hclose
          cases depth with
          | zero => rfl
          | succ depth => exact ih depth
        · rw [List.cons_append, nesting_cons_of_ne hopen hclose,
            nesting_cons_of_ne hopen hclose, ih]

/-! ## Only braces matter -/

def isBrace (c : Char) : Bool :=
  c == '\x7b' || c == '\x7d'

theorem isBrace_of_isBlank {c : Char} (h : isBlank c = true) : isBrace c = false := by
  cases hbrace : isBrace c with
  | false => rfl
  | true =>
      rcases Bool.or_eq_true _ _ ▸ hbrace with hc | hc
      · rw [beq_iff_eq.mp hc] at h
        exact absurd h (by decide)
      · rw [beq_iff_eq.mp hc] at h
        exact absurd h (by decide)

theorem nesting_filter (depth : Nat) (cs : List Char) :
    nesting depth (cs.filter isBrace) = nesting depth cs := by
  induction cs generalizing depth with
  | nil => rfl
  | cons c rest ih =>
      by_cases hopen : c = '\x7b'
      · subst hopen
        exact ih (depth + 1)
      · by_cases hclose : c = '\x7d'
        · subst hclose
          cases depth with
          | zero => rfl
          | succ depth => exact ih depth
        · have hbrace : isBrace c = false := by simp [isBrace, hopen, hclose]
          rw [List.filter_cons_of_neg (by simp [hbrace]), nesting_cons_of_ne hopen hclose, ih]

/-- Texts with the same braces are nested alike. -/
theorem nesting_congr {cs cs' : List Char} (h : cs.filter isBrace = cs'.filter isBrace)
    (depth : Nat) :
    nesting depth cs = nesting depth cs' := by
  rw [← nesting_filter, h, nesting_filter]

/-- A text without braces. -/
def NoBraces (cs : List Char) : Prop :=
  ∀ c ∈ cs, isBrace c = false

theorem NoBraces.nesting_eq {cs : List Char} (h : NoBraces cs) (depth : Nat) :
    nesting depth cs = some depth := by
  have hnone : cs.filter isBrace = [] := List.filter_eq_nil_iff.mpr fun c hc => by simp [h c hc]
  rw [← nesting_filter, hnone, nesting_nil]

theorem balanced_congr {cs cs' : List Char} (h : cs.filter isBrace = cs'.filter isBrace) :
    Balanced cs ↔ Balanced cs' := by
  rw [balanced_iff, balanced_iff, nesting_congr h]

theorem NoBraces.balanced {cs : List Char} (h : NoBraces cs) : Balanced cs :=
  balanced_iff.mpr (h.nesting_eq 0)

theorem Balanced.append {first second : List Char} (hfirst : Balanced first)
    (hsecond : Balanced second) :
    Balanced (first ++ second) := by
  rw [balanced_iff, nesting_append, hfirst.nesting_eq, Option.bind_some, hsecond.nesting_eq]

/-! ## Lines and code -/

/-- Braces are solid. -/
theorem filter_isBrace_solid (cs : List Char) : (solid cs).filter isBrace = cs.filter isBrace := by
  have hsolid : ∀ c ∈ cs, (isBrace c && !isBlank c) = isBrace c := by
    intro c _
    cases hblank : isBlank c with
    | true => rw [isBrace_of_isBlank hblank, Bool.false_and]
    | false => rw [Bool.not_false, Bool.and_true]
  rw [solid, List.filter_filter, List.filter_congr hsolid]

theorem filter_isBrace_congr {cs cs' : List Char} (h : solid cs = solid cs') :
    cs.filter isBrace = cs'.filter isBrace := by
  rw [← filter_isBrace_solid, h, filter_isBrace_solid]

/-- Cutting a text into lines and indenting them does not touch its braces. -/
theorem nesting_unlines_written (depth level : Nat) (cs : List Char) :
    nesting depth (unlines (written level cs)) = nesting depth cs :=
  nesting_congr (filter_isBrace_congr (solid_unlines_written level cs)) depth

/-- Writing a text as code does not touch its braces. -/
theorem nesting_unlines_code (depth level : Nat) (cs : List Char) :
    nesting depth (unlines ((codeLines cs).flatMap (written level))) = nesting depth cs :=
  nesting_congr (filter_isBrace_congr (solid_unlines_code level cs)) depth

/-! ## Identifiers -/

theorem noBraces_of_isWordChar {cs : List Char} (h : ∀ c ∈ cs, isWordChar c = true) :
    NoBraces cs := by
  intro c hc
  cases hbrace : isBrace c with
  | false => rfl
  | true =>
      rcases Bool.or_eq_true _ _ ▸ hbrace with heq | heq
      · rw [beq_iff_eq.mp heq] at hc
        exact absurd (h _ hc) (by decide)
      · rw [beq_iff_eq.mp heq] at hc
        exact absurd (h _ hc) (by decide)

/-- Replacing identifiers, which have no braces, by balanced expressions leaves open what was
open. -/
theorem nesting_substitute {replacements : Substitution}
    (h : ∀ name expression, replacements.lookup name = some expression → Balanced expression.toList)
    (depth : Nat)
    (cs : List Char) : nesting depth (substitute replacements cs) = nesting depth cs := by
  have hstep : ∀ (before : List Char) (lexeme : Lexeme),
      (∀ word, lexeme = .word word → NoBraces word) →
      nesting depth (lexeme.append replacements before) =
      nesting depth (before ++ lexeme.text) := by
    intro before lexeme hword
    cases lexeme with
    | other cs => rfl
    | word cs =>
        simp only [Lexeme.append]
        split
        · rfl
        · split
          · rename_i expression hfound
            simp only [nesting_append, (h _ _ hfound).nesting_eq, Lexeme.text,
              (hword cs rfl).nesting_eq]
          · rfl
  have hrun : ∀ (lexemes : List Lexeme) (before : List Char),
      (∀ word, .word word ∈ lexemes → NoBraces word) →
      nesting depth (lexemes.foldl (Lexeme.append replacements) before) =
        nesting depth (before ++ lexemes.flatMap Lexeme.text) := by
    intro lexemes
    induction lexemes with
    | nil => intro before _; simp
    | cons lexeme rest ih =>
        intro before hwords
        rw [List.foldl_cons, ih _ fun word hmem => hwords word (List.mem_cons_of_mem _ hmem),
          nesting_append, hstep before lexeme fun word heq =>
            hwords word (heq ▸ List.mem_cons_self ..), ← nesting_append,
          List.append_assoc, List.flatMap_cons]
  have hwords : ∀ word, Lexeme.word word ∈ lex cs → NoBraces word :=
    fun word hmem => noBraces_of_isWordChar (isWordChar_of_word_mem_lex hmem)
  rw [substitute, hrun (lex cs) [] hwords, List.nil_append, flatMap_text_lex]

end Constitutive.Text
