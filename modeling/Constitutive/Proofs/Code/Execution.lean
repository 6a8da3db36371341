import Constitutive.Proofs.Code.References
import Mathlib.Algebra.Field.Defs
import Mathlib.Algebra.Module.Pi
import Mathlib.Logic.Relation

/-!
# Executing generated code

Generated code works on the members of its class.  Here it is executed on a `Memory`, which says
what the members hold, with vectors over any field.  Some assignments are executed as such
(`Assignment.run`); of all other lines only that is known which members they may write, and they may
leave anything there.  So what holds of all executions holds of the code, whatever its other lines
compute.  Expressions that were given in the description are taken to write nothing.

Loops and branches may be passed any number of times, except for branches that compare two counts.
What no line writes is not changed (`eq_of_runsAll`).
-/

namespace Constitutive

variable {K : Type*} {n : ℕ}

/-! ## Memory -/

/-- What a member holds: which of these is meant depends on the type of the member.  Matrices are
not followed. -/
structure Cell (K : Type*) (n : ℕ) where
  vector : Fin n → K
  number : K
  count : ℕ

/-- What the members hold. -/
abbrev Memory (K : Type*) (n : ℕ) : Type _ :=
  Member → Cell K n

namespace Memory

/-- Puts a vector into a member. -/
def setVector (s : Memory K n) (m : Member) (v : Fin n → K) : Memory K n :=
  Function.update s m { s m with vector := v }

variable {s : Memory K n} {m m' : Member} {v : Fin n → K}

@[simp] theorem vector_setVector_self : (s.setVector m v m).vector = v := by
  simp [setVector]

@[simp] theorem setVector_of_ne (hne : m' ≠ m) : s.setVector m v m' = s m' :=
  Function.update_of_ne hne _ _

end Memory

/-! ## Assignments -/

/-- Assignments of generated code that are followed. -/
inductive Assignment where
  | copy (target source : Member)
  | negate (target source : Member)
  | subtract (target source : Member)
  /-- Takes back a part of the difference of two vectors. -/
  | retract (target kept current former : Member)

namespace Assignment

/-- The member that is assigned to. -/
def target : Assignment → Member
  | copy target _ => target
  | negate target _ => target
  | subtract target _ => target
  | retract target _ _ _ => target

/-- What an assignment makes of the memory. -/
def run [Field K] (s : Memory K n) : Assignment → Memory K n
  | copy target source => Function.update s target (s source)
  | negate target source => s.setVector target (-(s source).vector)
  | subtract target source => s.setVector target ((s target).vector - (s source).vector)
  | retract target kept current former =>
    s.setVector target
      ((s target).vector - (1 - (s kept).number) • ((s current).vector - (s former).vector))

theorem run_of_ne [Field K] {s : Memory K n} {m : Member} (a : Assignment) (hne : m ≠ a.target) :
    a.run s m = s m := by
  cases a with
  | copy target source => exact Function.update_of_ne hne _ _
  | negate target source => exact Memory.setVector_of_ne hne
  | subtract target source => exact Memory.setVector_of_ne hne
  | retract target kept current former => exact Memory.setVector_of_ne hne

end Assignment

namespace Line

/-- The assignment that a line is. -/
def assignment? : Line → Option Assignment
  | [.use (.member a), .text " = ", .use (.member b), .text ";"] => some (.copy a b)
  | [.use (.member a), .text " = -(", .use (.member b), .text ");"] => some (.negate a b)
  | [.use (.member a), .text " -= ", .use (.member b), .text ";"] => some (.subtract a b)
  | [.use (.member a), .text " -= (1 - ", .use (.member c), .text ") * (", .use (.member b),
      .text " - ", .use (.member d), .text ");"] => some (.retract a c b d)
  | _ => none

/-- The counts that the head of a branch compares; the branch is taken if the second is at most the
first. -/
def comparison? : Line → Option (Member × Member)
  | [.text "if(", .use (.member a), .text " >= ", .use (.member b), .text ")"] => some (a, b)
  | _ => none

/-! ## What a line may write -/

/-- The line calls a method of the class. -/
def Calls (l : Line) : Prop :=
  ∃ method, .use (.method method) ∈ l

/-- What comes after the line is not reached from there. -/
def Leaves (l : Line) : Prop :=
  ∃ text ∈ ["return ", "return true;", "return false;", "continue;"], l.head? = some (.text text)

/-- The text begins a line that only reads members: one that defines a local constant, or one that
prints. -/
def onlyReads (text : String) : Bool :=
  text == "const " || "std::cout".toList.isPrefixOf text.toList

/-- The members that a line may write, if it calls no method.  An assignment to a member, or to
components of it, begins with the member.  A line that begins otherwise may write all members it
mentions. -/
def targets : Line → List Member
  | .use (.member m) :: _ => [m]
  | .text text :: rest =>
    if onlyReads text then []
    else rest.filterMap fun
      | .use (.member m) => some m
      | _ => none
  | _ => []

/-- The line may write the member. -/
def Writes (l : Line) (m : Member) : Prop :=
  l.Calls ∨ m ∈ l.targets

@[simp] theorem onlyReads_const : onlyReads "const " = true := by decide

@[simp] theorem not_calls_nil : ¬ Calls [] := by
  simp [Calls]

@[simp] theorem calls_cons {piece : Piece} {l : Line} :
    Calls (piece :: l) ↔ (∃ method, piece = .use (.method method)) ∨ Calls l := by
  simp only [Calls, List.mem_cons, exists_or, eq_comm]

@[simp] theorem calls_append {l l' : Line} : Calls (l ++ l') ↔ Calls l ∨ Calls l' := by
  simp only [Calls, List.mem_append, exists_or]

@[simp] theorem writes_cons_member {m m' : Member} {l : Line} :
    Writes (.use (.member m') :: l) m ↔ Calls l ∨ m = m' := by
  simp [Writes, targets]

@[simp] theorem writes_cons_text {text : String} {m : Member} {l : Line} :
    Writes (.text text :: l) m ↔ Calls l ∨ onlyReads text = false ∧ .use (.member m) ∈ l := by
  cases hreads : onlyReads text with
  | true => simp [Writes, targets, hreads]
  | false =>
      have hmem : (m ∈ l.filterMap fun | .use (.member m) => some m | _ => none) ↔
          .use (.member m) ∈ l := by
        rw [List.mem_filterMap]
        constructor
        · rintro ⟨piece, hpiece, heq⟩
          split at heq
          · cases heq
            exact hpiece
          · cases heq
        · exact fun hmem => ⟨_, hmem, rfl⟩
      simp [Writes, targets, hreads, hmem]

theorem target_mem_targets {l : Line} {a : Assignment} (h : l.assignment? = some a) :
    a.target ∈ l.targets := by
  unfold assignment? at h
  split at h
  · cases h
    exact List.mem_singleton_self _
  · cases h
    exact List.mem_singleton_self _
  · cases h
    exact List.mem_singleton_self _
  · cases h
    exact List.mem_singleton_self _
  · cases h

/-! ## Execution -/

/-- A line can make one memory of another. -/
def Step [Field K] (l : Line) (s t : Memory K n) : Prop :=
  match l.assignment? with
  | some a => t = a.run s
  | none => ¬ l.Leaves ∧ ∀ m, ¬ l.Writes m → t m = s m

/-- A line that is not followed may change nothing. -/
theorem step_self [Field K] {l : Line} (hassignment : l.assignment? = none) (hleaves : ¬ l.Leaves)
    (s : Memory K n) :
    l.Step s s := by
  unfold Step
  rw [hassignment]
  exact ⟨hleaves, fun _ _ => rfl⟩

/-- A line that is not followed may leave any vector where it writes. -/
theorem step_setVector [Field K] {l : Line} {m : Member} (hassignment : l.assignment? = none)
    (hleaves : ¬ l.Leaves)
    (hwrites : l.Writes m) (s : Memory K n) (v : Fin n → K) : l.Step s (s.setVector m v) := by
  unfold Step
  rw [hassignment]
  refine ⟨hleaves, fun m' hm' => Memory.setVector_of_ne ?_⟩
  rintro rfl
  exact hm' hwrites

/-- What the head of a block makes of its body.  If it calls a method, anything may have happened
afterwards. -/
def Guards (head : Line) (body : Memory K n → Memory K n → Prop) (s t : Memory K n) : Prop :=
  ¬ head.Calls →
    match head.comparison? with
    | some (a, b) => if (s b).count ≤ (s a).count then body s t else t = s
    | none => Relation.ReflTransGen body s t

theorem Step.eq_of_not_writes [Field K] {l : Line} {s t : Memory K n} {m : Member} (h : l.Step s t)
    (hm : ¬ l.Writes m) : t m = s m := by
  unfold Step at h
  split at h
  · rename_i a hassignment
    have hne : m ≠ a.target := by
      rintro rfl
      exact hm (.inr (target_mem_targets hassignment))
    rw [h, a.run_of_ne hne]
  · exact h.2 m hm

theorem Guards.eq_of_forall {head : Line} {body : Memory K n → Memory K n → Prop} {s t : Memory K n}
    {m : Member}
    (h : head.Guards body s t) (hcalls : ¬ head.Calls) (hbody : ∀ u v, body u v → v m = u m) :
    t m = s m := by
  replace h := h hcalls
  split at h
  · split at h
    · exact hbody s t h
    · rw [h]
  · -- every pass keeps what the member holds
    induction h with
    | refl => rfl
    | tail _ hpass ih => rw [hbody _ _ hpass, ih]

/-- A block without a comparison may be passed once. -/
theorem guards_of_pass {head : Line} (hcomparison : head.comparison? = none)
    {body : Memory K n → Memory K n → Prop}
    {s t : Memory K n} (h : body s t) : head.Guards body s t := by
  intro _
  rw [hcomparison]
  exact .single h

end Line

namespace Stmt

mutual

/-- A statement may write the member. -/
def Writes : Stmt → Member → Prop
  | line l, m => l.Writes m
  | block head body, m => head.Calls ∨ WritesIn body m
  | comment _, _ => False
  | code _, _ => True

/-- One of the statements may write the member. -/
def WritesIn : List Stmt → Member → Prop
  | [], _ => False
  | stmt :: rest, m => Writes stmt m ∨ WritesIn rest m

end

section Writes

variable {m : Member} {rest : List Stmt}

@[simp] theorem not_writesIn_nil : ¬ WritesIn [] m := by
  simp [WritesIn]

@[simp] theorem writesIn_cons_line {l : Line} :
    WritesIn (.line l :: rest) m ↔ l.Writes m ∨ WritesIn rest m := by
  simp [WritesIn, Writes]

@[simp] theorem writesIn_cons_block {head : Line} {body : List Stmt} :
    WritesIn (.block head body :: rest) m ↔ (head.Calls ∨ WritesIn body m) ∨ WritesIn rest m := by
  simp [WritesIn, Writes]

@[simp] theorem writesIn_cons_comment {text : String} :
    WritesIn (.comment text :: rest) m ↔ WritesIn rest m := by
  simp [WritesIn, Writes]

@[simp] theorem writesIn_append {first second : List Stmt} :
    WritesIn (first ++ second) m ↔ WritesIn first m ∨ WritesIn second m := by
  induction first with
  | nil => simp
  | cons stmt rest ih => simp [WritesIn, ih, or_assoc]

@[simp] theorem writesIn_flatMap {α : Type} {f : α → List Stmt} {xs : List α} :
    WritesIn (xs.flatMap f) m ↔ ∃ x ∈ xs, WritesIn (f x) m := by
  induction xs with
  | nil => simp
  | cons x rest ih => simp [ih]

@[simp] theorem writesIn_onlyIf {condition : Bool} {body : List Stmt} :
    WritesIn (onlyIf condition body) m ↔ condition = true ∧ WritesIn body m := by
  cases condition with
  | false => simp [onlyIf]
  | true => simp [onlyIf]

end Writes

variable [Field K]

mutual

/-- A statement can make one memory of another. -/
def Runs : Stmt → Memory K n → Memory K n → Prop
  | line l => l.Step
  | block head body => head.Guards (RunsAll body)
  | comment _ => fun s t => t = s
  | code _ => fun _ _ => True

/-- Statements, executed one after the other, can make one memory of another. -/
def RunsAll : List Stmt → Memory K n → Memory K n → Prop
  | [] => fun s t => t = s
  | stmt :: rest => fun s t => ∃ u, Runs stmt s u ∧ RunsAll rest u t

end

variable {s t : Memory K n}

@[simp] theorem runsAll_nil : RunsAll [] s t ↔ t = s := by
  simp [RunsAll]

theorem runsAll_cons {stmt : Stmt} {rest : List Stmt} :
    RunsAll (stmt :: rest) s t ↔ ∃ u, Runs stmt s u ∧ RunsAll rest u t := by
  simp [RunsAll]

@[simp] theorem runsAll_singleton {stmt : Stmt} : RunsAll [stmt] s t ↔ Runs stmt s t := by
  simp [runsAll_cons]

theorem runsAll_append {first second : List Stmt} :
    RunsAll (first ++ second) s t ↔ ∃ u, RunsAll first s u ∧ RunsAll second u t := by
  induction first generalizing s with
  | nil => simp
  | cons stmt rest ih =>
      simp only [List.cons_append, runsAll_cons, ih]
      constructor
      · rintro ⟨u, hstmt, v, hrest, hsecond⟩
        exact ⟨v, ⟨u, hstmt, hrest⟩, hsecond⟩
      · rintro ⟨v, ⟨u, hstmt, hrest⟩, hsecond⟩
        exact ⟨u, hstmt, v, hrest, hsecond⟩

@[simp] theorem runs_line {l : Line} : Runs (.line l) s t ↔ l.Step s t := by
  simp [Runs]

@[simp] theorem runs_block {head : Line} {body : List Stmt} :
    Runs (.block head body) s t ↔ head.Guards (RunsAll body) s t := by
  simp [Runs]

/-- A block without a comparison may be passed over. -/
theorem runs_block_self {head : Line} {body : List Stmt} (hcomparison : head.comparison? = none) :
    Runs (.block head body) s s := by
  rw [runs_block]
  intro _
  rw [hcomparison]

theorem runsAll_self {body : List Stmt} (h : ∀ stmt ∈ body, Runs stmt s s) : RunsAll body s s := by
  induction body with
  | nil => exact runsAll_nil.mpr rfl
  | cons stmt rest ih =>
      obtain ⟨hstmt, hrest⟩ := List.forall_mem_cons.mp h
      exact runsAll_cons.mpr ⟨s, hstmt, ih hrest⟩

mutual

theorem eq_of_runs {m : Member} {s t : Memory K n} :
    (stmt : Stmt) → Runs stmt s t → ¬ Writes stmt m → t m = s m
  | .line l, h, hm => (runs_line.mp h).eq_of_not_writes (by simpa [Writes] using hm)
  | .block head body, h, hm => by
      simp only [Writes, not_or] at hm
      exact (runs_block.mp h).eq_of_forall hm.1 fun u v hbody => eq_of_runsAll body hbody hm.2
  | .comment _, h, _ => by
      simp only [Runs] at h
      rw [h]
  | .code _, _, hm => by simp [Writes] at hm

/-- What statements do not write, they do not change. -/
theorem eq_of_runsAll {m : Member} {s t : Memory K n} :
    (body : List Stmt) → RunsAll body s t → ¬ WritesIn body m → t m = s m
  | [], h, _ => by rw [runsAll_nil.mp h]
  | stmt :: rest, h, hm => by
      obtain ⟨u, hstmt, hrest⟩ := runsAll_cons.mp h
      simp only [WritesIn, not_or] at hm
      rw [eq_of_runsAll rest hrest hm.2, eq_of_runs stmt hstmt hm.1]

end

end Stmt

end Constitutive
