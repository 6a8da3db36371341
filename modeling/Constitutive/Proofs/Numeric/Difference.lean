import Constitutive.Numeric.Difference
import Mathlib

/-!
# What central differences evaluate, and what they give

A matrix is filled column by column, while one point is moved down, moved up and put back in each of
its unknowns.  The function that is evaluated may do anything besides answering.  Two laws say all
about it.

* **Evaluations.**  The function is evaluated at `differencePoints`, one after the other, and then
  nothing is left of the moves and of the old matrix (`fill_eq`).  One column is `fillColumn_eq`;
  the loop over the columns evaluates two points in each round, so the points take turns
  (`foldlM_two_evaluations`).
* **Exactness.**  The quotient of a central difference is the derivative of a polynomial of degree
  two at most (`differenceQuotient_eq_derivative`).  A polynomial in several unknowns becomes one in
  a single unknown where the others have the values of a point, and its partial derivative becomes
  the derivative (`derivative_alongUnknown`).
-/

namespace Constitutive.Numeric

/-! ## Moving a point in place -/

section Points

variable {α : Type} {m n : Nat}

theorem entry_replaceAt (x : Vec α n) (i : Fin n) (a : α) (k : Fin n) :
    (replaceAt x i a).entry k = if k = i then a else x.entry k :=
  Vec.entry_ofFn _ k

theorem replaceAt_replaceAt (x : Vec α n) (i : Fin n) (a b : α) :
    replaceAt (replaceAt x i a) i b = replaceAt x i b := by
  apply Vec.ext_entry
  intro k
  rw [entry_replaceAt, entry_replaceAt, entry_replaceAt]
  split
  · rfl
  · rfl

/-- An unknown that is replaced by itself. -/
theorem replaceAt_entry (x : Vec α n) (i : Fin n) : replaceAt x i (x.entry i) = x := by
  apply Vec.ext_entry
  intro k
  rw [entry_replaceAt]
  split
  · rename_i hk
    rw [hk]
  · rfl

theorem entry_replaceAt_eq_update (x : Vec α n) (i : Fin n) (t : α) :
    (replaceAt x i t).entry = Function.update x.entry i t := by
  funext k
  rw [entry_replaceAt, Function.update_apply]

/-- The place of the lower of the two points of an unknown, where lower and upper points take
turns. -/
def lowerOf (i : Fin n) : Fin (2 * n) :=
  ⟨2 * i, by omega⟩

/-- The place of the upper point of an unknown, right behind the lower one. -/
def upperOf (i : Fin n) : Fin (2 * n) :=
  ⟨2 * i + 1, by omega⟩

/-- Lower and upper things in turn. -/
def interleave {β : Type} (lower upper : Fin n → β) : Vector β (2 * n) :=
  Vector.ofFn fun k => if k.val % 2 = 0 then lower ⟨k / 2, by omega⟩ else upper ⟨k / 2, by omega⟩

theorem entry_interleave_lowerOf {β : Type} (lower upper : Fin n → β) (i : Fin n) :
    Vec.entry (interleave lower upper) (lowerOf i) = lower i := by
  simp [interleave, lowerOf]

theorem entry_interleave_upperOf {β : Type} (lower upper : Fin n → β) (i : Fin n) :
    Vec.entry (interleave lower upper) (upperOf i) = upper i := by
  have hhalf : (2 * i.val + 1) / 2 = i.val := by omega
  simp [interleave, upperOf, hhalf]

theorem interleave_succ {β : Type} (lower upper : Fin (n + 1) → β) :
    interleave lower upper =
      ((interleave (fun i => lower i.castSucc) (fun i => upper i.castSucc)).push
        (lower (Fin.last n))).push (upper (Fin.last n)) := by
  apply Vector.ext
  intro k hk
  rw [Vector.getElem_push, interleave, Vector.getElem_ofFn]
  by_cases hlast : k = 2 * n + 1
  · subst hlast
    have hodd : ¬ (2 * n + 1) % 2 = 0 := by omega
    have hhalf : (2 * n + 1) / 2 = n := by omega
    simp [hhalf, Fin.last]
  · rw [dif_pos (by omega), Vector.getElem_push]
    by_cases hlast : k = 2 * n
    · subst hlast
      simp [Fin.last]
    · rw [dif_pos (by omega), interleave, Vector.getElem_ofFn]
      rfl

/-- Two more answers come last. -/
theorem entry_push_push_last {β : Type} (answers : Vector β (2 * n)) (below above : β) :
    Vec.entry ((answers.push below).push above) (lowerOf (Fin.last n)) = below ∧
      Vec.entry ((answers.push below).push above) (upperOf (Fin.last n)) = above := by
  constructor
  · exact (Vector.getElem_push_lt (Nat.lt_succ_self (2 * n))).trans Vector.getElem_push_eq
  · exact Vector.getElem_push_eq

/-- The answers before them stay where they are. -/
theorem entry_push_push_castSucc {β : Type} (answers : Vector β (2 * n)) (below above : β)
    (i : Fin n) :
    Vec.entry ((answers.push below).push above) (lowerOf i.castSucc) =
      Vec.entry answers (lowerOf i) ∧
      Vec.entry ((answers.push below).push above) (upperOf i.castSucc) =
        Vec.entry answers (upperOf i) := by
  have hupper : 2 * i.val + 1 < 2 * n := by omega
  have hlower : 2 * i.val < 2 * n := Nat.lt_of_succ_lt hupper
  constructor
  · exact (Vector.getElem_push_lt (Nat.lt_succ_of_lt hlower)).trans (Vector.getElem_push_lt hlower)
  · exact (Vector.getElem_push_lt (Nat.lt_succ_of_lt hupper)).trans (Vector.getElem_push_lt hupper)

end Points

/-! ## The order of the evaluations -/

section Order

variable {β σ : Type} {n : Nat} {M : Type → Type} [Monad M] [LawfulMonad M]

theorem mapM_push {P : Type} (f : P → M β) (points : Vector P n) (p : P) :
    (points.push p).mapM f = (do
      let answers ← points.mapM f
      let answer ← f p
      pure (answers.push answer)) := by
  apply Vector.map_toArray_inj.mp
  rw [Vector.toArray_mapM, Vector.toArray_push, ← Array.append_singleton, Array.mapM_append,
    ← Vector.toArray_mapM, bind_map_left]
  simp

/-- A loop on states that stand for others. -/
theorem foldlM_represented {τ : Type} (represent : σ → τ) {step : τ → Fin n → M τ}
    {step' : σ → Fin n → M σ}
    (hstep : ∀ s i, step (represent s) i = represent <$> step' s i) (s : σ) :
    Fin.foldlM n step (represent s) = represent <$> Fin.foldlM n step' s := by
  induction n generalizing s with
  | zero => simp [Fin.foldlM_zero]
  | succ n ih =>
      have hbefore : Fin.foldlM n (fun t i => step t i.castSucc) (represent s) =
          represent <$> Fin.foldlM n (fun s i => step' s i.castSucc) s :=
          ih (fun s i => hstep s i.castSucc) s
      simp only [Fin.foldlM_succ_last, hbefore, bind_map_left, hstep, map_bind]

/-- A loop that makes two evaluations for each index makes all of them in turn, and then what it
makes of the answers. -/
theorem foldlM_two_evaluations {P : Type} (f : P → M β) (lower upper : Fin n → P)
    (put : σ → Fin n → β → β → σ) (s : σ) :
    Fin.foldlM n (fun s i => do
        let below ← f (lower i)
        let above ← f (upper i)
        pure (put s i below above)) s = (do
      let answers ← (interleave lower upper).mapM f
      pure (Fin.foldl n (fun s i => put s i (Vec.entry answers (lowerOf i))
        (Vec.entry answers (upperOf i))) s)) := by
  induction n generalizing s with
  | zero =>
      have hnone : interleave lower upper = #v[] := by
        apply Vector.ext
        intro k hk
        omega
      rw [Fin.foldlM_zero, hnone, Vector.mapM_mk_empty, pure_bind]
      rfl
  | succ n ih =>
      rw [Fin.foldlM_succ_last, interleave_succ, mapM_push, mapM_push]
      simp only [ih, bind_assoc, pure_bind, Fin.foldl_succ_last]
      simp only [entry_push_push_last, entry_push_push_castSucc]

end Order

/-! ## What a loop of central differences does -/

section Loop

variable {α : Type} {m n : Nat}

/-- All columns are replaced in the end, so nothing is left of the matrix. -/
theorem foldl_setColumn (columns : Fin n → Vec α m) (j : Mat α m n) :
    Fin.foldl n (fun j i => j.setColumn i (columns i)) j =
      Mat.ofFn fun r i => (columns i).entry r := by
  have hentries : ∀ (is : List (Fin n)) (j : Mat α m n) (r : Fin m) (k : Fin n),
      (is.foldl (fun j i => j.setColumn i (columns i)) j).entry r k =
        if k ∈ is then (columns k).entry r else j.entry r k := by
    intro is
    induction is with
    | nil => simp
    | cons i rest ih =>
        intro j r k
        rw [List.foldl_cons, ih, Mat.setColumn, Mat.entry_ofFn]
        by_cases hk : k = i
        · subst hk
          simp
        · simp [hk]
  apply Mat.ext_entry
  intro r k
  rw [Fin.foldl_eq_foldl_finRange, hentries, if_pos (List.mem_finRange k), Mat.entry_ofFn]

section Quotients

variable [OfNat α 2] [Sub α] [Mul α] [Div α]

/-- The matrix of difference quotients, from the answers in order. -/
def differenceQuotients (h : α) (answers : Vector (Vec α m) (2 * n)) : Mat α m n :=
  Mat.ofFn fun r i => (Vec.entry (Vec.entry answers (upperOf i)) r -
    Vec.entry (Vec.entry answers (lowerOf i)) r) / (2 * h)

/-- The column of quotients of two answers. -/
def quotientColumn (h : α) (below above : Vec α m) : Vec α m :=
  Vector.zipWith (fun a b => (a - b) / (2 * h)) above below

theorem entry_quotientColumn (h : α) (below above : Vec α m) (r : Fin m) :
    (quotientColumn h below above).entry r = (above.entry r - below.entry r) / (2 * h) := by
  simp [quotientColumn, Vec.entry]

end Quotients

variable [OfNat α 2] [Add α] [Sub α] [Mul α] [Div α] {M : Type → Type} [Monad M]

/-- The points at which a function is evaluated, in order. -/
def differencePoints (x : Vec α n) (h : α) : Vector (Vec α n) (2 * n) :=
  interleave (fun i => replaceAt x i (x.entry i - h)) fun i => replaceAt x i (x.entry i + h)

/-- Filling a column evaluates the function twice and leaves the point where it was. -/
theorem fillColumn_eq (f : Vec α n → M (Vec α m)) (x : Vec α n) (h : α) (j : Mat α m n)
    (i : Fin n) :
    Differences.fillColumn f h ⟨x, j⟩ i = (do
      let below ← f (replaceAt x i (x.entry i - h))
      let above ← f (replaceAt x i (x.entry i + h))
      pure ⟨x, j.setColumn i (quotientColumn h below above)⟩) := by
  unfold Differences.fillColumn
  simp only [replaceAt_replaceAt, replaceAt_entry]
  rfl

/-- Filling a matrix evaluates the function at the difference points one after the other.  The point
is the same afterwards, and the matrix holds the difference quotients, whatever it held before. -/
theorem fill_eq [LawfulMonad M] (f : Vec α n → M (Vec α m)) (x : Vec α n) (h : α) (j : Mat α m n) :
    Differences.fill f h ⟨x, j⟩ = (do
      let answers ← (differencePoints x h).mapM f
      pure ⟨x, differenceQuotients h answers⟩) := by
  have hmatrix : ∀ answers : Vector (Vec α m) (2 * n),
      Fin.foldl n (fun j i => j.setColumn i
        (quotientColumn h (Vec.entry answers (lowerOf i)) (Vec.entry answers (upperOf i)))) j =
          differenceQuotients h answers := by
    intro answers
    rw [foldl_setColumn]
    simp only [entry_quotientColumn]
    rfl
  calc Differences.fill f h ⟨x, j⟩
      = Differences.mk x <$> Fin.foldlM n (fun j i => do
          let below ← f (replaceAt x i (x.entry i - h))
          let above ← f (replaceAt x i (x.entry i + h))
          pure (j.setColumn i (quotientColumn h below above))) j := by
        refine foldlM_represented (Differences.mk x) (fun j i => ?_) j
        simp [fillColumn_eq]
    _ = Differences.mk x <$> (do
          let answers ← (differencePoints x h).mapM f
          pure (differenceQuotients h answers)) := by
        have hrun := foldlM_two_evaluations f (fun i => replaceAt x i (x.entry i - h))
          (fun i => replaceAt x i (x.entry i + h))
          (fun (j : Mat α m n) i below above => j.setColumn i (quotientColumn h below above)) j
        simp only [hmatrix] at hrun
        exact congrArg _ hrun
    _ = _ := by simp

end Loop

/-! ## Polynomials -/

section Exact

variable {K : Type} [Field K] {m n : Nat}

/-- On a polynomial of degree two at most, the central difference quotient is the derivative. -/
theorem differenceQuotient_eq_derivative {p : Polynomial K} (hp : p.natDegree ≤ 2)
    (htwo : (2 : K) ≠ 0) {h : K} (hh : h ≠ 0)
    (a : K) : (p.eval (a + h) - p.eval (a - h)) / (2 * h) = p.derivative.eval a := by
  have hdegree : p.degree ≤ 2 := Polynomial.natDegree_le_iff_degree_le.mp hp
  have hquadratic := Polynomial.eq_quadratic_of_degree_le_two hdegree
  rw [div_eq_iff (mul_ne_zero htwo hh), hquadratic]
  simp only [Polynomial.eval_add, Polynomial.eval_mul, Polynomial.eval_pow, Polynomial.eval_C,
    Polynomial.eval_X, Polynomial.derivative_add, Polynomial.derivative_C_mul,
    Polynomial.derivative_X_pow, Polynomial.derivative_X, Polynomial.derivative_C,
    Polynomial.eval_one, Polynomial.eval_zero]
  push_cast
  ring

/-- A polynomial as one in a single unknown, where the others have the values of a point. -/
noncomputable def alongUnknown (x : Fin n → K) (i : Fin n) :
    MvPolynomial (Fin n) K →ₐ[K] Polynomial K :=
  MvPolynomial.aeval (Function.update (fun k => Polynomial.C (x k)) i Polynomial.X)

theorem alongUnknown_X_self (x : Fin n → K) (i : Fin n) :
    alongUnknown x i (MvPolynomial.X i) = Polynomial.X := by
  simp [alongUnknown]

theorem alongUnknown_X_of_ne (x : Fin n → K) {i k : Fin n} (hk : k ≠ i) :
    alongUnknown x i (MvPolynomial.X k) = Polynomial.C (x k) := by
  simp [alongUnknown, hk]

theorem eval_alongUnknown (x : Fin n → K) (i : Fin n) (t : K) (p : MvPolynomial (Fin n) K) :
    (alongUnknown x i p).eval t = MvPolynomial.eval (Function.update x i t) p := by
  induction p using MvPolynomial.induction_on with
  | C a => simp [alongUnknown]
  | add p q hp hq => simp only [map_add, Polynomial.eval_add, hp, hq]
  | mul_X p k hp =>
      by_cases hk : k = i
      · subst hk
        simp [alongUnknown_X_self, hp]
      · simp [alongUnknown_X_of_ne x hk, hp, hk]

theorem derivative_alongUnknown (x : Fin n → K) (i : Fin n) (p : MvPolynomial (Fin n) K) :
    (alongUnknown x i p).derivative = alongUnknown x i (MvPolynomial.pderiv i p) := by
  induction p using MvPolynomial.induction_on with
  | C a => simp [alongUnknown]
  | add p q hp hq => simp only [map_add, hp, hq]
  | mul_X p k hp =>
      by_cases hk : k = i
      · subst hk
        rw [map_mul, alongUnknown_X_self, Polynomial.derivative_mul, hp, Polynomial.derivative_X,
          MvPolynomial.pderiv_mul, MvPolynomial.pderiv_X_self, map_add, map_mul,
          alongUnknown_X_self, mul_one, mul_one]
      · rw [map_mul, alongUnknown_X_of_ne x hk, Polynomial.derivative_mul, hp,
          Polynomial.derivative_C, MvPolynomial.pderiv_mul, MvPolynomial.pderiv_X_of_ne hk, map_add,
          map_mul, alongUnknown_X_of_ne x hk, mul_zero, mul_zero, map_zero]

theorem natDegree_alongUnknown_le (x : Fin n → K) (i : Fin n) (p : MvPolynomial (Fin n) K) :
    (alongUnknown x i p).natDegree ≤ p.degreeOf i := by
  -- term by term: only the powers of the unknown count
  have hpower : ∀ (exponents : Fin n →₀ ℕ) (k : Fin n),
      ((Function.update (fun k => Polynomial.C (x k)) i Polynomial.X k) ^ exponents k).natDegree ≤
        if k = i then exponents i else 0 := by
    intro exponents k
    by_cases hk : k = i
    · subst hk
      simp
    · rw [Function.update_of_ne hk, ← Polynomial.C_pow, Polynomial.natDegree_C]
      exact Nat.zero_le _
  rw [alongUnknown, MvPolynomial.aeval_def, MvPolynomial.eval₂_eq]
  refine Polynomial.natDegree_sum_le_of_forall_le _ _ fun exponents hexponents => ?_
  calc _ ≤ (∏ k ∈ exponents.support,
      Function.update (fun k => Polynomial.C (x k)) i Polynomial.X k ^ exponents k).natDegree :=
        Polynomial.natDegree_C_mul_le _ _
    _ ≤ ∑ k ∈ exponents.support, if k = i then exponents i else 0 :=
        (Polynomial.natDegree_prod_le _ _).trans (Finset.sum_le_sum fun k _ => hpower exponents k)
    _ ≤ exponents i := by
        rw [Finset.sum_ite_eq']
        split
        · exact le_refl _
        · exact Nat.zero_le _
    _ ≤ p.degreeOf i := MvPolynomial.monomial_le_degreeOf i hexponents

/-- A computation that always answers with given values answers a list of questions with the list of
values. -/
theorem mapM_of_answers {P β : Type} {M : Type → Type} [Monad M] [LawfulMonad M]
    {f : P → M β} {g : P → β} (hf : ∀ p, f p = (fun _ => g p) <$> f p) (points : Vector P n) :
    points.mapM f = (fun _ => points.map g) <$> points.mapM f := by
  induction n with
  | zero =>
      have hempty : points = #v[] := Vector.eq_empty
      rw [hempty, Vector.mapM_mk_empty]
      simp
  | succ n ih =>
      obtain ⟨before, p, rfl⟩ : ∃ (before : Vector P n) (p : P), points = before.push p :=
        Vector.exists_push
      rw [mapM_push, ih before, hf p]
      simp

variable {M : Type → Type} [Monad M] [LawfulMonad M]

/-- If each answer is, in each unknown, a polynomial of degree two at most, the matrix is filled
with the derivatives. -/
theorem fill_eq_derivatives {f : Vec K n → M (Vec K m)} {g : Vec K n → Vec K m}
    (hf : ∀ y, f y = (fun _ => g y) <$> f y)
    (htwo : (2 : K) ≠ 0) {h : K} (hh : h ≠ 0) {x : Vec K n} {line : Fin m → Fin n → Polynomial K}
    (hdegree : ∀ r i, (line r i).natDegree ≤ 2)
    (hline : ∀ r i t, (g (replaceAt x i t)).entry r = (line r i).eval t)
    (j : Mat K m n) :
    Differences.fill f h ⟨x, j⟩ =
      (fun _ => ⟨x, Mat.ofFn fun r i => (line r i).derivative.eval (x.entry i)⟩) <$>
        (differencePoints x h).mapM f := by
  have hquotients : differenceQuotients h ((differencePoints x h).map g) =
      Mat.ofFn fun r i => (line r i).derivative.eval (x.entry i) := by
    apply Mat.ext_entry
    intro r i
    have hlower : Vec.entry ((differencePoints x h).map g) (lowerOf i) =
        g (replaceAt x i (x.entry i - h)) := by
      rw [← entry_interleave_lowerOf (fun i => replaceAt x i (x.entry i - h))
        (fun i => replaceAt x i (x.entry i + h)) i]
      exact Vector.getElem_map _ _
    have hupper : Vec.entry ((differencePoints x h).map g) (upperOf i) =
        g (replaceAt x i (x.entry i + h)) := by
      rw [← entry_interleave_upperOf (fun i => replaceAt x i (x.entry i - h))
        (fun i => replaceAt x i (x.entry i + h)) i]
      exact Vector.getElem_map _ _
    rw [differenceQuotients, Mat.entry_ofFn, Mat.entry_ofFn, hlower, hupper, hline, hline]
    exact differenceQuotient_eq_derivative (hdegree r i) htwo hh _
  rw [fill_eq, mapM_of_answers hf]
  simp [hquotients]

end Exact

/-- Central differences evaluate a function at `2 n` points one after the other: the point moved
down and then up in its first unknown, then in its second, and so on.  They leave the point as it
was and overwrite the matrix, whatever the function does besides answering.  In exact arithmetic, in
characteristic other than two, they give the partial derivatives of functions that are polynomials
of degree two at most in each unknown. -/
theorem central_differences_restore_and_differentiate {M : Type → Type} [Monad M]
    [LawfulMonad M] {m n : ℕ} :
    (∀ {α : Type} [OfNat α 2] [Add α] [Sub α] [Mul α] [Div α] (f : Vec α n → M (Vec α m))
        (x : Vec α n) (h : α) (j : Mat α m n), Differences.fill f h ⟨x, j⟩ = (do
          let answers ← (differencePoints x h).mapM f
          pure ⟨x, differenceQuotients h answers⟩) ∧
        ∀ i k : Fin n,
          Vec.entry (Vec.entry (differencePoints x h) ⟨2 * i, by omega⟩) k =
              (if k = i then x.entry i - h else x.entry k) ∧
            Vec.entry (Vec.entry (differencePoints x h) ⟨2 * i + 1, by omega⟩) k =
              if k = i then x.entry i + h else x.entry k) ∧
    ∀ {K : Type} [Field K] (f : Vec K n → M (Vec K m)) (g : Vec K n → Vec K m) (x : Vec K n) (h : K)
        (j : Mat K m n), (∀ y, f y = (fun _ => g y) <$> f y) → ringChar K ≠ 2 → h ≠ 0 →
        (∀ line : Fin m → Fin n → Polynomial K, (∀ r i, (line r i).natDegree ≤ 2) →
          (∀ r i t, (g (replaceAt x i t)).entry r = (line r i).eval t) →
            Differences.fill f h ⟨x, j⟩ =
              (fun _ => ⟨x, Mat.ofFn fun r i => (line r i).derivative.eval (x.entry i)⟩) <$>
                (differencePoints x h).mapM f) ∧
          ∀ p : Fin m → MvPolynomial (Fin n) K, (∀ r i, (p r).degreeOf i ≤ 2) →
            (∀ y r, (g y).entry r = (p r).eval y.entry) →
              Differences.fill f h ⟨x, j⟩ =
                (fun _ => ⟨x, Mat.ofFn fun r i => ((p r).pderiv i).eval x.entry⟩) <$>
                  (differencePoints x h).mapM f := by
  refine ⟨fun f x h j => ⟨fill_eq f x h j, fun i k => ⟨?_, ?_⟩⟩,
    fun f g x h j hf hchar hh => ⟨?_, ?_⟩⟩
  · rw [← entry_replaceAt]
    exact congrArg (Vec.entry · k) (entry_interleave_lowerOf _ _ i)
  · rw [← entry_replaceAt]
    exact congrArg (Vec.entry · k) (entry_interleave_upperOf _ _ i)
  · intro line hdegree hline
    exact fill_eq_derivatives hf (Ring.two_ne_zero hchar) hh hdegree hline j
  · intro p hdegree hp
    -- along each unknown the polynomials are polynomials in one unknown
    have hline : ∀ r i t,
        (g (replaceAt x i t)).entry r = (alongUnknown x.entry i (p r)).eval t := by
      intro r i t
      rw [hp, eval_alongUnknown, entry_replaceAt_eq_update]
    have hderivative : ∀ r i, (alongUnknown x.entry i (p r)).derivative.eval (x.entry i) =
        ((p r).pderiv i).eval x.entry := by
      intro r i
      rw [derivative_alongUnknown, eval_alongUnknown, Function.update_eq_self]
    rw [fill_eq_derivatives hf (Ring.two_ne_zero hchar) hh
      (fun r i => (natDegree_alongUnknown_le x.entry i (p r)).trans (hdegree r i)) hline j]
    simp only [hderivative]

/-- The square of one unknown times the other one. -/
noncomputable def squareTimesOther (r : Fin 2) : MvPolynomial (Fin 2) ℚ :=
  .X r ^ 2 * .X r.rev

theorem degreeOf_squareTimesOther_le (r i : Fin 2) : (squareTimesOther r).degreeOf i ≤ 2 := by
  have hother : (if i = r then 1 else 0) + (if i = r.rev then 1 else 0) ≤ 1 := by
    revert r i
    decide
  have hproduct := MvPolynomial.degreeOf_mul_le i (.X r ^ 2 : MvPolynomial (Fin 2) ℚ) (.X r.rev)
  have hsquare := MvPolynomial.degreeOf_pow_le i (.X r : MvPolynomial (Fin 2) ℚ) 2
  rw [MvPolynomial.degreeOf_X] at hproduct hsquare
  unfold squareTimesOther
  omega

theorem eval_pderiv_squareTimesOther (y : Fin 2 → ℚ) (r i : Fin 2) :
    ((squareTimesOther r).pderiv i).eval y =
      (if r = i then 2 * y r * y r.rev else 0) + if r.rev = i then y r ^ 2 else 0 := by
  simp only [squareTimesOther, MvPolynomial.pderiv_mul, MvPolynomial.pderiv_pow,
    MvPolynomial.pderiv_X, Pi.single_apply]
  split
  · split
    · simp
    · simp
  · split
    · simp
    · simp

/-- Evaluates both products and writes down the point. -/
noncomputable def evaluateNoting (y : Vec ℚ 2) : StateM (List (Vec ℚ 2)) (Vec ℚ 2) :=
  fun visited => (Vector.ofFn fun r => (squareTimesOther r).eval y.entry, visited ++ [y])

/-- The derivatives of `x² y` and `y² x` at `(1, 2)`, in place of a matrix that held something
else. -/
theorem central_differences_restore_and_differentiate_noting :
    Differences.fill evaluateNoting (1 / 2) ⟨#v[1, 2], #v[#v[7, 7], #v[7, 7]]⟩ =
      (fun _ => ⟨#v[1, 2], #v[#v[4, 1], #v[4, 4]]⟩) <$>
        (differencePoints #v[1, 2] (1 / 2)).mapM evaluateNoting := by
  have hchar : ringChar ℚ ≠ 2 := by
    rw [ringChar.eq_zero]
    decide
  have hdifferences :=
    (central_differences_restore_and_differentiate (M := StateM (List (Vec ℚ 2)))).2
      evaluateNoting (fun y => Vector.ofFn fun r => (squareTimesOther r).eval y.entry)
      #v[1, 2] (1 / 2) #v[#v[7, 7], #v[7, 7]] (fun _ => rfl) hchar (by norm_num)
  have hvalues := hdifferences.2 squareTimesOther degreeOf_squareTimesOther_le
    fun y r => Vec.entry_ofFn _ r
  rw [hvalues]
  congr 1
  funext _
  congr 1
  apply Mat.ext_entry
  intro r i
  rw [Mat.entry_ofFn]
  rw [eval_pderiv_squareTimesOther]
  revert r i
  decide +kernel

end Constitutive.Numeric
