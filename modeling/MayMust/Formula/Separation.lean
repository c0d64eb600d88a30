import Mathlib.Algebra.Order.Archimedean.Real.Basic
import MayMust.Formula.Semantics

/-!
# Formulas separate states

Integer literals are machine integers, but every integer and every rational is the value of
some closed term. It follows that two states on which the same formulas hold are equal, up to
the interpretation of division by zero, which no program step changes. This is what makes "for
every postcondition" statements about the backward transformer exact.
-/

namespace MayMust

theorem exists_term_eval_nat (k : ℕ) : ∃ t : Term, ∀ s, t.eval s = .int k := by
  induction k with
  | zero => exact ⟨.int 0, fun s ↦ by simp [Term.eval]⟩
  | succ k ih =>
    obtain ⟨t, ht⟩ := ih
    exact ⟨.add t (.int 1), fun s ↦ by simp [Term.eval, ht, Value.arith]⟩

/-- Every integer is the value of a closed term. -/
theorem exists_term_eval_int (n : ℤ) : ∃ t : Term, ∀ s, t.eval s = .int n := by
  obtain ⟨k, rfl | rfl⟩ := Int.eq_nat_or_neg n
  · exact exists_term_eval_nat k
  · obtain ⟨t, ht⟩ := exists_term_eval_nat k
    exact ⟨.neg t, fun s ↦ by rw [Term.eval, ht, Value.neg]⟩

theorem exists_term_eval_realNat (k : ℕ) : ∃ t : Term, ∀ s, t.eval s = .real k := by
  induction k with
  | zero => exact ⟨.real ⟨0, 1⟩, fun s ↦ by simp [Term.eval, Rational.toReal]⟩
  | succ k ih =>
    obtain ⟨t, ht⟩ := ih
    refine ⟨.add t (.real ⟨1, 1⟩), fun s ↦ ?_⟩
    simp [Term.eval, ht, Value.arith, Rational.toReal]

theorem exists_term_eval_realInt (n : ℤ) : ∃ t : Term, ∀ s, t.eval s = .real n := by
  obtain ⟨k, rfl | rfl⟩ := Int.eq_nat_or_neg n
  · simpa using exists_term_eval_realNat k
  · obtain ⟨t, ht⟩ := exists_term_eval_realNat k
    exact ⟨.neg t, fun s ↦ by rw [Term.eval, ht, Value.neg]; simp⟩

/-- Every rational is the value of a closed term. -/
theorem exists_term_eval_rat (q : ℚ) : ∃ t : Term, ∀ s, t.eval s = .real q := by
  obtain ⟨num, hnum⟩ := exists_term_eval_realInt q.num
  obtain ⟨den, hden⟩ := exists_term_eval_realNat q.den
  have hne : (q.den : ℝ) ≠ 0 := by exact_mod_cast q.den_ne_zero
  refine ⟨.div num den, fun s ↦ ?_⟩
  simp [Term.eval, hnum, hden, Value.arith, State.realDiv, Rat.cast_def]

variable {s s' : State}

/-- A variable has the same value in two states on which the same formulas hold. -/
theorem lookup_eq_of_holds_imp (h : ∀ φ : Formula, φ.Holds s' → φ.Holds s) (v : Var) :
    s.lookup v = s'.lookup v := by
  rcases v with ⟨name, _ | _ | _⟩
  · have hpos := h (.var ⟨name, .bool⟩)
    have hneg := h (.not (.var ⟨name, .bool⟩))
    simp only [Formula.holds_var, Formula.holds_not, State.lookup, Value.isTrue_bool] at hpos hneg
    cases hs : s.scalars.bools name <;> cases hs' : s'.scalars.bools name <;>
      simp_all [State.lookup]
  · obtain ⟨t, ht⟩ := exists_term_eval_int (s'.scalars.ints name)
    have := h (.eq (.var ⟨name, .int⟩) t)
    simpa [Formula.Holds, Formula.eval, Term.eval, ht, State.lookup, Value.compare] using this
  · by_contra hne
    simp only [State.lookup, Value.real.injEq] at hne
    rcases lt_or_gt_of_ne hne with hlt | hlt
    · obtain ⟨q, hq, hq'⟩ := exists_rat_btwn hlt
      obtain ⟨t, ht⟩ := exists_term_eval_rat q
      have := h (.lt t (.var ⟨name, .real⟩))
      simp only [Formula.Holds, Formula.eval, Term.eval, ht, State.lookup, Value.compare,
        decide_eq_true_eq] at this
      exact absurd (this hq') (not_lt.2 hq.le)
    · obtain ⟨q, hq, hq'⟩ := exists_rat_btwn hlt
      obtain ⟨t, ht⟩ := exists_term_eval_rat q
      have := h (.lt (.var ⟨name, .real⟩) t)
      simp only [Formula.Holds, Formula.eval, Term.eval, ht, State.lookup, Value.compare,
        decide_eq_true_eq] at this
      exact absurd (this hq) (not_lt.2 hq'.le)

/-- A memory cell has the same value in two states on which the same formulas hold. -/
theorem memory_eq_of_holds_imp (h : ∀ φ : Formula, φ.Holds s' → φ.Holds s) (r : String) (i : ℤ) :
    s.memory r i = s'.memory r i := by
  obtain ⟨index, hindex⟩ := exists_term_eval_int i
  obtain ⟨value, hvalue⟩ := exists_term_eval_int (s'.memory r i)
  have := h (.eq (.select (.var r) index) value)
  simpa [Formula.Holds, Formula.eval, Term.eval, Memory.eval, hindex, hvalue, Value.compare]
    using this

/-- States on which the same formulas hold are equal. -/
theorem State.eq_of_holds_imp (hu : s.SameUndefined s')
    (h : ∀ φ : Formula, φ.Holds s' → φ.Holds s) : s = s' :=
  State.ext_lookup hu (lookup_eq_of_holds_imp h) (memory_eq_of_holds_imp h)

end MayMust
