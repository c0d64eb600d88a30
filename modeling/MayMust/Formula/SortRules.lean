import MayMust.Formula.WellSorted

/-!
# The sort rules

`Term::sort`, `Formula::validate` and `validate_memory` are checkers: they compute a sort or an
error. Here are the rules they decide, as predicates on syntax (`Term.HasSort`,
`Formula.WellFormed`, `Memory.WellFormed`), and that they decide just these
(`Term.sort_eq_ok_iff`, `Formula.validated_iff_wellFormed`, `Memory.validate_eq_ok_iff`).

The rules say nothing of the memory below a `select`, and every operator, the remainder too,
takes reals: these are the checkers' own rules.
-/

namespace MayMust

open Library

mutual

/-- The sort rules of terms. -/
def Term.HasSort : Term → VarSort → Prop
  | .var v, σ => v.sort = σ
  | .int _, σ => VarSort.int = σ
  | .real _, σ => VarSort.real = σ
  | .boolToInt value, σ => value.WellFormed ∧ VarSort.int = σ
  | .select _ index, σ => index.HasSort .int ∧ VarSort.int = σ
  | .add lhs rhs, σ | .sub lhs rhs, σ | .mul lhs rhs, σ | .div lhs rhs, σ | .rem lhs rhs, σ =>
    lhs.HasSort σ ∧ rhs.HasSort σ ∧ σ ≠ .bool
  | .neg inner, σ => inner.HasSort σ ∧ σ ≠ .bool
termination_by structural t => t

/-- The sort rules of formulas: an atom is Boolean, and both sides of a comparison are numbers of
one sort. -/
def Formula.WellFormed : Formula → Prop
  | .tru | .fls => True
  | .var v => v.sort = .bool
  | .not inner => inner.WellFormed
  | .and items | .or items => Formula.WellFormedList items
  | .implies lhs rhs => lhs.WellFormed ∧ rhs.WellFormed
  | .eq lhs rhs | .lt lhs rhs | .le lhs rhs | .gt lhs rhs | .ge lhs rhs =>
    ∃ σ, lhs.HasSort σ ∧ rhs.HasSort σ ∧ σ ≠ .bool
  | .memoryEq lhs rhs => lhs.WellFormed ∧ rhs.WellFormed
termination_by structural f => f

/-- `Formula.WellFormed` on all formulas of a list. -/
def Formula.WellFormedList : List Formula → Prop
  | [] => True
  | item :: rest => item.WellFormed ∧ Formula.WellFormedList rest
termination_by structural items => items

/-- The sort rules of memory expressions: indices and values are integers. -/
def Memory.WellFormed : Memory → Prop
  | .var _ => True
  | .store inner index value => inner.WellFormed ∧ index.HasSort .int ∧ value.HasSort .int
termination_by structural m => m

end

/-! ### The checkers decide the rules -/

theorem numericOperands_eq_ok_iff {lhs rhs : Except FormulaError VarSort} {σ : VarSort} :
    numericOperands lhs rhs = .ok σ ↔ lhs = .ok σ ∧ rhs = .ok σ ∧ σ ≠ .bool := by
  constructor
  · exact numericOperands_eq_ok
  · rintro ⟨rfl, rfl, hσ⟩
    simp [numericOperands, hσ]

mutual

/-- `Term::sort` decides the sort rules. -/
theorem Term.sort_eq_ok_iff : ∀ (t : Term) {σ : VarSort}, t.sort = .ok σ ↔ t.HasSort σ
  | .var v, σ | .int n, σ | .real q, σ => by simp [Term.sort, Term.HasSort]
  | .boolToInt φ, σ => by
    rw [Term.sort, Term.HasSort, bind_eq_ok, ← Formula.validated_iff_wellFormed φ]
    simp only [pure_eq_ok, exists_and_right, exists_unit_eq_ok, Formula.Validated]
  | .select m i, σ => by
    rw [Term.sort, Term.HasSort, bind_eq_ok, ← Term.sort_eq_ok_iff i]
    constructor
    · rintro ⟨τ, hτ, h⟩
      split_ifs at h with hint
      · exact ⟨by rw [hτ, not_not.1 hint], pure_eq_ok.1 h⟩
    · rintro ⟨hi, rfl⟩
      exact ⟨.int, hi, by simp⟩
  | .add l r, σ | .sub l r, σ | .mul l r, σ | .div l r, σ | .rem l r, σ => by
    rw [Term.sort, Term.HasSort, numericOperands_eq_ok_iff, Term.sort_eq_ok_iff l,
      Term.sort_eq_ok_iff r]
  | .neg t, σ => by
    rw [Term.sort, Term.HasSort, bind_eq_ok, ← Term.sort_eq_ok_iff t]
    constructor
    · rintro ⟨τ, hτ, h⟩
      split_ifs at h with hbool
      · obtain rfl := pure_eq_ok.1 h
        exact ⟨hτ, hbool⟩
    · rintro ⟨ht, hσ⟩
      exact ⟨σ, ht, by simp [hσ]⟩

/-- `Formula::validate` decides the sort rules. -/
theorem Formula.validated_iff_wellFormed : ∀ φ : Formula, φ.Validated ↔ φ.WellFormed
  | .tru | .fls => by simp [Formula.Validated, Formula.validate, Formula.WellFormed]
  | .var v => by
    rw [Formula.Validated, Formula.validate, Formula.WellFormed]
    split_ifs with h <;> simp_all
  | .not φ => by
    rw [hereditary_validated.not_iff, Formula.WellFormed, Formula.validated_iff_wellFormed φ]
  | .and items => by
    rw [hereditary_validated.and_iff, Formula.WellFormed]
    exact Formula.validatedList_iff_wellFormedList items
  | .or items => by
    rw [hereditary_validated.or_iff, Formula.WellFormed]
    exact Formula.validatedList_iff_wellFormedList items
  | .implies φ ψ => by
    rw [hereditary_validated.implies_iff, Formula.WellFormed, Formula.validated_iff_wellFormed φ,
      Formula.validated_iff_wellFormed ψ]
  | .eq l r | .lt l r | .le l r | .gt l r | .ge l r => by
    rw [Formula.Validated, Formula.validate, Formula.WellFormed, bind_eq_ok]
    simp only [numericOperands_eq_ok_iff, Term.sort_eq_ok_iff l, Term.sort_eq_ok_iff r,
      pure_eq_ok, and_true]
  | .memoryEq m m' => by
    rw [Formula.Validated, Formula.validate, Formula.WellFormed, ← Memory.validate_eq_ok_iff m,
      ← Memory.validate_eq_ok_iff m']
    simp [exists_unit_eq_ok]

/-- The loop of `Formula::validate` decides the sort rules on a list. -/
theorem Formula.validatedList_iff_wellFormedList : ∀ items : List Formula,
    (∀ φ ∈ items, φ.Validated) ↔ Formula.WellFormedList items
  | [] => by simp [Formula.WellFormedList]
  | φ :: rest => by
    rw [List.forall_mem_cons, Formula.WellFormedList, Formula.validated_iff_wellFormed φ,
      Formula.validatedList_iff_wellFormedList rest]

/-- `validate_memory` decides the sort rules. -/
theorem Memory.validate_eq_ok_iff : ∀ m : Memory, m.validate = .ok () ↔ m.WellFormed
  | .var _ => by simp [Memory.validate, Memory.WellFormed]
  | .store m i v => by
    rw [Memory.validate, Memory.WellFormed, ← Memory.validate_eq_ok_iff m,
      ← Term.sort_eq_ok_iff i, ← Term.sort_eq_ok_iff v]
    simp only [bind_eq_ok]
    constructor
    · rintro ⟨⟨⟩, hm, σ, hσ, τ, hτ, h⟩
      split_ifs at h with hi hv
      exact ⟨hm, by rw [hσ, not_not.1 hi], by rw [hτ, not_not.1 hv]⟩
    · rintro ⟨hm, hi, hv⟩
      exact ⟨(), hm, .int, hi, .int, hv, by simp⟩

end

/-- A term has one sort. -/
theorem Term.HasSort.unique {t : Term} {σ τ : VarSort} (hσ : t.HasSort σ) (hτ : t.HasSort τ) :
    σ = τ := by
  have h := ((Term.sort_eq_ok_iff t).2 hσ).symm.trans ((Term.sort_eq_ok_iff t).2 hτ)
  exact Except.ok.inj h

end MayMust
