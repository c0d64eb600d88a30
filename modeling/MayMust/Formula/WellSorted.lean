import MayMust.Formula.Substitution
import MayMust.Library.Fallible

/-!
# Well-sorted formulas

`Formula::validate` passes from a formula to its children and back, so the simplifying constructors
keep it. Conversely, what a simplified conjunction was built from is well sorted, unless the
conjunction collapsed to `false`: simplification drops units and duplicates only. A term the sort
checker gives a sort evaluates to a value of that sort (`Term.sort_eval`).
-/

namespace MayMust

open Library

/-- The sort checker accepts the formula. -/
def Formula.Validated (φ : Formula) : Prop := φ.validate = .ok ()

theorem exists_unit_eq_ok {x : Except FormulaError Unit} : (∃ u, x = .ok u) ↔ x = .ok () :=
  ⟨fun ⟨_, h⟩ ↦ h, fun h ↦ ⟨(), h⟩⟩

theorem Formula.validateList_eq_ok {items : List Formula} :
    Formula.validateList items = .ok () ↔ ∀ φ ∈ items, φ.Validated := by
  induction items with
  | nil => simp [Formula.validateList]
  | cons item rest ih => simp [Formula.validateList, Formula.Validated, ih, exists_unit_eq_ok]

theorem hereditary_validated : Hereditary Formula.Validated where
  tru := by simp [Formula.Validated, Formula.validate]
  fls := by simp [Formula.Validated, Formula.validate]
  not_iff φ := by simp [Formula.Validated, Formula.validate]
  and_iff items := by
    rw [Formula.Validated, Formula.validate]
    exact Formula.validateList_eq_ok
  or_iff items := by
    rw [Formula.Validated, Formula.validate]
    exact Formula.validateList_eq_ok
  implies_iff φ ψ := by simp [Formula.Validated, Formula.validate, exists_unit_eq_ok]

namespace Hereditary

variable {P : Formula → Prop} (hP : Hereditary P)
include hP

/-- What the loop of `simplify` keeps has the property only if all it was given has it. -/
theorem of_flatten (c : Connective) {items flat out : List Formula}
    (h : c.flatten flat items = some out) (hout : ∀ φ ∈ out, P φ) :
    (∀ φ ∈ items, P φ) ∧ ∀ φ ∈ flat, P φ := by
  induction items generalizing flat with
  | nil =>
    rw [Connective.flatten, Option.some.injEq] at h
    exact ⟨by simp, h ▸ hout⟩
  | cons item rest ih =>
    rw [Connective.flatten] at h
    split_ifs at h with hunit habs
    · obtain ⟨hrest, hflat⟩ := ih h
      exact ⟨List.forall_mem_cons.2 ⟨hunit ▸ hP.unit c, hrest⟩, hflat⟩
    split at h
    · rename_i inner hinner
      obtain ⟨hrest, hflat⟩ := ih h
      have hnode : item = c.node inner := by
        cases c <;> cases item <;> simp_all [Connective.children?, Connective.node]
      refine ⟨List.forall_mem_cons.2 ⟨hnode ▸ (hP.node_iff c inner).2 fun φ hφ ↦ ?_, hrest⟩,
        fun φ hφ ↦ hflat φ (Connective.mem_foldl_pushNew.2 (Or.inl hφ))⟩
      exact hflat φ (Connective.mem_foldl_pushNew.2 (Or.inr hφ))
    · obtain ⟨hrest, hflat⟩ := ih h
      exact ⟨List.forall_mem_cons.2 ⟨hflat item (Connective.mem_pushNew.2 (Or.inr rfl)), hrest⟩,
        fun φ hφ ↦ hflat φ (Connective.mem_pushNew.2 (Or.inl hφ))⟩

theorem of_simplify (c : Connective) {items : List Formula} (h : P (c.simplify items))
    (habs : c.simplify items ≠ c.absorber) : ∀ φ ∈ items, P φ := by
  unfold Connective.simplify at h habs
  split at h
  · simp_all
  · rename_i hflat
    exact (hP.of_flatten c hflat (by simp)).1
  · rename_i φ hflat
    exact (hP.of_flatten c hflat (by simpa using h)).1
  · rename_i out _ _ hflat
    exact (hP.of_flatten c hflat ((hP.node_iff c out).1 h)).1

/-- The parts of a conjunction that holds somewhere. -/
theorem of_mkAnd {φ ψ : Formula} {s : State} (h : P (Formula.mkAnd φ ψ))
    (hs : (Formula.mkAnd φ ψ).Holds s) : P φ ∧ P ψ := by
  have habs : Formula.mkAnd φ ψ ≠ .fls := fun heq ↦ Formula.not_holds_fls s (heq ▸ hs)
  have hall := hP.of_simplify .conj h habs
  exact ⟨hall φ (by simp), hall ψ (by simp)⟩

end Hereditary

/-! ### The sort checker is sound -/

/-- Two operands the sort checker accepts have one numeric sort. -/
theorem numericOperands_eq_ok {lhs rhs : Except FormulaError VarSort} {σ : VarSort}
    (h : numericOperands lhs rhs = .ok σ) : lhs = .ok σ ∧ rhs = .ok σ ∧ σ ≠ .bool := by
  obtain ⟨l, hl, r, hr, h⟩ : ∃ l, lhs = .ok l ∧ ∃ r, rhs = .ok r ∧
      (if l ≠ r then throw (.mixedSorts l r)
        else if l = .bool then throw (.expectedNumericSort .bool) else return l) =
        (.ok σ : Except FormulaError VarSort) := by
    simpa only [numericOperands, bind_eq_ok] using h
  split_ifs at h with hlr hbool
  · obtain rfl : l = σ := pure_eq_ok.1 h
    exact ⟨hl, by rw [hr, not_not.1 hlr], hbool⟩

theorem Value.sort_arith {f : ℤ → ℤ → ℤ} {g : ℝ → ℝ → ℝ} {a b : Value} {σ : VarSort}
    (ha : a.sort = σ) (hb : b.sort = σ) (hσ : σ ≠ .bool) : (Value.arith f g a b).sort = σ := by
  subst ha
  cases a <;> cases b <;> simp_all [Value.arith]

/-- A term the sort checker gives a sort evaluates to a value of that sort. -/
theorem Term.sort_eval (s : State) : ∀ (t : Term) {σ : VarSort}, t.sort = .ok σ →
    (t.eval s).sort = σ
  | .var v, σ, h => by
    obtain rfl : v.sort = σ := by simpa [Term.sort] using h
    simp [Term.eval]
  | .int n, σ, h => by
    obtain rfl : VarSort.int = σ := by simpa [Term.sort] using h
    simp [Term.eval]
  | .real q, σ, h => by
    obtain rfl : VarSort.real = σ := by simpa [Term.sort] using h
    simp [Term.eval]
  | .boolToInt φ, σ, h => by
    rw [Term.sort] at h
    obtain ⟨-, -, h⟩ := bind_eq_ok.1 h
    rw [Term.eval, ← pure_eq_ok.1 h, Value.sort_int]
  | .select m i, σ, h => by
    rw [Term.sort] at h
    obtain ⟨τ, -, h⟩ := bind_eq_ok.1 h
    split_ifs at h
    · rw [Term.eval, ← pure_eq_ok.1 h, Value.sort_int]
  | .add l r, σ, h | .sub l r, σ, h | .mul l r, σ, h | .div l r, σ, h | .rem l r, σ, h => by
    rw [Term.sort] at h
    obtain ⟨hl, hr, hσ⟩ := numericOperands_eq_ok h
    rw [Term.eval]
    exact Value.sort_arith (Term.sort_eval s l hl) (Term.sort_eval s r hr) hσ
  | .neg t, σ, h => by
    rw [Term.sort] at h
    obtain ⟨τ, ht, h⟩ := bind_eq_ok.1 h
    split_ifs at h with hτ
    · obtain rfl : τ = σ := pure_eq_ok.1 h
      have hsort := Term.sort_eval s t ht
      rw [Term.eval]
      cases hv : t.eval s <;> simp_all [Value.neg]

/-! ### Models -/

/-- A formula the sort checker accepts and a state that satisfies it: what a solver's model is. -/
structure Formula.Modelled (φ : Formula) (s : State) : Prop where
  validated : φ.Validated
  holds : φ.Holds s

theorem Formula.Modelled.of_mkAnd {φ ψ : Formula} {s : State} (h : (Formula.mkAnd φ ψ).Modelled s) :
    φ.Modelled s ∧ ψ.Modelled s := by
  obtain ⟨hφ, hψ⟩ := hereditary_validated.of_mkAnd h.validated h.holds
  obtain ⟨hsφ, hsψ⟩ := (Formula.holds_mkAnd _ _).1 h.holds
  exact ⟨⟨hφ, hsφ⟩, hψ, hsψ⟩

/-- A variable that the sort checker accepts as a side of an equivalence is Boolean. -/
theorem Formula.Modelled.sort_of_mkIff_var {v : Var} {φ : Formula} {s : State}
    (h : (Formula.mkIff (.var v) φ).Modelled s) : v.sort = .bool := by
  obtain ⟨hforward, hbackward⟩ := Formula.Modelled.of_mkAnd h
  have hvar : (Formula.var v).Validated → v.sort = .bool := fun hv ↦ by
    by_contra hne
    simp [Formula.Validated, Formula.validate, hne] at hv
  -- `v → φ` keeps `v`, unless `φ` is `true` and `φ → v` is `v`.
  by_cases hφ : φ = .tru
  · subst hφ
    exact hvar (by simpa [Formula.mkImplies] using hbackward.validated)
  · refine hvar ((hereditary_validated.implies_iff (.var v) φ).1 ?_).1
    simpa [Formula.mkImplies, hφ] using hforward.validated

end MayMust
