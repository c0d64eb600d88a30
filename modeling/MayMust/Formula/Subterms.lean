import MayMust.Formula.Syntax

/-!
# All terms inside a formula

A condition on single terms, carried to every term inside a term, a memory expression or a
formula, at any depth: also below `boolToInt`, and in the memory below a `select`. Two conditions
that agree above terms that have the first (`AgreeAbove`) agree as conditions on all terms
(`Term.allTerms_congr`), so such a condition is changed one step at a time.
-/

namespace MayMust

mutual

/-- The condition holds of every term inside the memory expression. -/
def Memory.AllTerms (P : Term → Prop) : Memory → Prop
  | .var _ => True
  | .store memory index value => memory.AllTerms P ∧ index.AllTerms P ∧ value.AllTerms P
termination_by structural m => m

/-- The condition holds of the term and of every term inside it. -/
def Term.AllTerms (P : Term → Prop) : Term → Prop
  | .var v => P (.var v)
  | .int n => P (.int n)
  | .real q => P (.real q)
  | .boolToInt value => P (.boolToInt value) ∧ value.AllTerms P
  | .select memory index => P (.select memory index) ∧ memory.AllTerms P ∧ index.AllTerms P
  | .add lhs rhs => P (.add lhs rhs) ∧ lhs.AllTerms P ∧ rhs.AllTerms P
  | .sub lhs rhs => P (.sub lhs rhs) ∧ lhs.AllTerms P ∧ rhs.AllTerms P
  | .mul lhs rhs => P (.mul lhs rhs) ∧ lhs.AllTerms P ∧ rhs.AllTerms P
  | .div lhs rhs => P (.div lhs rhs) ∧ lhs.AllTerms P ∧ rhs.AllTerms P
  | .rem lhs rhs => P (.rem lhs rhs) ∧ lhs.AllTerms P ∧ rhs.AllTerms P
  | .neg inner => P (.neg inner) ∧ inner.AllTerms P
termination_by structural t => t

/-- The condition holds of every term inside the formula. -/
def Formula.AllTerms (P : Term → Prop) : Formula → Prop
  | .tru | .fls | .var _ => True
  | .not inner => inner.AllTerms P
  | .and items | .or items => Formula.AllTermsList P items
  | .implies lhs rhs => lhs.AllTerms P ∧ rhs.AllTerms P
  | .eq lhs rhs | .lt lhs rhs | .le lhs rhs | .gt lhs rhs | .ge lhs rhs =>
    lhs.AllTerms P ∧ rhs.AllTerms P
  | .memoryEq lhs rhs => lhs.AllTerms P ∧ rhs.AllTerms P
termination_by structural f => f

/-- The condition holds of every term inside a list of formulas. -/
def Formula.AllTermsList (P : Term → Prop) : List Formula → Prop
  | [] => True
  | item :: rest => item.AllTerms P ∧ Formula.AllTermsList P rest
termination_by structural items => items

end

/-- The terms an operator computes with: the index of a `select`, not its memory. -/
def Term.arguments : Term → List Term
  | .var _ | .int _ | .real _ | .boolToInt _ => []
  | .select _ index => [index]
  | .add lhs rhs | .sub lhs rhs | .mul lhs rhs | .div lhs rhs | .rem lhs rhs => [lhs, rhs]
  | .neg inner => [inner]

/-- The two conditions agree on every term all of whose arguments have the first, at any depth. -/
def AgreeAbove (P Q : Term → Prop) : Prop :=
  ∀ t : Term, (∀ u ∈ t.arguments, u.AllTerms P) → (P t ↔ Q t)

/-- A condition on all terms inside a term holds of the term itself. -/
theorem Term.AllTerms.self {P : Term → Prop} {t : Term} (h : t.AllTerms P) : P t := by
  cases t <;> rw [Term.AllTerms] at h
  all_goals first | exact h | exact h.1

/-- A condition on all terms inside a term is one on all terms inside its arguments. -/
theorem Term.AllTerms.arguments {P : Term → Prop} {t u : Term} (h : t.AllTerms P)
    (hu : u ∈ t.arguments) : u.AllTerms P := by
  cases t <;> rw [Term.AllTerms] at h <;> simp only [Term.arguments, List.mem_cons,
    List.not_mem_nil, or_false] at hu
  case select => exact hu ▸ h.2.2
  case neg => exact hu ▸ h.2
  all_goals
    rcases hu with rfl | rfl
    · exact h.2.1
    · exact h.2.2

section Congr

variable {P Q : Term → Prop}

mutual

theorem Memory.allTerms_congr (h : AgreeAbove P Q) : ∀ m : Memory, m.AllTerms P ↔ m.AllTerms Q
  | .var _ => by rw [Memory.AllTerms, Memory.AllTerms]
  | .store m i v => by
    rw [Memory.AllTerms, Memory.AllTerms, Memory.allTerms_congr h m, Term.allTerms_congr h i,
      Term.allTerms_congr h v]

/-- Conditions that agree on a term whose arguments have the first. -/
theorem Term.allTerms_congr (h : AgreeAbove P Q) : ∀ t : Term, t.AllTerms P ↔ t.AllTerms Q
  | .var v => h (.var v) (by simp [Term.arguments])
  | .int n => h (.int n) (by simp [Term.arguments])
  | .real q => h (.real q) (by simp [Term.arguments])
  | .boolToInt φ => by
    rw [Term.AllTerms, Term.AllTerms, Formula.allTerms_congr h φ,
      h (.boolToInt φ) (by simp [Term.arguments])]
  | .select m i => by
    rw [Term.AllTerms, Term.AllTerms, ← Memory.allTerms_congr h m, ← Term.allTerms_congr h i]
    refine and_congr_left fun hall ↦ h _ ?_
    simpa [Term.arguments] using hall.2
  | .add l r | .sub l r | .mul l r | .div l r | .rem l r => by
    rw [Term.AllTerms, Term.AllTerms, ← Term.allTerms_congr h l, ← Term.allTerms_congr h r]
    refine and_congr_left fun hall ↦ h _ ?_
    simpa [Term.arguments] using hall
  | .neg t => by
    rw [Term.AllTerms, Term.AllTerms, ← Term.allTerms_congr h t]
    refine and_congr_left fun hall ↦ h _ ?_
    simpa [Term.arguments] using hall

theorem Formula.allTerms_congr (h : AgreeAbove P Q) : ∀ φ : Formula, φ.AllTerms P ↔ φ.AllTerms Q
  | .tru | .fls | .var _ => by rw [Formula.AllTerms, Formula.AllTerms]
  | .not φ => by rw [Formula.AllTerms, Formula.AllTerms, Formula.allTerms_congr h φ]
  | .and items | .or items => by
    rw [Formula.AllTerms, Formula.AllTerms, Formula.allTermsList_congr h items]
  | .implies φ ψ => by
    rw [Formula.AllTerms, Formula.AllTerms, Formula.allTerms_congr h φ, Formula.allTerms_congr h ψ]
  | .eq l r | .lt l r | .le l r | .gt l r | .ge l r => by
    rw [Formula.AllTerms, Formula.AllTerms, Term.allTerms_congr h l, Term.allTerms_congr h r]
  | .memoryEq m m' => by
    rw [Formula.AllTerms, Formula.AllTerms, Memory.allTerms_congr h m, Memory.allTerms_congr h m']

theorem Formula.allTermsList_congr (h : AgreeAbove P Q) : ∀ items : List Formula,
    Formula.AllTermsList P items ↔ Formula.AllTermsList Q items
  | [] => by rw [Formula.AllTermsList, Formula.AllTermsList]
  | φ :: rest => by
    rw [Formula.AllTermsList, Formula.AllTermsList, Formula.allTerms_congr h φ,
      Formula.allTermsList_congr h rest]

end

end Congr

end MayMust
