import MayMust.Formula.Semantics

/-!
# The solver boundary

The solver is code outside the repository. An `Oracle` is what it answers to each query; the
policy of the source about what to ask (validate first, refute the counterexample of an
implication) is modelled as it is.

Two properties of a solver are what results assume: that a formula reported infeasible has no
model (`Oracle.InfeasibleSound`) and that a formula reported feasible has one
(`Oracle.FeasibleSound`). They say nothing of queries that fail or stay unknown.
-/

namespace MayMust

/-- Whether a formula has a satisfying assignment. -/
inductive Feasibility
  | feasible
  | infeasible
  | unknown
  deriving DecidableEq, Repr

/-- Whether an implication is universally valid. -/
inductive Validity
  | valid
  | invalid
  | unknown
  deriving DecidableEq, Repr

/-- A concrete value of a solver model. -/
inductive ModelValue
  | int (value : Int64)
  | bool (value : Bool)
  | real (value : Rational)
  | arrayDefault (value : ModelValue)
  deriving DecidableEq

/-- A satisfying assignment, kept for diagnostics. -/
structure SmtModel where
  scalar : List (Var × ModelValue)
  memory : List (String × ModelValue)
  deriving DecidableEq

/-- The result of a feasibility query. -/
structure FeasibilityReport where
  feasibility : Feasibility
  model : Option SmtModel
  deriving DecidableEq

/-- A query fails when the formula is ill sorted. -/
inductive OracleError
  | formula (error : FormulaError)
  deriving DecidableEq

/-- The answers of the solver to formulas that have been validated. -/
structure Oracle where
  solve : Formula → Except FormulaError FeasibilityReport

namespace Oracle

variable (oracle : Oracle)

/-- `Oracle::feasibility_with_model`. -/
def feasibilityWithModel (formula : Formula) : Except OracleError FeasibilityReport :=
  match formula.validate with
  | .error e => .error (.formula e)
  | .ok () =>
    match oracle.solve formula with
    | .error e => .error (.formula e)
    | .ok report => .ok report

/-- `Oracle::feasibility`. -/
def feasibility (formula : Formula) : Except OracleError Feasibility := do
  let report ← oracle.feasibilityWithModel formula
  return report.feasibility

/-- `Oracle::implies_with_model`. -/
def impliesWithModel (assumptions conclusion : Formula) :
    Except OracleError (Validity × Option SmtModel) := do
  let report ← oracle.feasibilityWithModel (Formula.mkAnd assumptions (.not conclusion))
  let validity :=
    match report.feasibility with
    | .infeasible => Validity.valid
    | .feasible => Validity.invalid
    | .unknown => Validity.unknown
  return (validity, report.model)

/-- `Oracle::implies`. -/
def implies (assumptions conclusion : Formula) : Except OracleError Validity := do
  let (validity, _) ← oracle.impliesWithModel assumptions conclusion
  return validity

/-- `Oracle::is_contradiction`. -/
def isContradiction (formula : Formula) : Except OracleError Bool := do
  let feasibility ← oracle.feasibility formula
  return feasibility = .infeasible

/-- A formula reported infeasible has no model. -/
def InfeasibleSound : Prop :=
  ∀ φ report, oracle.feasibilityWithModel φ = .ok report → report.feasibility = .infeasible →
    ∀ s, ¬ φ.Holds s

/-- A formula reported feasible has a model. -/
def FeasibleSound : Prop :=
  ∀ φ report, oracle.feasibilityWithModel φ = .ok report → report.feasibility = .feasible →
    ∃ s, φ.Holds s

variable {oracle}

/-- A solver that knows some unsatisfiable and some satisfiable formulas and leaves every other
query open. -/
def knowing (refuted satisfied : List Formula) : Oracle where
  solve φ := .ok ⟨if φ ∈ refuted then .infeasible else if φ ∈ satisfied then .feasible else
    .unknown,
    none⟩

theorem not_holds_of_feasibility (h : oracle.InfeasibleSound) {φ : Formula}
    (hφ : oracle.feasibility φ = .ok .infeasible) (s : State) : ¬ φ.Holds s := by
  rw [feasibility] at hφ
  cases hr : oracle.feasibilityWithModel φ with
  | error e => simp [hr, bind, Except.bind] at hφ
  | ok report =>
    refine h φ report hr ?_ s
    simpa [hr, bind, Except.bind, pure, Except.pure] using hφ

theorem holds_of_implies (h : oracle.InfeasibleSound) {φ ψ : Formula}
    (hφ : oracle.implies φ ψ = .ok .valid) {s : State} (hs : φ.Holds s) : ψ.Holds s := by
  unfold implies impliesWithModel at hφ
  cases hr : oracle.feasibilityWithModel (Formula.mkAnd φ (.not ψ)) with
  | error e => simp [hr, bind, Except.bind] at hφ
  | ok report =>
    have hinf : report.feasibility = .infeasible := by
      cases hf : report.feasibility <;>
        simp_all [bind, Except.bind, pure, Except.pure]
    by_contra hψ
    exact h _ report hr hinf s (by simp [hs, hψ])

theorem knowing_eq_ok {refuted satisfied : List Formula} {φ : Formula} {report : FeasibilityReport}
    (h : (knowing refuted satisfied).feasibilityWithModel φ = .ok report) :
    report.feasibility =
      if φ ∈ refuted then .infeasible else if φ ∈ satisfied then .feasible else .unknown := by
  unfold feasibilityWithModel knowing at h
  split at h
  · simp at h
  · rw [← Except.ok.inj h]

theorem infeasibleSound_knowing {refuted satisfied : List Formula}
    (h : ∀ φ ∈ refuted, ∀ s, ¬ φ.Holds s) : (knowing refuted satisfied).InfeasibleSound := by
  intro φ report hreport hinfeasible
  rw [knowing_eq_ok hreport] at hinfeasible
  by_cases hφ : φ ∈ refuted
  · exact h φ hφ
  · rw [if_neg hφ] at hinfeasible
    split at hinfeasible <;> exact absurd hinfeasible (by decide)

theorem feasibleSound_knowing {refuted satisfied : List Formula}
    (h : ∀ φ ∈ satisfied, ∃ s, φ.Holds s) : (knowing refuted satisfied).FeasibleSound := by
  intro φ report hreport hfeasible
  rw [knowing_eq_ok hreport] at hfeasible
  by_cases hφ : φ ∈ refuted
  · rw [if_pos hφ] at hfeasible
    exact absurd hfeasible (by decide)
  · rw [if_neg hφ] at hfeasible
    by_cases hφ' : φ ∈ satisfied
    · exact h φ hφ'
    · rw [if_neg hφ'] at hfeasible
      exact absurd hfeasible (by decide)

end Oracle

end MayMust
