import MayMust.Cfg.WeakestPrecondition
import MayMust.Formula.Positions
import MayMust.Formula.WellSorted

/-!
# Where the backward transformer is exact

For the effects the transformer does not abstract, `TransferFn::wp` is the weakest precondition
proper: a state satisfies it exactly when the effects run from that state to their end and the
final state satisfies the postcondition. The effects are the ones a block without calls consists
of after memory resolution: term assignments to integer and real variables, resolved stores,
assumes, obligations and no-ops.

Predicate assignments are not among them. For these the transformer replaces the atoms of the
postcondition and leaves its terms alone, so it computes the postcondition read in two states: atoms
after the assignment, terms before it (`holds_wpOne_predicate_iff`).

Well-sortedness is the one of the sort checker. It enters through `Term.sort_eval`: a term the
checker gives a sort evaluates to a value of that sort, in every state.
-/

namespace MayMust

open Library

/-! ### Exact effects -/

/-- A well-sorted effect whose meaning the transformer computes exactly: a term assignment to an
integer or real variable, a resolved store, an assume, an obligation or a no-op. -/
inductive TransferEffect.Exact : TransferEffect → Prop
  | assign {target : Var} {value : Term} (hsort : value.sort = .ok target.sort)
      (hnumeric : target.sort = .int ∨ target.sort = .real) : Exact (.assign target (.term value))
  | memoryStore {region : String} {offset value : Term} (hoffset : offset.sort = .ok .int)
      (hvalue : value.sort = .ok .int) : Exact (.memoryStore region offset value)
  | assume {condition : Formula} (hcondition : condition.validate = .ok ()) :
      Exact (.assume condition)
  | obligation {condition : Formula} (hcondition : condition.validate = .ok ()) :
      Exact (.obligation condition)
  | nop : Exact .nop

namespace TransferEffect.Exact

variable {sem : Semantics} {e : TransferEffect} {s s' : State} {φ : Formula}

theorem sortedIn (h : e.Exact) (s : State) : e.SortedIn s := by
  cases h with
  | assign hsort hnumeric =>
    refine ⟨Term.sort_eval s _ hsort, ?_⟩
    rcases hnumeric with hint | hreal
    · simp [hint]
    · simp [hreal]
  | _ => trivial

theorem not_havocs (h : e.Exact) : ¬ e.Havocs := by
  cases h <;> exact id

theorem plainFor (h : e.Exact) (φ : Formula) : e.PlainFor φ := by
  rintro b p rfl
  cases h

/-- An exact effect is deterministic: it steps exactly where it is enabled, to its replay. -/
theorem step_iff (h : e.Exact) : e.Step sem s s' ↔ e.Enabled s ∧ s' = e.replay s := by
  have hsorted := h.sortedIn s
  cases h with
  | assign hsort hnumeric => exact ⟨fun hstep ↦ ⟨trivial, hstep.2.2⟩,
      fun hstep ↦ ⟨hsorted.1, hsorted.2, hstep.2⟩⟩
  | memoryStore hoffset hvalue => exact ⟨fun hstep ↦ ⟨trivial, hstep⟩, And.right⟩
  | assume hcondition => exact Iff.rfl
  | obligation hcondition => exact Iff.rfl
  | nop => exact ⟨fun hstep ↦ ⟨trivial, hstep⟩, And.right⟩

/-- One effect: the computed formula holds exactly where the effect steps into the
postcondition. -/
theorem holds_wpOne_iff_step (sem : Semantics) (h : e.Exact) :
    (wpOne e φ).Holds s ↔ ∃ s', e.Step sem s s' ∧ φ.Holds s' := by
  rw [holds_wpOne_iff h.not_havocs (h.sortedIn s) (h.plainFor φ)]
  constructor
  · rintro ⟨hen, hφ⟩
    exact ⟨e.replay s, h.step_iff.2 ⟨hen, rfl⟩, hφ⟩
  · rintro ⟨s', hstep, hφ⟩
    obtain ⟨hen, rfl⟩ := h.step_iff.1 hstep
    exact ⟨hen, hφ⟩

end TransferEffect.Exact

/-- **The transformer is exact on straight-line code.** For a list of exact effects and any
postcondition, a state satisfies the computed formula if and only if the effects run from it,
passing every assume and obligation, to a state that satisfies the postcondition. -/
theorem holds_wp_iff_exists_run {sem : Semantics} {es : List TransferEffect} {φ : Formula}
    {s : State} (hes : ∀ e ∈ es, e.Exact) :
    (TransferFn.wp ⟨es⟩ φ).Holds s ↔ ∃ s', TransferFn.Run sem ⟨es⟩ s s' ∧ φ.Holds s' := by
  induction es generalizing s with
  | nil => simp [TransferFn.Run, Effects.Run]
  | cons e es ih =>
    rw [List.forall_mem_cons] at hes
    rw [TransferFn.wp_cons, hes.1.holds_wpOne_iff_step sem]
    constructor
    · rintro ⟨m, hstep, hwp⟩
      obtain ⟨s', hrun, hφ⟩ := (ih hes.2).1 hwp
      exact ⟨s', ⟨m, hstep, hrun⟩, hφ⟩
    · rintro ⟨s', ⟨m, hstep, hrun⟩, hφ⟩
      exact ⟨m, hstep, (ih hes.2).2 ⟨s', hrun, hφ⟩⟩

/-- The general statement at a store whose value reads the region it writes, followed by an
obligation about the written cell. -/
theorem holds_wp_iff_exists_run_selfStore :
    (TransferFn.wp ⟨[.memoryStore "R" (.select (.var "R") (.int 0)) (.int 7),
        .obligation (.eq (.select (.var "R") (.int 0)) (.int 7))]⟩
      (.memoryEq (.var "R") (.var "R"))).Holds .zero ↔
    ∃ s', TransferFn.Run .unknownCallees ⟨[.memoryStore "R" (.select (.var "R") (.int 0)) (.int 7),
        .obligation (.eq (.select (.var "R") (.int 0)) (.int 7))]⟩ .zero s' ∧
      (Formula.memoryEq (.var "R") (.var "R")).Holds s' :=
  holds_wp_iff_exists_run fun _ he ↦ by
    rcases List.mem_pair.1 he with rfl | rfl
    · exact .memoryStore (by decide) (by decide)
    · exact .obligation (by decide)

/-! ### Predicate assignments -/

/-- **When the transformer is right about a predicate assignment.** In a state it computes the
postcondition after the assignment if and only if it makes no difference to the postcondition there
that its terms are read before the assignment. If no term of the postcondition reads the variable,
that is so in every state, and the variable survives only if the predicate mentions it. -/
theorem holds_wpOne_predicate_iff (b : String) (ψ φ : Formula) :
    (∀ s : State, ((wpOne (.assign (.bool b) (.predicate ψ)) φ).Holds s ↔
        φ.Holds (s.set (.bool b) (.bool (ψ.eval s)))) ↔
      (φ.HoldsSplit (s.set (.bool b) (.bool (ψ.eval s))) s ↔
        φ.Holds (s.set (.bool b) (.bool (ψ.eval s))))) ∧
    (¬ φ.ReadsInTerm (.bool b) →
      (∀ s : State, (wpOne (.assign (.bool b) (.predicate ψ)) φ).Holds s ↔
        φ.Holds (s.set (.bool b) (.bool (ψ.eval s)))) ∧
      ((wpOne (.assign (.bool b) (.predicate ψ)) φ).Mentions (.bool b) →
        ψ.Mentions (.bool b))) := by
  refine ⟨fun s ↦ ?_, fun hφ ↦ ⟨fun s ↦ ?_, Formula.mentions_of_mentions_substituteBoolVar hφ⟩⟩
  · have hsplit : (wpOne (.assign (.bool b) (.predicate ψ)) φ).Holds s ↔
        φ.HoldsSplit (s.set (.bool b) (.bool (ψ.eval s))) s := by
      rw [wpOne, Formula.Holds, Formula.HoldsSplit, ← Formula.evalSplit_self,
        Formula.evalSplit_substituteBoolVarInFormula rfl, Formula.evalSplit_self]
    rw [hsplit]
  · rw [wpOne, Formula.Holds, Formula.Holds, eval_substituteBoolVarInFormula rfl hφ]

/-- The general statement at an atom and a comparison that does not read the variable. -/
theorem holds_wpOne_predicate_iff_atom :
    (∀ s : State, (wpOne (.assign (.bool "b") (.predicate .tru))
        (.and [.var (.bool "b"), .le (.var (.int "x")) (.int 0)])).Holds s ↔
      (Formula.and [.var (.bool "b"), .le (.var (.int "x")) (.int 0)]).Holds
        (s.set (.bool "b") (.bool (Formula.tru.eval s)))) ∧
      ((wpOne (.assign (.bool "b") (.predicate .tru))
        (.and [.var (.bool "b"), .le (.var (.int "x")) (.int 0)])).Mentions (.bool "b") →
          Formula.tru.Mentions (.bool "b")) :=
  (holds_wpOne_predicate_iff "b" .tru
    (.and [.var (.bool "b"), .le (.var (.int "x")) (.int 0)])).2 (by decide)

/-- Before `b := true` the coercion of `b` may be 0; the transformer leaves it in the formula. -/
theorem not_holds_wpOne_predicate_iff :
    ¬ ∀ (b : String) (ψ φ : Formula),
      (∀ s : State, (wpOne (.assign (.bool b) (.predicate ψ)) φ).Holds s ↔
        φ.Holds (s.set (.bool b) (.bool (ψ.eval s)))) ∧
      ((wpOne (.assign (.bool b) (.predicate ψ)) φ).Mentions (.bool b) → ψ.Mentions (.bool b)) := by
  intro h
  have hwp := ((h "b" .tru (.eq (.boolToInt (.var (.bool "b"))) (.int 1))).1 .zero).2
  have hpost : (Formula.eq (.boolToInt (.var (.bool "b"))) (.int 1)).Holds
      (State.zero.set (.bool "b") (.bool (Formula.tru.eval .zero))) := by
    simp [Formula.Holds, Formula.eval, Term.eval, Value.compare, State.set, State.lookup, Var.bool]
  have hpre := hwp hpost
  simp [wpOne, substituteBoolVarInFormula, Formula.Holds, Formula.eval, Term.eval, Value.compare,
    State.zero, State.lookup, Var.bool] at hpre

end MayMust
