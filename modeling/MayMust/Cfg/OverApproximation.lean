import MayMust.Cfg.WeakestPrecondition
import MayMust.Formula.Separation

/-!
# When the backward transformer over-approximates predecessors

A violating post-state must never be lost: if an effect list can take `s` to `s'` and `s'`
satisfies a formula, `s` has to satisfy the formula `TransferFn::wp` computes. The transformer
treats unresolved loads and stores, pointer-to-integer conversions and calls as doing nothing,
and its Boolean substitution does not enter terms. The statement therefore holds of a run that
is *quiet*: the same post-state is reached when the ignored effects do nothing, and a predicate
assignment to a variable that a later term reads changes nothing.

For lists without `HavocRegions` and without predicate assignments this condition is exact:
the transformer over-approximates for every postcondition if and only if there is a quiet run.
-/

namespace MayMust

open Library

/-- Terms of the postcondition or of a later effect read the variable. -/
def LaterTermReads (es : List TransferEffect) (φ : Formula) (v : Var) : Prop :=
  φ.ReadsInTerm v ∨ ∃ e ∈ es, e.ReadsInTerm v

/-- A run in which the ignored effects do nothing, and in which a predicate assignment to a
variable that is read below a term later on changes nothing. -/
def QuietRun (φ : Formula) : List TransferEffect → State → State → Prop
  | [], s, s' => s = s'
  | e :: es, s, s' => ∃ m, e.Quiet (LaterTermReads es φ) s m ∧ QuietRun φ es m s'

/-- The effect assigns a Boolean variable by a predicate. -/
def TransferEffect.AssignsPredicate : TransferEffect → Prop
  | .assign _ (.predicate _) => True
  | _ => False

variable {sem : Semantics} {e : TransferEffect} {es : List TransferEffect} {s s' : State}
  {φ : Formula}

theorem QuietRun.holds_wp (hrun : QuietRun φ es s s') (h : φ.Holds s') :
    (TransferFn.wp ⟨es⟩ φ).Holds s := by
  induction es generalizing s with
  | nil => exact hrun ▸ h
  | cons e es ih =>
    obtain ⟨m, hquiet, hrun⟩ := hrun
    rw [TransferFn.wp_cons]
    exact holds_wpOne_of_quiet hquiet
      (termReads_wp (fun v hv ↦ Or.inl hv) fun e he v hv ↦ Or.inr ⟨e, he, hv⟩) (ih hrun)

/-- The sort of a term's value does not depend on the state. -/
theorem Term.sort_eval_congr (s s' : State) (t : Term) : (t.eval s).sort = (t.eval s').sort := by
  cases t with
  | var | int | real | boolToInt | select => simp [Term.eval]
  | add lhs rhs | sub lhs rhs | mul lhs rhs | div lhs rhs | rem lhs rhs =>
    have hl := Term.sort_eval_congr s s' lhs
    have hr := Term.sort_eval_congr s s' rhs
    simp only [Term.eval]
    cases h₁ : lhs.eval s <;> cases h₂ : lhs.eval s' <;> cases h₃ : rhs.eval s <;>
      cases h₄ : rhs.eval s' <;> simp_all [Value.arith]
  | neg inner =>
    have h := Term.sort_eval_congr s s' inner
    simp only [Term.eval]
    cases h₁ : inner.eval s <;> cases h₂ : inner.eval s' <;> simp_all [Value.neg]

theorem TransferEffect.SortedIn.congr (s' : State) (h : e.SortedIn s) : e.SortedIn s' := by
  cases e with
  | assign target value =>
    cases value with
    | term value => exact ⟨(Term.sort_eval_congr s' s value).trans h.1, h.2⟩
    | predicate value => exact h
  | _ => trivial

/-- The replay of an enabled effect is a quiet step. -/
theorem TransferEffect.quiet_replay {K : Var → Prop} (hh : ¬ e.Havocs) (hp : ¬ e.AssignsPredicate)
    (hsort : e.SortedIn s) (hen : e.Enabled s) : e.Quiet K s (e.replay s) := by
  cases e with
  | assign target value =>
    cases value with
    | term value => exact ⟨trivial, Or.inr ⟨hsort.1, hsort.2, rfl⟩⟩
    | predicate value => exact absurd trivial hp
  | load | ptrToInt | store | call | indirectCall => exact ⟨rfl, Or.inl trivial⟩
  | assume condition => exact ⟨trivial, Or.inr ⟨hen, rfl⟩⟩
  | obligation condition => exact ⟨trivial, Or.inr ⟨hen, rfl⟩⟩
  | typeBound condition => exact ⟨trivial, Or.inr ⟨False.elim, rfl⟩⟩
  | havocRegions regions => exact absurd trivial hh
  | _ => exact ⟨trivial, Or.inr rfl⟩

theorem TransferEffect.sameUndefined_replay (e : TransferEffect) (s : State) :
    s.SameUndefined (e.replay s) := by
  cases e with
  | assign target value => cases value <;> simp [TransferEffect.replay]
  | memoryStore region offset value => simp [TransferEffect.replay]
  | _ => exact .refl s

/-- If the transformer loses the post-state for no postcondition, the effects reach it quietly. -/
theorem quietPath_of_forall_holds_wp (hu : s.SameUndefined s')
    (hh : ∀ e ∈ es, ¬ e.Havocs) (hp : ∀ e ∈ es, ¬ e.AssignsPredicate)
    (hsort : ∀ e ∈ es, ∀ s, e.SortedIn s)
    (h : ∀ φ : Formula, φ.Holds s' → (TransferFn.wp ⟨es⟩ φ).Holds s) :
    Path (TransferEffect.Quiet fun _ ↦ True) es s s' := by
  induction es generalizing s with
  | nil => exact State.eq_of_holds_imp hu h
  | cons e es ih =>
    rw [List.forall_mem_cons] at hh hp hsort
    have hplain (φ : Formula) : e.PlainFor φ := by
      rintro b p rfl
      exact absurd trivial hp.1
    have hiff (φ : Formula) := holds_wpOne_iff (φ := TransferFn.wp ⟨es⟩ φ) hh.1 (hsort.1 s)
      (hplain _)
    simp only [TransferFn.wp_cons, hiff] at h
    have hen : e.Enabled s := (h .tru (Formula.holds_tru s')).1
    exact ⟨e.replay s, e.quiet_replay hh.1 hp.1 (hsort.1 s) hen,
      ih ((e.sameUndefined_replay s).symm.trans hu) hh.2 hp.2 hsort.2 fun φ hφ ↦ (h φ hφ).2⟩

theorem Effects.Run.sortedIn (hrun : Effects.Run sem es s s') :
    ∀ e ∈ es, ∀ t, e.SortedIn t := by
  induction es generalizing s with
  | nil => simp
  | cons e es ih =>
    obtain ⟨m, hstep, hrun⟩ := hrun
    rw [List.forall_mem_cons]
    exact ⟨fun t ↦ hstep.sortedIn.congr t, ih hrun⟩

theorem quietRun_of_quietPath (h : Path (TransferEffect.Quiet fun _ ↦ True) es s s') :
    QuietRun φ es s s' := by
  induction es generalizing s with
  | nil => exact h
  | cons e es ih =>
    obtain ⟨m, hquiet, h⟩ := h
    exact ⟨m, ⟨hquiet.1.mono fun _ _ ↦ trivial, hquiet.2⟩, ih h⟩

/-- If a predicate assignment is over-approximated for every postcondition, it changes nothing. -/
theorem eq_of_forall_holds_wpOne_predicate {b : Var} {p : Formula}
    (hstep : TransferEffect.Step sem (.assign b (.predicate p)) s s')
    (h : ∀ φ : Formula, φ.Holds s' → (wpOne (.assign b (.predicate p)) φ).Holds s) : s' = s := by
  obtain ⟨hsort, hs'⟩ := hstep
  have hval : s'.lookup b = .bool (p.eval s) := by
    rw [hs']; exact State.lookup_set_self (by simp [hsort])
  -- The Boolean pass does not enter the coercion, so the postcondition is read in `s`.
  let φ : Formula := .eq (.boolToInt (.var b)) (.int (if p.eval s then 1 else 0))
  have hφ : φ.Holds s' := by
    cases hp : p.eval s <;>
      simp [φ, Formula.Holds, Formula.eval, Term.eval, hval, hp, Value.compare]
  have hs := h φ hφ
  have hb : s.lookup b = .bool (p.eval s) := by
    obtain ⟨name, sort⟩ := b
    obtain rfl : sort = .bool := hsort
    cases hp : p.eval s <;> cases hb : s.scalars.bools name <;>
      simp_all [φ, wpOne, substituteBoolVarInFormula, Formula.Holds, Formula.eval, Term.eval,
        Value.compare, State.lookup]
  rw [hs', ← hb, State.set_lookup_self]

/-- **The transformer over-approximates exactly for quiet runs.** A quiet run never loses a
post-state. Conversely, when no postcondition is lost over a list of effects without havocs and
predicate assignments, the post-state is reached quietly; and a single predicate assignment loses
no postcondition exactly when it changes nothing. -/
theorem wp_overApproximates_iff_quietRun (sem : Semantics) :
    (∀ es φ s s', QuietRun φ es s s' → φ.Holds s' → (TransferFn.wp ⟨es⟩ φ).Holds s) ∧
      (∀ es s s', (∀ e ∈ es, ¬ e.Havocs ∧ ¬ e.AssignsPredicate) → Effects.Run sem es s s' →
        ((∀ φ : Formula, φ.Holds s' → (TransferFn.wp ⟨es⟩ φ).Holds s) ↔
          ∀ φ, QuietRun φ es s s')) ∧
      ∀ b p s s', TransferEffect.Step sem (.assign b (.predicate p)) s s' →
        ((∀ φ : Formula, φ.Holds s' → (wpOne (.assign b (.predicate p)) φ).Holds s) ↔ s' = s) := by
  refine ⟨fun es φ s s' hrun h ↦ hrun.holds_wp h, fun es s s' hes hrun ↦ ⟨fun h φ ↦ ?_, ?_⟩,
    fun b p s s' hstep ↦ ⟨eq_of_forall_holds_wpOne_predicate hstep, ?_⟩⟩
  · exact quietRun_of_quietPath <| quietPath_of_forall_holds_wp hrun.sameUndefined
      (fun e he ↦ (hes e he).1) (fun e he ↦ (hes e he).2) hrun.sortedIn h
  · exact fun h φ hφ ↦ (h φ).holds_wp hφ
  · intro hs φ hφ
    exact holds_wpOne_of_quiet (K := fun _ ↦ True) (hstep.quiet fun _ ↦ hs) (fun _ _ ↦ trivial) hφ

/-- The general statement at a call followed by an assignment. -/
theorem wp_overApproximates_quiet_call :
    (TransferFn.wp ⟨[.call "f" .havocMemory, .assign (.int "x") (.term (.int 1))]⟩
      (.eq (.var (.int "x")) (.int 1))).Holds .zero := by
  refine (wp_overApproximates_iff_quietRun .unknownCallees).1 _ _ _
    (State.zero.set (.int "x") (.int 1)) ⟨.zero, ⟨rfl, Or.inl trivial⟩, _,
      ⟨trivial, Or.inr ⟨rfl, by decide, rfl⟩⟩, rfl⟩ ?_
  simp [Formula.Holds, Formula.eval, Term.eval, Value.compare, State.lookup, State.set, Var.int]

/-- A call that havocs memory may write a cell the postcondition reads, and the transformer
keeps the postcondition as it is. -/
theorem not_wp_overApproximates :
    ¬ ∀ (es : List TransferEffect) (φ : Formula) (s s' : State),
      Effects.Run .unknownCallees es s s' → φ.Holds s' → (TransferFn.wp ⟨es⟩ φ).Holds s := by
  intro h
  have hwp := h [.call "f" .havocMemory] (.eq (.select (.var "R") (.int 0)) (.int 1)) .zero
    (State.zero.setRegion "R" fun _ ↦ 1)
    (Path.singleton_iff.2 ⟨trivial, rfl, by simp⟩)
    (by simp [Formula.Holds, Formula.eval, Term.eval, Memory.eval, Value.compare])
  simp [wpOne, Formula.Holds, Formula.eval, Term.eval, Memory.eval, Value.compare, State.zero]
    at hwp

end MayMust
