import MayMust.Formula.Semantics
import MayMust.Formula.Subterms
import MayMust.Library.MachineInt
import MayMust.Smt.ModelBindings

/-!
# Evaluation at a counterexample state

The synthesis of invariants evaluates candidates at states read off solver models: `eval_term` for
terms, `eval_atom` for comparisons. Both compute with machine integers, as does
`try_as_constant_int`, which is `eval_term` where nothing is bound
(`Term.tryAsConstantInt_eq_evalTerm`). The solver computes with unbounded integers, a quotient that
rounds for a non-negative remainder, and a remainder with the sign of the divisor.

`Term.StepFits` says when the last operation of a term comes out the same on both sides, in terms
of the numbers the solver computes with. `exactAt_iff_stepFits` is the step: an operation whose
arguments are evaluated exactly is exact just then. By `Term.allTerms_congr` it carries over to
whole terms, and so to atoms.
-/

namespace MayMust

open Library

/-! ### The evaluators -/

/-- `IceState`: the values a solver model binds, by name. -/
structure IceState where
  scalars : String → Option Int64

namespace IceState

/-- No binding. -/
def empty : IceState := ⟨fun _ ↦ none⟩

/-- Bind a name. -/
def insert (state : IceState) (name : String) (value : Int64) : IceState :=
  ⟨Function.update state.scalars name (some value)⟩

/-- One binding of a model: integers and Booleans are kept, whatever the sort of the variable. -/
def absorbBinding (state : IceState) (binding : Var × ModelValue) : IceState :=
  match binding.2 with
  | .int n => state.insert binding.1.name n
  | .bool b => state.insert binding.1.name (if b then 1 else 0)
  | _ => state

/-- `IceState::from_model`. The memory bindings of the model are ignored. -/
def fromModel (model : SmtModel) : IceState := model.scalar.foldl absorbBinding empty

end IceState

/-- `eval_term`. -/
def evalTerm (state : IceState) : Term → Option Int64
  | .var v => if v.sort = .int then state.scalars v.name else none
  | .int n => some n
  | .select memory index => do
    let k ← evalTerm state index
    match memory with
    | .var region => state.scalars (cellKey region k.toInt)
    | .store _ _ _ => none
  | .add l r => do return (← evalTerm state l) + (← evalTerm state r)
  | .sub l r => do return (← evalTerm state l) - (← evalTerm state r)
  | .mul l r => do return (← evalTerm state l) * (← evalTerm state r)
  | .div l r => do
    let d ← evalTerm state r
    if d = 0 then none else divideInt64 (← evalTerm state l) d
  | .rem l r => do
    let d ← evalTerm state r
    if d = 0 then none else remainderInt64 (← evalTerm state l) d
  | .neg inner => do return -(← evalTerm state inner)
  | .real _ | .boolToInt _ => none
termination_by structural t => t

/-- `eval_atom`. -/
def evalAtom (state : IceState) : Formula → Option Bool
  | .le l r => do return decide ((← evalTerm state l) ≤ (← evalTerm state r))
  | .lt l r => do return decide ((← evalTerm state l) < (← evalTerm state r))
  | .ge l r => do return decide ((← evalTerm state l) ≥ (← evalTerm state r))
  | .gt l r => do return decide ((← evalTerm state l) > (← evalTerm state r))
  | .eq l r => do return decide ((← evalTerm state l) = (← evalTerm state r))
  | .not inner => (evalAtom state inner).map (! ·)
  | .tru | .fls | .var _ | .and _ | .or _ | .implies _ _ | .memoryEq _ _ => none
termination_by structural f => f

/-- Constant folding is evaluation without bindings. -/
theorem Term.tryAsConstantInt_eq_evalTerm : ∀ t : Term, t.tryAsConstantInt = evalTerm .empty t
  | .int n => by simp [Term.tryAsConstantInt, evalTerm]
  | .var v => by simp [Term.tryAsConstantInt, evalTerm, IceState.empty]
  | .select m i => by
    cases m <;> cases h : evalTerm .empty i <;>
      simp [Term.tryAsConstantInt, evalTerm, IceState.empty]
  | .add l r | .sub l r | .mul l r | .div l r | .rem l r => by
    rw [Term.tryAsConstantInt, evalTerm, Term.tryAsConstantInt_eq_evalTerm l,
      Term.tryAsConstantInt_eq_evalTerm r]
  | .neg t => by rw [Term.tryAsConstantInt, evalTerm, Term.tryAsConstantInt_eq_evalTerm t]
  | .real _ | .boolToInt _ => by simp [Term.tryAsConstantInt, evalTerm]

/-! ### Against the solver -/

/-- The bindings and the solver's model agree. -/
structure IceState.Agrees (state : IceState) (s : State) : Prop where
  scalar : ∀ name n, state.scalars name = some n → s.scalars.ints name = n.toInt
  cell : ∀ region k n, state.scalars (cellKey region k) = some n → s.memory region k = n.toInt

theorem IceState.agrees_empty (s : State) : empty.Agrees s where
  scalar _ _ h := by simp [empty] at h
  cell _ _ _ h := by simp [empty] at h

/-- The number that is the solver's value of an integer term. -/
noncomputable def Term.number (s : State) (t : Term) : ℤ := (t.eval s).toInt

variable (bound : String → Prop) (s : State)

/-- An evaluator that knows the values of the bound names returns a value: all leaves are bound,
and no division panics or has a zero divisor. -/
def Term.Evaluable : Term → Prop
  | .var v => v.sort = .int ∧ bound v.name
  | .int _ => True
  | .select memory index =>
    index.Evaluable ∧ ∃ region, memory = .var region ∧ bound (cellKey region (index.number s))
  | .add l r | .sub l r | .mul l r => l.Evaluable ∧ r.Evaluable
  | .div l r | .rem l r => (l.Evaluable ∧ r.Evaluable) ∧ r.number s ≠ 0 ∧
    ¬ (l.number s = -2 ^ 63 ∧ r.number s = -1)
  | .neg inner => inner.Evaluable
  | .real _ | .boolToInt _ => False
termination_by structural t => t

/-- The last operation of a term comes out the same in machine arithmetic and in the solver: no
result leaves the machine integers, no negative dividend is rounded, and no remainder takes another
sign. -/
def Term.Fits : Term → Prop
  | .add l r => FitsInt64 (l.number s + r.number s)
  | .sub l r => FitsInt64 (l.number s - r.number s)
  | .mul l r => FitsInt64 (l.number s * r.number s)
  | .div l r => 0 ≤ l.number s ∨ r.number s ∣ l.number s
  | .rem l r => r.number s ∣ l.number s ∨ (0 ≤ l.number s ∧ 0 < r.number s) ∨
    (l.number s < 0 ∧ r.number s < 0 ∧ 2 * (l.number s % r.number s) = -r.number s)
  | .neg inner => FitsInt64 (-inner.number s)
  | .var _ | .int _ | .real _ | .boolToInt _ | .select _ _ => True

/-- The last operation of a term, if it is evaluated at all, fits. -/
def Term.StepFits (t : Term) : Prop := t.Evaluable bound s → t.Fits s

/-- If the evaluator returns a value, the solver gives the term that value. -/
def Term.ExactAt (state : IceState) (t : Term) : Prop :=
  ∀ k, evalTerm state t = some k → t.eval s = .int k.toInt

/-! ### When a value is returned -/

section Branches

variable {state : IceState} {l r : Term} {k : Int64}

theorem divideInt64_eq_some {n d : Int64} :
    divideInt64 n d = some k ↔ (d ≠ 0 ∧ ¬ (n = Int64.minValue ∧ d = -1)) ∧ n / d = k := by
  rw [divideInt64, ← not_or]
  split_ifs with h <;> simp [h]

theorem remainderInt64_eq_some {n d : Int64} :
    remainderInt64 n d = some k ↔ (d ≠ 0 ∧ ¬ (n = Int64.minValue ∧ d = -1)) ∧ n % d = k := by
  rw [remainderInt64, ← not_or]
  split_ifs with h <;> simp [h]

theorem evalTerm_select_eq_some {m : Memory} {i : Term} :
    evalTerm state (.select m i) = some k ↔
      ∃ x, evalTerm state i = some x ∧
        ∃ region, m = .var region ∧ state.scalars (cellKey region x.toInt) = some k := by
  rw [evalTerm]
  cases m <;> simp [Option.bind_eq_some_iff]

theorem evalTerm_add_eq_some :
    evalTerm state (.add l r) = some k ↔
      ∃ x y, (evalTerm state l = some x ∧ evalTerm state r = some y) ∧ x + y = k := by
  simp [evalTerm, Option.bind_eq_some_iff, and_assoc]

theorem evalTerm_sub_eq_some :
    evalTerm state (.sub l r) = some k ↔
      ∃ x y, (evalTerm state l = some x ∧ evalTerm state r = some y) ∧ x - y = k := by
  simp [evalTerm, Option.bind_eq_some_iff, and_assoc]

theorem evalTerm_mul_eq_some :
    evalTerm state (.mul l r) = some k ↔
      ∃ x y, (evalTerm state l = some x ∧ evalTerm state r = some y) ∧ x * y = k := by
  simp [evalTerm, Option.bind_eq_some_iff, and_assoc]

/-- The two guarded branches: the divisor is evaluated and tested first. -/
theorem guarded_eq_some {divide : Int64 → Int64 → Option Int64} {op : Int64 → Int64 → Int64}
    (hdivide : ∀ n d k, divide n d = some k ↔
      (d ≠ 0 ∧ ¬ (n = Int64.minValue ∧ d = -1)) ∧ op n d = k) {x y : Option Int64} :
    (do
      let d ← y
      if d = 0 then none else divide (← x) d) = some k ↔
      ∃ n d, (x = some n ∧ y = some d) ∧ (d ≠ 0 ∧ ¬ (n = Int64.minValue ∧ d = -1)) ∧ op n d = k := by
  cases y with
  | none => simp
  | some d =>
    by_cases hd : d = 0
    · simp [hd]
    · simp [hd, Option.bind_eq_some_iff, hdivide]

theorem evalTerm_div_eq_some :
    evalTerm state (.div l r) = some k ↔
      ∃ x y, (evalTerm state l = some x ∧ evalTerm state r = some y) ∧
        (y ≠ 0 ∧ ¬ (x = Int64.minValue ∧ y = -1)) ∧ x / y = k := by
  rw [evalTerm]
  exact guarded_eq_some fun _ _ _ ↦ divideInt64_eq_some

theorem evalTerm_rem_eq_some :
    evalTerm state (.rem l r) = some k ↔
      ∃ x y, (evalTerm state l = some x ∧ evalTerm state r = some y) ∧
        (y ≠ 0 ∧ ¬ (x = Int64.minValue ∧ y = -1)) ∧ x % y = k := by
  rw [evalTerm]
  exact guarded_eq_some fun _ _ _ ↦ remainderInt64_eq_some

theorem evalTerm_neg_eq_some :
    evalTerm state (.neg l) = some k ↔ ∃ x, evalTerm state l = some x ∧ -x = k := by
  simp [evalTerm, Option.bind_eq_some_iff]

end Branches

/-! ### One operation -/

section Step

variable {s} {state : IceState}

/-- The names a state of the evaluator binds. -/
def IceState.Bound (state : IceState) (name : String) : Prop := ∃ n, state.scalars name = some n

theorem Term.ExactAt.number_eq {t : Term} {k : Int64} (h : t.ExactAt s state)
    (hk : evalTerm state t = some k) : t.number s = k.toInt := by
  rw [Term.number, h k hk, Value.toInt_int]

/-- Where the arguments are evaluated exactly, the evaluator returns a value just for the terms that
are `Term.Evaluable`. -/
theorem Term.evaluable_iff (hagree : state.Agrees s) : ∀ t : Term,
    (∀ u ∈ t.arguments, u.AllTerms (Term.ExactAt s state)) →
      (t.Evaluable state.Bound s ↔ ∃ k, evalTerm state t = some k)
  | .var v, _ => by
    rw [Term.Evaluable, evalTerm]
    by_cases hv : v.sort = .int <;> simp [hv, IceState.Bound]
  | .int n, _ => by simp [Term.Evaluable, evalTerm]
  | .real _, _ | .boolToInt _, _ => by simp [Term.Evaluable, evalTerm]
  | .select m i, h => by
    have hi : i.AllTerms (Term.ExactAt s state) := h i (by simp [Term.arguments])
    rw [Term.Evaluable, Term.evaluable_iff hagree i fun u hu ↦ hi.arguments hu]
    simp only [evalTerm_select_eq_some]
    constructor
    · rintro ⟨⟨x, hx⟩, region, hm, n, hn⟩
      rw [hi.self.number_eq hx] at hn
      exact ⟨n, x, hx, region, hm, hn⟩
    · rintro ⟨n, x, hx, region, hm, hn⟩
      rw [← hi.self.number_eq hx] at hn
      exact ⟨⟨x, hx⟩, region, hm, n, hn⟩
  | .add l r, h | .sub l r, h | .mul l r, h => by
    have hl : l.AllTerms (Term.ExactAt s state) := h l (by simp [Term.arguments])
    have hr : r.AllTerms (Term.ExactAt s state) := h r (by simp [Term.arguments])
    rw [Term.Evaluable, Term.evaluable_iff hagree l fun u hu ↦ hl.arguments hu,
      Term.evaluable_iff hagree r fun u hu ↦ hr.arguments hu]
    simp only [evalTerm_add_eq_some, evalTerm_sub_eq_some, evalTerm_mul_eq_some]
    constructor
    · rintro ⟨⟨x, hx⟩, y, hy⟩
      exact ⟨_, x, y, ⟨hx, hy⟩, rfl⟩
    · rintro ⟨_, x, y, ⟨hx, hy⟩, -⟩
      exact ⟨⟨x, hx⟩, y, hy⟩
  | .div l r, h | .rem l r, h => by
    have hl : l.AllTerms (Term.ExactAt s state) := h l (by simp [Term.arguments])
    have hr : r.AllTerms (Term.ExactAt s state) := h r (by simp [Term.arguments])
    rw [Term.Evaluable, Term.evaluable_iff hagree l fun u hu ↦ hl.arguments hu,
      Term.evaluable_iff hagree r fun u hu ↦ hr.arguments hu]
    simp only [evalTerm_div_eq_some, evalTerm_rem_eq_some, ne_eq, eq_zero_iff, eq_minValue_iff,
      eq_neg_one_iff]
    constructor
    · rintro ⟨⟨⟨x, hx⟩, y, hy⟩, hguard⟩
      rw [hl.self.number_eq hx, hr.self.number_eq hy] at hguard
      exact ⟨_, x, y, ⟨hx, hy⟩, hguard, rfl⟩
    · rintro ⟨_, x, y, ⟨hx, hy⟩, hguard, -⟩
      rw [← hl.self.number_eq hx, ← hr.self.number_eq hy] at hguard
      exact ⟨⟨⟨x, hx⟩, y, hy⟩, hguard⟩
  | .neg t, h => by
    have ht : t.AllTerms (Term.ExactAt s state) := h t (by simp [Term.arguments])
    rw [Term.Evaluable, Term.evaluable_iff hagree t fun u hu ↦ ht.arguments hu]
    simp only [evalTerm_neg_eq_some]
    constructor
    · rintro ⟨x, hx⟩
      exact ⟨_, x, hx, rfl⟩
    · rintro ⟨_, x, hx, -⟩
      exact ⟨x, hx⟩

/-- An operation whose arguments are evaluated exactly is exact just when it fits. -/
theorem exactAt_iff_stepFits (hagree : state.Agrees s) :
    AgreeAbove (Term.ExactAt s state) (Term.StepFits state.Bound s) := by
  intro t hargs
  have hself (u : Term) (hu : u ∈ t.arguments) : u.ExactAt s state := (hargs u hu).self
  rw [Term.StepFits, t.evaluable_iff hagree hargs, Term.ExactAt, forall_exists_index]
  refine forall_congr' fun k ↦ forall_congr' fun hk ↦ ?_
  cases t with
  | var v =>
    rw [evalTerm] at hk
    split_ifs at hk with hv
    simp [Term.eval, State.lookup, hv, hagree.scalar _ _ hk, Term.Fits]
  | int n => simp_all [Term.eval, evalTerm, Term.Fits]
  | real q => simp [evalTerm] at hk
  | boolToInt φ => simp [evalTerm] at hk
  | select m i =>
    obtain ⟨x, hx, region, rfl, hn⟩ := evalTerm_select_eq_some.1 hk
    have hi := hself i (by simp [Term.arguments]) x hx
    simp [Term.eval, Memory.eval, hi, hagree.cell _ _ _ hn, Term.Fits]
  | add l r =>
    obtain ⟨x, y, ⟨hx, hy⟩, rfl⟩ := evalTerm_add_eq_some.1 hk
    have hl := hself l (by simp [Term.arguments]) x hx
    have hr := hself r (by simp [Term.arguments]) y hy
    simp only [Term.eval, Term.number, hl, hr, Value.arith, Value.int.injEq, Value.toInt_int,
      Term.Fits]
    rw [eq_comm, toInt_add_eq_iff]
  | sub l r =>
    obtain ⟨x, y, ⟨hx, hy⟩, rfl⟩ := evalTerm_sub_eq_some.1 hk
    have hl := hself l (by simp [Term.arguments]) x hx
    have hr := hself r (by simp [Term.arguments]) y hy
    simp only [Term.eval, Term.number, hl, hr, Value.arith, Value.int.injEq, Value.toInt_int,
      Term.Fits]
    rw [eq_comm, toInt_sub_eq_iff]
  | mul l r =>
    obtain ⟨x, y, ⟨hx, hy⟩, rfl⟩ := evalTerm_mul_eq_some.1 hk
    have hl := hself l (by simp [Term.arguments]) x hx
    have hr := hself r (by simp [Term.arguments]) y hy
    simp only [Term.eval, Term.number, hl, hr, Value.arith, Value.int.injEq, Value.toInt_int,
      Term.Fits]
    rw [eq_comm, toInt_mul_eq_iff]
  | div l r =>
    obtain ⟨x, y, ⟨hx, hy⟩, ⟨hzero, hmin⟩, rfl⟩ := evalTerm_div_eq_some.1 hk
    have hl := hself l (by simp [Term.arguments]) x hx
    have hr := hself r (by simp [Term.arguments]) y hy
    rw [ne_eq, eq_zero_iff] at hzero
    simp only [Term.eval, Term.number, hl, hr, Value.arith, Value.int.injEq, Value.toInt_int,
      Term.Fits, State.intDiv, if_neg hzero, toInt_div hmin]
    rw [eq_comm, tdiv_eq_ediv_iff hzero]
  | rem l r =>
    obtain ⟨x, y, ⟨hx, hy⟩, ⟨hzero, hmin⟩, rfl⟩ := evalTerm_rem_eq_some.1 hk
    have hl := hself l (by simp [Term.arguments]) x hx
    have hr := hself r (by simp [Term.arguments]) y hy
    rw [ne_eq, eq_zero_iff] at hzero
    simp only [Term.eval, Term.number, hl, hr, Value.arith, Value.int.injEq, Value.toInt_int,
      Term.Fits, State.intRem, if_neg hzero, Int64.toInt_mod]
    exact eq_comm.trans (tmod_eq_signedEmod_iff hzero)
  | neg t =>
    obtain ⟨x, hx, rfl⟩ := evalTerm_neg_eq_some.1 hk
    have ht := hself t (by simp [Term.arguments]) x hx
    simp only [Term.eval, Term.number, ht, Value.neg, Value.int.injEq, Value.toInt_int,
      Term.Fits]
    rw [eq_comm, toInt_neg_eq_iff]

/-- An atom all whose terms are evaluated exactly has the truth value the solver gives it. -/
theorem eval_of_evalAtom : ∀ (φ : Formula) {b : Bool}, φ.AllTerms (Term.ExactAt s state) →
    evalAtom state φ = some b → φ.eval s = b
  | .eq l r, b, hall, h | .lt l r, b, hall, h | .le l r, b, hall, h | .gt l r, b, hall, h
  | .ge l r, b, hall, h => by
    rw [Formula.AllTerms] at hall
    simp only [evalAtom, Option.bind_eq_bind, Option.bind_eq_some_iff, Option.pure_def,
      Option.some.injEq] at h
    obtain ⟨x, hx, y, hy, rfl⟩ := h
    simp [Formula.eval, hall.1.self _ hx, hall.2.self _ hy, Value.compare, Int64.le_iff_toInt_le,
      Int64.lt_iff_toInt_lt, ← Int64.toInt_inj, beq_eq_decide]
  | .not φ, b, hall, h => by
    rw [evalAtom] at h
    obtain ⟨c, hc, rfl⟩ := Option.map_eq_some_iff.1 h
    rw [Formula.eval, eval_of_evalAtom φ hall hc]
  | .tru, b, _, h | .fls, b, _, h | .var _, b, _, h | .and _, b, _, h | .or _, b, _, h
  | .implies _ _, b, _, h | .memoryEq _ _, b, _, h => by
    simp [evalAtom] at h

end Step

/-- **When the evaluators agree with the solver.** Constant folding, evaluation of terms and
evaluation of atoms give only values the solver gives, at a term and at all terms inside it, just
if every operation that is carried out fits. -/
theorem evaluators_exact_iff {state : IceState} (hagree : state.Agrees s) (t : Term)
    (φ : Formula) :
    (t.AllTerms (Term.FoldsExactly s) ↔ t.AllTerms (Term.StepFits (fun _ ↦ False) s)) ∧
      (t.AllTerms (Term.ExactAt s state) ↔ t.AllTerms (Term.StepFits state.Bound s)) ∧
      ((φ.AllTerms (Term.ExactAt s state) ∧ ∀ b, evalAtom state φ = some b → φ.eval s = b) ↔
        φ.AllTerms (Term.StepFits state.Bound s)) := by
  refine ⟨?_, Term.allTerms_congr (exactAt_iff_stepFits hagree) t, ?_⟩
  · have hfolds : Term.FoldsExactly s = Term.ExactAt s .empty := by
      funext t
      rw [Term.FoldsExactly, Term.ExactAt, t.tryAsConstantInt_eq_evalTerm]
    have hbound : IceState.empty.Bound = fun _ ↦ False := by
      funext name
      simp [IceState.Bound, IceState.empty]
    rw [hfolds, ← hbound]
    exact Term.allTerms_congr (exactAt_iff_stepFits (IceState.agrees_empty s)) t
  · rw [← Formula.allTerms_congr (exactAt_iff_stepFits hagree) φ]
    exact and_iff_left_of_imp fun hall b ↦ eval_of_evalAtom φ hall

/-- The name of a cell ends in a bracket. -/
theorem getLast?_cellKey (region : String) (index : ℤ) :
    (cellKey region index).toList.getLast? = some ']' := by
  rw [cellKey, String.toList_append]
  exact List.getLast?_concat ..

theorem evaluators_exact_iff_x :
    (IceState.empty.insert "x" 0).Agrees .zero ∧
      ((Term.neg (.var (Var.int "x"))).AllTerms
          (Term.ExactAt .zero (IceState.empty.insert "x" 0)) ↔
        (Term.neg (.var (Var.int "x"))).AllTerms
          (Term.StepFits (IceState.empty.insert "x" 0).Bound .zero)) := by
  have hagree : (IceState.empty.insert "x" 0).Agrees .zero := by
    constructor
    · intro name n h
      have hn : n = 0 := by
        by_cases hname : name = "x" <;> simp_all [IceState.insert, IceState.empty]
      rw [hn]
      rfl
    · intro region k n h
      have hkey : cellKey region k ≠ "x" := fun hkey ↦ by
        have hlast := getLast?_cellKey region k
        rw [hkey] at hlast
        exact absurd hlast (by decide)
      simp [IceState.insert, IceState.empty, hkey] at h
  exact ⟨hagree, (evaluators_exact_iff .zero hagree (.neg (.var (Var.int "x"))) .tru).2.1⟩

/-- Folding `-7 / 2` rounds toward zero, the solver does not. -/
theorem not_evaluators_exact : ¬ ∀ (state : IceState) (s : State) (t : Term), state.Agrees s →
    t.FoldsExactly s ∧ t.ExactAt s state := by
  intro h
  obtain ⟨hfold, -⟩ := h .empty .zero (.div (.int (-7)) (.int 2)) (IceState.agrees_empty _)
  have hvalue := hfold (-3) (by decide)
  simp [Term.eval, Value.arith, State.intDiv] at hvalue

end MayMust
