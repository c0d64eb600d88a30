import Mathlib.Data.List.Sort
import Mathlib.Data.String.Basic
import MayMust.Formula.SortRules
import MayMust.Formula.Subterms
import MayMust.Library.Oblivious

/-!
# Lowering to the solver

`lower_formula`, `lower_term` and `lower_memory` translate a formula to the solver's own syntax:
Boolean, integer and real expressions and arrays of integers. A scope remembers the constants it
has declared, one table for each kind, and never declares a name twice.

The lowering checks sorts on its way, for itself, although `SmtScope::assert_formula` has
validated the formula before. The two checks are not the same:

* the lowering follows a `select` into the memory it reads, which `Term::sort` does not check;
* the lowering takes remainders of integers only, `Term::sort` takes those of reals too.

`exists_lowerFormula_eq_ok_iff` says which formulas are lowered: the well-formed ones all whose
terms are `Term.Lowerable`. What is lowered keeps its meaning (`eval_of_lowerFormula`).
-/

namespace MayMust

open Library

/-! ### The solver's expressions -/

/-- The ordering comparisons. -/
inductive Comparison
  | lt
  | le
  | gt
  | ge

/-- The arithmetic operators both numeric sorts share. -/
inductive ArithmeticOp
  | add
  | sub
  | mul

mutual

/-- A Boolean expression of the solver. -/
inductive Z3Bool
  | const (name : String)
  | ofBool (value : Bool)
  | not (inner : Z3Bool)
  | and (items : List Z3Bool)
  | or (items : List Z3Bool)
  | implies (lhs rhs : Z3Bool)
  | eqInt (lhs rhs : Z3Int)
  | eqReal (lhs rhs : Z3Real)
  | eqArray (lhs rhs : Z3Array)
  | compareInt (comparison : Comparison) (lhs rhs : Z3Int)
  | compareReal (comparison : Comparison) (lhs rhs : Z3Real)

/-- An integer expression of the solver. -/
inductive Z3Int
  | const (name : String)
  | ofInt64 (value : Int64)
  | ite (condition : Z3Bool) (thenValue elseValue : Z3Int)
  | select (array : Z3Array) (index : Z3Int)
  | arith (op : ArithmeticOp) (lhs rhs : Z3Int)
  | div (lhs rhs : Z3Int)
  | rem (lhs rhs : Z3Int)
  | neg (inner : Z3Int)

/-- A real expression of the solver. -/
inductive Z3Real
  | const (name : String)
  | ofRational (numerator denominator : Int64)
  | arith (op : ArithmeticOp) (lhs rhs : Z3Real)
  | div (lhs rhs : Z3Real)
  | neg (inner : Z3Real)

/-- An array of the solver, from integers to integers. -/
inductive Z3Array
  | const (name : String)
  | store (array : Z3Array) (index value : Z3Int)

end

/-! ### The scope -/

/-- The constants of one kind that a scope has declared, in the order of their names. An entry is
what the name was declared as. -/
structure Declarations (α : Type) (newConst : String → α) where
  entries : List (String × α)
  declared : ∀ entry ∈ entries, entry.2 = newConst entry.1

namespace Declarations

variable {α : Type} {newConst : String → α}

/-- No declaration yet. -/
def empty : Declarations α newConst := ⟨[], by simp⟩

/-- The constant declared for a name. -/
def get? (table : Declarations α newConst) (name : String) : Option α :=
  (table.entries.find? (·.1 = name)).map (·.2)

/-- Declare a name that has no entry. -/
def insert (table : Declarations α newConst) (name : String) : Declarations α newConst where
  entries := table.entries.orderedInsert (fun e f ↦ e.1 ≤ f.1) (name, newConst name)
  declared entry h := by
    rcases (List.mem_orderedInsert _).1 h with rfl | h
    · rfl
    · exact table.declared entry h

theorem eq_of_get?_eq_some {table : Declarations α newConst} {name : String} {a : α}
    (h : table.get? name = some a) : a = newConst name := by
  obtain ⟨entry, hfind, rfl⟩ := Option.map_eq_some_iff.1 h
  have hname : entry.1 = name := by simpa using List.find?_some hfind
  rw [table.declared entry (List.mem_of_find?_eq_some hfind), hname]

end Declarations

/-- `SmtScope`: the declared constants and the formulas asserted since the last reset. -/
structure SmtScope where
  asserted : List Z3Bool
  boolVars : Declarations Z3Bool Z3Bool.const
  intVars : Declarations Z3Int Z3Int.const
  realVars : Declarations Z3Real Z3Real.const
  memoryVars : Declarations Z3Array Z3Array.const

/-- A step of the lowering: it may fail and may declare constants. -/
abbrev SmtM := ExceptT FormulaError (StateM SmtScope)

/-- `EncodedTerm`: a lowered term is an integer or a real. -/
inductive EncodedTerm
  | int (value : Z3Int)
  | real (value : Z3Real)

/-- The sort of a lowered term. -/
def EncodedTerm.sort : EncodedTerm → VarSort
  | int _ => .int
  | real _ => .real

namespace SmtScope

/-- `SmtScope::new`. -/
def new : SmtScope := ⟨[], .empty, .empty, .empty, .empty⟩

/-- `SmtScope::reset`: the declarations stay. -/
def reset (scope : SmtScope) : SmtScope := { scope with asserted := [] }

/-- The constant of a name in one of the tables, declared on first use. -/
def declare {α : Type} {newConst : String → α} (table : SmtScope → Declarations α newConst)
    (withTable : SmtScope → Declarations α newConst → SmtScope) (name : String) : SmtM α := do
  match (table (← get)).get? name with
  | some ast => return ast
  | none =>
    modify fun scope ↦ withTable scope ((table scope).insert name)
    return newConst name

/-- `SmtScope::bool_var`. -/
def boolVar : String → SmtM Z3Bool := declare boolVars fun scope t ↦ { scope with boolVars := t }

/-- `SmtScope::int_var`. -/
def intVar : String → SmtM Z3Int := declare intVars fun scope t ↦ { scope with intVars := t }

/-- `SmtScope::real_var`. -/
def realVar : String → SmtM Z3Real := declare realVars fun scope t ↦ { scope with realVars := t }

/-- `SmtScope::memory_var`. -/
def memoryVar : String → SmtM Z3Array :=
  declare memoryVars fun scope t ↦ { scope with memoryVars := t }

end SmtScope

/-! ### The lowering -/

/-- The match on two lowered operands that every binary operator makes. -/
def EncodedTerm.combine {α : Type} (onInt : Z3Int → Z3Int → α)
    (onReal : Z3Real → Z3Real → Except FormulaError α) :
    EncodedTerm → EncodedTerm → Except FormulaError α
  | int lhs, int rhs => .ok (onInt lhs rhs)
  | real lhs, real rhs => onReal lhs rhs
  | int _, real _ => .error (.mixedSorts .int .real)
  | real _, int _ => .error (.mixedSorts .real .int)

/-- `compare_terms`. -/
def compareTerms (comparison : Comparison) : EncodedTerm → EncodedTerm →
    Except FormulaError Z3Bool :=
  EncodedTerm.combine (.compareInt comparison) fun lhs rhs ↦ .ok (.compareReal comparison lhs rhs)

/-- `combine_terms`. -/
def combineTerms (op : ArithmeticOp) : EncodedTerm → EncodedTerm →
    Except FormulaError EncodedTerm :=
  EncodedTerm.combine (fun lhs rhs ↦ .int (.arith op lhs rhs))
    fun lhs rhs ↦ .ok (.real (.arith op lhs rhs))

/-- The `Eq` branch of `lower_formula`, after both sides are lowered. -/
def equateTerms : EncodedTerm → EncodedTerm → Except FormulaError Z3Bool :=
  EncodedTerm.combine .eqInt fun lhs rhs ↦ .ok (.eqReal lhs rhs)

/-- The `Div` branch of `lower_term`, after both operands are lowered. -/
def divideTerms : EncodedTerm → EncodedTerm → Except FormulaError EncodedTerm :=
  EncodedTerm.combine (fun lhs rhs ↦ .int (.div lhs rhs)) fun lhs rhs ↦ .ok (.real (.div lhs rhs))

/-- The `Rem` branch of `lower_term`, after both operands are lowered: no reals here. -/
def remainderTerms : EncodedTerm → EncodedTerm → Except FormulaError EncodedTerm :=
  EncodedTerm.combine (fun lhs rhs ↦ .int (.rem lhs rhs)) fun _ _ ↦
    .error (.expectedIntegerSort .real)

/-- The match on the lowered index of a `Select`, and on the index and value of a `Store`. -/
def EncodedTerm.expectInt : EncodedTerm → Except FormulaError Z3Int
  | .int value => .ok value
  | .real _ => .error (.expectedIntegerSort .real)

theorem EncodedTerm.expectInt_eq_ok_iff {e : EncodedTerm} {x : Z3Int} :
    e.expectInt = .ok x ↔ e = .int x := by
  cases e <;> simp [EncodedTerm.expectInt]

/-- The `Neg` branch of `lower_term`, after the operand is lowered. -/
def EncodedTerm.negate : EncodedTerm → EncodedTerm
  | .int value => .int (.neg value)
  | .real value => .real (.neg value)

mutual

/-- `SmtScope::lower_formula`. -/
def lowerFormula : Formula → SmtM Z3Bool
  | .tru => return .ofBool true
  | .fls => return .ofBool false
  | .var v =>
    match v.sort with
    | .bool => SmtScope.boolVar v.name
    | sort => throw (.expectedBooleanSort sort)
  | .not inner => do return .not (← lowerFormula inner)
  | .and items => do return .and (← lowerFormulas items)
  | .or items => do return .or (← lowerFormulas items)
  | .implies lhs rhs => do return .implies (← lowerFormula lhs) (← lowerFormula rhs)
  | .eq lhs rhs => do MonadExcept.ofExcept (equateTerms (← lowerTerm lhs) (← lowerTerm rhs))
  | .memoryEq lhs rhs => do return .eqArray (← lowerMemory lhs) (← lowerMemory rhs)
  | .lt lhs rhs => do
    MonadExcept.ofExcept (compareTerms .lt (← lowerTerm lhs) (← lowerTerm rhs))
  | .le lhs rhs => do
    MonadExcept.ofExcept (compareTerms .le (← lowerTerm lhs) (← lowerTerm rhs))
  | .gt lhs rhs => do
    MonadExcept.ofExcept (compareTerms .gt (← lowerTerm lhs) (← lowerTerm rhs))
  | .ge lhs rhs => do
    MonadExcept.ofExcept (compareTerms .ge (← lowerTerm lhs) (← lowerTerm rhs))
termination_by structural f => f

/-- The collecting loop of `lower_formula` over the children of an n-ary node. -/
def lowerFormulas : List Formula → SmtM (List Z3Bool)
  | [] => return []
  | item :: rest => do return (← lowerFormula item) :: (← lowerFormulas rest)
termination_by structural items => items

/-- `SmtScope::lower_term`. -/
def lowerTerm : Term → SmtM EncodedTerm
  | .var v =>
    match v.sort with
    | .int => do return .int (← SmtScope.intVar v.name)
    | .real => do return .real (← SmtScope.realVar v.name)
    | .bool => throw (.expectedNumericSort .bool)
  | .int value => return .int (.ofInt64 value)
  | .real value => return .real (.ofRational value.num value.den)
  | .boolToInt value => do
    let condition ← lowerFormula value
    return .int (.ite condition (.ofInt64 1) (.ofInt64 0))
  | .select memory index => do
    let memory ← lowerMemory memory
    let index ← MonadExcept.ofExcept (← lowerTerm index).expectInt
    return .int (.select memory index)
  | .add lhs rhs => do
    MonadExcept.ofExcept (combineTerms .add (← lowerTerm lhs) (← lowerTerm rhs))
  | .sub lhs rhs => do
    MonadExcept.ofExcept (combineTerms .sub (← lowerTerm lhs) (← lowerTerm rhs))
  | .mul lhs rhs => do
    MonadExcept.ofExcept (combineTerms .mul (← lowerTerm lhs) (← lowerTerm rhs))
  | .div lhs rhs => do MonadExcept.ofExcept (divideTerms (← lowerTerm lhs) (← lowerTerm rhs))
  | .rem lhs rhs => do MonadExcept.ofExcept (remainderTerms (← lowerTerm lhs) (← lowerTerm rhs))
  | .neg inner => do return (← lowerTerm inner).negate
termination_by structural t => t

/-- `SmtScope::lower_memory`. -/
def lowerMemory : Memory → SmtM Z3Array
  | .var name => SmtScope.memoryVar name
  | .store memory index value => do
    let memory ← lowerMemory memory
    let index ← MonadExcept.ofExcept (← lowerTerm index).expectInt
    let value ← MonadExcept.ofExcept (← lowerTerm value).expectInt
    return .store memory index value
termination_by structural m => m

end

/-- `SmtScope::assert_formula`. -/
def assertFormula (formula : Formula) : SmtM Unit := do
  MonadExcept.ofExcept formula.validate
  let lowered ← lowerFormula formula
  modify fun scope ↦ { scope with asserted := scope.asserted ++ [lowered] }

/-! ### The result does not depend on the scope -/

namespace SmtScope

variable {α : Type} {newConst : String → α} {table : SmtScope → Declarations α newConst}
  {withTable : SmtScope → Declarations α newConst → SmtScope}

@[simp] theorem resultFrom_declare (name : String) (scope : SmtScope) :
    resultFrom (declare table withTable name) scope = .ok (newConst name) := by
  unfold declare
  rw [resultFrom_bind]
  show resultFrom (match (table scope).get? name with
    | some ast => pure ast
    | none => _) scope = _
  split
  · rename_i ast hast
    rw [resultFrom_pure, Declarations.eq_of_get?_eq_some hast]
  · rfl

@[simp] theorem oblivious_declare (name : String) : Oblivious (declare table withTable name) :=
  fun _ _ ↦ by rw [resultFrom_declare, resultFrom_declare]

end SmtScope

mutual

@[simp] theorem oblivious_lowerFormula : ∀ φ : Formula, Oblivious (lowerFormula φ)
  | .tru | .fls => by
    rw [lowerFormula]
    exact .of_pure _
  | .var v => by
    rw [lowerFormula]
    split
    · exact SmtScope.oblivious_declare _
    · exact .of_throw _
  | .not φ => by
    rw [lowerFormula]
    exact (oblivious_lowerFormula φ).bind fun _ ↦ .of_pure _
  | .and items | .or items => by
    rw [lowerFormula]
    exact (oblivious_lowerFormulas items).bind fun _ ↦ .of_pure _
  | .implies φ ψ => by
    rw [lowerFormula]
    exact (oblivious_lowerFormula φ).bind fun _ ↦ (oblivious_lowerFormula ψ).bind fun _ ↦ .of_pure _
  | .memoryEq m m' => by
    rw [lowerFormula]
    exact (oblivious_lowerMemory m).bind fun _ ↦ (oblivious_lowerMemory m').bind fun _ ↦ .of_pure _
  | .eq l r | .lt l r | .le l r | .gt l r | .ge l r => by
    rw [lowerFormula]
    exact (oblivious_lowerTerm l).bind fun _ ↦ (oblivious_lowerTerm r).bind fun _ ↦ .of_ofExcept _

@[simp] theorem oblivious_lowerFormulas : ∀ items : List Formula, Oblivious (lowerFormulas items)
  | [] => by
    rw [lowerFormulas]
    exact .of_pure _
  | φ :: rest => by
    rw [lowerFormulas]
    exact (oblivious_lowerFormula φ).bind fun _ ↦ (oblivious_lowerFormulas rest).bind fun _ ↦
      .of_pure _

@[simp] theorem oblivious_lowerTerm : ∀ t : Term, Oblivious (lowerTerm t)
  | .var v => by
    rw [lowerTerm]
    split
    · exact (SmtScope.oblivious_declare _).bind fun _ ↦ .of_pure _
    · exact (SmtScope.oblivious_declare _).bind fun _ ↦ .of_pure _
    · exact .of_throw _
  | .int _ | .real _ => by
    rw [lowerTerm]
    exact .of_pure _
  | .boolToInt φ => by
    rw [lowerTerm]
    exact (oblivious_lowerFormula φ).bind fun _ ↦ .of_pure _
  | .select m i => by
    rw [lowerTerm]
    exact (oblivious_lowerMemory m).bind fun _ ↦ (oblivious_lowerTerm i).bind fun _ ↦
      (Oblivious.of_ofExcept _).bind fun _ ↦ .of_pure _
  | .add l r | .sub l r | .mul l r | .div l r | .rem l r => by
    rw [lowerTerm]
    exact (oblivious_lowerTerm l).bind fun _ ↦ (oblivious_lowerTerm r).bind fun _ ↦ .of_ofExcept _
  | .neg t => by
    rw [lowerTerm]
    exact (oblivious_lowerTerm t).bind fun _ ↦ .of_pure _

@[simp] theorem oblivious_lowerMemory : ∀ m : Memory, Oblivious (lowerMemory m)
  | .var _ => by
    rw [lowerMemory]
    exact SmtScope.oblivious_declare _
  | .store m i v => by
    rw [lowerMemory]
    exact (oblivious_lowerMemory m).bind fun _ ↦ (oblivious_lowerTerm i).bind fun _ ↦
      (Oblivious.of_ofExcept _).bind fun _ ↦ (oblivious_lowerTerm v).bind fun _ ↦
        (Oblivious.of_ofExcept _).bind fun _ ↦ .of_pure _

end

/-! ### What each branch of the lowering does when it succeeds -/

section Branches

variable {scope : SmtScope}

/-- Two operands are lowered and combined. -/
theorem lowerTerms_eq_ok {α : Type} {f : EncodedTerm → EncodedTerm → Except FormulaError α}
    {lhs rhs : Term} {b : α} :
    resultFrom (do MonadExcept.ofExcept (f (← lowerTerm lhs) (← lowerTerm rhs)) : SmtM α) scope =
        .ok b ↔
      ∃ x, resultFrom (lowerTerm lhs) scope = .ok x ∧
        ∃ y, resultFrom (lowerTerm rhs) scope = .ok y ∧ f x y = .ok b := by
  simp only [Oblivious.resultFrom_bind_eq_ok, Oblivious.bind, Oblivious.of_ofExcept,
    oblivious_lowerTerm, implies_true, resultFrom_ofExcept]

/-- One formula is lowered. -/
theorem lowerFormula_bind_eq_ok {α : Type} {f : Z3Bool → α} {φ : Formula} {b : α} :
    resultFrom (do return f (← lowerFormula φ) : SmtM α) scope = .ok b ↔
      ∃ x, resultFrom (lowerFormula φ) scope = .ok x ∧ f x = b := by
  simp only [Oblivious.resultFrom_bind_eq_ok, Oblivious.of_pure, implies_true, resultFrom_pure,
    Except.ok.injEq]

/-- The children of an n-ary node are lowered. -/
theorem lowerFormulas_bind_eq_ok {α : Type} {f : List Z3Bool → α} {items : List Formula} {b : α} :
    resultFrom (do return f (← lowerFormulas items) : SmtM α) scope = .ok b ↔
      ∃ xs, resultFrom (lowerFormulas items) scope = .ok xs ∧ f xs = b := by
  simp only [Oblivious.resultFrom_bind_eq_ok, Oblivious.of_pure, implies_true, resultFrom_pure,
    Except.ok.injEq]

theorem lowerFormula_implies_eq_ok {φ ψ : Formula} {b : Z3Bool} :
    resultFrom (lowerFormula (.implies φ ψ)) scope = .ok b ↔
      ∃ x, resultFrom (lowerFormula φ) scope = .ok x ∧
        ∃ y, resultFrom (lowerFormula ψ) scope = .ok y ∧ .implies x y = b := by
  rw [lowerFormula]
  simp only [Oblivious.resultFrom_bind_eq_ok, Oblivious.bind, Oblivious.of_pure,
    oblivious_lowerFormula, implies_true, resultFrom_pure, Except.ok.injEq]

theorem lowerFormula_memoryEq_eq_ok {m m' : Memory} {b : Z3Bool} :
    resultFrom (lowerFormula (.memoryEq m m')) scope = .ok b ↔
      ∃ x, resultFrom (lowerMemory m) scope = .ok x ∧
        ∃ y, resultFrom (lowerMemory m') scope = .ok y ∧ .eqArray x y = b := by
  rw [lowerFormula]
  simp only [Oblivious.resultFrom_bind_eq_ok, Oblivious.bind, Oblivious.of_pure,
    oblivious_lowerMemory, implies_true, resultFrom_pure, Except.ok.injEq]

theorem lowerFormulas_cons_eq_ok {φ : Formula} {rest : List Formula} {b : List Z3Bool} :
    resultFrom (lowerFormulas (φ :: rest)) scope = .ok b ↔
      ∃ x, resultFrom (lowerFormula φ) scope = .ok x ∧
        ∃ xs, resultFrom (lowerFormulas rest) scope = .ok xs ∧ x :: xs = b := by
  rw [lowerFormulas]
  simp only [Oblivious.resultFrom_bind_eq_ok, Oblivious.bind, Oblivious.of_pure,
    oblivious_lowerFormulas, implies_true, resultFrom_pure, Except.ok.injEq]

/-- An operand that must be an integer is lowered. -/
theorem lowerTerm_expectInt_eq_ok {α : Type} {f : Z3Int → SmtM α} (hf : ∀ x, Oblivious (f x))
    {t : Term} {b : α} :
    resultFrom (do f (← MonadExcept.ofExcept (← lowerTerm t).expectInt)) scope = .ok b ↔
      ∃ x, resultFrom (lowerTerm t) scope = .ok (.int x) ∧ resultFrom (f x) scope = .ok b := by
  simp only [Oblivious.resultFrom_bind_eq_ok, Oblivious.bind, Oblivious.of_ofExcept, hf,
    implies_true, resultFrom_ofExcept, EncodedTerm.expectInt_eq_ok_iff]
  constructor
  · rintro ⟨_, ht, x, rfl, hx⟩
    exact ⟨x, ht, hx⟩
  · rintro ⟨x, ht, hx⟩
    exact ⟨_, ht, x, rfl, hx⟩

theorem lowerTerm_var_eq_ok {v : Var} {e : EncodedTerm} :
    resultFrom (lowerTerm (.var v)) scope = .ok e ↔
      v.sort = .int ∧ e = .int (.const v.name) ∨ v.sort = .real ∧ e = .real (.const v.name) := by
  rw [lowerTerm]
  split <;> rename_i hv <;> rw [hv]
  all_goals simp only [Oblivious.resultFrom_bind_eq_ok, Oblivious.of_pure, implies_true,
    resultFrom_pure, resultFrom_throw, SmtScope.intVar, SmtScope.realVar,
    SmtScope.resultFrom_declare, Except.ok.injEq, exists_eq_left', true_and, reduceCtorEq,
    false_and, or_false, false_or]
  · exact eq_comm
  · exact eq_comm

theorem lowerTerm_select_eq_ok {m : Memory} {i : Term} {e : EncodedTerm} :
    resultFrom (lowerTerm (.select m i)) scope = .ok e ↔
      ∃ a, resultFrom (lowerMemory m) scope = .ok a ∧
        ∃ x, resultFrom (lowerTerm i) scope = .ok (.int x) ∧ .int (.select a x) = e := by
  rw [lowerTerm, Oblivious.resultFrom_bind_eq_ok fun a ↦ by simp only [Oblivious.bind,
    Oblivious.of_pure, Oblivious.of_ofExcept, oblivious_lowerTerm, implies_true]]
  simp only [lowerTerm_expectInt_eq_ok, Oblivious.of_pure, implies_true, resultFrom_pure,
    Except.ok.injEq]

theorem lowerTerm_neg_eq_ok {t : Term} {e : EncodedTerm} :
    resultFrom (lowerTerm (.neg t)) scope = .ok e ↔
      ∃ x, resultFrom (lowerTerm t) scope = .ok x ∧ x.negate = e := by
  rw [lowerTerm]
  simp only [Oblivious.resultFrom_bind_eq_ok, Oblivious.of_pure, implies_true, resultFrom_pure,
    Except.ok.injEq]

theorem lowerMemory_store_eq_ok {m : Memory} {i v : Term} {a : Z3Array} :
    resultFrom (lowerMemory (.store m i v)) scope = .ok a ↔
      ∃ b, resultFrom (lowerMemory m) scope = .ok b ∧
        ∃ x, resultFrom (lowerTerm i) scope = .ok (.int x) ∧
          ∃ y, resultFrom (lowerTerm v) scope = .ok (.int y) ∧ .store b x y = a := by
  have hvalue (b : Z3Array) (x : Z3Int) : Oblivious (do
      let y ← MonadExcept.ofExcept (← lowerTerm v).expectInt
      return Z3Array.store b x y : SmtM Z3Array) := by
    simp only [Oblivious.bind, Oblivious.of_pure, Oblivious.of_ofExcept, oblivious_lowerTerm,
      implies_true]
  rw [lowerMemory, Oblivious.resultFrom_bind_eq_ok fun b ↦ (oblivious_lowerTerm i).bind fun _ ↦
    (Oblivious.of_ofExcept _).bind (hvalue b)]
  simp only [lowerTerm_expectInt_eq_ok (hvalue _), lowerTerm_expectInt_eq_ok, Oblivious.of_pure,
    implies_true, resultFrom_pure, Except.ok.injEq]

end Branches

/-! ### Which formulas are lowered -/

/-- What the lowering asks of a term beyond the sort rules: the memory below a `select` is well
formed, and remainders are of integers. -/
def Term.Lowerable : Term → Prop
  | .select memory _ => memory.WellFormed
  | .rem lhs _ => ¬ lhs.HasSort .real
  | _ => True

namespace EncodedTerm

variable {x y : EncodedTerm} {σ : VarSort}

theorem sort_eq_int_iff : x.sort = .int ↔ ∃ value, x = .int value := by cases x <;> simp [sort]

theorem combine_eq_ok {α : Type} {onInt : Z3Int → Z3Int → α}
    {onReal : Z3Real → Z3Real → Except FormulaError α} {a : α}
    (h : combine onInt onReal x y = .ok a) :
    (∃ m n, x = .int m ∧ y = .int n ∧ onInt m n = a) ∨
      ∃ m n, x = .real m ∧ y = .real n ∧ onReal m n = .ok a := by
  cases x <;> cases y <;> simp_all [combine]

/-- Lowered operands are combined when they have one sort. -/
theorem exists_combine_eq_ok_iff {onInt : Z3Int → Z3Int → Z3Bool}
    {onReal : Z3Real → Z3Real → Z3Bool} :
    (∃ b, combine onInt (fun l r ↦ .ok (onReal l r)) x y = .ok b) ↔ x.sort = y.sort := by
  cases x <;> cases y <;> simp [combine, sort]

/-- The combination of two lowered operands has their sort. -/
theorem exists_combine_sort_iff {onInt : Z3Int → Z3Int → Z3Int}
    {onReal : Z3Real → Z3Real → Z3Real} :
    (∃ e : EncodedTerm, combine (fun l r ↦ .int (onInt l r)) (fun l r ↦ .ok (.real (onReal l r)))
      x y = .ok e ∧ e.sort = σ) ↔ (x.sort = σ ∧ y.sort = σ) ∧ True := by
  cases x <;> cases y <;> cases σ <;> simp [combine, sort]

theorem exists_remainderTerms_sort_iff :
    (∃ e, remainderTerms x y = .ok e ∧ e.sort = σ) ↔ (x.sort = σ ∧ y.sort = σ) ∧ σ ≠ .real := by
  cases x <;> cases y <;> cases σ <;> simp [remainderTerms, combine, sort]

theorem sort_negate : x.negate.sort = x.sort := by cases x <;> rfl

end EncodedTerm

section Success

/-- A success and what is built from it. -/
theorem exists_image_eq {α γ : Type} {p : α → Prop} {f : α → γ} :
    (∃ c, ∃ a, p a ∧ f a = c) ↔ ∃ a, p a := by
  constructor
  · rintro ⟨c, a, ha, -⟩
    exact ⟨a, ha⟩
  · rintro ⟨a, ha⟩
    exact ⟨f a, a, ha, rfl⟩

/-- Two independent successes and what is built from them. -/
theorem exists_pair_eq {α β γ : Type} {p : α → Prop} {q : β → Prop} {f : α → β → γ} :
    (∃ c, ∃ a, p a ∧ ∃ b, q b ∧ f a b = c) ↔ (∃ a, p a) ∧ ∃ b, q b := by
  constructor
  · rintro ⟨c, a, ha, b, hb, -⟩
    exact ⟨⟨a, ha⟩, b, hb⟩
  · rintro ⟨⟨a, ha⟩, b, hb⟩
    exact ⟨f a b, a, ha, b, hb, rfl⟩

variable (scope : SmtScope)

/-- The term is lowered, to an expression of the sort. -/
def Term.LowersTo (t : Term) (σ : VarSort) : Prop :=
  ∃ e, resultFrom (lowerTerm t) scope = .ok e ∧ e.sort = σ

variable {scope} {l r : Term} {σ : VarSort}

theorem Term.lowersTo_int_iff :
    l.LowersTo scope .int ↔ ∃ x, resultFrom (lowerTerm l) scope = .ok (.int x) := by
  constructor
  · rintro ⟨e, he, hsort⟩
    obtain ⟨x, rfl⟩ := EncodedTerm.sort_eq_int_iff.1 hsort
    exact ⟨x, he⟩
  · rintro ⟨x, hx⟩
    exact ⟨_, hx, rfl⟩

/-- Two operands are lowered and combined when both are lowered to the sort asked of them. -/
theorem exists_lowerTerms_iff {f : EncodedTerm → EncodedTerm → Except FormulaError EncodedTerm}
    {P : Prop} (hf : ∀ x y, (∃ e, f x y = .ok e ∧ e.sort = σ) ↔ (x.sort = σ ∧ y.sort = σ) ∧ P) :
    (∃ e, resultFrom (do MonadExcept.ofExcept (f (← lowerTerm l) (← lowerTerm r)) :
        SmtM EncodedTerm) scope = .ok e ∧ e.sort = σ) ↔
      (l.LowersTo scope σ ∧ r.LowersTo scope σ) ∧ P := by
  simp only [lowerTerms_eq_ok]
  constructor
  · rintro ⟨e, ⟨x, hx, y, hy, he⟩, hsort⟩
    obtain ⟨⟨hxσ, hyσ⟩, hP⟩ := (hf x y).1 ⟨e, he, hsort⟩
    exact ⟨⟨⟨x, hx, hxσ⟩, y, hy, hyσ⟩, hP⟩
  · rintro ⟨⟨⟨x, hx, hxσ⟩, y, hy, hyσ⟩, hP⟩
    obtain ⟨e, he, hsort⟩ := (hf x y).2 ⟨⟨hxσ, hyσ⟩, hP⟩
    exact ⟨e, ⟨x, hx, y, hy, he⟩, hsort⟩

/-- Two operands are lowered and compared when both are lowered to one sort. -/
theorem exists_lowerTerms_compare_iff {onInt : Z3Int → Z3Int → Z3Bool}
    {onReal : Z3Real → Z3Real → Z3Bool} :
    (∃ b, resultFrom (do MonadExcept.ofExcept (EncodedTerm.combine onInt
        (fun l r ↦ .ok (onReal l r)) (← lowerTerm l) (← lowerTerm r)) : SmtM Z3Bool) scope =
        .ok b) ↔ ∃ σ, l.LowersTo scope σ ∧ r.LowersTo scope σ := by
  simp only [lowerTerms_eq_ok]
  constructor
  · rintro ⟨b, x, hx, y, hy, hb⟩
    have hsort := EncodedTerm.exists_combine_eq_ok_iff.1 ⟨b, hb⟩
    exact ⟨y.sort, ⟨x, hx, hsort⟩, y, hy, rfl⟩
  · rintro ⟨σ, ⟨x, hx, hxσ⟩, y, hy, hyσ⟩
    obtain ⟨b, hb⟩ :=
      (@EncodedTerm.exists_combine_eq_ok_iff x y onInt onReal).2 (hxσ.trans hyσ.symm)
    exact ⟨b, x, hx, y, hy, hb⟩

end Success

section WhichLower

variable (scope : SmtScope)

mutual

/-- The formulas that are lowered. -/
theorem exists_lowerFormula_eq_ok_iff : ∀ φ : Formula,
    (∃ b, resultFrom (lowerFormula φ) scope = .ok b) ↔
      φ.WellFormed ∧ φ.AllTerms Term.Lowerable
  | .tru | .fls => by simp [lowerFormula, Formula.WellFormed, Formula.AllTerms]
  | .var v => by
    rw [lowerFormula, Formula.WellFormed, Formula.AllTerms, and_true]
    cases hv : v.sort <;> simp [SmtScope.boolVar]
  | .not φ => by
    rw [lowerFormula, Formula.WellFormed, Formula.AllTerms, ← exists_lowerFormula_eq_ok_iff φ]
    simp only [lowerFormula_bind_eq_ok, exists_image_eq]
  | .and items | .or items => by
    rw [lowerFormula, Formula.WellFormed, Formula.AllTerms,
      ← exists_lowerFormulas_eq_ok_iff items]
    simp only [lowerFormulas_bind_eq_ok, exists_image_eq]
  | .implies φ ψ => by
    rw [Formula.WellFormed, Formula.AllTerms, and_and_and_comm,
      ← exists_lowerFormula_eq_ok_iff φ, ← exists_lowerFormula_eq_ok_iff ψ]
    simp only [lowerFormula_implies_eq_ok]
    exact exists_pair_eq
  | .memoryEq m m' => by
    rw [Formula.WellFormed, Formula.AllTerms, and_and_and_comm,
      ← exists_lowerMemory_eq_ok_iff m, ← exists_lowerMemory_eq_ok_iff m']
    simp only [lowerFormula_memoryEq_eq_ok]
    exact exists_pair_eq
  | .eq l r | .lt l r | .le l r | .gt l r | .ge l r => by
    rw [lowerFormula, Formula.WellFormed, Formula.AllTerms]
    refine exists_lowerTerms_compare_iff.trans ?_
    simp only [lowersTo_iff l, lowersTo_iff r]
    constructor
    · rintro ⟨σ, ⟨⟨hl, hσ⟩, hal⟩, ⟨hr, -⟩, har⟩
      exact ⟨⟨σ, hl, hr, hσ⟩, hal, har⟩
    · rintro ⟨⟨σ, hl, hr, hσ⟩, hal, har⟩
      exact ⟨σ, ⟨⟨hl, hσ⟩, hal⟩, ⟨hr, hσ⟩, har⟩

/-- The lists of formulas that are lowered. -/
theorem exists_lowerFormulas_eq_ok_iff : ∀ items : List Formula,
    (∃ bs, resultFrom (lowerFormulas items) scope = .ok bs) ↔
      Formula.WellFormedList items ∧ Formula.AllTermsList Term.Lowerable items
  | [] => by simp [lowerFormulas, Formula.WellFormedList, Formula.AllTermsList]
  | φ :: rest => by
    rw [Formula.WellFormedList, Formula.AllTermsList, and_and_and_comm,
      ← exists_lowerFormula_eq_ok_iff φ, ← exists_lowerFormulas_eq_ok_iff rest]
    simp only [lowerFormulas_cons_eq_ok]
    exact exists_pair_eq

/-- The terms that are lowered, and to which sort. -/
theorem lowersTo_iff : ∀ (t : Term) {σ : VarSort}, t.LowersTo scope σ ↔
    (t.HasSort σ ∧ σ ≠ .bool) ∧ t.AllTerms Term.Lowerable
  | .var v, σ => by
    rw [Term.LowersTo, Term.HasSort, Term.AllTerms]
    simp only [lowerTerm_var_eq_ok]
    cases hv : v.sort <;> cases σ <;> simp [EncodedTerm.sort, Term.Lowerable]
  | .int n, σ | .real q, σ => by
    rw [Term.LowersTo, lowerTerm, Term.HasSort, Term.AllTerms]
    cases σ <;> simp [EncodedTerm.sort, Term.Lowerable]
  | .boolToInt φ, σ => by
    rw [Term.LowersTo, lowerTerm, Term.HasSort, Term.AllTerms]
    simp only [lowerFormula_bind_eq_ok]
    have hφ := exists_lowerFormula_eq_ok_iff φ
    constructor
    · rintro ⟨_, ⟨b, hb, rfl⟩, rfl⟩
      obtain ⟨hwell, hall⟩ := hφ.1 ⟨b, hb⟩
      exact ⟨⟨⟨hwell, rfl⟩, by simp [EncodedTerm.sort]⟩, trivial, hall⟩
    · rintro ⟨⟨⟨hwell, rfl⟩, -⟩, -, hall⟩
      obtain ⟨b, hb⟩ := hφ.2 ⟨hwell, hall⟩
      exact ⟨_, ⟨b, hb, rfl⟩, rfl⟩
  | .select m i, σ => by
    rw [Term.LowersTo, Term.HasSort, Term.AllTerms]
    simp only [lowerTerm_select_eq_ok]
    have hm := exists_lowerMemory_eq_ok_iff m
    have hi := Term.lowersTo_int_iff.symm.trans (lowersTo_iff i)
    constructor
    · rintro ⟨_, ⟨a, ha, x, hx, rfl⟩, rfl⟩
      obtain ⟨hwell, hallm⟩ := hm.1 ⟨a, ha⟩
      obtain ⟨⟨hint, -⟩, halli⟩ := hi.1 ⟨x, hx⟩
      exact ⟨⟨⟨hint, rfl⟩, by simp [EncodedTerm.sort]⟩, hwell, hallm, halli⟩
    · rintro ⟨⟨⟨hint, rfl⟩, -⟩, hwell, hallm, halli⟩
      obtain ⟨a, ha⟩ := hm.2 ⟨hwell, hallm⟩
      obtain ⟨x, hx⟩ := hi.2 ⟨⟨hint, by simp⟩, halli⟩
      exact ⟨_, ⟨a, ha, x, hx, rfl⟩, rfl⟩
  | .add l r, σ | .sub l r, σ | .mul l r, σ | .div l r, σ => by
    rw [Term.LowersTo, lowerTerm, Term.HasSort, Term.AllTerms]
    refine (exists_lowerTerms_iff fun x y ↦ EncodedTerm.exists_combine_sort_iff).trans ?_
    rw [lowersTo_iff l, lowersTo_iff r]
    simp only [Term.Lowerable]
    tauto
  | .rem l r, σ => by
    rw [Term.LowersTo, lowerTerm, Term.HasSort, Term.AllTerms]
    refine (exists_lowerTerms_iff fun x y ↦ EncodedTerm.exists_remainderTerms_sort_iff).trans ?_
    rw [lowersTo_iff l, lowersTo_iff r]
    simp only [Term.Lowerable]
    constructor
    · rintro ⟨⟨⟨⟨hl, hσ⟩, hal⟩, ⟨hr, -⟩, har⟩, hreal⟩
      refine ⟨⟨⟨hl, hr, hσ⟩, hσ⟩, fun hl' ↦ ?_, hal, har⟩
      exact hreal (hl.unique hl')
    · rintro ⟨⟨⟨hl, hr, hσ⟩, -⟩, hreal, hal, har⟩
      exact ⟨⟨⟨⟨hl, hσ⟩, hal⟩, ⟨hr, hσ⟩, har⟩, fun h ↦ hreal (h ▸ hl)⟩
  | .neg t, σ => by
    rw [Term.LowersTo, Term.HasSort, Term.AllTerms]
    simp only [lowerTerm_neg_eq_ok, exists_exists_and_eq_and, EncodedTerm.sort_negate]
    refine (lowersTo_iff t).trans ?_
    simp only [Term.Lowerable]
    tauto

/-- The memory expressions that are lowered. -/
theorem exists_lowerMemory_eq_ok_iff : ∀ m : Memory,
    (∃ a, resultFrom (lowerMemory m) scope = .ok a) ↔
      m.WellFormed ∧ m.AllTerms Term.Lowerable
  | .var name => by simp [lowerMemory, SmtScope.memoryVar, Memory.WellFormed, Memory.AllTerms]
  | .store m i v => by
    rw [Memory.WellFormed, Memory.AllTerms]
    simp only [lowerMemory_store_eq_ok]
    have hm := exists_lowerMemory_eq_ok_iff m
    have hi := Term.lowersTo_int_iff.symm.trans (lowersTo_iff i)
    have hv := Term.lowersTo_int_iff.symm.trans (lowersTo_iff v)
    constructor
    · rintro ⟨_, b, hb, x, hx, y, hy, rfl⟩
      obtain ⟨hwell, hallm⟩ := hm.1 ⟨b, hb⟩
      obtain ⟨⟨hinti, -⟩, halli⟩ := hi.1 ⟨x, hx⟩
      obtain ⟨⟨hintv, -⟩, hallv⟩ := hv.1 ⟨y, hy⟩
      exact ⟨⟨hwell, hinti, hintv⟩, hallm, halli, hallv⟩
    · rintro ⟨⟨hwell, hinti, hintv⟩, hallm, halli, hallv⟩
      obtain ⟨b, hb⟩ := hm.2 ⟨hwell, hallm⟩
      obtain ⟨x, hx⟩ := hi.2 ⟨⟨hinti, by simp⟩, halli⟩
      obtain ⟨y, hy⟩ := hv.2 ⟨⟨hintv, by simp⟩, hallv⟩
      exact ⟨_, b, hb, x, hx, y, hy, rfl⟩

end

end WhichLower

/-- For which formulas `validate` and the lowering agree, and asserting a validated formula cannot
fail. A well-formed formula has to read well-formed memories only and take remainders of integers
only. -/
theorem lowering_agrees_iff (φ : Formula) (scope : SmtScope) :
    ((φ.validate = .ok () ↔ ∃ b, resultFrom (lowerFormula φ) scope = .ok b) ∧
      (φ.validate = .ok () → resultFrom (assertFormula φ) scope = .ok ())) ↔
      (φ.WellFormed → φ.AllTerms Term.Lowerable) := by
  have hvalid : φ.validate = .ok () ↔ φ.WellFormed := φ.validated_iff_wellFormed
  have hassert : resultFrom (assertFormula φ) scope = .ok () ↔
      φ.validate = .ok () ∧ ∃ b, resultFrom (lowerFormula φ) scope = .ok b := by
    rw [assertFormula, resultFrom_bind, resultFrom_ofExcept, bind_eq_ok, resultFrom_bind,
      oblivious_lowerFormula φ _ scope]
    simp only [bind_eq_ok, exists_and_right, exists_unit_eq_ok]
    exact and_congr_right fun _ ↦ exists_congr fun b ↦ and_iff_left rfl
  rw [hassert, exists_lowerFormula_eq_ok_iff, hvalid]
  tauto

/-- A remainder of reals passes the sort check and is not lowered. -/
theorem not_lowering_agrees : ¬ ∀ (φ : Formula) (scope : SmtScope),
    φ.validate = .ok () ↔ ∃ b, resultFrom (lowerFormula φ) scope = .ok b := by
  intro h
  let x := Term.var (Var.real "x")
  have hvalid : (Formula.eq (.rem x x) x).validate = .ok () := by decide
  obtain ⟨-, ⟨hreal, -⟩, -⟩ := (exists_lowerFormula_eq_ok_iff _ _).1 ((h _ .new).1 hvalid)
  exact hreal rfl

/-! ### What is lowered keeps its meaning -/

/-- What a comparison says of two numbers. -/
def Comparison.test {α : Type} [LT α] [LE α] [DecidableLT α] [DecidableLE α] :
    Comparison → α → α → Bool
  | lt, a, b => decide (a < b)
  | le, a, b => decide (a ≤ b)
  | gt, a, b => decide (b < a)
  | ge, a, b => decide (b ≤ a)

/-- The number an operator makes of two numbers. -/
def ArithmeticOp.apply {α : Type} [Add α] [Sub α] [Mul α] : ArithmeticOp → α → α → α
  | add, a, b => a + b
  | sub, a, b => a - b
  | mul, a, b => a * b

open Classical in
mutual

/-- The truth value of a Boolean expression in the solver's model. -/
noncomputable def Z3Bool.eval (s : State) : Z3Bool → Bool
  | .const name => s.scalars.bools name
  | .ofBool value => value
  | .not inner => !inner.eval s
  | .and items => Z3Bool.evalAll s items
  | .or items => Z3Bool.evalAny s items
  | .implies lhs rhs => !lhs.eval s || rhs.eval s
  | .eqInt lhs rhs => decide (lhs.eval s = rhs.eval s)
  | .eqReal lhs rhs => decide (lhs.eval s = rhs.eval s)
  | .eqArray lhs rhs => decide (lhs.eval s = rhs.eval s)
  | .compareInt comparison lhs rhs => comparison.test (lhs.eval s) (rhs.eval s)
  | .compareReal comparison lhs rhs => comparison.test (lhs.eval s) (rhs.eval s)
termination_by structural b => b

/-- Whether all expressions of a list are true. -/
noncomputable def Z3Bool.evalAll (s : State) : List Z3Bool → Bool
  | [] => true
  | item :: rest => item.eval s && Z3Bool.evalAll s rest
termination_by structural items => items

/-- Whether some expression of a list is true. -/
noncomputable def Z3Bool.evalAny (s : State) : List Z3Bool → Bool
  | [] => false
  | item :: rest => item.eval s || Z3Bool.evalAny s rest
termination_by structural items => items

/-- The value of an integer expression: division is Euclidean, and the remainder takes the sign
of the divisor. -/
noncomputable def Z3Int.eval (s : State) : Z3Int → ℤ
  | .const name => s.scalars.ints name
  | .ofInt64 value => value.toInt
  | .ite condition thenValue elseValue =>
    if condition.eval s then thenValue.eval s else elseValue.eval s
  | .select array index => array.eval s (index.eval s)
  | .arith op lhs rhs => op.apply (lhs.eval s) (rhs.eval s)
  | .div lhs rhs => s.intDiv (lhs.eval s) (rhs.eval s)
  | .rem lhs rhs => s.intRem (lhs.eval s) (rhs.eval s)
  | .neg inner => -inner.eval s
termination_by structural e => e

/-- The value of a real expression. -/
noncomputable def Z3Real.eval (s : State) : Z3Real → ℝ
  | .const name => s.scalars.reals name
  | .ofRational numerator denominator => numerator.toInt / denominator.toInt
  | .arith op lhs rhs => op.apply (lhs.eval s) (rhs.eval s)
  | .div lhs rhs => s.realDiv (lhs.eval s) (rhs.eval s)
  | .neg inner => -inner.eval s
termination_by structural e => e

/-- The contents of an array. -/
noncomputable def Z3Array.eval (s : State) : Z3Array → ℤ → ℤ
  | .const name => s.memory name
  | .store array index value => Function.update (array.eval s) (index.eval s) (value.eval s)
termination_by structural a => a

end

/-- The value of a lowered term. -/
noncomputable def EncodedTerm.eval (s : State) : EncodedTerm → Value
  | int value => .int (value.eval s)
  | real value => .real (value.eval s)

section Meaning

variable {scope : SmtScope} {s : State}

mutual

/-- A lowered formula is true where the formula is. -/
theorem eval_of_lowerFormula : ∀ (φ : Formula) {b : Z3Bool},
    resultFrom (lowerFormula φ) scope = .ok b → b.eval s = φ.eval s
  | .tru, b, h | .fls, b, h => by
    rw [lowerFormula] at h
    rw [← Except.ok.inj h, Formula.eval, Z3Bool.eval]
  | .var v, b, h => by
    rw [lowerFormula] at h
    rw [Formula.eval, State.lookup]
    split at h
    · rename_i hv
      rw [SmtScope.boolVar, SmtScope.resultFrom_declare] at h
      rw [hv, ← Except.ok.inj h, Z3Bool.eval]
      rfl
    · exact absurd h (by simp)
  | .not φ, b, h => by
    rw [lowerFormula, lowerFormula_bind_eq_ok] at h
    obtain ⟨x, hx, rfl⟩ := h
    rw [Formula.eval, Z3Bool.eval, eval_of_lowerFormula φ hx]
  | .and items, b, h => by
    rw [lowerFormula, lowerFormulas_bind_eq_ok] at h
    obtain ⟨xs, hxs, rfl⟩ := h
    rw [Formula.eval, Z3Bool.eval, (eval_of_lowerFormulas items hxs).1]
  | .or items, b, h => by
    rw [lowerFormula, lowerFormulas_bind_eq_ok] at h
    obtain ⟨xs, hxs, rfl⟩ := h
    rw [Formula.eval, Z3Bool.eval, (eval_of_lowerFormulas items hxs).2]
  | .implies φ ψ, b, h => by
    obtain ⟨x, hx, y, hy, rfl⟩ := lowerFormula_implies_eq_ok.1 h
    rw [Formula.eval, Z3Bool.eval, eval_of_lowerFormula φ hx, eval_of_lowerFormula ψ hy]
  | .memoryEq m m', b, h => by
    obtain ⟨x, hx, y, hy, rfl⟩ := lowerFormula_memoryEq_eq_ok.1 h
    rw [Formula.eval, Z3Bool.eval, eval_of_lowerMemory m hx, eval_of_lowerMemory m' hy]
  | .eq l r, b, h | .lt l r, b, h | .le l r, b, h | .gt l r, b, h | .ge l r, b, h => by
    rw [lowerFormula, lowerTerms_eq_ok] at h
    obtain ⟨x, hx, y, hy, h⟩ := h
    rw [Formula.eval, ← eval_of_lowerTerm l hx, ← eval_of_lowerTerm r hy]
    obtain ⟨m, n, rfl, rfl, rfl⟩ | ⟨m, n, rfl, rfl, h⟩ := EncodedTerm.combine_eq_ok h
    · rw [Bool.eq_iff_iff]
      simp [Z3Bool.eval, EncodedTerm.eval, Value.compare, Comparison.test]
    · simp [← Except.ok.inj h, Z3Bool.eval, EncodedTerm.eval, Value.compare, Comparison.test]

theorem eval_of_lowerFormulas : ∀ (items : List Formula) {bs : List Z3Bool},
    resultFrom (lowerFormulas items) scope = .ok bs →
      Z3Bool.evalAll s bs = Formula.evalAll s items ∧ Z3Bool.evalAny s bs = Formula.evalAny s items
  | [], bs, h => by
    rw [lowerFormulas] at h
    obtain rfl := Except.ok.inj h
    exact ⟨rfl, rfl⟩
  | φ :: rest, bs, h => by
    obtain ⟨x, hx, xs, hxs, rfl⟩ := lowerFormulas_cons_eq_ok.1 h
    obtain ⟨hall, hany⟩ := eval_of_lowerFormulas rest hxs
    rw [Z3Bool.evalAll, Z3Bool.evalAny, Formula.evalAll, Formula.evalAny,
      eval_of_lowerFormula φ hx, hall, hany]
    exact ⟨rfl, rfl⟩

/-- A lowered term has the value of the term. -/
theorem eval_of_lowerTerm : ∀ (t : Term) {e : EncodedTerm},
    resultFrom (lowerTerm t) scope = .ok e → e.eval s = t.eval s
  | .var v, e, h => by
    rw [Term.eval, State.lookup]
    rcases lowerTerm_var_eq_ok.1 h with ⟨hv, rfl⟩ | ⟨hv, rfl⟩ <;>
      rw [hv, EncodedTerm.eval] <;> rfl
  | .int n, e, h => by
    rw [lowerTerm] at h
    rw [← Except.ok.inj h, Term.eval, EncodedTerm.eval, Z3Int.eval]
  | .real q, e, h => by
    rw [lowerTerm] at h
    rw [← Except.ok.inj h, Term.eval, EncodedTerm.eval, Z3Real.eval, Rational.toReal]
  | .boolToInt φ, e, h => by
    rw [lowerTerm, lowerFormula_bind_eq_ok] at h
    obtain ⟨x, hx, rfl⟩ := h
    rw [Term.eval, EncodedTerm.eval, Z3Int.eval, eval_of_lowerFormula φ hx, Z3Int.eval, Z3Int.eval]
    rfl
  | .select m i, e, h => by
    obtain ⟨a, ha, x, hx, rfl⟩ := lowerTerm_select_eq_ok.1 h
    rw [Term.eval, EncodedTerm.eval, Z3Int.eval, eval_of_lowerMemory m ha,
      ← eval_of_lowerTerm i hx, EncodedTerm.eval, Value.toInt_int]
  | .add l r, e, h | .sub l r, e, h | .mul l r, e, h | .div l r, e, h | .rem l r, e, h => by
    rw [lowerTerm, lowerTerms_eq_ok] at h
    obtain ⟨x, hx, y, hy, h⟩ := h
    rw [Term.eval, ← eval_of_lowerTerm l hx, ← eval_of_lowerTerm r hy]
    obtain ⟨m, n, rfl, rfl, rfl⟩ | ⟨m, n, rfl, rfl, h⟩ := EncodedTerm.combine_eq_ok h
    · simp only [EncodedTerm.eval, Z3Int.eval, Value.arith, ArithmeticOp.apply]
    · cases h <;> simp only [EncodedTerm.eval, Z3Real.eval, Value.arith, ArithmeticOp.apply]
  | .neg t, e, h => by
    obtain ⟨x, hx, rfl⟩ := lowerTerm_neg_eq_ok.1 h
    rw [Term.eval, ← eval_of_lowerTerm t hx]
    cases x <;> simp only [EncodedTerm.negate, EncodedTerm.eval, Value.neg, Z3Int.eval, Z3Real.eval]

/-- A lowered memory expression has the contents of the expression. -/
theorem eval_of_lowerMemory : ∀ (m : Memory) {a : Z3Array},
    resultFrom (lowerMemory m) scope = .ok a → a.eval s = m.eval s
  | .var name, a, h => by
    rw [lowerMemory, SmtScope.memoryVar, SmtScope.resultFrom_declare] at h
    rw [← Except.ok.inj h, Z3Array.eval, Memory.eval]
  | .store m i v, a, h => by
    obtain ⟨b, hb, x, hx, y, hy, rfl⟩ := lowerMemory_store_eq_ok.1 h
    rw [Memory.eval, Z3Array.eval, eval_of_lowerMemory m hb, ← eval_of_lowerTerm i hx,
      ← eval_of_lowerTerm v hy]
    rfl

end

end Meaning

end MayMust
