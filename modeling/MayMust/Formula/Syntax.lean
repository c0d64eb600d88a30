import Mathlib.Data.List.Basic
import Mathlib.Tactic.Common

/-!
# The formula language

The symbolic vocabulary every pass of the checker speaks: sorts, sorted variables, memory
expressions, arithmetic terms and first-order formulas. The three syntactic categories are
mutually recursive, because a term may coerce a formula to an integer (`Term.boolToInt`) and
a memory expression stores terms.

* Integer literals are 64-bit machine integers (`Int64`), as in the source; what they denote
  is an unbounded integer, see `MayMust.Term.eval`.
* `Formula.and` and `Formula.or` are the raw n-ary nodes. The simplifying constructors of the
  source, which every pass uses, are `Formula.mkAnd`, `Formula.andMany`, `Formula.mkOr`,
  `Formula.orMany` and `Formula.mkImplies`.
* Equality of formulas is decidable: simplification drops a conjunct or disjunct that is
  already present.
-/

namespace MayMust

/-- The three value domains of the formula language. -/
inductive VarSort
  | bool
  | int
  | real
  deriving DecidableEq, Repr

/-- A rational literal: numerator and denominator are machine integers. -/
structure Rational where
  num : Int64
  den : Int64
  deriving DecidableEq

/-- A named, sorted symbolic variable. Two variables with one name and different sorts are
distinct. -/
structure Var where
  name : String
  sort : VarSort
  deriving DecidableEq, Repr

namespace Var

/-- A Boolean variable. -/
def bool (name : String) : Var := ⟨name, .bool⟩

/-- An integer variable. -/
def int (name : String) : Var := ⟨name, .int⟩

/-- A real variable. -/
def real (name : String) : Var := ⟨name, .real⟩

end Var

mutual

/-- An array-of-integers memory expression over named regions. -/
inductive Memory
  /-- A named memory region. -/
  | var (name : String)
  /-- The functional update `(store memory index value)`. -/
  | store (memory : Memory) (index value : Term)

/-- An arithmetic or memory-read expression. -/
inductive Term
  | var (v : Var)
  | int (value : Int64)
  | real (value : Rational)
  /-- Coerces a formula to `0` or `1`. -/
  | boolToInt (value : Formula)
  /-- Array read `(select memory index)`. -/
  | select (memory : Memory) (index : Term)
  | add (lhs rhs : Term)
  | sub (lhs rhs : Term)
  | mul (lhs rhs : Term)
  | div (lhs rhs : Term)
  | rem (lhs rhs : Term)
  | neg (inner : Term)

/-- A first-order formula over scalar variables and memory. -/
inductive Formula
  | tru
  | fls
  | var (v : Var)
  | not (inner : Formula)
  | and (items : List Formula)
  | or (items : List Formula)
  | implies (lhs rhs : Formula)
  | eq (lhs rhs : Term)
  | memoryEq (lhs rhs : Memory)
  | lt (lhs rhs : Term)
  | le (lhs rhs : Term)
  | gt (lhs rhs : Term)
  | ge (lhs rhs : Term)

end

/-! ### Decidable equality -/

mutual

/-- Structural equality test of memory expressions. -/
def Memory.beq : Memory → Memory → Bool
  | .var a, .var b => a == b
  | .store m i v, .store m' i' v' => m.beq m' && i.beq i' && v.beq v'
  | _, _ => false
termination_by structural m => m

/-- Structural equality test of terms. -/
def Term.beq : Term → Term → Bool
  | .var v, .var w => v == w
  | .int n, .int m => n == m
  | .real n, .real m => n == m
  | .boolToInt f, .boolToInt g => f.beq g
  | .select m i, .select m' i' => m.beq m' && i.beq i'
  | .add l r, .add l' r' => l.beq l' && r.beq r'
  | .sub l r, .sub l' r' => l.beq l' && r.beq r'
  | .mul l r, .mul l' r' => l.beq l' && r.beq r'
  | .div l r, .div l' r' => l.beq l' && r.beq r'
  | .rem l r, .rem l' r' => l.beq l' && r.beq r'
  | .neg t, .neg t' => t.beq t'
  | _, _ => false
termination_by structural t => t

/-- Structural equality test of formulas. -/
def Formula.beq : Formula → Formula → Bool
  | .tru, .tru => true
  | .fls, .fls => true
  | .var v, .var w => v == w
  | .not f, .not g => f.beq g
  | .and fs, .and gs => Formula.beqList fs gs
  | .or fs, .or gs => Formula.beqList fs gs
  | .implies l r, .implies l' r' => l.beq l' && r.beq r'
  | .eq l r, .eq l' r' => l.beq l' && r.beq r'
  | .memoryEq l r, .memoryEq l' r' => l.beq l' && r.beq r'
  | .lt l r, .lt l' r' => l.beq l' && r.beq r'
  | .le l r, .le l' r' => l.beq l' && r.beq r'
  | .gt l r, .gt l' r' => l.beq l' && r.beq r'
  | .ge l r, .ge l' r' => l.beq l' && r.beq r'
  | _, _ => false
termination_by structural f => f

/-- Structural equality test of lists of formulas. -/
def Formula.beqList : List Formula → List Formula → Bool
  | [], [] => true
  | f :: fs, g :: gs => f.beq g && Formula.beqList fs gs
  | _, _ => false
termination_by structural fs => fs

end

mutual

theorem Memory.beq_iff_eq : ∀ a b : Memory, a.beq b = true ↔ a = b
  | .var a, b => by cases b <;> simp [Memory.beq]
  | .store m i v, b => by
    cases b <;>
      simp [Memory.beq, Memory.beq_iff_eq m, Term.beq_iff_eq i, Term.beq_iff_eq v, and_assoc]

theorem Term.beq_iff_eq : ∀ a b : Term, a.beq b = true ↔ a = b
  | .var a, b => by cases b <;> simp [Term.beq]
  | .int a, b => by cases b <;> simp [Term.beq]
  | .real a, b => by cases b <;> simp [Term.beq]
  | .boolToInt f, b => by cases b <;> simp [Term.beq, Formula.beq_iff_eq f]
  | .select m i, b => by cases b <;> simp [Term.beq, Memory.beq_iff_eq m, Term.beq_iff_eq i]
  | .add l r, b => by cases b <;> simp [Term.beq, Term.beq_iff_eq l, Term.beq_iff_eq r]
  | .sub l r, b => by cases b <;> simp [Term.beq, Term.beq_iff_eq l, Term.beq_iff_eq r]
  | .mul l r, b => by cases b <;> simp [Term.beq, Term.beq_iff_eq l, Term.beq_iff_eq r]
  | .div l r, b => by cases b <;> simp [Term.beq, Term.beq_iff_eq l, Term.beq_iff_eq r]
  | .rem l r, b => by cases b <;> simp [Term.beq, Term.beq_iff_eq l, Term.beq_iff_eq r]
  | .neg t, b => by cases b <;> simp [Term.beq, Term.beq_iff_eq t]

theorem Formula.beq_iff_eq : ∀ a b : Formula, a.beq b = true ↔ a = b
  | .tru, b => by cases b <;> simp [Formula.beq]
  | .fls, b => by cases b <;> simp [Formula.beq]
  | .var a, b => by cases b <;> simp [Formula.beq]
  | .not f, b => by cases b <;> simp [Formula.beq, Formula.beq_iff_eq f]
  | .and f, b => by cases b <;> simp [Formula.beq, Formula.beqList_iff_eq f]
  | .or f, b => by cases b <;> simp [Formula.beq, Formula.beqList_iff_eq f]
  | .implies l r, b => by
    cases b <;> simp [Formula.beq, Formula.beq_iff_eq l, Formula.beq_iff_eq r]
  | .eq l r, b => by cases b <;> simp [Formula.beq, Term.beq_iff_eq l, Term.beq_iff_eq r]
  | .memoryEq l r, b => by
    cases b <;> simp [Formula.beq, Memory.beq_iff_eq l, Memory.beq_iff_eq r]
  | .lt l r, b => by cases b <;> simp [Formula.beq, Term.beq_iff_eq l, Term.beq_iff_eq r]
  | .le l r, b => by cases b <;> simp [Formula.beq, Term.beq_iff_eq l, Term.beq_iff_eq r]
  | .gt l r, b => by cases b <;> simp [Formula.beq, Term.beq_iff_eq l, Term.beq_iff_eq r]
  | .ge l r, b => by cases b <;> simp [Formula.beq, Term.beq_iff_eq l, Term.beq_iff_eq r]

theorem Formula.beqList_iff_eq :
    ∀ a b : List Formula, Formula.beqList a b = true ↔ a = b
  | [], b => by cases b <;> simp [Formula.beqList]
  | f :: fs, b => by
    cases b <;> simp [Formula.beqList, Formula.beq_iff_eq f, Formula.beqList_iff_eq fs]

end

instance : DecidableEq Memory := fun a b ↦ decidable_of_iff _ (Memory.beq_iff_eq a b)

instance : DecidableEq Term := fun a b ↦ decidable_of_iff _ (Term.beq_iff_eq a b)

instance : DecidableEq Formula := fun a b ↦ decidable_of_iff _ (Formula.beq_iff_eq a b)

/-! ### Constructors and simplification -/

/-- The two n-ary connectives, whose simplification the source writes out twice. -/
inductive Connective
  | conj
  | disj

namespace Connective

/-- The identity of the connective: a child equal to it is dropped. -/
def unit : Connective → Formula
  | conj => .tru
  | disj => .fls

/-- The absorber of the connective: a child equal to it is the whole result. -/
def absorber : Connective → Formula
  | conj => .fls
  | disj => .tru

/-- The raw n-ary node of the connective. -/
def node : Connective → List Formula → Formula
  | conj, items => .and items
  | disj, items => .or items

/-- The children of a formula that is itself a node of the connective. -/
def children? : Connective → Formula → Option (List Formula)
  | conj, .and items => some items
  | disj, .or items => some items
  | _, _ => none

/-- Append a child unless it is already present. -/
def pushNew (flat : List Formula) (item : Formula) : List Formula :=
  if item ∈ flat then flat else flat ++ [item]

/-- The loop of `simplify`: skip identities, stop at an absorber (`none`), splice the children
of nested nodes of the same connective, and drop duplicates. -/
def flatten (c : Connective) (flat : List Formula) : List Formula → Option (List Formula)
  | [] => some flat
  | item :: rest =>
    if item = c.unit then flatten c flat rest
    else if item = c.absorber then none
    else
      match c.children? item with
      | some inner => flatten c (inner.foldl pushNew flat) rest
      | none => flatten c (pushNew flat item) rest

/-- `Formula::simplify` on an n-ary node. -/
def simplify (c : Connective) (items : List Formula) : Formula :=
  match c.flatten [] items with
  | none => c.absorber
  | some [] => c.unit
  | some [f] => f
  | some flat => c.node flat

end Connective

namespace Formula

/-- `Formula::and`. -/
def mkAnd (lhs rhs : Formula) : Formula := Connective.conj.simplify [lhs, rhs]

/-- `Formula::and_many`. -/
def andMany (items : List Formula) : Formula := Connective.conj.simplify items

/-- `Formula::or`. -/
def mkOr (lhs rhs : Formula) : Formula := Connective.disj.simplify [lhs, rhs]

/-- `Formula::or_many`. -/
def orMany (items : List Formula) : Formula := Connective.disj.simplify items

/-- `Formula::implies`. -/
def mkImplies (lhs rhs : Formula) : Formula :=
  if lhs = .fls ∨ rhs = .tru then .tru
  else if lhs = .tru then rhs
  else .implies lhs rhs

/-- `Formula::iff`. -/
def mkIff (lhs rhs : Formula) : Formula := mkAnd (mkImplies lhs rhs) (mkImplies rhs lhs)

/-- `Formula::bool_var`. -/
def boolVar (name : String) : Formula := .var (Var.bool name)

example : mkAnd .tru (boolVar "p") = boolVar "p" := by decide

end Formula

/-! ### Sort checking -/

/-- The errors of sort checking. -/
inductive FormulaError
  | expectedBooleanSort (found : VarSort)
  | expectedNumericSort (found : VarSort)
  | expectedIntegerSort (found : VarSort)
  | mixedSorts (left right : VarSort)
  deriving DecidableEq

/-- The check shared by the arithmetic operators and by all numeric comparisons: both sides
have one numeric sort, which is returned. -/
def numericOperands (lhs rhs : Except FormulaError VarSort) : Except FormulaError VarSort := do
  let lhsSort ← lhs
  let rhsSort ← rhs
  if lhsSort ≠ rhsSort then throw (.mixedSorts lhsSort rhsSort)
  else if lhsSort = .bool then throw (.expectedNumericSort .bool)
  else return lhsSort

mutual

/-- `Term::sort`. The memory below a `select` is not checked, as in the source. -/
def Term.sort : Term → Except FormulaError VarSort
  | .var v => .ok v.sort
  | .int _ => .ok .int
  | .real _ => .ok .real
  | .boolToInt value => do
    value.validate
    return .int
  | .select _ index => do
    let indexSort ← index.sort
    if indexSort ≠ .int then throw (.expectedIntegerSort indexSort) else return .int
  | .add lhs rhs | .sub lhs rhs | .mul lhs rhs | .div lhs rhs | .rem lhs rhs =>
    numericOperands lhs.sort rhs.sort
  | .neg inner => do
    let sort ← inner.sort
    if sort = .bool then throw (.expectedNumericSort .bool) else return sort
termination_by structural t => t

/-- `Formula::validate`. -/
def Formula.validate : Formula → Except FormulaError Unit
  | .tru | .fls => .ok ()
  | .var v => if v.sort ≠ .bool then throw (.expectedBooleanSort v.sort) else .ok ()
  | .not inner => inner.validate
  | .and items | .or items => Formula.validateList items
  | .implies lhs rhs => do
    lhs.validate
    rhs.validate
  | .eq lhs rhs | .lt lhs rhs | .le lhs rhs | .gt lhs rhs | .ge lhs rhs => do
    let _ ← numericOperands lhs.sort rhs.sort
    return ()
  | .memoryEq lhs rhs => do
    lhs.validate
    rhs.validate
termination_by structural f => f

/-- The loop of `Formula::validate` over the children of an n-ary node. -/
def Formula.validateList : List Formula → Except FormulaError Unit
  | [] => .ok ()
  | item :: rest => do
    item.validate
    Formula.validateList rest
termination_by structural items => items

/-- `validate_memory`. -/
def Memory.validate : Memory → Except FormulaError Unit
  | .var _ => .ok ()
  | .store inner index value => do
    inner.validate
    let indexSort ← index.sort
    let valueSort ← value.sort
    if indexSort ≠ .int then throw (.expectedIntegerSort indexSort)
    else if valueSort ≠ .int then throw (.expectedIntegerSort valueSort)
    else return ()
termination_by structural m => m

end

/-- The quotient of two machine integers. There is none where the division panics: at a zero
divisor, which the callers exclude themselves, and at `i64::MIN / -1`. -/
def divideInt64 (n d : Int64) : Option Int64 :=
  if d = 0 ∨ n = Int64.minValue ∧ d = -1 then none else some (n / d)

/-- The remainder of two machine integers, which panics where the division does. -/
def remainderInt64 (n d : Int64) : Option Int64 :=
  if d = 0 ∨ n = Int64.minValue ∧ d = -1 then none else some (n % d)

/-- `Term::try_as_constant_int`: folds machine arithmetic. -/
def Term.tryAsConstantInt : Term → Option Int64
  | .int n => some n
  | .add l r => do return (← l.tryAsConstantInt) + (← r.tryAsConstantInt)
  | .sub l r => do return (← l.tryAsConstantInt) - (← r.tryAsConstantInt)
  | .mul l r => do return (← l.tryAsConstantInt) * (← r.tryAsConstantInt)
  | .div l r => do
    let d ← r.tryAsConstantInt
    if d = 0 then none else divideInt64 (← l.tryAsConstantInt) d
  | .rem l r => do
    let d ← r.tryAsConstantInt
    if d = 0 then none else remainderInt64 (← l.tryAsConstantInt) d
  | .neg inner => do return -(← inner.tryAsConstantInt)
  | .var _ | .real _ | .boolToInt _ | .select _ _ => none
termination_by structural t => t

end MayMust
