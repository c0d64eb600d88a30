import Mathlib.Data.Real.Basic
import Mathlib.Logic.Function.Basic
import MayMust.Formula.Syntax

/-!
# Meaning of formulas

Program states and the truth value of a formula in a state, as the solver lowering of the
source gives it: integers are unbounded, division is Euclidean division, `rem` is the solver's
remainder (its sign follows the divisor), a region is a map from integers to integers, and
`boolToInt` is an if-then-else between `1` and `0`.

* Division and remainder by zero are uninterpreted in the solver. A state therefore carries
  their interpretation (`Scalars.divByZero` and its siblings), which no effect of a program
  ever changes.
* A scalar is looked up at its sort, so a state can only be well sorted. Ill-sorted
  operations, which the sort checker rejects, evaluate to the non-number `Value.bool false`.
* The semantics is the reference the code is compared with, not code, so it is noncomputable:
  equality of memories and of reals is decided classically.
-/

namespace MayMust

/-- The value of a scalar or of a term. -/
inductive Value
  | bool (b : Bool)
  | int (n : ℤ)
  | real (x : ℝ)

namespace Value

/-- The sort of a value. -/
def sort : Value → VarSort
  | bool _ => .bool
  | int _ => .int
  | real _ => .real

/-- The integer a value stands for as a memory index or cell; only integers are well sorted
there. -/
def toInt : Value → ℤ
  | int n => n
  | _ => 0

/-- The truth value of a value; only Booleans are well sorted in a formula position. -/
def isTrue : Value → Bool
  | bool b => b
  | _ => false

@[simp] theorem sort_bool (b : Bool) : (bool b).sort = .bool := rfl
@[simp] theorem sort_int (n : ℤ) : (int n).sort = .int := rfl
@[simp] theorem sort_real (x : ℝ) : (real x).sort = .real := rfl
@[simp] theorem toInt_int (n : ℤ) : (int n).toInt = n := rfl
@[simp] theorem isTrue_bool (b : Bool) : (bool b).isTrue = b := rfl

/-- Apply an arithmetic operator to two numbers of one sort. -/
def arith (onInt : ℤ → ℤ → ℤ) (onReal : ℝ → ℝ → ℝ) : Value → Value → Value
  | int a, int b => int (onInt a b)
  | real a, real b => real (onReal a b)
  | _, _ => bool false

/-- Compare two numbers of one sort. -/
def compare (onInt : ℤ → ℤ → Bool) (onReal : ℝ → ℝ → Bool) : Value → Value → Bool
  | int a, int b => onInt a b
  | real a, real b => onReal a b
  | _, _ => false

/-- Numeric negation. -/
noncomputable def neg : Value → Value
  | int a => int (-a)
  | real a => real (-a)
  | bool _ => bool false

end Value

/-- The scalar part of a state, together with the solver's interpretation of division and
remainder by zero. -/
structure Scalars where
  bools : String → Bool
  ints : String → ℤ
  reals : String → ℝ
  divByZero : ℤ → ℤ
  remByZero : ℤ → ℤ
  realDivByZero : ℝ → ℝ

/-- A program state: scalars and named memory regions. -/
structure State where
  scalars : Scalars
  memory : String → ℤ → ℤ

namespace State

/-- The state in which every scalar and every cell is zero. -/
def zero : State where
  scalars := ⟨fun _ ↦ false, fun _ ↦ 0, fun _ ↦ 0, fun _ ↦ 0, fun _ ↦ 0, fun _ ↦ 0⟩
  memory := fun _ _ ↦ 0

/-- The value of a variable in a state. -/
def lookup (s : State) (v : Var) : Value :=
  match v.sort with
  | .bool => .bool (s.scalars.bools v.name)
  | .int => .int (s.scalars.ints v.name)
  | .real => .real (s.scalars.reals v.name)

/-- Update a scalar. The value must have the variable's sort; otherwise nothing happens. -/
def set (s : State) (v : Var) (x : Value) : State :=
  match v.sort, x with
  | .bool, .bool b =>
    { s with scalars.bools := Function.update s.scalars.bools v.name b }
  | .int, .int n =>
    { s with scalars.ints := Function.update s.scalars.ints v.name n }
  | .real, .real r =>
    { s with scalars.reals := Function.update s.scalars.reals v.name r }
  | _, _ => s

/-- Replace the contents of a region. -/
def setRegion (s : State) (region : String) (contents : ℤ → ℤ) : State :=
  { s with memory := Function.update s.memory region contents }

@[simp] theorem sort_lookup (s : State) (v : Var) : (s.lookup v).sort = v.sort := by
  rcases v with ⟨name, _ | _ | _⟩ <;> rfl

theorem lookup_set_self {s : State} {v : Var} {x : Value} (hx : x.sort = v.sort) :
    (s.set v x).lookup v = x := by
  rcases v with ⟨name, _ | _ | _⟩ <;> cases x <;> simp_all [lookup, set]

theorem lookup_set_of_ne {s : State} {v w : Var} {x : Value} (hw : w ≠ v) :
    (s.set v x).lookup w = s.lookup w := by
  rcases v with ⟨name, _ | _ | _⟩ <;> rcases w with ⟨name', _ | _ | _⟩ <;> cases x <;>
    simp_all [lookup, set]

@[simp] theorem memory_set (s : State) (v : Var) (x : Value) : (s.set v x).memory = s.memory := by
  rcases v with ⟨name, _ | _ | _⟩ <;> cases x <;> rfl

@[simp] theorem lookup_setRegion (s : State) (r : String) (m : ℤ → ℤ) (v : Var) :
    (s.setRegion r m).lookup v = s.lookup v := rfl

@[simp] theorem memory_setRegion_self (s : State) (r : String) (m : ℤ → ℤ) :
    (s.setRegion r m).memory r = m := by simp [setRegion]

theorem memory_setRegion_of_ne {s : State} {r r' : String} {m : ℤ → ℤ} (hr : r' ≠ r) :
    (s.setRegion r m).memory r' = s.memory r' := by simp [setRegion, hr]

@[simp] theorem scalars_setRegion (s : State) (r : String) (m : ℤ → ℤ) :
    (s.setRegion r m).scalars = s.scalars := rfl

/-- Two states interpret division by zero alike. -/
def SameUndefined (s s' : State) : Prop :=
  s.scalars.divByZero = s'.scalars.divByZero ∧ s.scalars.remByZero = s'.scalars.remByZero ∧
    s.scalars.realDivByZero = s'.scalars.realDivByZero

theorem SameUndefined.refl (s : State) : s.SameUndefined s := ⟨rfl, rfl, rfl⟩

theorem SameUndefined.symm {s s' : State} (h : s.SameUndefined s') : s'.SameUndefined s :=
  ⟨h.1.symm, h.2.1.symm, h.2.2.symm⟩

theorem SameUndefined.trans {s s' s'' : State} (h : s.SameUndefined s')
    (h' : s'.SameUndefined s'') : s.SameUndefined s'' :=
  ⟨h.1.trans h'.1, h.2.1.trans h'.2.1, h.2.2.trans h'.2.2⟩

@[simp] theorem sameUndefined_set (s : State) (v : Var) (x : Value) :
    s.SameUndefined (s.set v x) := by
  rcases v with ⟨name, _ | _ | _⟩ <;> cases x <;> exact ⟨rfl, rfl, rfl⟩

@[simp] theorem sameUndefined_setRegion (s : State) (r : String) (m : ℤ → ℤ) :
    s.SameUndefined (s.setRegion r m) := ⟨rfl, rfl, rfl⟩

/-- A state is determined by its scalars, its regions and its reading of division by zero. -/
theorem ext_lookup {s s' : State} (hu : s.SameUndefined s') (hv : ∀ v, s.lookup v = s'.lookup v)
    (hm : ∀ r i, s.memory r i = s'.memory r i) : s = s' := by
  obtain ⟨hd, hr, hq⟩ := hu
  have hb : s.scalars.bools = s'.scalars.bools := by
    funext name; simpa [lookup, Var.bool] using hv (Var.bool name)
  have hi : s.scalars.ints = s'.scalars.ints := by
    funext name; simpa [lookup, Var.int] using hv (Var.int name)
  have hx : s.scalars.reals = s'.scalars.reals := by
    funext name; simpa [lookup, Var.real] using hv (Var.real name)
  have hmem : s.memory = s'.memory := by funext r i; exact hm r i
  rcases s with ⟨⟨⟩, _⟩
  rcases s' with ⟨⟨⟩, _⟩
  simp_all

theorem set_lookup_self (s : State) (v : Var) : s.set v (s.lookup v) = s := by
  refine ext_lookup (SameUndefined.symm (by simp)) (fun w ↦ ?_) (fun r i ↦ by simp)
  by_cases hw : w = v
  · subst hw; exact lookup_set_self (by simp)
  · exact lookup_set_of_ne hw

end State

/-! ### Evaluation -/

/-- The solver's integer division: Euclidean, uninterpreted on a zero divisor. -/
def State.intDiv (s : State) (a b : ℤ) : ℤ := if b = 0 then s.scalars.divByZero a else a / b

/-- The solver's integer remainder: the Euclidean remainder, negated for a negative divisor. -/
def State.intRem (s : State) (a b : ℤ) : ℤ :=
  if b = 0 then s.scalars.remByZero a else if 0 ≤ b then a % b else -(a % b)

open Classical in
/-- Exact division of reals, uninterpreted on a zero divisor. -/
noncomputable def State.realDiv (s : State) (a b : ℝ) : ℝ :=
  if b = 0 then s.scalars.realDivByZero a else a / b

/-- The number a rational literal denotes. -/
noncomputable def Rational.toReal (q : Rational) : ℝ := (q.num.toInt : ℝ) / (q.den.toInt : ℝ)

open Classical in
mutual

/-- The contents of a memory expression in a state. -/
noncomputable def Memory.eval (s : State) : Memory → ℤ → ℤ
  | .var name => s.memory name
  | .store memory index value =>
    Function.update (memory.eval s) (index.eval s).toInt (value.eval s).toInt
termination_by structural m => m

/-- The value of a term in a state. -/
noncomputable def Term.eval (s : State) : Term → Value
  | .var v => s.lookup v
  | .int value => .int value.toInt
  | .real value => .real value.toReal
  | .boolToInt value => .int (if value.eval s then 1 else 0)
  | .select memory index => .int (memory.eval s (index.eval s).toInt)
  | .add lhs rhs => Value.arith (· + ·) (· + ·) (lhs.eval s) (rhs.eval s)
  | .sub lhs rhs => Value.arith (· - ·) (· - ·) (lhs.eval s) (rhs.eval s)
  | .mul lhs rhs => Value.arith (· * ·) (· * ·) (lhs.eval s) (rhs.eval s)
  | .div lhs rhs => Value.arith s.intDiv s.realDiv (lhs.eval s) (rhs.eval s)
  -- A real remainder passes `Term::sort`, but the solver lowering rejects it: any real will do.
  | .rem lhs rhs => Value.arith s.intRem (fun _ _ ↦ 0) (lhs.eval s) (rhs.eval s)
  | .neg inner => (inner.eval s).neg
termination_by structural t => t

/-- The truth value of a formula in a state. -/
noncomputable def Formula.eval (s : State) : Formula → Bool
  | .tru => true
  | .fls => false
  | .var v => (s.lookup v).isTrue
  | .not inner => !inner.eval s
  | .and items => Formula.evalAll s items
  | .or items => Formula.evalAny s items
  | .implies lhs rhs => !lhs.eval s || rhs.eval s
  | .eq lhs rhs => Value.compare (· == ·) (fun a b ↦ decide (a = b)) (lhs.eval s) (rhs.eval s)
  | .memoryEq lhs rhs => decide (lhs.eval s = rhs.eval s)
  | .lt lhs rhs =>
    Value.compare (fun a b ↦ decide (a < b)) (fun a b ↦ decide (a < b)) (lhs.eval s) (rhs.eval s)
  | .le lhs rhs =>
    Value.compare (fun a b ↦ decide (a ≤ b)) (fun a b ↦ decide (a ≤ b)) (lhs.eval s) (rhs.eval s)
  | .gt lhs rhs =>
    Value.compare (fun a b ↦ decide (b < a)) (fun a b ↦ decide (b < a)) (lhs.eval s) (rhs.eval s)
  | .ge lhs rhs =>
    Value.compare (fun a b ↦ decide (b ≤ a)) (fun a b ↦ decide (b ≤ a)) (lhs.eval s) (rhs.eval s)
termination_by structural f => f

/-- Whether all formulas of a list hold. -/
noncomputable def Formula.evalAll (s : State) : List Formula → Bool
  | [] => true
  | item :: rest => item.eval s && Formula.evalAll s rest
termination_by structural items => items

/-- Whether some formula of a list holds. -/
noncomputable def Formula.evalAny (s : State) : List Formula → Bool
  | [] => false
  | item :: rest => item.eval s || Formula.evalAny s rest
termination_by structural items => items

end

/-- If the term folds to a machine integer, that integer is its value: nothing overflowed, and
no quotient was rounded in the wrong direction. -/
def Term.FoldsExactly (s : State) (t : Term) : Prop :=
  ∀ k, t.tryAsConstantInt = some k → t.eval s = .int k.toInt

namespace Formula

/-- The formula holds in the state. -/
def Holds (s : State) (φ : Formula) : Prop := φ.eval s = true

theorem evalAll_eq_all (s : State) (items : List Formula) :
    evalAll s items = items.all (·.eval s) := by
  induction items with
  | nil => rfl
  | cons item rest ih => exact congrArg (item.eval s && ·) ih

theorem evalAny_eq_any (s : State) (items : List Formula) :
    evalAny s items = items.any (·.eval s) := by
  induction items with
  | nil => rfl
  | cons item rest ih => exact congrArg (item.eval s || ·) ih

@[simp] theorem holds_tru (s : State) : Holds s .tru := rfl

@[simp] theorem not_holds_fls (s : State) : ¬ Holds s .fls := Bool.false_ne_true

@[simp] theorem holds_var (s : State) (v : Var) :
    Holds s (.var v) ↔ (s.lookup v).isTrue = true := Iff.rfl

@[simp] theorem holds_not (s : State) (φ : Formula) : Holds s (.not φ) ↔ ¬ Holds s φ := by
  show (!φ.eval s) = true ↔ ¬ φ.eval s = true
  simp

@[simp] theorem holds_and (s : State) (items : List Formula) :
    Holds s (.and items) ↔ ∀ φ ∈ items, Holds s φ := by
  show evalAll s items = true ↔ _
  rw [evalAll_eq_all, List.all_eq_true]
  exact Iff.rfl

@[simp] theorem holds_or (s : State) (items : List Formula) :
    Holds s (.or items) ↔ ∃ φ ∈ items, Holds s φ := by
  show evalAny s items = true ↔ _
  rw [evalAny_eq_any, List.any_eq_true]
  exact Iff.rfl

@[simp] theorem holds_implies (s : State) (φ ψ : Formula) :
    Holds s (.implies φ ψ) ↔ (Holds s φ → Holds s ψ) := by
  show (!φ.eval s || ψ.eval s) = true ↔ (φ.eval s = true → ψ.eval s = true)
  cases φ.eval s <;> simp

@[simp] theorem holds_memoryEq (s : State) (m m' : Memory) :
    Holds s (.memoryEq m m') ↔ m.eval s = m'.eval s :=
  @decide_eq_true_iff _ (Classical.propDecidable _)

end Formula

theorem Value.eq_of_compare {v w : Value}
    (h :
      Value.compare (· == ·) (fun a b ↦ @decide (a = b) (Classical.propDecidable _)) v w = true) :
    v = w ∧ v.sort ≠ .bool := by
  cases v <;> cases w <;> simp_all [Value.compare]

/-- An equation between terms holds only between equal numbers. -/
theorem Formula.eval_eq_of_holds_eq {s : State} {t u : Term} (h : (Formula.eq t u).Holds s) :
    t.eval s = u.eval s ∧ (t.eval s).sort ≠ .bool :=
  Value.eq_of_compare h

/-! ### The simplifying constructors mean the plain connectives -/

/-- A reading of formulas that takes the connectives at their word. -/
structure Formula.Logical (P : Formula → Prop) : Prop where
  tru : P .tru
  fls : ¬ P .fls
  and_iff : ∀ items, P (.and items) ↔ ∀ φ ∈ items, P φ
  or_iff : ∀ items, P (.or items) ↔ ∃ φ ∈ items, P φ
  implies_iff : ∀ φ ψ, P (.implies φ ψ) ↔ (P φ → P ψ)

theorem Formula.logical_holds (s : State) : Formula.Logical (Formula.Holds s) where
  tru := holds_tru s
  fls := not_holds_fls s
  and_iff := holds_and s
  or_iff := holds_or s
  implies_iff := holds_implies s

namespace Connective

/-- What the connective says of a list of formulas. -/
def Denotes (s : State) : Connective → List Formula → Prop
  | conj, items => ∀ φ ∈ items, φ.Holds s
  | disj, items => ∃ φ ∈ items, φ.Holds s

/-- What the connective says of a list of formulas, under a reading of formulas. -/
def Reads (P : Formula → Prop) : Connective → List Formula → Prop
  | conj, items => ∀ φ ∈ items, P φ
  | disj, items => ∃ φ ∈ items, P φ

theorem mem_pushNew {flat : List Formula} {item φ : Formula} :
    φ ∈ pushNew flat item ↔ φ ∈ flat ∨ φ = item := by
  rw [pushNew]
  split
  · constructor
    · exact Or.inl
    · rintro (h | rfl) <;> assumption
  · simp

theorem mem_foldl_pushNew {inner flat : List Formula} {φ : Formula} :
    φ ∈ inner.foldl pushNew flat ↔ φ ∈ flat ∨ φ ∈ inner := by
  induction inner generalizing flat with
  | nil => simp
  | cons item rest ih => simp [ih, mem_pushNew, or_assoc]

section Reads

variable {P : Formula → Prop} (hP : Formula.Logical P) (c : Connective)
include hP

omit hP in
theorem reads_congr {items items' : List Formula} (h : ∀ φ, φ ∈ items ↔ φ ∈ items') :
    c.Reads P items ↔ c.Reads P items' := by
  cases c <;> simp [Reads, h]

theorem reads_unit_cons (items : List Formula) :
    c.Reads P (c.unit :: items) ↔ c.Reads P items := by
  cases c <;> simp [Reads, unit, hP.tru, hP.fls]

theorem reads_absorber_cons (items : List Formula) :
    c.Reads P (c.absorber :: items) ↔ P c.absorber := by
  cases c <;> simp [Reads, absorber, hP.tru, hP.fls]

theorem reads_node_cons {item : Formula} {inner : List Formula}
    (h : c.children? item = some inner) (items : List Formula) :
    c.Reads P (item :: items) ↔ c.Reads P (inner ++ items) := by
  cases c <;> cases item <;>
    simp_all [children?, Reads, or_imp, forall_and, or_and_right, exists_or, hP.and_iff, hP.or_iff]

theorem node_iff (items : List Formula) : P (c.node items) ↔ c.Reads P items := by
  cases c
  · exact hP.and_iff items
  · exact hP.or_iff items

/-- The loop of `simplify` keeps the meaning of the children it has and of those to come. -/
theorem reads_flatten (items flat : List Formula) :
    (match c.flatten flat items with
      | none => P c.absorber
      | some out => c.Reads P out) ↔ c.Reads P (items ++ flat) := by
  induction items generalizing flat with
  | nil => simp [flatten]
  | cons item rest ih =>
    rw [flatten]
    by_cases hunit : item = c.unit
    · rw [if_pos hunit, ih, hunit, List.cons_append, reads_unit_cons hP]
    rw [if_neg hunit]
    by_cases habs : item = c.absorber
    · rw [if_pos habs, habs, List.cons_append, reads_absorber_cons hP]
    rw [if_neg habs]
    cases hitem : c.children? item with
    | some inner =>
      rw [ih, List.cons_append, reads_node_cons hP c hitem]
      exact reads_congr c fun φ ↦ by simp [mem_foldl_pushNew]; tauto
    | none =>
      rw [ih]
      exact reads_congr c fun φ ↦ by simp [mem_pushNew]; tauto

/-- Simplification keeps the meaning under every reading that takes the connectives at their
word. -/
theorem simplify_iff (items : List Formula) : P (c.simplify items) ↔ c.Reads P items := by
  have h := reads_flatten hP c items []
  rw [List.append_nil] at h
  rw [← h, simplify]
  split
  · rename_i hnone; rw [hnone]
  · rename_i hnil
    rw [hnil]
    cases c <;> simp [unit, Reads, hP.tru, hP.fls]
  · rename_i hone
    rw [hone]
    cases c <;> simp [Reads]
  · rename_i flat _ _ hflat
    rw [hflat]
    exact node_iff hP c flat

end Reads

theorem holds_simplify {s : State} (c : Connective) (items : List Formula) :
    (c.simplify items).Holds s ↔ c.Denotes s items := by
  rw [simplify_iff (Formula.logical_holds s)]
  cases c <;> rfl

end Connective

namespace Formula

variable {s : State}

@[simp] theorem holds_mkAnd (φ ψ : Formula) : (mkAnd φ ψ).Holds s ↔ φ.Holds s ∧ ψ.Holds s := by
  simp [mkAnd, Connective.holds_simplify, Connective.Denotes]

@[simp] theorem holds_andMany (items : List Formula) :
    (andMany items).Holds s ↔ ∀ φ ∈ items, φ.Holds s :=
  Connective.holds_simplify .conj items

@[simp] theorem holds_mkOr (φ ψ : Formula) : (mkOr φ ψ).Holds s ↔ φ.Holds s ∨ ψ.Holds s := by
  simp [mkOr, Connective.holds_simplify, Connective.Denotes]

@[simp] theorem holds_orMany (items : List Formula) :
    (orMany items).Holds s ↔ ∃ φ ∈ items, φ.Holds s :=
  Connective.holds_simplify .disj items

theorem Logical.mkImplies_iff {P : Formula → Prop} (hP : Logical P) (φ ψ : Formula) :
    P (mkImplies φ ψ) ↔ (P φ → P ψ) := by
  rw [mkImplies]
  split
  · rename_i h
    rcases h with rfl | rfl <;> simp [hP.tru, hP.fls]
  · split
    · rename_i h
      subst h
      simp [hP.tru]
    · exact hP.implies_iff φ ψ

@[simp] theorem holds_mkImplies (φ ψ : Formula) :
    (mkImplies φ ψ).Holds s ↔ (φ.Holds s → ψ.Holds s) :=
  (logical_holds s).mkImplies_iff φ ψ

@[simp] theorem holds_mkIff (φ ψ : Formula) : (mkIff φ ψ).Holds s ↔ (φ.Holds s ↔ ψ.Holds s) := by
  simp only [mkIff, holds_mkAnd, holds_mkImplies]
  exact iff_iff_implies_and_implies.symm

end Formula

end MayMust
