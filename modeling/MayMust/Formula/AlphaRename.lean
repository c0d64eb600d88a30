import MayMust.Formula.Substitution

/-!
# Alpha-renaming

`rename_formula` of the source renames the variables and the regions of a formula and keeps its
shape: unlike the substitutions it does not go through the simplifying constructors. The names of
variables and of regions are renamed by two functions, and `rename_formula_uniform` uses one for
both.

Renaming a formula is renaming backward in the state (`eval_renameFormula`): the renamed formula
says of a state what the formula says of the state in which every name has the value of its new
name.
-/

namespace MayMust

/-- A variable with its name renamed. -/
def Var.rename (varRename : String → String) (v : Var) : Var := ⟨varRename v.name, v.sort⟩

mutual

/-- `rename_memory`. -/
def renameMemory (varRename regionRename : String → String) : Memory → Memory
  | .var name => .var (regionRename name)
  | .store inner index value =>
    .store (renameMemory varRename regionRename inner) (renameTerm varRename regionRename index)
      (renameTerm varRename regionRename value)
termination_by structural m => m

/-- `rename_term`. -/
def renameTerm (varRename regionRename : String → String) : Term → Term
  | .var v => .var (v.rename varRename)
  | .int value => .int value
  | .real value => .real value
  | .boolToInt value => .boolToInt (renameFormula varRename regionRename value)
  | .select memory index =>
    .select (renameMemory varRename regionRename memory) (renameTerm varRename regionRename index)
  | .add lhs rhs =>
    .add (renameTerm varRename regionRename lhs) (renameTerm varRename regionRename rhs)
  | .sub lhs rhs =>
    .sub (renameTerm varRename regionRename lhs) (renameTerm varRename regionRename rhs)
  | .mul lhs rhs =>
    .mul (renameTerm varRename regionRename lhs) (renameTerm varRename regionRename rhs)
  | .div lhs rhs =>
    .div (renameTerm varRename regionRename lhs) (renameTerm varRename regionRename rhs)
  | .rem lhs rhs =>
    .rem (renameTerm varRename regionRename lhs) (renameTerm varRename regionRename rhs)
  | .neg inner => .neg (renameTerm varRename regionRename inner)
termination_by structural t => t

/-- `rename_formula`. -/
def renameFormula (varRename regionRename : String → String) : Formula → Formula
  | .tru => .tru
  | .fls => .fls
  | .var v => .var (v.rename varRename)
  | .not inner => .not (renameFormula varRename regionRename inner)
  | .and items => .and (renameFormulas varRename regionRename items)
  | .or items => .or (renameFormulas varRename regionRename items)
  | .implies lhs rhs =>
    .implies (renameFormula varRename regionRename lhs) (renameFormula varRename regionRename rhs)
  | .eq lhs rhs =>
    .eq (renameTerm varRename regionRename lhs) (renameTerm varRename regionRename rhs)
  | .memoryEq lhs rhs =>
    .memoryEq (renameMemory varRename regionRename lhs) (renameMemory varRename regionRename rhs)
  | .lt lhs rhs =>
    .lt (renameTerm varRename regionRename lhs) (renameTerm varRename regionRename rhs)
  | .le lhs rhs =>
    .le (renameTerm varRename regionRename lhs) (renameTerm varRename regionRename rhs)
  | .gt lhs rhs =>
    .gt (renameTerm varRename regionRename lhs) (renameTerm varRename regionRename rhs)
  | .ge lhs rhs =>
    .ge (renameTerm varRename regionRename lhs) (renameTerm varRename regionRename rhs)
termination_by structural f => f

/-- `rename_formula` on the items of a conjunction or a disjunction. -/
def renameFormulas (varRename regionRename : String → String) : List Formula → List Formula
  | [] => []
  | item :: rest =>
    renameFormula varRename regionRename item :: renameFormulas varRename regionRename rest
termination_by structural items => items

end

/-- `rename_formula_uniform`. -/
def renameFormulaUniform (rename : String → String) (φ : Formula) : Formula :=
  renameFormula rename rename φ

/-- The state in which every name has the value of its new name. -/
def State.pullback (varRename regionRename : String → String) (s : State) : State where
  scalars := { s.scalars with
    bools := fun name ↦ s.scalars.bools (varRename name)
    ints := fun name ↦ s.scalars.ints (varRename name)
    reals := fun name ↦ s.scalars.reals (varRename name) }
  memory := fun name ↦ s.memory (regionRename name)

section Semantics

variable {varRename regionRename : String → String} {s : State}

@[simp] theorem State.lookup_pullback (v : Var) :
    (s.pullback varRename regionRename).lookup v = s.lookup (v.rename varRename) := by
  rcases v with ⟨name, _ | _ | _⟩ <;> rfl

@[simp] theorem State.memory_pullback (name : String) :
    (s.pullback varRename regionRename).memory name = s.memory (regionRename name) := rfl

@[simp] theorem State.sameUndefined_pullback :
    s.SameUndefined (s.pullback varRename regionRename) := ⟨rfl, rfl, rfl⟩

mutual

theorem eval_renameMemory : ∀ mem : Memory,
    (renameMemory varRename regionRename mem).eval s = mem.eval (s.pullback varRename regionRename)
  | .var name => rfl
  | .store inner index value => by
    simp only [renameMemory, Memory.eval]
    rw [eval_renameMemory inner, eval_renameTerm index, eval_renameTerm value]

theorem eval_renameTerm : ∀ t : Term,
    (renameTerm varRename regionRename t).eval s = t.eval (s.pullback varRename regionRename)
  | .var v => (State.lookup_pullback v).symm
  | .int _ => by simp only [renameTerm, Term.eval]
  | .real _ => by simp only [renameTerm, Term.eval]
  | .boolToInt value => by
    simp only [renameTerm, Term.eval]
    rw [eval_renameFormula value]
  | .select memory index => by
    simp only [renameTerm, Term.eval]
    rw [eval_renameMemory memory, eval_renameTerm index]
  | .add lhs rhs | .sub lhs rhs | .mul lhs rhs => by
    simp only [renameTerm, Term.eval]
    rw [eval_renameTerm lhs, eval_renameTerm rhs]
  -- The reading of division by zero is part of the state and is not renamed.
  | .div lhs rhs | .rem lhs rhs => by
    simp only [renameTerm, Term.eval]
    rw [eval_renameTerm lhs, eval_renameTerm rhs]
    rfl
  | .neg inner => by
    simp only [renameTerm, Term.eval]
    rw [eval_renameTerm inner]

/-- Renaming a formula is renaming backward in the state. -/
theorem eval_renameFormula : ∀ φ : Formula,
    (renameFormula varRename regionRename φ).eval s = φ.eval (s.pullback varRename regionRename)
  | .tru => rfl
  | .fls => rfl
  | .var v => congrArg Value.isTrue (State.lookup_pullback v).symm
  | .not inner => congrArg (!·) (eval_renameFormula inner)
  | .and items => by
    simp only [renameFormula, Formula.eval]
    exact (eval_renameFormulas items).1
  | .or items => by
    simp only [renameFormula, Formula.eval]
    exact (eval_renameFormulas items).2
  | .implies lhs rhs => by
    simp only [renameFormula, Formula.eval]
    rw [eval_renameFormula lhs, eval_renameFormula rhs]
  | .eq lhs rhs | .lt lhs rhs | .le lhs rhs | .gt lhs rhs | .ge lhs rhs => by
    simp only [renameFormula, Formula.eval]
    rw [eval_renameTerm lhs, eval_renameTerm rhs]
  | .memoryEq lhs rhs => by
    simp only [renameFormula, Formula.eval]
    rw [eval_renameMemory lhs, eval_renameMemory rhs]

theorem eval_renameFormulas : ∀ items : List Formula,
    Formula.evalAll s (renameFormulas varRename regionRename items) =
        Formula.evalAll (s.pullback varRename regionRename) items ∧
      Formula.evalAny s (renameFormulas varRename regionRename items) =
        Formula.evalAny (s.pullback varRename regionRename) items
  | [] => ⟨rfl, rfl⟩
  | item :: rest => by
    obtain ⟨hall, hany⟩ := eval_renameFormulas rest
    simp only [renameFormulas, Formula.evalAll, Formula.evalAny]
    rw [eval_renameFormula item, hall, hany]
    exact ⟨rfl, rfl⟩

end

theorem holds_renameFormula {φ : Formula} :
    (renameFormula varRename regionRename φ).Holds s ↔
      φ.Holds (s.pullback varRename regionRename) := by
  rw [Formula.Holds, Formula.Holds, eval_renameFormula]

theorem holds_renameFormulaUniform {rename : String → String} {φ : Formula} :
    (renameFormulaUniform rename φ).Holds s ↔ φ.Holds (s.pullback rename rename) :=
  holds_renameFormula

end Semantics

/-- A leaf with its name renamed. -/
def Leaf.rename (varRename regionRename : String → String) : Leaf → Leaf
  | .boolVar v => .boolVar (v.rename varRename)
  | .termVar v => .termVar (v.rename varRename)
  | .region name => .region (regionRename name)

section Leaves

variable {varRename regionRename : String → String}

mutual

theorem leaves_renameMemory : ∀ mem : Memory, (renameMemory varRename regionRename mem).leaves =
    mem.leaves.map (Leaf.rename varRename regionRename)
  | .var name => rfl
  | .store inner index value => by
    simp only [renameMemory, Memory.leaves, List.map_append]
    rw [leaves_renameMemory inner, leaves_renameTerm index, leaves_renameTerm value]

theorem leaves_renameTerm : ∀ t : Term, (renameTerm varRename regionRename t).leaves =
    t.leaves.map (Leaf.rename varRename regionRename)
  | .var v => rfl
  | .int _ | .real _ => by simp only [renameTerm, Term.leaves, List.map_nil]
  | .boolToInt value => by
    simp only [renameTerm, Term.leaves]
    rw [leaves_renameFormula value]
  | .select memory index => by
    simp only [renameTerm, Term.leaves, List.map_append]
    rw [leaves_renameMemory memory, leaves_renameTerm index]
  | .add lhs rhs | .sub lhs rhs | .mul lhs rhs | .div lhs rhs | .rem lhs rhs => by
    simp only [renameTerm, Term.leaves, List.map_append]
    rw [leaves_renameTerm lhs, leaves_renameTerm rhs]
  | .neg inner => by
    simp only [renameTerm, Term.leaves]
    rw [leaves_renameTerm inner]

/-- The leaves of a renamed formula are the renamed leaves. -/
theorem leaves_renameFormula : ∀ φ : Formula, (renameFormula varRename regionRename φ).leaves =
    φ.leaves.map (Leaf.rename varRename regionRename)
  | .tru | .fls => by simp only [renameFormula, Formula.leaves, List.map_nil]
  | .var v => rfl
  | .not inner => by
    simp only [renameFormula, Formula.leaves]
    rw [leaves_renameFormula inner]
  | .and items | .or items => by
    simp only [renameFormula, Formula.leaves]
    exact leaves_renameFormulas items
  | .implies lhs rhs => by
    simp only [renameFormula, Formula.leaves, List.map_append]
    rw [leaves_renameFormula lhs, leaves_renameFormula rhs]
  | .eq lhs rhs | .lt lhs rhs | .le lhs rhs | .gt lhs rhs | .ge lhs rhs => by
    simp only [renameFormula, Formula.leaves, List.map_append]
    rw [leaves_renameTerm lhs, leaves_renameTerm rhs]
  | .memoryEq lhs rhs => by
    simp only [renameFormula, Formula.leaves, List.map_append]
    rw [leaves_renameMemory lhs, leaves_renameMemory rhs]

theorem leaves_renameFormulas : ∀ items : List Formula,
    Formula.leavesList (renameFormulas varRename regionRename items) =
      (Formula.leavesList items).map (Leaf.rename varRename regionRename)
  | [] => rfl
  | item :: rest => by
    simp only [renameFormulas, Formula.leavesList, List.map_append]
    rw [leaves_renameFormula item, leaves_renameFormulas rest]

end

end Leaves

end MayMust
