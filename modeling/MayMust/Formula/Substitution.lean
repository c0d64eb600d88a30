import MayMust.Formula.Semantics

/-!
# Leaves and substitution

The source has three substitution passes over formulas: a term for a variable
(`substitute_var_in_formula`), a memory expression for a region
(`substitute_memory_var_in_formula`) and a formula for a Boolean variable
(`substitute_bool_var_in_formula`). The first two are one traversal with different leaves: they
rebuild every node with the simplifying constructors and replace leaves on the way. That
traversal is `Formula.rebuild`, and `Formula.holds_rebuild` is the one semantic fact about it.

The third pass stops at comparisons. It never enters terms, so a Boolean variable that a term
reads through `boolToInt` survives it; the variables in that position are
`Formula.termLeaves`, and `Formula.holds_substituteBoolVar` carries the side condition that the
replaced variable is not one of them.
-/

namespace MayMust

/-- A leaf of the syntax: a Boolean variable in a formula position, a variable in a term
position, or a memory region. -/
inductive Leaf
  | boolVar (v : Var)
  | termVar (v : Var)
  | region (name : String)
  deriving DecidableEq

/-- Two states agree on what a leaf reads. -/
def Leaf.Same (s s' : State) : Leaf → Prop
  | boolVar v => s.lookup v = s'.lookup v
  | termVar v => s.lookup v = s'.lookup v
  | region name => s.memory name = s'.memory name

theorem Leaf.Same.refl (s : State) (x : Leaf) : x.Same s s := by cases x <;> rfl

theorem Leaf.Same.symm {s s' : State} {x : Leaf} (h : x.Same s s') : x.Same s' s := by
  cases x <;> exact Eq.symm h

theorem Leaf.Same.trans {s s' s'' : State} {x : Leaf} (h : x.Same s s') (h' : x.Same s' s'') :
    x.Same s s'' := by
  cases x <;> exact Eq.trans h h'

mutual

/-- The leaves of a memory expression. -/
def Memory.leaves : Memory → List Leaf
  | .var name => [.region name]
  | .store memory index value => memory.leaves ++ index.leaves ++ value.leaves
termination_by structural m => m

/-- The leaves of a term, those of coerced formulas included. -/
def Term.leaves : Term → List Leaf
  | .var v => [.termVar v]
  | .int _ | .real _ => []
  | .boolToInt value => value.leaves
  | .select memory index => memory.leaves ++ index.leaves
  | .add lhs rhs | .sub lhs rhs | .mul lhs rhs | .div lhs rhs | .rem lhs rhs =>
    lhs.leaves ++ rhs.leaves
  | .neg inner => inner.leaves
termination_by structural t => t

/-- The leaves of a formula. -/
def Formula.leaves : Formula → List Leaf
  | .tru | .fls => []
  | .var v => [.boolVar v]
  | .not inner => inner.leaves
  | .and items | .or items => Formula.leavesList items
  | .implies lhs rhs => lhs.leaves ++ rhs.leaves
  | .eq lhs rhs | .lt lhs rhs | .le lhs rhs | .gt lhs rhs | .ge lhs rhs =>
    lhs.leaves ++ rhs.leaves
  | .memoryEq lhs rhs => lhs.leaves ++ rhs.leaves
termination_by structural f => f

/-- The leaves of a list of formulas. -/
def Formula.leavesList : List Formula → List Leaf
  | [] => []
  | item :: rest => item.leaves ++ Formula.leavesList rest
termination_by structural items => items

end

mutual

/-- The leaves a formula reads below terms and memory expressions only. A Boolean variable
among them is read through `boolToInt`. -/
def Formula.termLeaves : Formula → List Leaf
  | .tru | .fls | .var _ => []
  | .not inner => inner.termLeaves
  | .and items | .or items => Formula.termLeavesList items
  | .implies lhs rhs => lhs.termLeaves ++ rhs.termLeaves
  | .eq lhs rhs | .lt lhs rhs | .le lhs rhs | .gt lhs rhs | .ge lhs rhs =>
    lhs.leaves ++ rhs.leaves
  | .memoryEq lhs rhs => lhs.leaves ++ rhs.leaves
termination_by structural f => f

/-- `Formula.termLeaves` on a list of formulas. -/
def Formula.termLeavesList : List Formula → List Leaf
  | [] => []
  | item :: rest => item.termLeaves ++ Formula.termLeavesList rest
termination_by structural items => items

end

theorem Formula.mem_leavesList {items : List Formula} {x : Leaf} :
    x ∈ Formula.leavesList items ↔ ∃ φ ∈ items, x ∈ φ.leaves := by
  induction items with
  | nil => simp [Formula.leavesList]
  | cons item rest ih => simp [Formula.leavesList, ih]

theorem Formula.mem_termLeavesList {items : List Formula} {x : Leaf} :
    x ∈ Formula.termLeavesList items ↔ ∃ φ ∈ items, x ∈ φ.termLeaves := by
  induction items with
  | nil => simp [Formula.termLeavesList]
  | cons item rest ih => simp [Formula.termLeavesList, ih]

/-! ### Rebuilding a formula with new leaves -/

/-- What to put in the place of each leaf. -/
structure LeafMap where
  boolVar : Var → Formula
  termVar : Var → Term
  region : String → Memory

mutual

/-- Rebuild a memory expression with new leaves. -/
def Memory.rebuild (m : LeafMap) : Memory → Memory
  | .var name => m.region name
  | .store inner index value => .store (inner.rebuild m) (index.rebuild m) (value.rebuild m)
termination_by structural t => t

/-- Rebuild a term with new leaves. -/
def Term.rebuild (m : LeafMap) : Term → Term
  | .var v => m.termVar v
  | .int value => .int value
  | .real value => .real value
  | .boolToInt value => .boolToInt (value.rebuild m)
  | .select memory index => .select (memory.rebuild m) (index.rebuild m)
  | .add lhs rhs => .add (lhs.rebuild m) (rhs.rebuild m)
  | .sub lhs rhs => .sub (lhs.rebuild m) (rhs.rebuild m)
  | .mul lhs rhs => .mul (lhs.rebuild m) (rhs.rebuild m)
  | .div lhs rhs => .div (lhs.rebuild m) (rhs.rebuild m)
  | .rem lhs rhs => .rem (lhs.rebuild m) (rhs.rebuild m)
  | .neg inner => .neg (inner.rebuild m)
termination_by structural t => t

/-- Rebuild a formula with new leaves, through the simplifying constructors. -/
def Formula.rebuild (m : LeafMap) : Formula → Formula
  | .tru => .tru
  | .fls => .fls
  | .var v => m.boolVar v
  | .not inner => .not (inner.rebuild m)
  | .and items => Formula.andMany (Formula.rebuildList m items)
  | .or items => Formula.orMany (Formula.rebuildList m items)
  | .implies lhs rhs => Formula.mkImplies (lhs.rebuild m) (rhs.rebuild m)
  | .eq lhs rhs => .eq (lhs.rebuild m) (rhs.rebuild m)
  | .memoryEq lhs rhs => .memoryEq (lhs.rebuild m) (rhs.rebuild m)
  | .lt lhs rhs => .lt (lhs.rebuild m) (rhs.rebuild m)
  | .le lhs rhs => .le (lhs.rebuild m) (rhs.rebuild m)
  | .gt lhs rhs => .gt (lhs.rebuild m) (rhs.rebuild m)
  | .ge lhs rhs => .ge (lhs.rebuild m) (rhs.rebuild m)
termination_by structural f => f

/-- Rebuild every formula of a list. -/
def Formula.rebuildList (m : LeafMap) : List Formula → List Formula
  | [] => []
  | item :: rest => item.rebuild m :: Formula.rebuildList m rest
termination_by structural items => items

end

theorem Formula.rebuildList_eq_map (m : LeafMap) (items : List Formula) :
    Formula.rebuildList m items = items.map (Formula.rebuild m) := by
  induction items with
  | nil => simp [Formula.rebuildList]
  | cons item rest ih => simp [Formula.rebuildList, ih]

namespace LeafMap

/-- The new leaf read in `s` has the value of the old leaf read in `s'`. -/
def Matches (m : LeafMap) (s s' : State) : Leaf → Prop
  | .boolVar v => (m.boolVar v).eval s = (s'.lookup v).isTrue
  | .termVar v => (m.termVar v).eval s = s'.lookup v
  | .region name => (m.region name).eval s = s'.memory name

/-- The map that keeps every leaf. -/
def keep : LeafMap := ⟨.var, .var, .var⟩

theorem matches_keep {s s' : State} {x : Leaf} (h : x.Same s s') : keep.Matches s s' x := by
  cases x with
  | boolVar v => simp only [Leaf.Same] at h; simp [Matches, keep, Formula.eval, h]
  | termVar v => simpa only [Matches, keep, Term.eval, Leaf.Same] using h
  | region name => simpa only [Matches, keep, Memory.eval, Leaf.Same] using h

end LeafMap

theorem Formula.eval_eq_of_holds_iff {s s' : State} {φ ψ : Formula}
    (h : φ.Holds s ↔ ψ.Holds s') : φ.eval s = ψ.eval s' := by
  unfold Formula.Holds at h
  cases hφ : φ.eval s <;> cases hψ : ψ.eval s' <;> simp_all

section Rebuild

variable {m : LeafMap} {s s' : State}

theorem State.SameUndefined.intDiv_eq (hu : s.SameUndefined s') : s.intDiv = s'.intDiv := by
  funext a b; simp [State.intDiv, hu.1]

theorem State.SameUndefined.intRem_eq (hu : s.SameUndefined s') : s.intRem = s'.intRem := by
  funext a b; simp [State.intRem, hu.2.1]

theorem State.SameUndefined.realDiv_eq (hu : s.SameUndefined s') : s.realDiv = s'.realDiv := by
  funext a b; simp [State.realDiv, hu.2.2]

mutual

theorem Memory.eval_rebuild (hu : s.SameUndefined s') : ∀ mem : Memory,
    (∀ x ∈ mem.leaves, m.Matches s s' x) →
    (mem.rebuild m).eval s = mem.eval s'
  | .var name, h => by
    simpa [Memory.rebuild, Memory.eval, LeafMap.Matches] using
      h (.region name) (by simp [Memory.leaves])
  | .store inner index value, h => by
    simp only [Memory.leaves, List.mem_append, or_imp, forall_and] at h
    simp only [Memory.rebuild, Memory.eval]
    rw [Memory.eval_rebuild hu inner h.1.1, Term.eval_rebuild hu index h.1.2,
      Term.eval_rebuild hu value h.2]

theorem Term.eval_rebuild (hu : s.SameUndefined s') : ∀ t : Term,
    (∀ x ∈ t.leaves, m.Matches s s' x) →
    (t.rebuild m).eval s = t.eval s'
  | .var v, h => by
    simpa [Term.rebuild, Term.eval, LeafMap.Matches] using h (.termVar v) (by simp [Term.leaves])
  | .int _, _ => by simp [Term.rebuild, Term.eval]
  | .real _, _ => by simp [Term.rebuild, Term.eval]
  | .boolToInt value, h => by
    simp only [Term.leaves] at h
    simp only [Term.rebuild, Term.eval]
    rw [Formula.eval_rebuild hu value h]
  | .select memory index, h => by
    simp only [Term.leaves, List.mem_append, or_imp, forall_and] at h
    simp only [Term.rebuild, Term.eval]
    rw [Memory.eval_rebuild hu memory h.1, Term.eval_rebuild hu index h.2]
  | .add lhs rhs, h | .sub lhs rhs, h | .mul lhs rhs, h => by
    simp only [Term.leaves, List.mem_append, or_imp, forall_and] at h
    simp only [Term.rebuild, Term.eval]
    rw [Term.eval_rebuild hu lhs h.1, Term.eval_rebuild hu rhs h.2]
  | .div lhs rhs, h => by
    simp only [Term.leaves, List.mem_append, or_imp, forall_and] at h
    simp only [Term.rebuild, Term.eval]
    rw [Term.eval_rebuild hu lhs h.1, Term.eval_rebuild hu rhs h.2, hu.intDiv_eq, hu.realDiv_eq]
  | .rem lhs rhs, h => by
    simp only [Term.leaves, List.mem_append, or_imp, forall_and] at h
    simp only [Term.rebuild, Term.eval]
    rw [Term.eval_rebuild hu lhs h.1, Term.eval_rebuild hu rhs h.2, hu.intRem_eq]
  | .neg inner, h => by
    simp only [Term.leaves] at h
    simp only [Term.rebuild, Term.eval]
    rw [Term.eval_rebuild hu inner h]

theorem Formula.eval_rebuild (hu : s.SameUndefined s') : ∀ φ : Formula,
    (∀ x ∈ φ.leaves, m.Matches s s' x) →
    (φ.rebuild m).eval s = φ.eval s'
  | .tru, _ => by simp [Formula.rebuild, Formula.eval]
  | .fls, _ => by simp [Formula.rebuild, Formula.eval]
  | .var v, h => by
    simpa [Formula.rebuild, Formula.eval, LeafMap.Matches] using
      h (.boolVar v) (by simp [Formula.leaves])
  | .not inner, h => by
    simp only [Formula.leaves] at h
    simp only [Formula.rebuild, Formula.eval]
    rw [Formula.eval_rebuild hu inner h]
  | .and items, h => by
    simp only [Formula.leaves] at h
    have ih := Formula.eval_rebuildList hu items h
    refine Formula.eval_eq_of_holds_iff ?_
    simp only [Formula.rebuild, Formula.rebuildList_eq_map, Formula.holds_andMany,
      Formula.holds_and, List.forall_mem_map]
    exact forall₂_congr fun φ hφ ↦ by rw [Formula.Holds, Formula.Holds, ih φ hφ]
  | .or items, h => by
    simp only [Formula.leaves] at h
    have ih := Formula.eval_rebuildList hu items h
    refine Formula.eval_eq_of_holds_iff ?_
    simp only [Formula.rebuild, Formula.rebuildList_eq_map, Formula.holds_orMany,
      Formula.holds_or, List.mem_map, exists_exists_and_eq_and]
    exact exists_congr fun φ ↦ and_congr_right fun hφ ↦
      by rw [Formula.Holds, Formula.Holds, ih φ hφ]
  | .implies lhs rhs, h => by
    simp only [Formula.leaves, List.mem_append, or_imp, forall_and] at h
    refine Formula.eval_eq_of_holds_iff ?_
    rw [Formula.rebuild, Formula.holds_mkImplies, Formula.holds_implies, Formula.Holds,
      Formula.Holds, Formula.eval_rebuild hu lhs h.1, Formula.eval_rebuild hu rhs h.2]
    rfl
  | .eq lhs rhs, h | .lt lhs rhs, h | .le lhs rhs, h | .gt lhs rhs, h | .ge lhs rhs, h => by
    simp only [Formula.leaves, List.mem_append, or_imp, forall_and] at h
    simp only [Formula.rebuild, Formula.eval]
    rw [Term.eval_rebuild hu lhs h.1, Term.eval_rebuild hu rhs h.2]
  | .memoryEq lhs rhs, h => by
    simp only [Formula.leaves, List.mem_append, or_imp, forall_and] at h
    simp only [Formula.rebuild, Formula.eval]
    rw [Memory.eval_rebuild hu lhs h.1, Memory.eval_rebuild hu rhs h.2]

theorem Formula.eval_rebuildList (hu : s.SameUndefined s') : ∀ items : List Formula,
    (∀ x ∈ Formula.leavesList items, m.Matches s s' x) →
    ∀ φ ∈ items, (φ.rebuild m).eval s = φ.eval s'
  | [], _ => by simp
  | item :: rest, h => by
    simp only [Formula.leavesList, List.mem_append, or_imp, forall_and] at h
    simp only [List.mem_cons, forall_eq_or_imp]
    exact ⟨Formula.eval_rebuild hu item h.1, Formula.eval_rebuildList hu rest h.2⟩

end

/-- A formula reads nothing but its leaves. -/
theorem Formula.eval_congr (hu : s.SameUndefined s') {φ : Formula}
    (h : ∀ x ∈ φ.leaves, x.Same s s') :
    φ.eval s = φ.eval s' := by
  rw [← Formula.eval_rebuild hu φ fun x hx ↦ LeafMap.matches_keep (h x hx),
    Formula.eval_rebuild (State.SameUndefined.refl s) φ fun x _ ↦
      LeafMap.matches_keep (Leaf.Same.refl s x)]

theorem Formula.holds_congr (hu : s.SameUndefined s') {φ : Formula}
    (h : ∀ x ∈ φ.leaves, x.Same s s') : φ.Holds s ↔ φ.Holds s' := by
  rw [Formula.Holds, Formula.Holds, Formula.eval_congr hu h]

/-- A term reads nothing but its leaves. -/
theorem Term.eval_congr (hu : s.SameUndefined s') {t : Term}
    (h : ∀ x ∈ t.leaves, x.Same s s') : t.eval s = t.eval s' := by
  rw [← Term.eval_rebuild hu t fun x hx ↦ LeafMap.matches_keep (h x hx),
    Term.eval_rebuild (State.SameUndefined.refl s) t fun x _ ↦
      LeafMap.matches_keep (Leaf.Same.refl s x)]

/-- A memory expression reads nothing but its leaves. -/
theorem Memory.eval_congr (hu : s.SameUndefined s') {mem : Memory}
    (h : ∀ x ∈ mem.leaves, x.Same s s') :
    mem.eval s = mem.eval s' := by
  rw [← Memory.eval_rebuild hu mem fun x hx ↦ LeafMap.matches_keep (h x hx),
    Memory.eval_rebuild (State.SameUndefined.refl s) mem fun x _ ↦
      LeafMap.matches_keep (Leaf.Same.refl s x)]

end Rebuild

/-! ### The substitution passes of the source -/

/-- The leaves of `substitute_var_in_formula`. -/
def LeafMap.replaceVar (target : Var) (replacement : Term) : LeafMap where
  boolVar := .var
  termVar v := if v = target then replacement else .var v
  region := .var

/-- The leaves of `substitute_memory_var_in_formula`. -/
def LeafMap.replaceRegion (region : String) (replacement : Memory) : LeafMap where
  boolVar := .var
  termVar := .var
  region name := if name = region then replacement else .var name

/-- `substitute_var_in_formula`. -/
def substituteVarInFormula (target : Var) (replacement : Term) (φ : Formula) : Formula :=
  φ.rebuild (.replaceVar target replacement)

/-- `substitute_var_in_term`. -/
def substituteVarInTerm (target : Var) (replacement term : Term) : Term :=
  term.rebuild (.replaceVar target replacement)

/-- `substitute_memory_var_in_formula`. -/
def substituteMemoryVarInFormula (region : String) (replacement : Memory) (φ : Formula) :
    Formula :=
  φ.rebuild (.replaceRegion region replacement)

/-- `substitute_memory_var_in_term`. -/
def substituteMemoryVarInTerm (region : String) (replacement : Memory) (term : Term) : Term :=
  term.rebuild (.replaceRegion region replacement)

mutual

/-- `substitute_bool_var_in_formula`. Comparisons are copied: the pass never enters terms. -/
def substituteBoolVarInFormula (target : Var) (replacement : Formula) : Formula → Formula
  | .tru => .tru
  | .fls => .fls
  | .var v => if v = target then replacement else .var v
  | .not inner => .not (substituteBoolVarInFormula target replacement inner)
  | .and items => Formula.andMany (substituteBoolVarInList target replacement items)
  | .or items => Formula.orMany (substituteBoolVarInList target replacement items)
  | .implies lhs rhs =>
    Formula.mkImplies (substituteBoolVarInFormula target replacement lhs)
      (substituteBoolVarInFormula target replacement rhs)
  | .eq lhs rhs => .eq lhs rhs
  | .memoryEq lhs rhs => .memoryEq lhs rhs
  | .lt lhs rhs => .lt lhs rhs
  | .le lhs rhs => .le lhs rhs
  | .gt lhs rhs => .gt lhs rhs
  | .ge lhs rhs => .ge lhs rhs
termination_by structural φ => φ

/-- `substitute_bool_var_in_formula` on the children of an n-ary node. -/
def substituteBoolVarInList (target : Var) (replacement : Formula) : List Formula → List Formula
  | [] => []
  | item :: rest =>
    substituteBoolVarInFormula target replacement item ::
      substituteBoolVarInList target replacement rest
termination_by structural items => items

end

theorem substituteBoolVarInList_eq_map (b : Var) (p : Formula) (items : List Formula) :
    substituteBoolVarInList b p items = items.map (substituteBoolVarInFormula b p) := by
  induction items with
  | nil => simp [substituteBoolVarInList]
  | cons item rest ih => simp [substituteBoolVarInList, ih]

theorem State.isTrue_lookup_of_sort_ne {s : State} {v : Var} (hv : v.sort ≠ .bool) :
    (s.lookup v).isTrue = false := by
  rcases v with ⟨name, _ | _ | _⟩ <;> simp_all [State.lookup, Value.isTrue]

theorem LeafMap.matches_replaceVar {s : State} {x : Var} {t : Term}
    (hsort : (t.eval s).sort = x.sort) (hbool : x.sort ≠ .bool) (l : Leaf) :
    (LeafMap.replaceVar x t).Matches s (s.set x (t.eval s)) l := by
  cases l with
  | boolVar v =>
    by_cases hv : v = x
    · subst hv
      simp [LeafMap.Matches, LeafMap.replaceVar, Formula.eval, State.isTrue_lookup_of_sort_ne hbool]
    · simp [LeafMap.Matches, LeafMap.replaceVar, Formula.eval, State.lookup_set_of_ne hv]
  | termVar v =>
    by_cases hv : v = x
    · subst hv
      simp [LeafMap.Matches, LeafMap.replaceVar, State.lookup_set_self hsort]
    · simp [LeafMap.Matches, LeafMap.replaceVar, hv, Term.eval, State.lookup_set_of_ne hv]
  | region name => simp [LeafMap.Matches, LeafMap.replaceVar, Memory.eval]

/-- Substituting a term for a variable is evaluating after the assignment. -/
theorem eval_substituteVarInFormula {s : State} {x : Var} {t : Term}
    (hsort : (t.eval s).sort = x.sort) (hbool : x.sort ≠ .bool) (φ : Formula) :
    (substituteVarInFormula x t φ).eval s = φ.eval (s.set x (t.eval s)) :=
  Formula.eval_rebuild (by simp) φ fun l _ ↦ LeafMap.matches_replaceVar hsort hbool l

theorem eval_substituteVarInTerm {s : State} {x : Var} {t : Term}
    (hsort : (t.eval s).sort = x.sort) (hbool : x.sort ≠ .bool) (u : Term) :
    (substituteVarInTerm x t u).eval s = u.eval (s.set x (t.eval s)) :=
  Term.eval_rebuild (by simp) u fun l _ ↦ LeafMap.matches_replaceVar hsort hbool l

theorem LeafMap.matches_replaceRegion {s : State} {r : String} {m : Memory} (l : Leaf) :
    (LeafMap.replaceRegion r m).Matches s (s.setRegion r (m.eval s)) l := by
  cases l with
  | boolVar v => simp [LeafMap.Matches, LeafMap.replaceRegion, Formula.eval]
  | termVar v => simp [LeafMap.Matches, LeafMap.replaceRegion, Term.eval]
  | region name =>
    by_cases hn : name = r
    · subst hn
      simp [LeafMap.Matches, LeafMap.replaceRegion]
    · simp [LeafMap.Matches, LeafMap.replaceRegion, hn, Memory.eval,
        State.memory_setRegion_of_ne hn]

/-- Substituting a memory expression for a region is evaluating after the store. -/
theorem eval_substituteMemoryVarInFormula {s : State} {r : String} {m : Memory} (φ : Formula) :
    (substituteMemoryVarInFormula r m φ).eval s = φ.eval (s.setRegion r (m.eval s)) :=
  Formula.eval_rebuild (by simp) φ fun l _ ↦ LeafMap.matches_replaceRegion l

theorem eval_substituteMemoryVarInTerm {s : State} {r : String} {m : Memory} (t : Term) :
    (substituteMemoryVarInTerm r m t).eval s = t.eval (s.setRegion r (m.eval s)) :=
  Term.eval_rebuild (by simp) t fun l _ ↦ LeafMap.matches_replaceRegion l

section BoolVar

variable {s s' : State} {b : Var} {p : Formula}

mutual

/-- The Boolean pass, between two states that agree on everything terms read. -/
theorem eval_substituteBoolVar_of_same (hu : s.SameUndefined s')
    (hv : ∀ v, (if v = b then p.eval s else (s.lookup v).isTrue) = (s'.lookup v).isTrue) :
    ∀ φ : Formula, (∀ x ∈ φ.termLeaves, x.Same s s') →
      (substituteBoolVarInFormula b p φ).eval s = φ.eval s'
  | .tru, _ => by simp [substituteBoolVarInFormula, Formula.eval]
  | .fls, _ => by simp [substituteBoolVarInFormula, Formula.eval]
  | .var v, _ => by
    rw [Formula.eval, ← hv v, substituteBoolVarInFormula]
    split <;> simp [Formula.eval]
  | .not inner, h => by
    simp only [Formula.termLeaves] at h
    simp only [substituteBoolVarInFormula, Formula.eval]
    rw [eval_substituteBoolVar_of_same hu hv inner h]
  | .and items, h => by
    simp only [Formula.termLeaves] at h
    have ih := eval_substituteBoolVarInList_of_same hu hv items h
    refine Formula.eval_eq_of_holds_iff ?_
    simp only [substituteBoolVarInFormula, substituteBoolVarInList_eq_map,
      Formula.holds_andMany, Formula.holds_and, List.forall_mem_map]
    exact forall₂_congr fun φ hφ ↦ by rw [Formula.Holds, Formula.Holds, ih φ hφ]
  | .or items, h => by
    simp only [Formula.termLeaves] at h
    have ih := eval_substituteBoolVarInList_of_same hu hv items h
    refine Formula.eval_eq_of_holds_iff ?_
    simp only [substituteBoolVarInFormula, substituteBoolVarInList_eq_map,
      Formula.holds_orMany, Formula.holds_or, List.mem_map, exists_exists_and_eq_and]
    exact exists_congr fun φ ↦ and_congr_right fun hφ ↦ by
      rw [Formula.Holds, Formula.Holds, ih φ hφ]
  | .implies lhs rhs, h => by
    simp only [Formula.termLeaves, List.mem_append, or_imp, forall_and] at h
    refine Formula.eval_eq_of_holds_iff ?_
    rw [substituteBoolVarInFormula, Formula.holds_mkImplies, Formula.holds_implies,
      Formula.Holds, Formula.Holds, eval_substituteBoolVar_of_same hu hv lhs h.1,
      eval_substituteBoolVar_of_same hu hv rhs h.2]
    rfl
  | .eq lhs rhs, h | .lt lhs rhs, h | .le lhs rhs, h | .gt lhs rhs, h | .ge lhs rhs, h => by
    simp only [Formula.termLeaves, List.mem_append, or_imp, forall_and] at h
    simp only [substituteBoolVarInFormula, Formula.eval]
    rw [Term.eval_congr hu h.1, Term.eval_congr hu h.2]
  | .memoryEq lhs rhs, h => by
    simp only [Formula.termLeaves, List.mem_append, or_imp, forall_and] at h
    simp only [substituteBoolVarInFormula, Formula.eval]
    rw [Memory.eval_congr hu h.1, Memory.eval_congr hu h.2]

theorem eval_substituteBoolVarInList_of_same (hu : s.SameUndefined s')
    (hv : ∀ v, (if v = b then p.eval s else (s.lookup v).isTrue) = (s'.lookup v).isTrue) :
    ∀ items : List Formula, (∀ x ∈ Formula.termLeavesList items, x.Same s s') →
      ∀ φ ∈ items, (substituteBoolVarInFormula b p φ).eval s = φ.eval s'
  | [], _ => by simp
  | item :: rest, h => by
    simp only [Formula.termLeavesList, List.mem_append, or_imp, forall_and] at h
    simp only [List.mem_cons, forall_eq_or_imp]
    exact ⟨eval_substituteBoolVar_of_same hu hv item h.1,
      eval_substituteBoolVarInList_of_same hu hv rest h.2⟩

end

/-- A variable is read below a term, where the Boolean pass does not look for it. -/
def Formula.ReadsInTerm (φ : Formula) (v : Var) : Prop :=
  .boolVar v ∈ φ.termLeaves ∨ .termVar v ∈ φ.termLeaves

instance (φ : Formula) (v : Var) : Decidable (φ.ReadsInTerm v) :=
  inferInstanceAs (Decidable (_ ∨ _))

theorem Leaf.same_set_of_ne {x : Value} {l : Leaf} (hb : l ≠ .boolVar b) (ht : l ≠ .termVar b) :
    l.Same s (s.set b x) := by
  cases l with
  | boolVar v => exact (State.lookup_set_of_ne fun h : v = b ↦ hb (by rw [h])).symm
  | termVar v => exact (State.lookup_set_of_ne fun h : v = b ↦ ht (by rw [h])).symm
  | region name => simp [Leaf.Same]

/-- Substituting a formula for a Boolean variable is evaluating after the assignment, provided
no term of the formula reads the variable. -/
theorem eval_substituteBoolVarInFormula (hb : b.sort = .bool) {φ : Formula}
    (hφ : ¬ φ.ReadsInTerm b) :
    (substituteBoolVarInFormula b p φ).eval s = φ.eval (s.set b (.bool (p.eval s))) := by
  refine eval_substituteBoolVar_of_same (by simp) (fun v ↦ ?_) φ fun x hx ↦ ?_
  · by_cases hv : v = b
    · subst hv
      rw [if_pos rfl, State.lookup_set_self (by simp [hb]), Value.isTrue_bool]
    · rw [if_neg hv, State.lookup_set_of_ne hv]
  · refine Leaf.same_set_of_ne (fun h ↦ hφ (Or.inl ?_)) fun h ↦ hφ (Or.inr ?_) <;> exact h ▸ hx

/-- Replacing a Boolean variable by a formula that has its value changes nothing, wherever the
variable is read. -/
theorem eval_substituteBoolVarInFormula_of_eq (h : s.lookup b = .bool (p.eval s)) (φ : Formula) :
    (substituteBoolVarInFormula b p φ).eval s = φ.eval s := by
  refine eval_substituteBoolVar_of_same (.refl s) (fun v ↦ ?_) φ fun x _ ↦ .refl s x
  split
  · rename_i hv; rw [hv, h, Value.isTrue_bool]
  · rfl

end BoolVar

/-! ### Properties of formulas that the traversals keep

A property that holds of an n-ary node exactly when it holds of all children survives
simplification. Where the leaves of a rebuilt formula come from is the case used below. -/

/-- The property passes from a formula to its children and back. -/
structure Hereditary (P : Formula → Prop) : Prop where
  tru : P .tru
  fls : P .fls
  not_iff : ∀ φ, P (.not φ) ↔ P φ
  and_iff : ∀ items, P (.and items) ↔ ∀ φ ∈ items, P φ
  or_iff : ∀ items, P (.or items) ↔ ∀ φ ∈ items, P φ
  implies_iff : ∀ φ ψ, P (.implies φ ψ) ↔ P φ ∧ P ψ

namespace Hereditary

variable {P : Formula → Prop} (hP : Hereditary P)
include hP

theorem unit (c : Connective) : P c.unit := by
  cases c
  · exact hP.tru
  · exact hP.fls

theorem absorber (c : Connective) : P c.absorber := by
  cases c
  · exact hP.fls
  · exact hP.tru

theorem node_iff (c : Connective) (items : List Formula) :
    P (c.node items) ↔ ∀ φ ∈ items, P φ := by
  cases c
  · exact hP.and_iff items
  · exact hP.or_iff items

theorem of_children? {c : Connective} {item : Formula} {inner : List Formula}
    (hitem : P item) (h : c.children? item = some inner) : ∀ φ ∈ inner, P φ := by
  cases c <;> cases item <;> simp_all [Connective.children?]
  · exact (hP.and_iff _).1 hitem
  · exact (hP.or_iff _).1 hitem

theorem flatten (c : Connective) {items flat out : List Formula}
    (hitems : ∀ φ ∈ items, P φ) (hflat : ∀ φ ∈ flat, P φ)
    (h : c.flatten flat items = some out) : ∀ φ ∈ out, P φ := by
  induction items generalizing flat with
  | nil => simp only [Connective.flatten, Option.some.injEq] at h; exact h ▸ hflat
  | cons item rest ih =>
    have hrest : ∀ φ ∈ rest, P φ := fun φ hφ ↦ hitems φ (List.mem_cons_of_mem _ hφ)
    have hitem : P item := hitems item List.mem_cons_self
    rw [Connective.flatten] at h
    split_ifs at h
    · exact ih hrest hflat h
    split at h
    · rename_i inner hinner
      refine ih hrest (fun φ hφ ↦ ?_) h
      exact (Connective.mem_foldl_pushNew.1 hφ).elim (hflat φ)
        (hP.of_children? hitem hinner φ)
    · refine ih hrest (fun φ hφ ↦ ?_) h
      rcases Connective.mem_pushNew.1 hφ with hφ | rfl
      · exact hflat φ hφ
      · exact hitem

theorem simplify (c : Connective) {items : List Formula} (hitems : ∀ φ ∈ items, P φ) :
    P (c.simplify items) := by
  have hout (out : List Formula) (h : c.flatten [] items = some out) : ∀ φ ∈ out, P φ :=
    hP.flatten c hitems (by simp) h
  rw [Connective.simplify]
  split
  · exact hP.absorber c
  · exact hP.unit c
  · rename_i h; exact hout _ h _ (by simp)
  · rename_i h; exact (hP.node_iff c _).2 (hout _ h)

theorem mkAnd {φ ψ : Formula} (hφ : P φ) (hψ : P ψ) : P (Formula.mkAnd φ ψ) :=
  hP.simplify .conj (by simp [hφ, hψ])

theorem andMany {items : List Formula} (h : ∀ φ ∈ items, P φ) : P (Formula.andMany items) :=
  hP.simplify .conj h

theorem mkOr {φ ψ : Formula} (hφ : P φ) (hψ : P ψ) : P (Formula.mkOr φ ψ) :=
  hP.simplify .disj (by simp [hφ, hψ])

theorem orMany {items : List Formula} (h : ∀ φ ∈ items, P φ) : P (Formula.orMany items) :=
  hP.simplify .disj h

theorem mkImplies {φ ψ : Formula} (hφ : P φ) (hψ : P ψ) : P (Formula.mkImplies φ ψ) := by
  rw [Formula.mkImplies]
  split
  · exact hP.tru
  · split
    · exact hψ
    · exact (hP.implies_iff φ ψ).2 ⟨hφ, hψ⟩

end Hereditary

/-! ### Where the leaves of a rebuilt formula come from -/

theorem hereditary_leaves (Q : Leaf → Prop) : Hereditary fun φ ↦ ∀ x ∈ φ.leaves, Q x where
  tru := by simp [Formula.leaves]
  fls := by simp [Formula.leaves]
  not_iff φ := by rw [Formula.leaves]
  and_iff items := by simp only [Formula.leaves, Formula.mem_leavesList]; grind
  or_iff items := by simp only [Formula.leaves, Formula.mem_leavesList]; grind
  implies_iff φ ψ := by simp [Formula.leaves, or_imp, forall_and]

theorem hereditary_termLeaves (Q : Leaf → Prop) :
    Hereditary fun φ ↦ ∀ x ∈ φ.termLeaves, Q x where
  tru := by simp [Formula.termLeaves]
  fls := by simp [Formula.termLeaves]
  not_iff φ := by rw [Formula.termLeaves]
  and_iff items := by simp only [Formula.termLeaves, Formula.mem_termLeavesList]; grind
  or_iff items := by simp only [Formula.termLeaves, Formula.mem_termLeavesList]; grind
  implies_iff φ ψ := by simp [Formula.termLeaves, or_imp, forall_and]

/-- The leaves of what is put in the place of a leaf. -/
def LeafMap.leavesAt (m : LeafMap) : Leaf → List Leaf
  | .boolVar v => (m.boolVar v).leaves
  | .termVar v => (m.termVar v).leaves
  | .region name => (m.region name).leaves

section RebuildLeaves

variable {m : LeafMap} {Q : Leaf → Prop}

mutual

theorem Memory.forall_leaves_rebuild : ∀ mem : Memory,
    (∀ l ∈ mem.leaves, ∀ x ∈ m.leavesAt l, Q x) → ∀ x ∈ (mem.rebuild m).leaves, Q x
  | .var name, h => h (.region name) (by simp [Memory.leaves])
  | .store inner index value, h => by
    simp only [Memory.leaves, List.mem_append, or_imp, forall_and] at h
    simp only [Memory.rebuild, Memory.leaves, List.mem_append, or_imp, forall_and]
    exact ⟨⟨Memory.forall_leaves_rebuild inner h.1.1, Term.forall_leaves_rebuild index h.1.2⟩,
      Term.forall_leaves_rebuild value h.2⟩

theorem Term.forall_leaves_rebuild : ∀ t : Term,
    (∀ l ∈ t.leaves, ∀ x ∈ m.leavesAt l, Q x) → ∀ x ∈ (t.rebuild m).leaves, Q x
  | .var v, h => h (.termVar v) (by simp [Term.leaves])
  | .int _, _ | .real _, _ => by simp [Term.rebuild, Term.leaves]
  | .boolToInt value, h => by
    simp only [Term.leaves] at h
    simp only [Term.rebuild, Term.leaves]
    exact Formula.forall_leaves_rebuild value h
  | .select memory index, h => by
    simp only [Term.leaves, List.mem_append, or_imp, forall_and] at h
    simp only [Term.rebuild, Term.leaves, List.mem_append, or_imp, forall_and]
    exact ⟨Memory.forall_leaves_rebuild memory h.1, Term.forall_leaves_rebuild index h.2⟩
  | .add lhs rhs, h | .sub lhs rhs, h | .mul lhs rhs, h | .div lhs rhs, h | .rem lhs rhs, h => by
    simp only [Term.leaves, List.mem_append, or_imp, forall_and] at h
    simp only [Term.rebuild, Term.leaves, List.mem_append, or_imp, forall_and]
    exact ⟨Term.forall_leaves_rebuild lhs h.1, Term.forall_leaves_rebuild rhs h.2⟩
  | .neg inner, h => by
    simp only [Term.leaves] at h
    simp only [Term.rebuild, Term.leaves]
    exact Term.forall_leaves_rebuild inner h

theorem Formula.forall_leaves_rebuild : ∀ φ : Formula,
    (∀ l ∈ φ.leaves, ∀ x ∈ m.leavesAt l, Q x) → ∀ x ∈ (φ.rebuild m).leaves, Q x
  | .tru, _ | .fls, _ => by simp [Formula.rebuild, Formula.leaves]
  | .var v, h => h (.boolVar v) (by simp [Formula.leaves])
  | .not inner, h => by
    simp only [Formula.leaves] at h
    simp only [Formula.rebuild, Formula.leaves]
    exact Formula.forall_leaves_rebuild inner h
  | .and items, h => by
    simp only [Formula.leaves] at h
    rw [Formula.rebuild, Formula.rebuildList_eq_map]
    exact (hereditary_leaves Q).andMany
      (List.forall_mem_map.2 (Formula.forall_leaves_rebuildList items h))
  | .or items, h => by
    simp only [Formula.leaves] at h
    rw [Formula.rebuild, Formula.rebuildList_eq_map]
    exact (hereditary_leaves Q).orMany
      (List.forall_mem_map.2 (Formula.forall_leaves_rebuildList items h))
  | .implies lhs rhs, h => by
    simp only [Formula.leaves, List.mem_append, or_imp, forall_and] at h
    exact (hereditary_leaves Q).mkImplies (Formula.forall_leaves_rebuild lhs h.1)
      (Formula.forall_leaves_rebuild rhs h.2)
  | .eq lhs rhs, h | .lt lhs rhs, h | .le lhs rhs, h | .gt lhs rhs, h | .ge lhs rhs, h => by
    simp only [Formula.leaves, List.mem_append, or_imp, forall_and] at h
    simp only [Formula.rebuild, Formula.leaves, List.mem_append, or_imp, forall_and]
    exact ⟨Term.forall_leaves_rebuild lhs h.1, Term.forall_leaves_rebuild rhs h.2⟩
  | .memoryEq lhs rhs, h => by
    simp only [Formula.leaves, List.mem_append, or_imp, forall_and] at h
    simp only [Formula.rebuild, Formula.leaves, List.mem_append, or_imp, forall_and]
    exact ⟨Memory.forall_leaves_rebuild lhs h.1, Memory.forall_leaves_rebuild rhs h.2⟩

theorem Formula.forall_leaves_rebuildList : ∀ items : List Formula,
    (∀ l ∈ Formula.leavesList items, ∀ x ∈ m.leavesAt l, Q x) →
      ∀ φ ∈ items, ∀ x ∈ (φ.rebuild m).leaves, Q x
  | [], _ => by simp
  | item :: rest, h => by
    simp only [Formula.leavesList, List.mem_append, or_imp, forall_and] at h
    rw [List.forall_mem_cons]
    exact ⟨Formula.forall_leaves_rebuild item h.1, Formula.forall_leaves_rebuildList rest h.2⟩

end

mutual

/-- What terms of a rebuilt formula read, for a map that keeps Boolean atoms. -/
theorem Formula.forall_termLeaves_rebuild (hm : ∀ v, m.boolVar v = .var v) : ∀ φ : Formula,
    (∀ l ∈ φ.termLeaves, ∀ x ∈ m.leavesAt l, Q x) → ∀ x ∈ (φ.rebuild m).termLeaves, Q x
  | .tru, _ | .fls, _ => by simp [Formula.rebuild, Formula.termLeaves]
  | .var v, _ => by simp [Formula.rebuild, hm, Formula.termLeaves]
  | .not inner, h => by
    simp only [Formula.termLeaves] at h
    simp only [Formula.rebuild, Formula.termLeaves]
    exact Formula.forall_termLeaves_rebuild hm inner h
  | .and items, h => by
    simp only [Formula.termLeaves] at h
    rw [Formula.rebuild, Formula.rebuildList_eq_map]
    exact (hereditary_termLeaves Q).andMany
      (List.forall_mem_map.2 (Formula.forall_termLeaves_rebuildList hm items h))
  | .or items, h => by
    simp only [Formula.termLeaves] at h
    rw [Formula.rebuild, Formula.rebuildList_eq_map]
    exact (hereditary_termLeaves Q).orMany
      (List.forall_mem_map.2 (Formula.forall_termLeaves_rebuildList hm items h))
  | .implies lhs rhs, h => by
    simp only [Formula.termLeaves, List.mem_append, or_imp, forall_and] at h
    exact (hereditary_termLeaves Q).mkImplies (Formula.forall_termLeaves_rebuild hm lhs h.1)
      (Formula.forall_termLeaves_rebuild hm rhs h.2)
  | .eq lhs rhs, h | .lt lhs rhs, h | .le lhs rhs, h | .gt lhs rhs, h | .ge lhs rhs, h => by
    simp only [Formula.termLeaves, List.mem_append, or_imp, forall_and] at h
    simp only [Formula.rebuild, Formula.termLeaves, List.mem_append, or_imp, forall_and]
    exact ⟨Term.forall_leaves_rebuild lhs h.1, Term.forall_leaves_rebuild rhs h.2⟩
  | .memoryEq lhs rhs, h => by
    simp only [Formula.termLeaves, List.mem_append, or_imp, forall_and] at h
    simp only [Formula.rebuild, Formula.termLeaves, List.mem_append, or_imp, forall_and]
    exact ⟨Memory.forall_leaves_rebuild lhs h.1, Memory.forall_leaves_rebuild rhs h.2⟩

theorem Formula.forall_termLeaves_rebuildList (hm : ∀ v, m.boolVar v = .var v) :
    ∀ items : List Formula,
      (∀ l ∈ Formula.termLeavesList items, ∀ x ∈ m.leavesAt l, Q x) →
        ∀ φ ∈ items, ∀ x ∈ (φ.rebuild m).termLeaves, Q x
  | [], _ => by simp
  | item :: rest, h => by
    simp only [Formula.termLeavesList, List.mem_append, or_imp, forall_and] at h
    rw [List.forall_mem_cons]
    exact ⟨Formula.forall_termLeaves_rebuild hm item h.1,
      Formula.forall_termLeaves_rebuildList hm rest h.2⟩

end

end RebuildLeaves

/-! ### Boolean substitution -/

section SubstituteBoolVar

variable {P : Formula → Prop} {b : Var} {p : Formula}

mutual

/-- Boolean substitution keeps what passes to children and back and holds of the replacement. -/
theorem Hereditary.substituteBoolVar (hP : Hereditary P) (hp : P p) : ∀ φ : Formula,
    P φ → P (substituteBoolVarInFormula b p φ)
  | .tru, h | .fls, h => h
  | .var v, h => by
    rw [substituteBoolVarInFormula]
    split
    · exact hp
    · exact h
  | .not inner, h =>
    (hP.not_iff _).2 (hP.substituteBoolVar hp inner ((hP.not_iff inner).1 h))
  | .and items, h => by
    rw [substituteBoolVarInFormula, substituteBoolVarInList_eq_map]
    exact hP.andMany
      (List.forall_mem_map.2 (hP.substituteBoolVarList hp items ((hP.and_iff items).1 h)))
  | .or items, h => by
    rw [substituteBoolVarInFormula, substituteBoolVarInList_eq_map]
    exact hP.orMany
      (List.forall_mem_map.2 (hP.substituteBoolVarList hp items ((hP.or_iff items).1 h)))
  | .implies lhs rhs, h => by
    obtain ⟨hl, hr⟩ := (hP.implies_iff lhs rhs).1 h
    exact hP.mkImplies (hP.substituteBoolVar hp lhs hl) (hP.substituteBoolVar hp rhs hr)
  | .eq lhs rhs, h | .lt lhs rhs, h | .le lhs rhs, h | .gt lhs rhs, h | .ge lhs rhs, h
  | .memoryEq lhs rhs, h => h

theorem Hereditary.substituteBoolVarList (hP : Hereditary P) (hp : P p) : ∀ items : List Formula,
    (∀ φ ∈ items, P φ) → ∀ φ ∈ items, P (substituteBoolVarInFormula b p φ)
  | [], _ => by simp
  | item :: rest, h => by
    rw [List.forall_mem_cons] at h ⊢
    exact ⟨hP.substituteBoolVar hp item h.1, hP.substituteBoolVarList hp rest h.2⟩

end

end SubstituteBoolVar

end MayMust
