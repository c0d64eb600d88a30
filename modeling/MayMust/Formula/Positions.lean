import MayMust.Formula.Substitution

/-!
# Two positions of a variable

A Boolean variable can stand at the level of the connectives or, through `boolToInt`, below a
term, and the substitution passes of the source treat the two positions differently. To say
exactly what a pass does, a formula is evaluated here in two states at once: what stands at the
level of the connectives is read in the first, what terms and memory expressions read in the
second (`Formula.HoldsSplit`). With that every pass is exact, without any side condition:

* `substitute_var_in_formula` and `substitute_memory_var_in_formula` change the second state;
* `substitute_bool_var_in_formula` changes the first state.
-/

namespace MayMust

open Classical in
mutual

/-- The truth value of a formula that is read in two states. -/
noncomputable def Formula.evalSplit (atoms terms : State) : Formula → Bool
  | .tru => true
  | .fls => false
  | .var v => (atoms.lookup v).isTrue
  | .not inner => !inner.evalSplit atoms terms
  | .and items => Formula.evalSplitAll atoms terms items
  | .or items => Formula.evalSplitAny atoms terms items
  | .implies lhs rhs => !lhs.evalSplit atoms terms || rhs.evalSplit atoms terms
  | .eq lhs rhs => (Formula.eq lhs rhs).eval terms
  | .memoryEq lhs rhs => (Formula.memoryEq lhs rhs).eval terms
  | .lt lhs rhs => (Formula.lt lhs rhs).eval terms
  | .le lhs rhs => (Formula.le lhs rhs).eval terms
  | .gt lhs rhs => (Formula.gt lhs rhs).eval terms
  | .ge lhs rhs => (Formula.ge lhs rhs).eval terms
termination_by structural f => f

/-- Whether all formulas of a list hold in the two states. -/
noncomputable def Formula.evalSplitAll (atoms terms : State) : List Formula → Bool
  | [] => true
  | item :: rest => item.evalSplit atoms terms && Formula.evalSplitAll atoms terms rest
termination_by structural items => items

/-- Whether some formula of a list holds in the two states. -/
noncomputable def Formula.evalSplitAny (atoms terms : State) : List Formula → Bool
  | [] => false
  | item :: rest => item.evalSplit atoms terms || Formula.evalSplitAny atoms terms rest
termination_by structural items => items

end

namespace Formula

/-- The formula holds in the two states. -/
def HoldsSplit (atoms terms : State) (φ : Formula) : Prop := φ.evalSplit atoms terms = true

variable {a a' t t' : State}

theorem evalSplitAll_eq_all (items : List Formula) :
    evalSplitAll a t items = items.all (·.evalSplit a t) := by
  induction items with
  | nil => rfl
  | cons item rest ih => exact congrArg (item.evalSplit a t && ·) ih

theorem evalSplitAny_eq_any (items : List Formula) :
    evalSplitAny a t items = items.any (·.evalSplit a t) := by
  induction items with
  | nil => rfl
  | cons item rest ih => exact congrArg (item.evalSplit a t || ·) ih

theorem logical_holdsSplit (a t : State) : Logical (HoldsSplit a t) where
  tru := rfl
  fls := Bool.false_ne_true
  and_iff items := by
    show evalSplitAll a t items = true ↔ _
    rw [evalSplitAll_eq_all, List.all_eq_true]
    exact Iff.rfl
  or_iff items := by
    show evalSplitAny a t items = true ↔ _
    rw [evalSplitAny_eq_any, List.any_eq_true]
    exact Iff.rfl
  implies_iff φ ψ := by
    show (!φ.evalSplit a t || ψ.evalSplit a t) = true ↔
      (φ.evalSplit a t = true → ψ.evalSplit a t = true)
    cases φ.evalSplit a t <;> simp

theorem all_congr_mem {f g : Formula → Bool} {items : List Formula}
    (h : ∀ φ ∈ items, f φ = g φ) : items.all f = items.all g := by
  induction items with
  | nil => rfl
  | cons item rest ih =>
    rw [List.forall_mem_cons] at h
    rw [List.all_cons, List.all_cons, h.1, ih h.2]

theorem any_congr_mem {f g : Formula → Bool} {items : List Formula}
    (h : ∀ φ ∈ items, f φ = g φ) : items.any f = items.any g := by
  induction items with
  | nil => rfl
  | cons item rest ih =>
    rw [List.forall_mem_cons] at h
    rw [List.any_cons, List.any_cons, h.1, ih h.2]

theorem evalSplit_eq_of_iff {φ ψ : Formula} (h : φ.HoldsSplit a t ↔ ψ.HoldsSplit a' t') :
    φ.evalSplit a t = ψ.evalSplit a' t' :=
  Bool.eq_iff_iff.2 h

/-! ### Reading in one state, and what the two states are asked -/

mutual

/-- The variables at the level of the connectives. -/
def atoms : Formula → List Var
  | .tru | .fls => []
  | .var v => [v]
  | .not inner => inner.atoms
  | .and items | .or items => atomsList items
  | .implies lhs rhs => lhs.atoms ++ rhs.atoms
  | .eq _ _ | .memoryEq _ _ | .lt _ _ | .le _ _ | .gt _ _ | .ge _ _ => []
termination_by structural f => f

/-- `Formula.atoms` on a list of formulas. -/
def atomsList : List Formula → List Var
  | [] => []
  | item :: rest => item.atoms ++ atomsList rest
termination_by structural items => items

end

mutual

/-- A formula read in two states depends on its atoms in the first and on what its terms read in
the second. -/
theorem evalSplit_congr (hu : t.SameUndefined t') : ∀ φ : Formula,
    (∀ v ∈ φ.atoms, (a.lookup v).isTrue = (a'.lookup v).isTrue) →
    (∀ x ∈ φ.termLeaves, x.Same t t') → φ.evalSplit a t = φ.evalSplit a' t'
  | .tru, _, _ | .fls, _, _ => by simp only [evalSplit]
  | .var v, ha, _ => by
    simp only [evalSplit]
    exact ha v (by simp [atoms])
  | .not inner, ha, ht => by
    simp only [atoms] at ha
    simp only [termLeaves] at ht
    simp only [evalSplit]
    rw [evalSplit_congr hu inner ha ht]
  | .and items, ha, ht => by
    simp only [atoms] at ha
    simp only [termLeaves] at ht
    have ih := evalSplitList_congr hu items ha ht
    simp only [evalSplit, evalSplitAll_eq_all]
    exact all_congr_mem ih
  | .or items, ha, ht => by
    simp only [atoms] at ha
    simp only [termLeaves] at ht
    have ih := evalSplitList_congr hu items ha ht
    simp only [evalSplit, evalSplitAny_eq_any]
    exact any_congr_mem ih
  | .implies lhs rhs, ha, ht => by
    simp only [atoms, List.mem_append, or_imp, forall_and] at ha
    simp only [termLeaves, List.mem_append, or_imp, forall_and] at ht
    simp only [evalSplit]
    rw [evalSplit_congr hu lhs ha.1 ht.1, evalSplit_congr hu rhs ha.2 ht.2]
  | .eq lhs rhs, _, ht | .lt lhs rhs, _, ht | .le lhs rhs, _, ht | .gt lhs rhs, _, ht
  | .ge lhs rhs, _, ht | .memoryEq lhs rhs, _, ht => by
    simp only [evalSplit]
    refine eval_congr hu fun x hx ↦ ht x ?_
    simpa only [leaves, termLeaves] using hx

theorem evalSplitList_congr (hu : t.SameUndefined t') : ∀ items : List Formula,
    (∀ v ∈ atomsList items, (a.lookup v).isTrue = (a'.lookup v).isTrue) →
    (∀ x ∈ termLeavesList items, x.Same t t') →
    ∀ φ ∈ items, φ.evalSplit a t = φ.evalSplit a' t'
  | [], _, _ => by simp
  | item :: rest, ha, ht => by
    simp only [atomsList, List.mem_append, or_imp, forall_and] at ha
    simp only [termLeavesList, List.mem_append, or_imp, forall_and] at ht
    rw [List.forall_mem_cons]
    exact ⟨evalSplit_congr hu item ha.1 ht.1, evalSplitList_congr hu rest ha.2 ht.2⟩

end

mutual

theorem evalSplit_self (s : State) : ∀ φ : Formula, φ.evalSplit s s = φ.eval s
  | .tru | .fls | .var _ => by simp only [evalSplit, eval]
  | .not inner => by simp only [evalSplit, eval, evalSplit_self s inner]
  | .and items => by
    simp only [evalSplit, eval, evalSplitAll_eq_all, evalAll_eq_all]
    exact all_congr_mem (evalSplitList_self s items)
  | .or items => by
    simp only [evalSplit, eval, evalSplitAny_eq_any, evalAny_eq_any]
    exact any_congr_mem (evalSplitList_self s items)
  | .implies lhs rhs => by
    simp only [evalSplit, eval, evalSplit_self s lhs, evalSplit_self s rhs]
  | .eq _ _ | .memoryEq _ _ | .lt _ _ | .le _ _ | .gt _ _ | .ge _ _ => by
    simp only [evalSplit]

theorem evalSplitList_self (s : State) : ∀ items : List Formula,
    ∀ φ ∈ items, φ.evalSplit s s = φ.eval s
  | [] => by simp
  | item :: rest => by
    rw [List.forall_mem_cons]
    exact ⟨evalSplit_self s item, evalSplitList_self s rest⟩

end

/-! ### The substitution passes are exact -/

section Rebuild

variable {m : LeafMap}

mutual

/-- A traversal that keeps Boolean atoms changes what terms read, and nothing else. -/
theorem evalSplit_rebuild (hm : ∀ v, m.boolVar v = .var v) (hu : t.SameUndefined t') :
    ∀ φ : Formula, (∀ x ∈ φ.termLeaves, m.Matches t t' x) →
      (φ.rebuild m).evalSplit a t = φ.evalSplit a t'
  | .tru, _ | .fls, _ => by simp only [rebuild, evalSplit]
  | .var v, _ => by simp only [rebuild, hm, evalSplit]
  | .not inner, h => by
    simp only [termLeaves] at h
    simp only [rebuild, evalSplit]
    rw [evalSplit_rebuild hm hu inner h]
  | .and items, h => by
    simp only [termLeaves] at h
    have ih := evalSplit_rebuildList hm hu items h
    refine evalSplit_eq_of_iff ?_
    rw [rebuild, rebuildList_eq_map, andMany, Connective.simplify_iff (logical_holdsSplit a t),
      (logical_holdsSplit a t').and_iff]
    simp only [Connective.Reads, List.forall_mem_map]
    exact forall₂_congr fun φ hφ ↦ by rw [HoldsSplit, HoldsSplit, ih φ hφ]
  | .or items, h => by
    simp only [termLeaves] at h
    have ih := evalSplit_rebuildList hm hu items h
    refine evalSplit_eq_of_iff ?_
    rw [rebuild, rebuildList_eq_map, orMany, Connective.simplify_iff (logical_holdsSplit a t),
      (logical_holdsSplit a t').or_iff]
    simp only [Connective.Reads, List.mem_map, exists_exists_and_eq_and]
    exact exists_congr fun φ ↦ and_congr_right fun hφ ↦ by rw [HoldsSplit, HoldsSplit, ih φ hφ]
  | .implies lhs rhs, h => by
    simp only [termLeaves, List.mem_append, or_imp, forall_and] at h
    refine evalSplit_eq_of_iff ?_
    rw [rebuild, (logical_holdsSplit a t).mkImplies_iff, (logical_holdsSplit a t').implies_iff,
      HoldsSplit, HoldsSplit, evalSplit_rebuild hm hu lhs h.1, evalSplit_rebuild hm hu rhs h.2]
    rfl
  | .eq lhs rhs, h | .lt lhs rhs, h | .le lhs rhs, h | .gt lhs rhs, h | .ge lhs rhs, h => by
    simp only [termLeaves, List.mem_append, or_imp, forall_and] at h
    simp only [rebuild, evalSplit, eval]
    rw [Term.eval_rebuild hu lhs h.1, Term.eval_rebuild hu rhs h.2]
  | .memoryEq lhs rhs, h => by
    simp only [termLeaves, List.mem_append, or_imp, forall_and] at h
    simp only [rebuild, evalSplit, eval]
    rw [Memory.eval_rebuild hu lhs h.1, Memory.eval_rebuild hu rhs h.2]

theorem evalSplit_rebuildList (hm : ∀ v, m.boolVar v = .var v) (hu : t.SameUndefined t') :
    ∀ items : List Formula, (∀ x ∈ termLeavesList items, m.Matches t t' x) →
      ∀ φ ∈ items, (φ.rebuild m).evalSplit a t = φ.evalSplit a t'
  | [], _ => by simp
  | item :: rest, h => by
    simp only [termLeavesList, List.mem_append, or_imp, forall_and] at h
    rw [List.forall_mem_cons]
    exact ⟨evalSplit_rebuild hm hu item h.1, evalSplit_rebuildList hm hu rest h.2⟩

end

/-- Substituting a term for a variable assigns it in the state that terms are read in. -/
theorem evalSplit_substituteVarInFormula {x : Var} {u : Term}
    (hsort : (u.eval t).sort = x.sort) (hbool : x.sort ≠ .bool) (φ : Formula) :
    (substituteVarInFormula x u φ).evalSplit a t = φ.evalSplit a (t.set x (u.eval t)) :=
  evalSplit_rebuild (fun _ ↦ rfl) (by simp) φ fun l _ ↦ LeafMap.matches_replaceVar hsort hbool l

/-- Substituting a memory expression for a region replaces the region in the state that terms are
read in. -/
theorem evalSplit_substituteMemoryVarInFormula {r : String} {mem : Memory} (φ : Formula) :
    (substituteMemoryVarInFormula r mem φ).evalSplit a t =
      φ.evalSplit a (t.setRegion r (mem.eval t)) :=
  evalSplit_rebuild (fun _ ↦ rfl) (by simp) φ fun l _ ↦ LeafMap.matches_replaceRegion l

end Rebuild

section BoolVar

variable {b : Var} {p : Formula}

mutual

theorem evalSplit_substituteBoolVar
    (hv : ∀ v, (if v = b then p.evalSplit a t else (a.lookup v).isTrue) = (a'.lookup v).isTrue) :
    ∀ φ : Formula, (substituteBoolVarInFormula b p φ).evalSplit a t = φ.evalSplit a' t
  | .tru | .fls => by simp only [substituteBoolVarInFormula, evalSplit]
  | .var v => by
    rw [evalSplit, ← hv v, substituteBoolVarInFormula]
    split <;> simp only [evalSplit]
  | .not inner => by
    simp only [substituteBoolVarInFormula, evalSplit]
    rw [evalSplit_substituteBoolVar hv inner]
  | .and items => by
    have ih := evalSplit_substituteBoolVarList hv items
    refine evalSplit_eq_of_iff ?_
    rw [substituteBoolVarInFormula, substituteBoolVarInList_eq_map, andMany,
      Connective.simplify_iff (logical_holdsSplit a t), (logical_holdsSplit a' t).and_iff]
    simp only [Connective.Reads, List.forall_mem_map]
    exact forall₂_congr fun φ hφ ↦ by rw [HoldsSplit, HoldsSplit, ih φ hφ]
  | .or items => by
    have ih := evalSplit_substituteBoolVarList hv items
    refine evalSplit_eq_of_iff ?_
    rw [substituteBoolVarInFormula, substituteBoolVarInList_eq_map, orMany,
      Connective.simplify_iff (logical_holdsSplit a t), (logical_holdsSplit a' t).or_iff]
    simp only [Connective.Reads, List.mem_map, exists_exists_and_eq_and]
    exact exists_congr fun φ ↦ and_congr_right fun hφ ↦ by rw [HoldsSplit, HoldsSplit, ih φ hφ]
  | .implies lhs rhs => by
    refine evalSplit_eq_of_iff ?_
    rw [substituteBoolVarInFormula, (logical_holdsSplit a t).mkImplies_iff,
      (logical_holdsSplit a' t).implies_iff, HoldsSplit, HoldsSplit,
      evalSplit_substituteBoolVar hv lhs, evalSplit_substituteBoolVar hv rhs]
    rfl
  | .eq _ _ | .lt _ _ | .le _ _ | .gt _ _ | .ge _ _ | .memoryEq _ _ => by
    simp only [substituteBoolVarInFormula, evalSplit]

theorem evalSplit_substituteBoolVarList
    (hv : ∀ v, (if v = b then p.evalSplit a t else (a.lookup v).isTrue) = (a'.lookup v).isTrue) :
    ∀ items : List Formula, ∀ φ ∈ items,
      (substituteBoolVarInFormula b p φ).evalSplit a t = φ.evalSplit a' t
  | [] => by simp
  | item :: rest => by
    rw [List.forall_mem_cons]
    exact ⟨evalSplit_substituteBoolVar hv item, evalSplit_substituteBoolVarList hv rest⟩

end

/-- Substituting a formula for a Boolean variable assigns it in the state that atoms are read in. -/
theorem evalSplit_substituteBoolVarInFormula (hb : b.sort = .bool) (φ : Formula) :
    (substituteBoolVarInFormula b p φ).evalSplit a t =
      φ.evalSplit (a.set b (.bool (p.evalSplit a t))) t := by
  refine evalSplit_substituteBoolVar (fun v ↦ ?_) φ
  by_cases hv : v = b
  · subst hv
    rw [if_pos rfl, State.lookup_set_self (by simp [hb]), Value.isTrue_bool]
  · rw [if_neg hv, State.lookup_set_of_ne hv]

/-! ### What is left of a replaced variable -/

mutual

/-- The leaves after the Boolean pass: those of the replacement, those below terms, and the other
atoms. -/
theorem forall_leaves_substituteBoolVar {Q : Leaf → Prop} (hp : ∀ x ∈ p.leaves, Q x) :
    ∀ φ : Formula, (∀ v ∈ φ.atoms, v ≠ b → Q (.boolVar v)) → (∀ x ∈ φ.termLeaves, Q x) →
      ∀ x ∈ (substituteBoolVarInFormula b p φ).leaves, Q x
  | .tru, _, _ | .fls, _, _ => by simp [substituteBoolVarInFormula, leaves]
  | .var v, ha, _ => by
    rw [substituteBoolVarInFormula]
    split
    · exact hp
    · rename_i hv
      simpa [leaves] using ha v (by simp [atoms]) hv
  | .not inner, ha, ht => by
    simp only [atoms] at ha
    simp only [termLeaves] at ht
    rw [substituteBoolVarInFormula, leaves]
    exact forall_leaves_substituteBoolVar hp inner ha ht
  | .and items, ha, ht => by
    simp only [atoms] at ha
    simp only [termLeaves] at ht
    rw [substituteBoolVarInFormula, substituteBoolVarInList_eq_map]
    exact (hereditary_leaves Q).andMany
      (List.forall_mem_map.2 (forall_leaves_substituteBoolVarList hp items ha ht))
  | .or items, ha, ht => by
    simp only [atoms] at ha
    simp only [termLeaves] at ht
    rw [substituteBoolVarInFormula, substituteBoolVarInList_eq_map]
    exact (hereditary_leaves Q).orMany
      (List.forall_mem_map.2 (forall_leaves_substituteBoolVarList hp items ha ht))
  | .implies lhs rhs, ha, ht => by
    simp only [atoms, List.mem_append, or_imp, forall_and] at ha
    simp only [termLeaves, List.mem_append, or_imp, forall_and] at ht
    exact (hereditary_leaves Q).mkImplies (forall_leaves_substituteBoolVar hp lhs ha.1 ht.1)
      (forall_leaves_substituteBoolVar hp rhs ha.2 ht.2)
  | .eq _ _, _, ht | .lt _ _, _, ht | .le _ _, _, ht | .gt _ _, _, ht | .ge _ _, _, ht
  | .memoryEq _ _, _, ht => by
    simpa only [substituteBoolVarInFormula, leaves, termLeaves] using ht

theorem forall_leaves_substituteBoolVarList {Q : Leaf → Prop} (hp : ∀ x ∈ p.leaves, Q x) :
    ∀ items : List Formula, (∀ v ∈ atomsList items, v ≠ b → Q (.boolVar v)) →
      (∀ x ∈ termLeavesList items, Q x) →
        ∀ φ ∈ items, ∀ x ∈ (substituteBoolVarInFormula b p φ).leaves, Q x
  | [], _, _ => by simp
  | item :: rest, ha, ht => by
    simp only [atomsList, List.mem_append, or_imp, forall_and] at ha
    simp only [termLeavesList, List.mem_append, or_imp, forall_and] at ht
    rw [List.forall_mem_cons]
    exact ⟨forall_leaves_substituteBoolVar hp item ha.1 ht.1,
      forall_leaves_substituteBoolVarList hp rest ha.2 ht.2⟩

end

end BoolVar

/-- The variable occurs in the formula, in either position. -/
def Mentions (φ : Formula) (v : Var) : Prop := .boolVar v ∈ φ.leaves ∨ .termVar v ∈ φ.leaves

/-- A replaced variable that no term reads does not survive, unless the replacement mentions it. -/
theorem mentions_of_mentions_substituteBoolVar {b : Var} {p φ : Formula}
    (hφ : ¬ φ.ReadsInTerm b) (h : (substituteBoolVarInFormula b p φ).Mentions b) :
      p.Mentions b := by
  by_contra hp
  have hreplacement : ∀ x ∈ p.leaves, x ≠ .boolVar b ∧ x ≠ .termVar b := fun x hx ↦
    ⟨fun hxb ↦ hp (Or.inl (hxb ▸ hx)), fun hxb ↦ hp (Or.inr (hxb ▸ hx))⟩
  have hterms : ∀ x ∈ φ.termLeaves, x ≠ .boolVar b ∧ x ≠ .termVar b := fun x hx ↦
    ⟨fun hxb ↦ hφ (Or.inl (hxb ▸ hx)), fun hxb ↦ hφ (Or.inr (hxb ▸ hx))⟩
  have hfree : ∀ x ∈ (substituteBoolVarInFormula b p φ).leaves, x ≠ .boolVar b ∧ x ≠ .termVar b :=
    forall_leaves_substituteBoolVar hreplacement φ
      (fun v _ hv ↦ ⟨fun hvb ↦ hv (Leaf.boolVar.inj hvb), by simp⟩) hterms
  rcases h with hb | hb
  · exact (hfree _ hb).1 rfl
  · exact (hfree _ hb).2 rfl

end Formula

end MayMust
