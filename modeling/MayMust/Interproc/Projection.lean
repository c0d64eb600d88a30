import MayMust.Formula.Substitution
import MayMust.Library.Names

/-!
# Projection to the interface of a procedure

A summary is to speak about the scalars that a caller can name: the formals, the return value and
whatever is no local of the procedure. `project_to_interface` of the source eliminates the locals
of a formula. It collects the equations that define them from the conjuncts of the formula, resolves
chains of definitions in at most eight rounds, substitutes, and gives up if a local is left.

The resolution works by name and leaves memory alone; the substitution at the end works by name and
sort and enters memory. Neither matters in a state in which the definitions hold: there the
projection has the truth value of the formula (`holds_projectToInterface_iff`).

The source keeps the definitions in a map ordered by name, here a list in that order. The names of
the locals that are left are only logged, so what counts is whether there are any.
-/

namespace MayMust

open Library

/-! ### The source -/

/-- The boundary that a projection respects. -/
structure ProcedureInterface where
  procedure : String
  formals : List String

/-- `ProcedureInterface::is_interface_scalar`. Regions of the procedure and scalars of others are
on the interface. -/
def ProcedureInterface.isInterfaceScalar (interface : ProcedureInterface) (name : String) : Bool :=
  if name ∈ interface.formals then true
  else if name = interface.procedure ++ "$__retval" then true
  else (stripPrefix (interface.procedure ++ "$%") name).isNone

/-- Terms for names, ordered by name. -/
abbrev TermSubstitution := List (String × Term)

/-- `entry(name).or_insert(term)`: the first definition of a name stays. -/
def TermSubstitution.orInsert (name : String) (term : Term) : TermSubstitution → TermSubstitution
  | [] => [(name, term)]
  | (other, old) :: rest =>
    if name = other then (other, old) :: rest
    else if name < other then (name, term) :: (other, old) :: rest
    else (other, old) :: orInsert name term rest

section Defs

variable (interface : ProcedureInterface)

/-- `local_equality_pair`. -/
def localEqualityPair (lhs rhs : Term) : Option (String × Term) :=
  match lhs with
  | .var v => if interface.isInterfaceScalar v.name then none else some (v.name, rhs)
  | _ => none

mutual

/-- `collect_local_definitions`: equations of a local, either way round, below conjunctions. -/
def collectLocalDefinitions : Formula → TermSubstitution → TermSubstitution
  | .eq lhs rhs, out =>
    match localEqualityPair interface lhs rhs with
    | some (name, term) => out.orInsert name term
    | none =>
      match localEqualityPair interface rhs lhs with
      | some (name, term) => out.orInsert name term
      | none => out
  | .and items, out => collectLocalDefinitionsAll items out
  | .tru, out | .fls, out | .var _, out | .not _, out | .or _, out | .implies _ _, out
  | .memoryEq _ _, out | .lt _ _, out | .le _ _, out | .gt _ _, out | .ge _ _, out => out
termination_by structural φ => φ

/-- The loop of `collect_local_definitions` over the conjuncts. -/
def collectLocalDefinitionsAll : List Formula → TermSubstitution → TermSubstitution
  | [], out => out
  | item :: rest, out => collectLocalDefinitionsAll rest (collectLocalDefinitions item out)
termination_by structural items => items

end

end Defs

section Apply

variable (subst : TermSubstitution)

mutual

/-- `apply_subst_to_term`. The memory that a term reads stays as it is. -/
def applySubstToTerm : Term → Term
  | .var v => (subst.lookup v.name).getD (.var v)
  | .int value => .int value
  | .real value => .real value
  | .boolToInt value => .boolToInt (applySubstToFormula value)
  | .select memory index => .select memory (applySubstToTerm index)
  | .add lhs rhs => .add (applySubstToTerm lhs) (applySubstToTerm rhs)
  | .sub lhs rhs => .sub (applySubstToTerm lhs) (applySubstToTerm rhs)
  | .mul lhs rhs => .mul (applySubstToTerm lhs) (applySubstToTerm rhs)
  | .div lhs rhs => .div (applySubstToTerm lhs) (applySubstToTerm rhs)
  | .rem lhs rhs => .rem (applySubstToTerm lhs) (applySubstToTerm rhs)
  | .neg inner => .neg (applySubstToTerm inner)
termination_by structural t => t

/-- `apply_subst_to_formula`. -/
def applySubstToFormula : Formula → Formula
  | .tru => .tru
  | .fls => .fls
  | .var v => .var v
  | .memoryEq lhs rhs => .memoryEq lhs rhs
  | .not inner => .not (applySubstToFormula inner)
  | .and items => Formula.andMany (applySubstToFormulas items)
  | .or items => Formula.orMany (applySubstToFormulas items)
  | .implies lhs rhs => Formula.mkImplies (applySubstToFormula lhs) (applySubstToFormula rhs)
  | .eq lhs rhs => .eq (applySubstToTerm lhs) (applySubstToTerm rhs)
  | .lt lhs rhs => .lt (applySubstToTerm lhs) (applySubstToTerm rhs)
  | .le lhs rhs => .le (applySubstToTerm lhs) (applySubstToTerm rhs)
  | .gt lhs rhs => .gt (applySubstToTerm lhs) (applySubstToTerm rhs)
  | .ge lhs rhs => .ge (applySubstToTerm lhs) (applySubstToTerm rhs)
termination_by structural φ => φ

/-- `apply_subst_to_formula` on the children of an n-ary node. -/
def applySubstToFormulas : List Formula → List Formula
  | [] => []
  | item :: rest => applySubstToFormula item :: applySubstToFormulas rest
termination_by structural items => items

end

/-- One round of `resolve_substitution_chain`: every term is rewritten with the definitions as they
were before the round. -/
def TermSubstitution.resolveRound : TermSubstitution :=
  subst.map fun p ↦ (p.1, applySubstToTerm subst p.2)

end Apply

/-- `resolve_substitution_chain`, with the number of rounds that are left. -/
def resolveSubstitutionChain : ℕ → TermSubstitution → TermSubstitution
  | 0, subst => subst
  | rounds + 1, subst =>
    if subst.resolveRound = subst then subst
    else resolveSubstitutionChain rounds subst.resolveRound

/-- `guess_sort_of`. -/
def guessSortOf : Term → VarSort
  | .real _ => .real
  | _ => .int

section Find

variable (interface : ProcedureInterface)

mutual

/-- `walk_memory_collect_non_interface`. -/
def Memory.nonInterfaceScalars : Memory → List String
  | .var _ => []
  | .store memory index value =>
    memory.nonInterfaceScalars ++ index.nonInterfaceScalars ++ value.nonInterfaceScalars
termination_by structural m => m

/-- `walk_term_collect_non_interface`. The memory that a term reads is not looked at. -/
def Term.nonInterfaceScalars : Term → List String
  | .var v => if interface.isInterfaceScalar v.name then [] else [v.name]
  | .int _ | .real _ => []
  | .boolToInt value => value.nonInterfaceScalars
  | .select _ index => index.nonInterfaceScalars
  | .add lhs rhs | .sub lhs rhs | .mul lhs rhs | .div lhs rhs | .rem lhs rhs =>
    lhs.nonInterfaceScalars ++ rhs.nonInterfaceScalars
  | .neg inner => inner.nonInterfaceScalars
termination_by structural t => t

/-- `walk_formula_collect_non_interface`. -/
def Formula.nonInterfaceScalars : Formula → List String
  | .tru | .fls => []
  | .var v => if interface.isInterfaceScalar v.name then [] else [v.name]
  | .not inner => inner.nonInterfaceScalars
  | .and items | .or items => Formula.nonInterfaceScalarsAny items
  | .implies lhs rhs => lhs.nonInterfaceScalars ++ rhs.nonInterfaceScalars
  | .eq lhs rhs | .lt lhs rhs | .le lhs rhs | .gt lhs rhs | .ge lhs rhs =>
    lhs.nonInterfaceScalars ++ rhs.nonInterfaceScalars
  | .memoryEq lhs rhs => lhs.nonInterfaceScalars ++ rhs.nonInterfaceScalars
termination_by structural φ => φ

/-- The loop of `walk_formula_collect_non_interface` over the children of an n-ary node. -/
def Formula.nonInterfaceScalarsAny : List Formula → List String
  | [] => []
  | item :: rest => item.nonInterfaceScalars ++ Formula.nonInterfaceScalarsAny rest
termination_by structural items => items

end

/-- The definitions of `project_to_interface`, resolved. -/
def resolvedDefinitions (φ : Formula) : TermSubstitution :=
  resolveSubstitutionChain 8 (collectLocalDefinitions interface φ [])

/-- The loop of `project_to_interface`: one substitution after the other. -/
def substituteDefinitions (subst : TermSubstitution) (φ : Formula) : Formula :=
  subst.foldl (fun φ p ↦ substituteVarInFormula ⟨p.1, guessSortOf p.2⟩ p.2 φ) φ

/-- `project_to_interface`. -/
def projectToInterface (φ : Formula) : Option Formula :=
  let projected := substituteDefinitions (resolvedDefinitions interface φ) φ
  if projected.nonInterfaceScalars interface = [] then some projected else none

end Find

@[simp] theorem projectToInterface_tru (interface : ProcedureInterface) :
    projectToInterface interface .tru = some .tru := rfl

/-- A projection that succeeds carries out the definitions, and the walk finds no local in it. -/
theorem projectToInterface_eq_some {interface : ProcedureInterface} {φ projected : Formula} :
    projectToInterface interface φ = some projected ↔
      substituteDefinitions (resolvedDefinitions interface φ) φ = projected ∧
        projected.nonInterfaceScalars interface = [] := by
  simp only [projectToInterface, Option.ite_none_right_eq_some, Option.some.injEq]
  constructor
  · rintro ⟨hscan, rfl⟩
    exact ⟨rfl, hscan⟩
  · rintro ⟨rfl, hscan⟩
    exact ⟨hscan, rfl⟩

/-! ### What is collected -/

section Collect

variable {interface : ProcedureInterface} {subst : TermSubstitution} {φ : Formula} {name : String}
  {term : Term}

theorem mem_orInsert {p : String × Term} (h : p ∈ subst.orInsert name term) :
    p = (name, term) ∨ p ∈ subst := by
  induction subst with
  | nil => exact Or.inl (List.mem_singleton.1 h)
  | cons q rest ih =>
    obtain ⟨other, old⟩ := q
    rw [TermSubstitution.orInsert] at h
    split_ifs at h
    · exact Or.inr h
    · exact List.mem_cons.1 h
    · rcases List.mem_cons.1 h with rfl | h
      · exact Or.inr List.mem_cons_self
      · exact (ih h).imp_right (List.mem_cons_of_mem _)

theorem localEqualityPair_eq_some {lhs rhs : Term} {p : String × Term}
    (h : localEqualityPair interface lhs rhs = some p) : p.2 = rhs := by
  unfold localEqualityPair at h
  split at h
  · split_ifs at h
    rw [← Option.some.inj h]
  · cases h

mutual

/-- A collected definition reads what the formula reads. -/
theorem leaves_of_mem_collect {Q : Leaf → Prop} : ∀ (φ : Formula) (out : TermSubstitution),
    (∀ x ∈ φ.leaves, Q x) → (∀ p ∈ out, ∀ x ∈ p.2.leaves, Q x) →
      ∀ p ∈ collectLocalDefinitions interface φ out, ∀ x ∈ p.2.leaves, Q x
  | .eq lhs rhs, out, hφ, hout => by
    simp only [Formula.leaves, List.mem_append, or_imp, forall_and] at hφ
    intro p hp
    rw [collectLocalDefinitions] at hp
    split at hp
    · rename_i name term hpair
      rcases mem_orInsert hp with rfl | hp
      · have hterm : term = rhs := localEqualityPair_eq_some hpair
        exact hterm ▸ hφ.2
      · exact hout p hp
    split at hp
    · rename_i name term hpair
      rcases mem_orInsert hp with rfl | hp
      · have hterm : term = lhs := localEqualityPair_eq_some hpair
        exact hterm ▸ hφ.1
      · exact hout p hp
    · exact hout p hp
  | .and items, out, hφ, hout => by
    simp only [Formula.leaves] at hφ
    rw [collectLocalDefinitions]
    exact leaves_of_mem_collectAll items out hφ hout
  | .tru, out, _, hout | .fls, out, _, hout | .var _, out, _, hout | .not _, out, _, hout
  | .or _, out, _, hout | .implies _ _, out, _, hout | .memoryEq _ _, out, _, hout
  | .lt _ _, out, _, hout | .le _ _, out, _, hout | .gt _ _, out, _, hout
  | .ge _ _, out, _, hout => by
    rw [collectLocalDefinitions]
    exact hout

theorem leaves_of_mem_collectAll {Q : Leaf → Prop} :
    ∀ (items : List Formula) (out : TermSubstitution),
      (∀ x ∈ Formula.leavesList items, Q x) → (∀ p ∈ out, ∀ x ∈ p.2.leaves, Q x) →
        ∀ p ∈ collectLocalDefinitionsAll interface items out, ∀ x ∈ p.2.leaves, Q x
  | [], out, _, hout => by rw [collectLocalDefinitionsAll]; exact hout
  | item :: rest, out, hitems, hout => by
    simp only [Formula.leavesList, List.mem_append, or_imp, forall_and] at hitems
    rw [collectLocalDefinitionsAll]
    exact leaves_of_mem_collectAll rest _ hitems.2 (leaves_of_mem_collect item out hitems.1 hout)

end

end Collect

/-! ### Substituting what is equal -/

section Substitute

variable {subst : TermSubstitution} {s : State} {Q : Leaf → Prop}

theorem mem_of_lookup_eq_some {name : String} {term : Term}
    (h : subst.lookup name = some term) : (name, term) ∈ subst := by
  induction subst with
  | nil => cases h
  | cons p rest ih =>
    obtain ⟨other, old⟩ := p
    rw [List.lookup_cons] at h
    split at h
    · rename_i heq
      obtain rfl : name = other := by simpa using heq
      obtain rfl := Option.some.inj h
      exact List.mem_cons_self
    · exact List.mem_cons_of_mem _ (ih h)

mutual

/-- The terms that are put in bring in only what they read. -/
theorem forall_leaves_applySubstToTerm (hsubst : ∀ p ∈ subst, ∀ x ∈ p.2.leaves, Q x) :
    ∀ t : Term, (∀ x ∈ t.leaves, Q x) → ∀ x ∈ (applySubstToTerm subst t).leaves, Q x
  | .var v, h => by
    rw [applySubstToTerm]
    cases hlookup : subst.lookup v.name with
    | none => exact h
    | some term => exact hsubst _ (mem_of_lookup_eq_some hlookup)
  | .int _, _ | .real _, _ => by simp [applySubstToTerm, Term.leaves]
  | .boolToInt value, h => by
    simp only [Term.leaves] at h
    simp only [applySubstToTerm, Term.leaves]
    exact forall_leaves_applySubstToFormula hsubst value h
  | .select memory index, h => by
    simp only [Term.leaves, List.mem_append, or_imp, forall_and] at h
    simp only [applySubstToTerm, Term.leaves, List.mem_append, or_imp, forall_and]
    exact ⟨h.1, forall_leaves_applySubstToTerm hsubst index h.2⟩
  | .add lhs rhs, h | .sub lhs rhs, h | .mul lhs rhs, h | .div lhs rhs, h | .rem lhs rhs, h => by
    simp only [Term.leaves, List.mem_append, or_imp, forall_and] at h
    simp only [applySubstToTerm, Term.leaves, List.mem_append, or_imp, forall_and]
    exact ⟨forall_leaves_applySubstToTerm hsubst lhs h.1,
      forall_leaves_applySubstToTerm hsubst rhs h.2⟩
  | .neg inner, h => by
    simp only [Term.leaves] at h
    simp only [applySubstToTerm, Term.leaves]
    exact forall_leaves_applySubstToTerm hsubst inner h

theorem forall_leaves_applySubstToFormula (hsubst : ∀ p ∈ subst, ∀ x ∈ p.2.leaves, Q x) :
    ∀ φ : Formula, (∀ x ∈ φ.leaves, Q x) → ∀ x ∈ (applySubstToFormula subst φ).leaves, Q x
  | .tru, h | .fls, h | .var _, h | .memoryEq _ _, h => by rw [applySubstToFormula]; exact h
  | .not inner, h => by
    simp only [Formula.leaves] at h
    simp only [applySubstToFormula, Formula.leaves]
    exact forall_leaves_applySubstToFormula hsubst inner h
  | .and items, h => by
    simp only [Formula.leaves] at h
    rw [applySubstToFormula]
    exact (hereditary_leaves Q).andMany (forall_leaves_applySubstToFormulas hsubst items h)
  | .or items, h => by
    simp only [Formula.leaves] at h
    rw [applySubstToFormula]
    exact (hereditary_leaves Q).orMany (forall_leaves_applySubstToFormulas hsubst items h)
  | .implies lhs rhs, h => by
    simp only [Formula.leaves, List.mem_append, or_imp, forall_and] at h
    rw [applySubstToFormula]
    exact (hereditary_leaves Q).mkImplies (forall_leaves_applySubstToFormula hsubst lhs h.1)
      (forall_leaves_applySubstToFormula hsubst rhs h.2)
  | .eq lhs rhs, h | .lt lhs rhs, h | .le lhs rhs, h | .gt lhs rhs, h | .ge lhs rhs, h => by
    simp only [Formula.leaves, List.mem_append, or_imp, forall_and] at h
    simp only [applySubstToFormula, Formula.leaves, List.mem_append, or_imp, forall_and]
    exact ⟨forall_leaves_applySubstToTerm hsubst lhs h.1,
      forall_leaves_applySubstToTerm hsubst rhs h.2⟩

theorem forall_leaves_applySubstToFormulas (hsubst : ∀ p ∈ subst, ∀ x ∈ p.2.leaves, Q x) :
    ∀ items : List Formula, (∀ x ∈ Formula.leavesList items, Q x) →
      ∀ φ ∈ applySubstToFormulas subst items, ∀ x ∈ φ.leaves, Q x
  | [], _ => by simp [applySubstToFormulas]
  | item :: rest, h => by
    simp only [Formula.leavesList, List.mem_append, or_imp, forall_and] at h
    rw [applySubstToFormulas, List.forall_mem_cons]
    exact ⟨forall_leaves_applySubstToFormula hsubst item h.1,
      forall_leaves_applySubstToFormulas hsubst rest h.2⟩

end

/-- The variables of a set of leaves have the values of the terms for their names. -/
def TermSubstitution.Agrees (subst : TermSubstitution) (Q : Leaf → Prop) (s : State) : Prop :=
  ∀ p ∈ subst, ∀ v : Var, v.name = p.1 → Q (.termVar v) → s.lookup v = p.2.eval s

mutual

theorem eval_applySubstToTerm (hsubst : subst.Agrees Q s) :
    ∀ t : Term, (∀ x ∈ t.leaves, Q x) → (applySubstToTerm subst t).eval s = t.eval s
  | .var v, h => by
    rw [applySubstToTerm]
    cases hlookup : subst.lookup v.name with
    | none => rfl
    | some term =>
      exact (hsubst _ (mem_of_lookup_eq_some hlookup) v rfl (h _ (by simp [Term.leaves]))).symm
  | .int _, _ | .real _, _ => by rw [applySubstToTerm]
  | .boolToInt value, h => by
    simp only [Term.leaves] at h
    simp only [applySubstToTerm, Term.eval]
    rw [eval_applySubstToFormula hsubst value h]
  | .select memory index, h => by
    simp only [Term.leaves, List.mem_append, or_imp, forall_and] at h
    simp only [applySubstToTerm, Term.eval]
    rw [eval_applySubstToTerm hsubst index h.2]
  | .add lhs rhs, h | .sub lhs rhs, h | .mul lhs rhs, h | .div lhs rhs, h | .rem lhs rhs, h => by
    simp only [Term.leaves, List.mem_append, or_imp, forall_and] at h
    simp only [applySubstToTerm, Term.eval]
    rw [eval_applySubstToTerm hsubst lhs h.1, eval_applySubstToTerm hsubst rhs h.2]
  | .neg inner, h => by
    simp only [Term.leaves] at h
    simp only [applySubstToTerm, Term.eval]
    rw [eval_applySubstToTerm hsubst inner h]

theorem eval_applySubstToFormula (hsubst : subst.Agrees Q s) :
    ∀ φ : Formula, (∀ x ∈ φ.leaves, Q x) → (applySubstToFormula subst φ).eval s = φ.eval s
  | .tru, _ | .fls, _ | .var _, _ | .memoryEq _ _, _ => by rw [applySubstToFormula]
  | .not inner, h => by
    simp only [Formula.leaves] at h
    simp only [applySubstToFormula, Formula.eval]
    rw [eval_applySubstToFormula hsubst inner h]
  | .and items, h => by
    simp only [Formula.leaves] at h
    refine Formula.eval_eq_of_holds_iff ?_
    rw [applySubstToFormula, Formula.holds_andMany, Formula.holds_and]
    exact (eval_applySubstToFormulas hsubst items h).1
  | .or items, h => by
    simp only [Formula.leaves] at h
    refine Formula.eval_eq_of_holds_iff ?_
    rw [applySubstToFormula, Formula.holds_orMany, Formula.holds_or]
    exact (eval_applySubstToFormulas hsubst items h).2
  | .implies lhs rhs, h => by
    simp only [Formula.leaves, List.mem_append, or_imp, forall_and] at h
    refine Formula.eval_eq_of_holds_iff ?_
    rw [applySubstToFormula, Formula.holds_mkImplies, Formula.holds_implies, Formula.Holds,
      Formula.Holds, eval_applySubstToFormula hsubst lhs h.1,
      eval_applySubstToFormula hsubst rhs h.2]
    rfl
  | .eq lhs rhs, h | .lt lhs rhs, h | .le lhs rhs, h | .gt lhs rhs, h | .ge lhs rhs, h => by
    simp only [Formula.leaves, List.mem_append, or_imp, forall_and] at h
    simp only [applySubstToFormula, Formula.eval]
    rw [eval_applySubstToTerm hsubst lhs h.1, eval_applySubstToTerm hsubst rhs h.2]

/-- The children of an n-ary node hold together, and one of them holds, as before. -/
theorem eval_applySubstToFormulas (hsubst : subst.Agrees Q s) :
    ∀ items : List Formula, (∀ x ∈ Formula.leavesList items, Q x) →
      ((∀ φ ∈ applySubstToFormulas subst items, φ.Holds s) ↔ ∀ φ ∈ items, φ.Holds s) ∧
        ((∃ φ ∈ applySubstToFormulas subst items, φ.Holds s) ↔ ∃ φ ∈ items, φ.Holds s)
  | [], _ => by simp [applySubstToFormulas]
  | item :: rest, h => by
    simp only [Formula.leavesList, List.mem_append, or_imp, forall_and] at h
    have hitem : (applySubstToFormula subst item).Holds s ↔ item.Holds s := by
      rw [Formula.Holds, Formula.Holds, eval_applySubstToFormula hsubst item h.1]
    obtain ⟨hall, hany⟩ := eval_applySubstToFormulas hsubst rest h.2
    rw [applySubstToFormulas]
    simp only [List.forall_mem_cons, List.exists_mem_cons_iff, hitem, hall, hany, and_self]

end

/-- A round keeps what the terms read and what they are worth. -/
theorem TermSubstitution.Agrees.resolveRound (h : subst.Agrees Q s)
    (hleaves : ∀ p ∈ subst, ∀ x ∈ p.2.leaves, Q x) :
    subst.resolveRound.Agrees Q s ∧ ∀ p ∈ subst.resolveRound, ∀ x ∈ p.2.leaves, Q x := by
  rw [TermSubstitution.resolveRound]
  constructor
  · intro p hp v hname hv
    obtain ⟨q, hq, rfl⟩ := List.mem_map.1 hp
    show s.lookup v = (applySubstToTerm subst q.2).eval s
    rw [eval_applySubstToTerm h q.2 (hleaves q hq)]
    exact h q hq v hname hv
  · intro p hp
    obtain ⟨q, hq, rfl⟩ := List.mem_map.1 hp
    exact forall_leaves_applySubstToTerm hleaves q.2 (hleaves q hq)

theorem TermSubstitution.Agrees.resolve (rounds : ℕ) (h : subst.Agrees Q s)
    (hleaves : ∀ p ∈ subst, ∀ x ∈ p.2.leaves, Q x) :
    (resolveSubstitutionChain rounds subst).Agrees Q s ∧
      ∀ p ∈ resolveSubstitutionChain rounds subst, ∀ x ∈ p.2.leaves, Q x := by
  induction rounds generalizing subst with
  | zero => exact ⟨h, hleaves⟩
  | succ rounds ih =>
    rw [resolveSubstitutionChain]
    split_ifs
    · exact ⟨h, hleaves⟩
    · obtain ⟨h', hleaves'⟩ := h.resolveRound hleaves
      exact ih h' hleaves'

/-- One substitution after the other keeps the value of a formula. -/
theorem TermSubstitution.Agrees.eval_substituteDefinitions {φ : Formula} (h : subst.Agrees Q s)
    (hleaves : ∀ p ∈ subst, ∀ x ∈ p.2.leaves, Q x) (hφ : ∀ x ∈ φ.leaves, Q x) :
    (substituteDefinitions subst φ).eval s = φ.eval s := by
  induction subst generalizing φ with
  | nil => rfl
  | cons p rest ih =>
    rw [Agrees] at h
    rw [List.forall_mem_cons] at h hleaves
    have hstep : (substituteVarInFormula ⟨p.1, guessSortOf p.2⟩ p.2 φ).eval s = φ.eval s := by
      refine Formula.eval_rebuild (State.SameUndefined.refl s) φ fun l hl ↦ ?_
      cases l with
      | boolVar v => rfl
      | region name => rfl
      | termVar v =>
        unfold LeafMap.Matches LeafMap.replaceVar
        dsimp only
        split_ifs with hv
        · exact (h.1 v (by rw [hv]) (hφ _ hl)).symm
        · rfl
    have hread : ∀ x ∈ (substituteVarInFormula ⟨p.1, guessSortOf p.2⟩ p.2 φ).leaves, Q x := by
      refine Formula.forall_leaves_rebuild φ fun l hl ↦ ?_
      cases l with
      | boolVar v => exact fun x hx ↦ hφ x ((List.mem_singleton.1 hx) ▸ hl)
      | region name => exact fun x hx ↦ hφ x ((List.mem_singleton.1 hx) ▸ hl)
      | termVar v =>
        unfold LeafMap.leavesAt LeafMap.replaceVar
        dsimp only
        split_ifs
        · exact hleaves.1
        · exact fun x hx ↦ hφ x ((List.mem_singleton.1 hx) ▸ hl)
    exact (ih h.2 hleaves.2 hread).trans hstep

end Substitute

/-! ### The result -/

/-- The definitions that a projection of the formula collects hold in the state: every variable of a
collected name that a term of the formula reads has the value of its definition. -/
def DefinitionsHold (interface : ProcedureInterface) (φ : Formula) (s : State) : Prop :=
  (collectLocalDefinitions interface φ []).Agrees (· ∈ φ.leaves) s

/-- **Where the definitions hold, projecting changes nothing.** -/
theorem holds_projectToInterface_iff {interface : ProcedureInterface} {φ projected : Formula}
    {s : State} (hproject : projectToInterface interface φ = some projected)
    (hdefinitions : DefinitionsHold interface φ s) : projected.Holds s ↔ φ.Holds s := by
  obtain ⟨rfl, -⟩ := projectToInterface_eq_some.1 hproject
  have hleaves : ∀ p ∈ collectLocalDefinitions interface φ [], ∀ x ∈ p.2.leaves, x ∈ φ.leaves :=
    leaves_of_mem_collect φ [] (fun _ hx ↦ hx) (by simp)
  obtain ⟨hagrees, hread⟩ := hdefinitions.resolve 8 hleaves
  rw [Formula.Holds, Formula.Holds, resolvedDefinitions,
    hagrees.eval_substituteDefinitions hread fun _ hx ↦ hx]

end MayMust
