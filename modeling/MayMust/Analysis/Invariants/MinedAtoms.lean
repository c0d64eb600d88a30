import MayMust.Analysis.Loops.Detection
import MayMust.Formula.WellSorted
import MayMust.Library.Chains

/-!
# Comparisons mined from a loop

The synthesis of invariants starts from the comparisons that the loop itself makes: those in the
guards of the edges that leave a node of the body, and in the assumptions and the predicates that
are assigned in the body. They speak of variables the body sets on the way to them, which mean
nothing at the header. So the definitions of these variables are put in, after the chains among the
definitions have been resolved in up to eight rounds (`buildBodyVarSubst`).

Eight rounds resolve 256 layers of definitions. Then no variable that the body defines is left, and
at the header an atom says what the comparison it comes from, or its negation, will say
(`holds_iff_of_mem_collectPredicateAtoms`).
-/

namespace MayMust

open Library

/-! ### Comparisons and their negations -/

/-- `formula_conjuncts`. -/
def formulaConjuncts : Formula → List Formula
  | .and items => items
  | other => [other]

/-- `negate_comparison`. -/
def negateComparison : Formula → Option Formula
  | .lt l r => some (.ge l r)
  | .le l r => some (.gt l r)
  | .gt l r => some (.le l r)
  | .ge l r => some (.lt l r)
  | .not inner => some inner
  | _ => none

mutual

/-- `collect_atomic_comparisons`. -/
def collectAtomicComparisons : Formula → List Formula
  | .le l r => [.le l r]
  | .lt l r => [.lt l r]
  | .ge l r => [.ge l r]
  | .gt l r => [.gt l r]
  | .eq l r => [.eq l r]
  | .not inner => collectAtomicComparisons inner
  | .and parts | .or parts => collectAtomicComparisonsList parts
  | .implies lhs rhs => collectAtomicComparisons lhs ++ collectAtomicComparisons rhs
  | .tru | .fls | .var _ | .memoryEq _ _ => []
termination_by structural φ => φ

/-- The loop of `collect_atomic_comparisons` over the parts of a node. -/
def collectAtomicComparisonsList : List Formula → List Formula
  | [] => []
  | part :: rest => collectAtomicComparisons part ++ collectAtomicComparisonsList rest
termination_by structural parts => parts

end

namespace LoopInfo

variable (info : LoopInfo) (cfg : AbstractCfg)

/-- The nodes of the body, in the order of their ids. -/
def bodyNodes : List AbstractNode := cfg.nodes.filter (·.id ∈ info.body)

/-- The effects of the nodes of the body. -/
def bodyEffects : List TransferEffect := (info.bodyNodes cfg).flatMap (·.transfer.effects)

/-- The edges that leave a node of the body, exit edges and back edges included. -/
def bodyEdges : List AbstractEdge :=
  (info.bodyNodes cfg).flatMap fun node ↦
    (cfg.outgoingEdges node.id).filterMap fun id ↦ (cfg.edge id).toOption

/-- What is false of the assertion behind the exit edges. -/
def violations (postconditions : CfgNodeId → Option Formula) : List Formula :=
  info.exitEdges.filterMap fun id ↦
    match cfg.edge id with
    | .error _ => none
    | .ok edge => postconditions edge.target

end LoopInfo

/-- `violation_negation_atoms`. -/
def violationNegationAtoms (info : LoopInfo) (cfg : AbstractCfg)
    (postconditions : CfgNodeId → Option Formula) : List Formula :=
  (info.violations cfg postconditions).flatMap fun violation ↦
    if violation = .fls then [] else (formulaConjuncts violation).filterMap negateComparison

/-! ### Substitution of definitions -/

section Substitute

variable (table : Var → Option Term)

mutual

/-- `substitute_term_vars_to_terms`, given how the table looks a variable up. The memory of a read
stays as it is. -/
def substituteTermVarsToTerms : Term → Term
  | .var v => (table v).getD (.var v)
  | .int n => .int n
  | .real q => .real q
  | .boolToInt inner => .boolToInt (substituteFormulaVarsToTerms inner)
  | .select memory index => .select memory (substituteTermVarsToTerms index)
  | .add l r => .add (substituteTermVarsToTerms l) (substituteTermVarsToTerms r)
  | .sub l r => .sub (substituteTermVarsToTerms l) (substituteTermVarsToTerms r)
  | .mul l r => .mul (substituteTermVarsToTerms l) (substituteTermVarsToTerms r)
  | .div l r => .div (substituteTermVarsToTerms l) (substituteTermVarsToTerms r)
  | .rem l r => .rem (substituteTermVarsToTerms l) (substituteTermVarsToTerms r)
  | .neg inner => .neg (substituteTermVarsToTerms inner)
termination_by structural t => t

/-- `substitute_formula_vars_to_terms`. Boolean variables and equations of memories stay as they
are. -/
def substituteFormulaVarsToTerms : Formula → Formula
  | .tru => .tru
  | .fls => .fls
  | .le l r => .le (substituteTermVarsToTerms l) (substituteTermVarsToTerms r)
  | .lt l r => .lt (substituteTermVarsToTerms l) (substituteTermVarsToTerms r)
  | .ge l r => .ge (substituteTermVarsToTerms l) (substituteTermVarsToTerms r)
  | .gt l r => .gt (substituteTermVarsToTerms l) (substituteTermVarsToTerms r)
  | .eq l r => .eq (substituteTermVarsToTerms l) (substituteTermVarsToTerms r)
  | .not inner => .not (substituteFormulaVarsToTerms inner)
  | .and parts => Formula.andMany (substituteFormulasVarsToTerms parts)
  | .or parts => Formula.orMany (substituteFormulasVarsToTerms parts)
  | .implies lhs rhs =>
    Formula.mkImplies (substituteFormulaVarsToTerms lhs) (substituteFormulaVarsToTerms rhs)
  | .var v => .var v
  | .memoryEq l r => .memoryEq l r
termination_by structural φ => φ

/-- The loop of `substitute_formula_vars_to_terms` over the parts of a node. -/
def substituteFormulasVarsToTerms : List Formula → List Formula
  | [] => []
  | part :: rest => substituteFormulaVarsToTerms part :: substituteFormulasVarsToTerms rest
termination_by structural parts => parts

end

end Substitute

/-- The map from the names of variables to terms. -/
abbrev BodySubst := List (String × Term)

namespace BodySubst

/-- What the map has for the name of the variable. -/
def get? (subst : BodySubst) (v : Var) : Option Term := subst.lookup v.name

/-- Put a term for a name, in place of what was there. -/
def insert (subst : BodySubst) (name : String) (value : Term) : BodySubst :=
  (name, value) :: subst.filter (·.1 ≠ name)

/-- One round of the resolution: the values are rewritten with the map as it was. -/
def resolveRound (subst : BodySubst) : BodySubst :=
  subst.map fun entry ↦ (entry.1, substituteTermVarsToTerms subst.get? entry.2)

/-- Up to so many rounds, or until nothing changes. -/
def resolveChains : ℕ → BodySubst → BodySubst
  | 0, subst => subst
  | rounds + 1, subst =>
    if subst.resolveRound = subst then subst else resolveChains rounds subst.resolveRound

end BodySubst

/-- A variable and the term that is assigned to it. -/
def TransferEffect.definition? : TransferEffect → Option (Var × Term)
  | .assign target (.term value) => some (target, value)
  | _ => none

/-- The definitions of the body. -/
def LoopInfo.definitions (info : LoopInfo) (cfg : AbstractCfg) : List (Var × Term) :=
  (info.bodyEffects cfg).filterMap TransferEffect.definition?

/-- The map of the definitions, before any round: the last one of a name counts. -/
def LoopInfo.assignments (info : LoopInfo) (cfg : AbstractCfg) : BodySubst :=
  (info.definitions cfg).foldl (fun subst d ↦ subst.insert d.1.name d.2) []

/-- `build_body_var_subst`. -/
def buildBodyVarSubst (info : LoopInfo) (cfg : AbstractCfg) : BodySubst :=
  (info.assignments cfg).resolveChains 8

/-! ### The atoms -/

/-- The name of the variable is one of LLVM's own. -/
def Var.isVla (v : Var) : Bool := "__vla_expr".toList <:+: v.name.toList

/-- `term_contains_vla_var`. -/
def termContainsVlaVar : Term → Bool
  | .var v => v.isVla
  | .add l r | .sub l r | .mul l r | .div l r | .rem l r =>
    termContainsVlaVar l || termContainsVlaVar r
  | .neg inner => termContainsVlaVar inner
  | .select _ index => termContainsVlaVar index
  | .int _ | .real _ | .boolToInt _ => false
termination_by structural t => t

/-- `formula_contains_vla_var`. -/
def formulaContainsVlaVar : Formula → Bool
  | .le l r | .lt l r | .ge l r | .gt l r | .eq l r => termContainsVlaVar l || termContainsVlaVar r
  | .not inner => formulaContainsVlaVar inner
  | _ => false

/-- The formula that is assumed or assigned. -/
def TransferEffect.predicate? : TransferEffect → Option Formula
  | .assume condition => some condition
  | .assign _ (.predicate value) => some value
  | _ => none

/-- The comparisons that the loop makes. -/
def LoopInfo.comparisons (info : LoopInfo) (cfg : AbstractCfg) : List Formula :=
  ((info.bodyEdges cfg).map (·.guard) ++
    (info.bodyEffects cfg).filterMap TransferEffect.predicate?).flatMap collectAtomicComparisons

/-- A comparison with the definitions of the body put in. -/
def resolveComparison (info : LoopInfo) (cfg : AbstractCfg) (comparison : Formula) : Formula :=
  let subst := buildBodyVarSubst info cfg
  if subst.isEmpty then comparison else substituteFormulaVarsToTerms subst.get? comparison

/-- `collect_predicate_atoms`. -/
def collectPredicateAtoms (info : LoopInfo) (cfg : AbstractCfg) : List Formula :=
  let raw := (info.comparisons cfg).map (resolveComparison info cfg)
  ((raw ++ raw.filterMap negateComparison).filter fun atom ↦
    !formulaContainsVlaVar atom).eraseDups

/-! ### Plain formulas -/

/-- The memory is a region, with no updates. -/
def Memory.IsRegion : Memory → Prop
  | .var _ => True
  | .store .. => False

section Plain

variable (Q : Var → Prop)

mutual

/-- All memories in the term are regions, and its variables have the property. -/
def Term.Plain : Term → Prop
  | .var v => Q v
  | .int _ | .real _ => True
  | .boolToInt inner => inner.Plain
  | .select memory index => memory.IsRegion ∧ index.Plain
  | .add l r | .sub l r | .mul l r | .div l r | .rem l r => l.Plain ∧ r.Plain
  | .neg inner => inner.Plain
termination_by structural t => t

/-- All memories in the formula are regions, and the variables in its terms have the property. -/
def Formula.Plain : Formula → Prop
  | .tru | .fls | .var _ => True
  | .not inner => inner.Plain
  | .and parts | .or parts => Formula.PlainList parts
  | .implies lhs rhs => lhs.Plain ∧ rhs.Plain
  | .eq l r | .lt l r | .le l r | .gt l r | .ge l r => l.Plain ∧ r.Plain
  | .memoryEq l r => l.IsRegion ∧ r.IsRegion
termination_by structural φ => φ

/-- All formulas of the list are plain. -/
def Formula.PlainList : List Formula → Prop
  | [] => True
  | part :: rest => part.Plain ∧ Formula.PlainList rest
termination_by structural parts => parts

end

variable {Q}

theorem Formula.plainList_iff {parts : List Formula} :
    Formula.PlainList Q parts ↔ ∀ φ ∈ parts, φ.Plain Q := by
  induction parts with
  | nil => simp [Formula.PlainList]
  | cons part rest ih => simp [Formula.PlainList, ih]

theorem hereditary_plain : Hereditary (Formula.Plain Q) where
  tru := trivial
  fls := trivial
  not_iff _ := Iff.rfl
  and_iff _ := Formula.plainList_iff
  or_iff _ := Formula.plainList_iff
  implies_iff _ _ := Iff.rfl

variable {P : Var → Prop}

mutual

theorem Term.plain_mono (h : ∀ v, P v → Q v) : ∀ t : Term, t.Plain P → t.Plain Q
  | .var v, ht => h v ht
  | .int _, _ | .real _, _ => trivial
  | .boolToInt φ, ht => Formula.plain_mono h φ ht
  | .select _ i, ht => ⟨ht.1, Term.plain_mono h i ht.2⟩
  | .add l r, ht | .sub l r, ht | .mul l r, ht | .div l r, ht | .rem l r, ht =>
    ⟨Term.plain_mono h l ht.1, Term.plain_mono h r ht.2⟩
  | .neg t, ht => Term.plain_mono h t ht

theorem Formula.plain_mono (h : ∀ v, P v → Q v) : ∀ φ : Formula, φ.Plain P → φ.Plain Q
  | .tru, _ | .fls, _ | .var _, _ => trivial
  | .not φ, hφ => Formula.plain_mono h φ hφ
  | .and parts, hφ | .or parts, hφ => Formula.plainList_mono h parts hφ
  | .implies l r, hφ => ⟨Formula.plain_mono h l hφ.1, Formula.plain_mono h r hφ.2⟩
  | .eq l r, hφ | .lt l r, hφ | .le l r, hφ | .gt l r, hφ | .ge l r, hφ =>
    ⟨Term.plain_mono h l hφ.1, Term.plain_mono h r hφ.2⟩
  | .memoryEq _ _, hφ => hφ

theorem Formula.plainList_mono (h : ∀ v, P v → Q v) :
    ∀ parts : List Formula, Formula.PlainList P parts → Formula.PlainList Q parts
  | [], _ => trivial
  | part :: rest, hparts =>
    ⟨Formula.plain_mono h part hparts.1, Formula.plainList_mono h rest hparts.2⟩

end

mutual

/-- The variables a plain term reads. -/
theorem Term.Plain.of_mem_leaves {v : Var} :
    ∀ {t : Term}, t.Plain Q → .termVar v ∈ t.leaves → Q v
  | .var w, ht, hv => by
    obtain rfl : v = w := by simpa [Term.leaves] using hv
    exact ht
  | .int _, _, hv | .real _, _, hv => absurd hv List.not_mem_nil
  | .boolToInt φ, ht, hv => Formula.Plain.of_mem_leaves (show φ.Plain Q from ht) hv
  | .select (.var _) i, ht, hv => by
    rw [Term.leaves, Memory.leaves] at hv
    exact ht.2.of_mem_leaves (List.mem_of_ne_of_mem Leaf.noConfusion hv)
  | .add l r, ht, hv | .sub l r, ht, hv | .mul l r, ht, hv | .div l r, ht, hv | .rem l r, ht, hv =>
    (List.mem_append.1 hv).elim ht.1.of_mem_leaves ht.2.of_mem_leaves
  | .neg t, ht, hv => Term.Plain.of_mem_leaves (show t.Plain Q from ht) hv

/-- The variables the terms of a plain formula read. -/
theorem Formula.Plain.of_mem_leaves {v : Var} :
    ∀ {φ : Formula}, φ.Plain Q → .termVar v ∈ φ.leaves → Q v
  | .tru, _, hv | .fls, _, hv => absurd hv List.not_mem_nil
  | .var w, _, hv => by simp [Formula.leaves] at hv
  | .not φ, hφ, hv => Formula.Plain.of_mem_leaves (show φ.Plain Q from hφ) hv
  | .and parts, hφ, hv | .or parts, hφ, hv =>
    Formula.PlainList.of_mem_leaves (show Formula.PlainList Q parts from hφ) hv
  | .implies l r, hφ, hv => (List.mem_append.1 hv).elim hφ.1.of_mem_leaves hφ.2.of_mem_leaves
  | .eq l r, hφ, hv | .lt l r, hφ, hv | .le l r, hφ, hv | .gt l r, hφ, hv | .ge l r, hφ, hv =>
    (List.mem_append.1 hv).elim hφ.1.of_mem_leaves hφ.2.of_mem_leaves
  | .memoryEq (.var _) (.var _), _, hv => by simp [Formula.leaves, Memory.leaves] at hv

theorem Formula.PlainList.of_mem_leaves {v : Var} : ∀ {parts : List Formula},
    Formula.PlainList Q parts → .termVar v ∈ Formula.leavesList parts → Q v
  | [], _, hv => absurd hv List.not_mem_nil
  | _ :: _, hparts, hv =>
    (List.mem_append.1 hv).elim hparts.1.of_mem_leaves hparts.2.of_mem_leaves

end

end Plain

/-! ### What substitution does -/

section Substitution

variable {table : Var → Option Term} {Q : Var → Prop} {s : State}

theorem substituteFormulasVarsToTerms_eq_map (parts : List Formula) :
    substituteFormulasVarsToTerms table parts =
      parts.map (substituteFormulaVarsToTerms table) := by
  induction parts with
  | nil => rfl
  | cons part rest ih => rw [substituteFormulasVarsToTerms, ih, List.map_cons]

mutual

theorem Term.plain_substitute : ∀ t : Term,
    t.Plain (fun v ↦ (∀ u, table v = some u → u.Plain Q) ∧ (table v = none → Q v)) →
      (substituteTermVarsToTerms table t).Plain Q
  | .var v, ht => by
    rw [substituteTermVarsToTerms]
    cases hv : table v with
    | none => exact ht.2 hv
    | some u => exact ht.1 u hv
  | .int _, _ | .real _, _ => trivial
  | .boolToInt φ, ht => Formula.plain_substitute φ ht
  | .select _ i, ht => ⟨ht.1, Term.plain_substitute i ht.2⟩
  | .add l r, ht | .sub l r, ht | .mul l r, ht | .div l r, ht | .rem l r, ht =>
    ⟨Term.plain_substitute l ht.1, Term.plain_substitute r ht.2⟩
  | .neg t, ht => Term.plain_substitute t ht

/-- What is left in a formula after a substitution. -/
theorem Formula.plain_substitute : ∀ φ : Formula,
    φ.Plain (fun v ↦ (∀ u, table v = some u → u.Plain Q) ∧ (table v = none → Q v)) →
      (substituteFormulaVarsToTerms table φ).Plain Q
  | .tru, _ | .fls, _ | .var _, _ => trivial
  | .not φ, hφ => Formula.plain_substitute φ hφ
  | .and parts, hφ => hereditary_plain.andMany (Formula.plain_substituteList parts hφ)
  | .or parts, hφ => hereditary_plain.orMany (Formula.plain_substituteList parts hφ)
  | .implies l r, hφ =>
    hereditary_plain.mkImplies (Formula.plain_substitute l hφ.1) (Formula.plain_substitute r hφ.2)
  | .eq l r, hφ | .lt l r, hφ | .le l r, hφ | .gt l r, hφ | .ge l r, hφ =>
    ⟨Term.plain_substitute l hφ.1, Term.plain_substitute r hφ.2⟩
  | .memoryEq _ _, hφ => hφ

theorem Formula.plain_substituteList : ∀ parts : List Formula,
    Formula.PlainList
      (fun v ↦ (∀ u, table v = some u → u.Plain Q) ∧ (table v = none → Q v)) parts →
      ∀ φ ∈ substituteFormulasVarsToTerms table parts, φ.Plain Q
  | [], _ => fun _ hφ ↦ absurd hφ List.not_mem_nil
  | part :: rest, hparts => List.forall_mem_cons.2
    ⟨Formula.plain_substitute part hparts.1, Formula.plain_substituteList rest hparts.2⟩

end

mutual

theorem Term.eval_substitute : ∀ t : Term,
    t.Plain (fun v ↦ ∀ u, table v = some u → u.eval s = s.lookup v) →
      (substituteTermVarsToTerms table t).eval s = t.eval s
  | .var v, ht => by
    rw [substituteTermVarsToTerms]
    cases hv : table v with
    | none => rfl
    | some u => exact ht u hv
  | .int _, _ | .real _, _ => rfl
  | .boolToInt φ, ht => by
    rw [substituteTermVarsToTerms, Term.eval, Term.eval, Formula.eval_substitute φ ht]
  | .select memory i, ht => by
    rw [substituteTermVarsToTerms, Term.eval, Term.eval, Term.eval_substitute i ht.2]
  | .add l r, ht | .sub l r, ht | .mul l r, ht | .div l r, ht | .rem l r, ht => by
    rw [substituteTermVarsToTerms, Term.eval, Term.eval, Term.eval_substitute l ht.1,
      Term.eval_substitute r ht.2]
  | .neg t, ht => by
    rw [substituteTermVarsToTerms, Term.eval, Term.eval, Term.eval_substitute t ht]

/-- Where the table is right about the variables of a formula, the substitution changes nothing. -/
theorem Formula.eval_substitute : ∀ φ : Formula,
    φ.Plain (fun v ↦ ∀ u, table v = some u → u.eval s = s.lookup v) →
      (substituteFormulaVarsToTerms table φ).eval s = φ.eval s
  | .tru, _ | .fls, _ | .var _, _ | .memoryEq _ _, _ => rfl
  | .not φ, hφ => by
    rw [substituteFormulaVarsToTerms, Formula.eval, Formula.eval, Formula.eval_substitute φ hφ]
  | .and parts, hφ => by
    have ih := Formula.eval_substituteList parts hφ
    refine Formula.eval_eq_of_holds_iff ?_
    rw [substituteFormulaVarsToTerms, Formula.holds_andMany, Formula.holds_and,
      substituteFormulasVarsToTerms_eq_map, List.forall_mem_map]
    exact forall₂_congr fun φ hφ ↦ by rw [Formula.Holds, Formula.Holds, ih φ hφ]
  | .or parts, hφ => by
    have ih := Formula.eval_substituteList parts hφ
    refine Formula.eval_eq_of_holds_iff ?_
    rw [substituteFormulaVarsToTerms, Formula.holds_orMany, Formula.holds_or,
      substituteFormulasVarsToTerms_eq_map]
    simp only [List.mem_map, exists_exists_and_eq_and]
    exact exists_congr fun φ ↦ and_congr_right fun hφ ↦ by
      rw [Formula.Holds, Formula.Holds, ih φ hφ]
  | .implies l r, hφ => by
    refine Formula.eval_eq_of_holds_iff ?_
    rw [substituteFormulaVarsToTerms, Formula.holds_mkImplies, Formula.holds_implies,
      Formula.Holds, Formula.Holds, Formula.eval_substitute l hφ.1, Formula.eval_substitute r hφ.2]
    rfl
  | .eq l r, hφ | .lt l r, hφ | .le l r, hφ | .gt l r, hφ | .ge l r, hφ => by
    rw [substituteFormulaVarsToTerms, Formula.eval, Formula.eval, Term.eval_substitute l hφ.1,
      Term.eval_substitute r hφ.2]

theorem Formula.eval_substituteList : ∀ parts : List Formula,
    Formula.PlainList (fun v ↦ ∀ u, table v = some u → u.eval s = s.lookup v) parts →
      ∀ φ ∈ parts, (substituteFormulaVarsToTerms table φ).eval s = φ.eval s
  | [], _ => fun _ hφ ↦ absurd hφ List.not_mem_nil
  | part :: rest, hparts => List.forall_mem_cons.2
    ⟨Formula.eval_substitute part hparts.1, Formula.eval_substituteList rest hparts.2⟩

end

end Substitution

/-! ### The rounds -/

/-- Terms in which the definitions of variables may be put. -/
def definitionNaming : Naming Var Term where
  Within := Term.Plain
  put := substituteTermVarsToTerms
  mono h ht := Term.plain_mono h _ ht
  within_put ht := Term.plain_substitute _ ht

/-- What the terms and the variables are in a state. -/
noncomputable def definitionReading (s : State) : Reading definitionNaming Value where
  value t := t.eval s
  look v := s.lookup v
  value_put ht := Term.eval_substitute _ ht

namespace BodySubst

variable {subst : BodySubst} {v : Var}

theorem lookup_filter_ne {name key : String} (h : key ≠ name) :
    (subst.filter (·.1 ≠ name)).lookup key = subst.lookup key := by
  induction subst with
  | nil => rfl
  | cons entry rest ih =>
    rw [List.filter_cons, List.lookup_cons]
    by_cases hentry : entry.1 = name
    · rw [if_neg (by simpa using hentry), ih, hentry, beq_eq_false_iff_ne.2 h]
    · rw [if_pos (by simpa using hentry), List.lookup_cons, ih]

theorem get?_insert (name : String) (value : Term) :
    (subst.insert name value).get? v = if v.name = name then some value else subst.get? v := by
  rw [get?, insert, List.lookup_cons]
  by_cases h : v.name = name
  · rw [if_pos h, h, beq_self_eq_true]
  · rw [if_neg h, beq_eq_false_iff_ne.2 h]
    exact lookup_filter_ne h

theorem get?_resolveRound : subst.resolveRound.get? = definitionNaming.square subst.get? := by
  funext v
  have hlookup (entries : BodySubst) (f : Term → Term) :
      (entries.map fun entry ↦ (entry.1, f entry.2)).lookup v.name =
        (entries.lookup v.name).map f := by
    induction entries with
    | nil => rfl
    | cons entry rest ih =>
      rw [List.map_cons, List.lookup_cons, List.lookup_cons, ih]
      cases v.name == entry.1 <;> rfl
  exact hlookup subst _

/-- To stop when nothing changes is to go through all rounds. -/
theorem get?_resolveChains (rounds : ℕ) :
    (subst.resolveChains rounds).get? = definitionNaming.square^[rounds] subst.get? := by
  induction rounds generalizing subst with
  | zero => rfl
  | succ rounds ih =>
    rw [resolveChains]
    split_ifs with hfixed
    · refine (Function.iterate_fixed ?_ _).symm
      rw [← get?_resolveRound, hfixed]
    · rw [ih, get?_resolveRound, Function.iterate_succ_apply]

end BodySubst

/-! ### The definitions of the body -/

namespace LoopInfo

variable (info : LoopInfo) (cfg : AbstractCfg)

/-- The body assigns a term to the variable, or to another one of its name. -/
def Defines (v : Var) : Prop := ∃ d ∈ info.definitions cfg, d.1.name = v.name

/-- The definitions of the body are plain, and layered: each is in terms of variables of lower
layers, and of variables that are not defined. There are at most 256 layers. -/
structure Layered (layer : String → ℕ) : Prop where
  lower : ∀ d ∈ info.definitions cfg,
    d.2.Plain fun v ↦ info.Defines cfg v → layer v.name < layer d.1.name
  bounded : ∀ d ∈ info.definitions cfg, layer d.1.name < 256

/-- In the state, the definitions of these variables are equations that hold, between these
variables. -/
def Explains (K : Var → Prop) (s : State) : Prop :=
  ∀ d ∈ info.definitions cfg, ∀ v, d.1.name = v.name → K v →
    d.2.Plain K ∧ d.2.eval s = s.lookup v

variable {info cfg} {v : Var} {value : Term} {layer : String → ℕ} {K : Var → Prop} {s : State}

/-- The map has definitions of the body. -/
theorem exists_of_get?_assignments (h : (info.assignments cfg).get? v = some value) :
    ∃ d ∈ info.definitions cfg, d.1.name = v.name ∧ d.2 = value := by
  refine (List.foldlRecOn (motive := fun subst : BodySubst ↦ subst.get? v = some value →
    ∃ d ∈ info.definitions cfg, d.1.name = v.name ∧ d.2 = value) _ _ ?_ ?_) h
  · intro hget
    exact absurd hget.symm (Option.some_ne_none value)
  intro subst ih d hd hget
  rw [BodySubst.get?_insert] at hget
  split_ifs at hget with hname
  · exact ⟨d, hd, hname.symm, Option.some.inj hget⟩
  · exact ih hget

/-- The map has all definitions of the body. -/
theorem get?_assignments_eq_none_iff :
    (info.assignments cfg).get? v = none ↔ ¬ info.Defines cfg v := by
  have hfold (definitions : List (Var × Term)) (subst : BodySubst) :
      (definitions.foldl (fun subst d ↦ subst.insert d.1.name d.2) subst).get? v = none ↔
        subst.get? v = none ∧ ¬ ∃ d ∈ definitions, d.1.name = v.name := by
    induction definitions generalizing subst with
    | nil => simp
    | cons d rest ih =>
      rw [List.foldl_cons, ih, BodySubst.get?_insert]
      by_cases hname : v.name = d.1.name
      · simp [hname]
      · simp [hname, Ne.symm hname]
  rw [assignments, hfold]
  exact and_iff_right rfl

theorem Layered.table (h : info.Layered cfg layer) :
    definitionNaming.Layered (fun v ↦ layer v.name) 1 (info.assignments cfg).get? := by
  intro v value hvalue
  obtain ⟨d, hd, hname, rfl⟩ := exists_of_get?_assignments hvalue
  refine Term.plain_mono (fun w hw hsome ↦ ?_) _ (h.lower d hd)
  dsimp only
  rw [← hname]
  refine hw (by_contra fun hnot ↦ ?_)
  rw [get?_assignments_eq_none_iff.2 hnot] at hsome
  exact Bool.false_ne_true hsome

theorem Layered.table_lt (h : info.Layered cfg layer)
    (hv : ((info.assignments cfg).get? v).isSome) : layer v.name < 2 ^ 8 := by
  obtain ⟨value, hvalue⟩ := Option.isSome_iff_exists.1 hv
  obtain ⟨d, hd, hname, -⟩ := exists_of_get?_assignments hvalue
  exact hname ▸ h.bounded d hd

theorem Explains.table (h : info.Explains cfg K s) :
    (definitionReading s).Explains K (info.assignments cfg).get? := by
  intro v value hK hvalue
  obtain ⟨d, hd, hname, rfl⟩ := exists_of_get?_assignments hvalue
  exact h d hd v hname hK

end LoopInfo

/-! ### What the atoms say -/

section Atoms

variable {info : LoopInfo} {cfg : AbstractCfg} {layer : String → ℕ} {K : Var → Prop}
  {s₀ s : State} {φ ψ atom : Formula}

/-- One of the five relations between two terms. -/
def Formula.IsComparison : Formula → Prop
  | .le _ _ | .lt _ _ | .ge _ _ | .gt _ _ | .eq _ _ => True
  | _ => False

mutual

theorem isComparison_of_mem_collect : ∀ φ : Formula, ∀ ψ ∈ collectAtomicComparisons φ,
    ψ.IsComparison
  | .le _ _ | .lt _ _ | .ge _ _ | .gt _ _ | .eq _ _ => List.forall_mem_singleton.2 trivial
  | .not φ => isComparison_of_mem_collect φ
  | .and parts | .or parts => isComparison_of_mem_collectList parts
  | .implies l r => List.forall_mem_append.2
    ⟨isComparison_of_mem_collect l, isComparison_of_mem_collect r⟩
  | .tru | .fls | .var _ | .memoryEq _ _ => fun _ hψ ↦ absurd hψ List.not_mem_nil

theorem isComparison_of_mem_collectList : ∀ parts : List Formula,
    ∀ ψ ∈ collectAtomicComparisonsList parts, ψ.IsComparison
  | [] => fun _ hψ ↦ absurd hψ List.not_mem_nil
  | part :: rest => List.forall_mem_append.2
    ⟨isComparison_of_mem_collect part, isComparison_of_mem_collectList rest⟩

end

/-- Numbers of one sort are in one of two opposite relations. -/
theorem Value.compare_not {onInt onInt' : ℤ → ℤ → Bool} {onReal onReal' : ℝ → ℝ → Bool}
    {v w : Value} (hsort : v.sort = w.sort) (hbool : w.sort ≠ .bool)
    (hint : ∀ a b, onInt' a b = !onInt a b) (hreal : ∀ a b, onReal' a b = !onReal a b) :
    Value.compare onInt' onReal' v w = !Value.compare onInt onReal v w := by
  cases v <;> cases w <;> simp_all [Value.compare]

/-- The negation of a well-sorted comparison. -/
theorem holds_of_negateComparison (hφ : φ.Validated) (h : negateComparison φ = some ψ) :
    ψ.Holds s ↔ ¬ φ.Holds s := by
  have hsorts (l r : Term) (hlr : (do let _ ← numericOperands l.sort r.sort; return ()) =
      (.ok () : Except FormulaError Unit)) :
      (l.eval s).sort = (r.eval s).sort ∧ (r.eval s).sort ≠ .bool := by
    obtain ⟨σ, hσ, -⟩ := bind_eq_ok.1 hlr
    obtain ⟨hl, hr, hbool⟩ := numericOperands_eq_ok hσ
    rw [Term.sort_eval s l hl, Term.sort_eval s r hr]
    exact ⟨rfl, hbool⟩
  have heval : ψ.eval s = !φ.eval s := by
    cases φ with
    | lt l r | le l r | gt l r | ge l r =>
      obtain ⟨hsort, hbool⟩ := hsorts l r hφ
      obtain rfl := Option.some.inj h
      rw [Formula.eval, Formula.eval, Value.compare_not hsort hbool (fun a b ↦ ?_) fun a b ↦ ?_]
      all_goals simp only [← decide_not, not_lt, not_le]
    | not inner =>
      obtain rfl := Option.some.inj h
      simp [Formula.eval]
    | _ => cases h
  rw [Formula.Holds, Formula.Holds, heval, Bool.not_eq_true, Bool.not_eq_true']

/-- What is mined is a comparison of the loop or its negation, with the definitions put in. -/
theorem exists_of_mem_collectPredicateAtoms (h : atom ∈ collectPredicateAtoms info cfg) :
    ∃ φ ∈ info.comparisons cfg, ∃ ψ, (ψ = φ ∨ negateComparison φ = some ψ) ∧ ψ.IsComparison ∧
      atom = resolveComparison info cfg ψ := by
  have hcomparison {φ : Formula} (hφ : φ ∈ info.comparisons cfg) : φ.IsComparison := by
    obtain ⟨χ, -, hφ⟩ := List.mem_flatMap.1 hφ
    exact isComparison_of_mem_collect χ φ hφ
  rw [collectPredicateAtoms, List.mem_eraseDups] at h
  obtain hraw | hnegated := List.mem_append.1 (List.mem_filter.1 h).1
  · obtain ⟨φ, hφ, rfl⟩ := List.mem_map.1 hraw
    exact ⟨φ, hφ, φ, .inl rfl, hcomparison hφ, rfl⟩
  obtain ⟨ψ', hψ', hneg⟩ := List.mem_filterMap.1 hnegated
  obtain ⟨φ, hφ, rfl⟩ := List.mem_map.1 hψ'
  refine ⟨φ, hφ, ?_⟩
  have hφ' := hcomparison hφ
  -- to negate is to change the relation, whatever was put in
  unfold resolveComparison at hneg ⊢
  dsimp only at hneg ⊢
  cases φ with
  | lt l r | le l r | gt l r | ge l r =>
    refine ⟨_, .inr rfl, trivial, ?_⟩
    split_ifs at hneg ⊢ <;> exact (Option.some.inj hneg).symm
  | eq l r => split_ifs at hneg <;> cases hneg
  | _ => exact hφ'.elim

theorem plain_of_negateComparison (h : ψ = φ ∨ negateComparison φ = some ψ) (hφ : φ.Plain K) :
    ψ.Plain K := by
  obtain rfl | h := h
  · exact hφ
  cases φ with
  | lt l r | le l r | gt l r | ge l r | not inner => exact Option.some.inj h ▸ hφ
  | _ => cases h

/-- No variable that the body defines is left in a resolved comparison. -/
theorem plain_resolveComparison (hlayered : info.Layered cfg layer)
    (hφ : φ.Plain fun _ ↦ True) :
    (resolveComparison info cfg φ).Plain fun v ↦ ¬ info.Defines cfg v := by
  have hget : (buildBodyVarSubst info cfg).get? =
      definitionNaming.square^[8] (info.assignments cfg).get? := BodySubst.get?_resolveChains 8
  have hnone {v : Var} (hv : (buildBodyVarSubst info cfg).get? v = none) :
      ¬ info.Defines cfg v := by
    rw [← LoopInfo.get?_assignments_eq_none_iff, ← Option.isNone_iff_eq_none, ← Option.not_isSome,
      ← Naming.isSome_iterate_square (N := definitionNaming) 8, ← hget, hv]
    rfl
  unfold resolveComparison
  dsimp only
  split_ifs with hempty
  · refine Formula.plain_mono (fun v _ ↦ hnone ?_) φ hφ
    rw [List.isEmpty_iff.1 hempty]
    rfl
  refine Formula.plain_substitute φ (Formula.plain_mono (fun v _ ↦ ⟨fun u hu ↦ ?_, hnone⟩) φ hφ)
  refine Term.plain_mono (fun w hw ↦ LoopInfo.get?_assignments_eq_none_iff.1 hw) u ?_
  exact Naming.within_undefined_iterate hlayered.table (fun v ↦ hlayered.table_lt) (hget ▸ hu)

/-- Where the definitions hold, a resolved comparison says what the comparison says. -/
theorem eval_resolveComparison (hexplains : info.Explains cfg K s) (hφ : φ.Plain K) :
    (resolveComparison info cfg φ).eval s = φ.eval s := by
  have hget : (buildBodyVarSubst info cfg).get? =
      definitionNaming.square^[8] (info.assignments cfg).get? := BodySubst.get?_resolveChains 8
  unfold resolveComparison
  dsimp only
  split_ifs
  · rfl
  refine Formula.eval_substitute φ (Formula.plain_mono (fun v hv u hu ↦ ?_) φ hφ)
  exact (hexplains.table.iterate 8 v u hv (hget ▸ hu)).2

/-- **A mined atom tells at the header what a comparison of the body will say, or its negation.**
Between the header and the comparison nothing may change that the atom reads, but for what the body
defines; and the definitions of the variables of the comparison must hold at the comparison. -/
theorem holds_iff_of_mem_collectPredicateAtoms (hlayered : info.Layered cfg layer)
    (h : atom ∈ collectPredicateAtoms info cfg) :
    ∃ φ ∈ info.comparisons cfg, ∃ positive : Bool, ∀ (K : Var → Prop) (s₀ s : State),
      info.Explains cfg K s → φ.Plain K → φ.Validated → s₀.SameUndefined s →
      (∀ x ∈ atom.leaves, (∀ v, x = .termVar v → ¬ info.Defines cfg v) → x.Same s₀ s) →
        (atom.Holds s₀ ↔ (φ.Holds s ↔ positive = true)) := by
  obtain ⟨φ, hφ, ψ, hψ, -, rfl⟩ := exists_of_mem_collectPredicateAtoms h
  refine ⟨φ, hφ, decide (ψ = φ), fun K s₀ s hexplains hplain hvalidated hundefined hsame ↦ ?_⟩
  have hψplain := plain_of_negateComparison hψ hplain
  have hleft := plain_resolveComparison hlayered (Formula.plain_mono (fun _ _ ↦ trivial) ψ hψplain)
  have hframe : ∀ x ∈ (resolveComparison info cfg ψ).leaves, x.Same s₀ s := by
    intro x hx
    refine hsame x hx fun v heq ↦ ?_
    subst heq
    exact hleft.of_mem_leaves hx
  rw [Formula.holds_congr hundefined hframe, Formula.Holds, eval_resolveComparison hexplains hψplain,
    decide_eq_true_eq]
  obtain rfl | hnegation := hψ
  · simp [Formula.Holds]
  have hiff := @holds_of_negateComparison s φ ψ hvalidated hnegation
  have hne : ψ ≠ φ := by
    rintro rfl
    exact iff_not_self hiff
  simpa [hne, Formula.Holds] using hiff

end Atoms

/-! ### A loop that counts in memory -/

section CountLoop

/-- `do { a = *i; b = a + 1; } while (b < n)` -/
def countCfg : AbstractCfg :=
  match (AbstractCfg.block ⟨[.assign (.int "a") (.term (.select (.var "i") (.int 0))),
      .assign (.int "b") (.term (.add (.var (.int "a")) (.int 1)))]⟩).addEdge 0 0
        (.lt (.var (.int "b")) (.var (.int "n"))) [] with
  | .ok built => built.2
  | .error _ => .block .identity

/-- The loop of the program. -/
def countLoop : LoopInfo := loopOf countCfg ⟨0, 0, 0, .lt (.var (.int "b")) (.var (.int "n")), []⟩

/-- What the guard says of the header: `*i + 1 < n`. -/
def countAtom : Formula :=
  .lt (.add (.select (.var "i") (.int 0)) (.int 1)) (.var (.int "n"))

theorem holds_iff_of_mem_collectPredicateAtoms_countLoop :
    ∃ φ ∈ countLoop.comparisons countCfg, ∃ positive : Bool,
      (countAtom.Holds State.zero ↔
        (φ.Holds (State.zero.set (.int "b") (.int 1)) ↔ positive = true)) := by
  have hdefinitions : countLoop.definitions countCfg =
      [(.int "a", .select (.var "i") (.int 0)), (.int "b", .add (.var (.int "a")) (.int 1))] := by
    decide
  have hcomparisons : countLoop.comparisons countCfg =
      [.lt (.var (.int "b")) (.var (.int "n"))] := by
    decide
  have hlayered : countLoop.Layered countCfg fun name ↦ if name = "b" then 1 else 0 := by
    constructor <;> rw [hdefinitions] <;> simp [Term.Plain, Memory.IsRegion, Var.int]
  have hlookup (v : Var) (hv : v ≠ .int "b") :
      (State.zero.set (.int "b") (.int 1)).lookup v = State.zero.lookup v :=
    State.lookup_set_of_ne hv
  obtain ⟨φ, hφ, positive, h⟩ := @holds_iff_of_mem_collectPredicateAtoms countLoop countCfg _
    countAtom hlayered (by decide)
  refine ⟨φ, hφ, positive, h (fun v ↦ v ∈ [Var.int "a", Var.int "b", Var.int "n"]) _ _ ?_ ?_ ?_
    (State.sameUndefined_set _ _ _) fun x hx hdefines ↦ ?_⟩
  · rw [LoopInfo.Explains, hdefinitions]
    simp only [List.mem_cons, List.not_mem_nil, or_false]
    rintro d (rfl | rfl) v hname
    · rintro (rfl | rfl | rfl)
      · refine ⟨by simp [Term.Plain, Memory.IsRegion], ?_⟩
        rw [hlookup _ (by decide)]
        simp [Term.eval, Memory.eval, State.lookup, State.zero, Var.int]
      · exact absurd hname (by decide)
      · exact absurd hname (by decide)
    · rintro (rfl | rfl | rfl)
      · exact absurd hname (by decide)
      · refine ⟨by simp [Term.Plain], ?_⟩
        rw [State.lookup_set_self rfl, Term.eval, Term.eval, hlookup _ (by decide)]
        simp [Term.eval, Value.arith, State.lookup, State.zero, Var.int]
      · exact absurd hname (by decide)
  · rw [hcomparisons, List.mem_singleton] at hφ
    subst hφ
    simp [Formula.Plain, Term.Plain]
  · rw [hcomparisons, List.mem_singleton] at hφ
    subst hφ
    rfl
  · simp only [countAtom, Formula.leaves, Term.leaves, Memory.leaves, List.append_nil,
      List.cons_append, List.nil_append, List.mem_cons, List.not_mem_nil, or_false] at hx
    rcases hx with rfl | rfl
    · exact congrFun (State.memory_set _ _ _).symm "i"
    · exact (hlookup _ (by decide)).symm

end CountLoop

end MayMust
