import MayMust.Analysis.Invariants.MinedAtoms
import MayMust.Cfg.Faithful

/-!
# The vocabulary of a loop

Beside the comparisons that a loop makes, the synthesis of invariants tries all comparisons between
the integer variables and the reads of the loop, and between these and the constants of the loop.
All of them are about what the loop or the assertion behind it speaks of (`reads_generateAtoms`), as
are the comparisons mined from the loop (`reads_collectPredicateAtoms`), and those of what is false
of the assertion (`reads_violationNegationAtoms`).
-/

namespace MayMust

open Library

/-! ### Collecting -/

/-- What the traversals of the loop collect. -/
structure VocabCollection where
  /-- Integer variables, in the order of their names. -/
  vars : List Var
  /-- Constants, in ascending order. -/
  consts : List Int64
  /-- Reads of regions, in the order in which they are met. -/
  selects : List Term

namespace VocabCollection

variable (out : VocabCollection)

/-- Add a variable to the set. -/
def addVar (v : Var) : VocabCollection :=
  if v ∈ out.vars then out
  else { out with vars := out.vars.orderedInsert (fun v w ↦ v.name ≤ w.name) v }

/-- Add a constant to the set. -/
def addConst (n : Int64) : VocabCollection :=
  if n ∈ out.consts then out else { out with consts := out.consts.orderedInsert (· ≤ ·) n }

/-- Add a read, unless it is one below an update. -/
def addSelect (memory : Memory) (index : Term) : VocabCollection :=
  match memory with
  | .var _ => { out with selects := out.selects ++ [.select memory index] }
  | .store .. => out

end VocabCollection

/-- `collect_term_vocab`. -/
def collectTermVocab : Term → VocabCollection → VocabCollection
  | .var v, out => if v.sort = .int then out.addVar v else out
  | .int n, out => out.addConst n
  | .select memory index, out => collectTermVocab index (out.addSelect memory index)
  | .add l r, out | .sub l r, out | .mul l r, out | .div l r, out | .rem l r, out =>
    collectTermVocab r (collectTermVocab l out)
  | .neg inner, out => collectTermVocab inner out
  | .real _, out | .boolToInt _, out => out
termination_by structural t => t

mutual

/-- `collect_formula_vocab`. The reads in a formula are ignored. -/
def collectFormulaVocab : Formula → VocabCollection → VocabCollection
  | .lt l r, out | .le l r, out | .eq l r, out | .ge l r, out | .gt l r, out =>
    { collectTermVocab r (collectTermVocab l out) with selects := out.selects }
  | .and items, out | .or items, out => collectFormulasVocab items out
  | .not inner, out => collectFormulaVocab inner out
  | .implies lhs rhs, out => collectFormulaVocab rhs (collectFormulaVocab lhs out)
  | .tru, out | .fls, out | .var _, out | .memoryEq _ _, out => out
termination_by structural φ => φ

/-- The loop of `collect_formula_vocab` over the parts of a node. -/
def collectFormulasVocab : List Formula → VocabCollection → VocabCollection
  | [], out => out
  | item :: rest, out => collectFormulasVocab rest (collectFormulaVocab item out)
termination_by structural items => items

end

/-- `collect_effect_vocab`. -/
def collectEffectVocab (out : VocabCollection) : TransferEffect → VocabCollection
  | .assign target (.term value) =>
    collectTermVocab value (if target.sort = .int then out.addVar target else out)
  | .assign target (.predicate value) =>
    collectFormulaVocab value (if target.sort = .int then out.addVar target else out)
  | .memoryStore _ _ value => collectTermVocab value out
  | _ => out

/-- `collect_select_in_term`. -/
def collectSelectInTerm : Term → List Term
  | .select (.var region) index => .select (.var region) index :: collectSelectInTerm index
  | .select (.store ..) index => collectSelectInTerm index
  | .add l r | .sub l r | .mul l r | .div l r | .rem l r =>
    collectSelectInTerm l ++ collectSelectInTerm r
  | .neg inner => collectSelectInTerm inner
  | .var _ | .int _ | .real _ | .boolToInt _ => []
termination_by structural t => t

mutual

/-- `collect_select_terms`. -/
def collectSelectTerms : Formula → List Term
  | .lt l r | .le l r | .eq l r | .ge l r | .gt l r => collectSelectInTerm l ++ collectSelectInTerm r
  | .and items | .or items => collectSelectTermsList items
  | .not inner => collectSelectTerms inner
  | .implies lhs rhs => collectSelectTerms lhs ++ collectSelectTerms rhs
  | .tru | .fls | .var _ | .memoryEq _ _ => []
termination_by structural φ => φ

/-- The loop of `collect_select_terms` over the parts of a node. -/
def collectSelectTermsList : List Formula → List Term
  | [] => []
  | item :: rest => collectSelectTerms item ++ collectSelectTermsList rest
termination_by structural items => items

end

/-- `Vocab`. -/
structure Vocab where
  terms : List Term
  constants : List Int64

/-- `collect_vocab`. The postconditions are those of nodes of the graph, and the nodes are in the
order of the map. -/
def collectVocab (info : LoopInfo) (cfg : AbstractCfg)
    (postconditions : CfgNodeId → Option Formula) : Vocab :=
  let body := (info.bodyEffects cfg).foldl collectEffectVocab ⟨[], [0, 1], []⟩
  let out := collectFormulaVocab info.backEdgeGuard body
  let selects := out.selects ++ (cfg.nodeIds.filterMap postconditions).flatMap collectSelectTerms
  { terms := (out.vars.filter (!·.isVla)).map .var ++ selects.eraseDups
    constants := out.consts }

/-- `generate_atoms`. -/
def generateAtoms (vocab : Vocab) : List Formula :=
  (vocab.terms.flatMap fun a ↦ vocab.terms.flatMap fun b ↦
    if a = b then [] else [.le a b, .lt a b, .eq a b]) ++
  vocab.terms.flatMap fun term ↦ vocab.constants.flatMap fun c ↦
    [.le term (.int c), .lt term (.int c), .ge term (.int c), .gt term (.int c), .eq term (.int c)]

/-! ### What the vocabulary speaks of -/

section Reads

variable {Q : Leaf → Prop}

namespace VocabCollection

/-- Variables and reads in the collection have leaves with the property only. -/
structure Reads (Q : Leaf → Prop) (out : VocabCollection) : Prop where
  vars : ∀ v ∈ out.vars, Q (.termVar v)
  selects : ∀ t ∈ out.selects, ∀ x ∈ t.leaves, Q x

variable {out : VocabCollection}

theorem Reads.addVar {v : Var} (h : out.Reads Q) (hv : Q (.termVar v)) :
    (out.addVar v).Reads Q := by
  rw [VocabCollection.addVar]
  split_ifs
  · exact h
  refine ⟨fun w hw ↦ ?_, h.selects⟩
  obtain rfl | hw := (List.mem_orderedInsert _).1 hw
  · exact hv
  · exact h.vars w hw

theorem Reads.addConst (h : out.Reads Q) (n : Int64) : (out.addConst n).Reads Q := by
  rw [VocabCollection.addConst]
  split_ifs
  · exact h
  · exact ⟨h.vars, h.selects⟩

theorem Reads.addSelect {memory : Memory} {index : Term} (h : out.Reads Q)
    (hread : ∀ x ∈ (Term.select memory index).leaves, Q x) :
    (out.addSelect memory index).Reads Q := by
  cases memory with
  | var region =>
    exact ⟨h.vars, List.forall_mem_append.2 ⟨h.selects, List.forall_mem_singleton.2 hread⟩⟩
  | store _ _ _ => exact h

end VocabCollection

theorem reads_collectTermVocab : ∀ (t : Term) {out : VocabCollection}, out.Reads Q →
    (∀ x ∈ t.leaves, Q x) → (collectTermVocab t out).Reads Q
  | .var v, out, h, ht => by
    rw [collectTermVocab]
    split_ifs
    · exact h.addVar (ht _ List.mem_cons_self)
    · exact h
  | .int n, _, h, _ => h.addConst n
  | .select memory index, _, h, ht =>
    reads_collectTermVocab index (h.addSelect ht) (List.forall_mem_append.1 ht).2
  | .add l r, _, h, ht | .sub l r, _, h, ht | .mul l r, _, h, ht | .div l r, _, h, ht
  | .rem l r, _, h, ht =>
    have hleaves := List.forall_mem_append.1 ht
    reads_collectTermVocab r (reads_collectTermVocab l h hleaves.1) hleaves.2
  | .neg t, _, h, ht => reads_collectTermVocab t h ht
  | .real _, _, h, _ | .boolToInt _, _, h, _ => h

mutual

theorem reads_collectFormulaVocab : ∀ (φ : Formula) {out : VocabCollection}, out.Reads Q →
    (∀ x ∈ φ.termLeaves, Q x) → (collectFormulaVocab φ out).Reads Q
  | .lt l r, _, h, hφ | .le l r, _, h, hφ | .eq l r, _, h, hφ | .ge l r, _, h, hφ
  | .gt l r, _, h, hφ => by
    obtain ⟨hl, hr⟩ := List.forall_mem_append.1 hφ
    exact ⟨(reads_collectTermVocab r (reads_collectTermVocab l h hl) hr).vars, h.selects⟩
  | .and items, _, h, hφ | .or items, _, h, hφ => reads_collectFormulasVocab items h hφ
  | .not φ, _, h, hφ => reads_collectFormulaVocab φ h hφ
  | .implies l r, _, h, hφ =>
    have hleaves := List.forall_mem_append.1 hφ
    reads_collectFormulaVocab r (reads_collectFormulaVocab l h hleaves.1) hleaves.2
  | .tru, _, h, _ | .fls, _, h, _ | .var _, _, h, _ | .memoryEq _ _, _, h, _ => h

theorem reads_collectFormulasVocab : ∀ (items : List Formula) {out : VocabCollection},
    out.Reads Q → (∀ x ∈ Formula.termLeavesList items, Q x) →
      (collectFormulasVocab items out).Reads Q
  | [], _, h, _ => h
  | item :: rest, _, h, hitems =>
    have hleaves := List.forall_mem_append.1 hitems
    reads_collectFormulasVocab rest (reads_collectFormulaVocab item h hleaves.1) hleaves.2

end

theorem reads_collectEffectVocab (hints : ∀ v : Var, v.sort = .int → Q (.termVar v))
    {out : VocabCollection} {e : TransferEffect} (h : out.Reads Q)
    (he : ∀ x ∈ e.termLeaves, Q x) : (collectEffectVocab out e).Reads Q := by
  have htarget (target : Var) :
      (if target.sort = .int then out.addVar target else out).Reads Q := by
    split_ifs with hsort
    · exact h.addVar (hints target hsort)
    · exact h
  cases e with
  | assign target value =>
    cases value with
    | term value => exact reads_collectTermVocab value (htarget target) he
    | predicate value => exact reads_collectFormulaVocab value (htarget target) he
  | memoryStore region offset value =>
    exact reads_collectTermVocab value h (List.forall_mem_append.1 he).2
  | _ => exact h

theorem reads_collectSelectInTerm : ∀ t : Term, (∀ x ∈ t.leaves, Q x) →
    ∀ u ∈ collectSelectInTerm t, ∀ x ∈ u.leaves, Q x
  | .select (.var _) index, ht => List.forall_mem_cons.2
    ⟨ht, reads_collectSelectInTerm index (List.forall_mem_cons.1 ht).2⟩
  | .select (.store _ _ _) index, ht =>
    reads_collectSelectInTerm index (List.forall_mem_append.1 ht).2
  | .add l r, ht | .sub l r, ht | .mul l r, ht | .div l r, ht | .rem l r, ht =>
    have hleaves := List.forall_mem_append.1 ht
    List.forall_mem_append.2
      ⟨reads_collectSelectInTerm l hleaves.1, reads_collectSelectInTerm r hleaves.2⟩
  | .neg t, ht => reads_collectSelectInTerm t ht
  | .var _, _ | .int _, _ | .real _, _ | .boolToInt _, _ =>
    fun _ hu ↦ absurd hu List.not_mem_nil

mutual

theorem reads_collectSelectTerms : ∀ φ : Formula, (∀ x ∈ φ.termLeaves, Q x) →
    ∀ u ∈ collectSelectTerms φ, ∀ x ∈ u.leaves, Q x
  | .lt l r, hφ | .le l r, hφ | .eq l r, hφ | .ge l r, hφ | .gt l r, hφ =>
    have hleaves := List.forall_mem_append.1 hφ
    List.forall_mem_append.2
      ⟨reads_collectSelectInTerm l hleaves.1, reads_collectSelectInTerm r hleaves.2⟩
  | .and items, hφ | .or items, hφ => reads_collectSelectTermsList items hφ
  | .not φ, hφ => reads_collectSelectTerms φ hφ
  | .implies l r, hφ =>
    have hleaves := List.forall_mem_append.1 hφ
    List.forall_mem_append.2
      ⟨reads_collectSelectTerms l hleaves.1, reads_collectSelectTerms r hleaves.2⟩
  | .tru, _ | .fls, _ | .var _, _ | .memoryEq _ _, _ => fun _ hu ↦ absurd hu List.not_mem_nil

theorem reads_collectSelectTermsList : ∀ items : List Formula,
    (∀ x ∈ Formula.termLeavesList items, Q x) →
      ∀ u ∈ collectSelectTermsList items, ∀ x ∈ u.leaves, Q x
  | [], _ => fun _ hu ↦ absurd hu List.not_mem_nil
  | item :: rest, hitems =>
    have hleaves := List.forall_mem_append.1 hitems
    List.forall_mem_append.2
      ⟨reads_collectSelectTerms item hleaves.1, reads_collectSelectTermsList rest hleaves.2⟩

end

variable {info : LoopInfo} {cfg : AbstractCfg} {postconditions : CfgNodeId → Option Formula}

/-- What terms of the loop and of the postconditions speak of has the property. -/
structure LoopInfo.Speaks (info : LoopInfo) (cfg : AbstractCfg)
    (postconditions : CfgNodeId → Option Formula) (Q : Leaf → Prop) : Prop where
  ints : ∀ v : Var, v.sort = .int → Q (.termVar v)
  effect : ∀ n, ∀ e ∈ (cfg.transferAt n).effects, ∀ x ∈ e.termLeaves, Q x
  guard : ∀ e ∈ cfg.edges, ∀ x ∈ e.guard.termLeaves, Q x
  backEdgeGuard : ∀ x ∈ info.backEdgeGuard.termLeaves, Q x
  postcondition : ∀ n φ, postconditions n = some φ → ∀ x ∈ φ.termLeaves, Q x

theorem LoopInfo.Speaks.bodyEffect (h : info.Speaks cfg postconditions Q) {e : TransferEffect}
    (he : e ∈ info.bodyEffects cfg) : ∀ x ∈ e.termLeaves, Q x := by
  obtain ⟨node, hnode, he⟩ := List.mem_flatMap.1 he
  have hok := AbstractCfg.node_eq_ok (List.mem_filter.1 hnode).1
  exact h.effect node.id e (AbstractCfg.transferAt_eq hok ▸ he)

theorem reads_collectVocab (h : info.Speaks cfg postconditions Q) :
    ∀ t ∈ (collectVocab info cfg postconditions).terms, ∀ x ∈ t.leaves, Q x := by
  have hbody : ((info.bodyEffects cfg).foldl collectEffectVocab ⟨[], [0, 1], []⟩).Reads Q := by
    refine List.foldlRecOn (motive := VocabCollection.Reads Q) _ _ ⟨nofun, nofun⟩ ?_
    exact fun out hout e he ↦ reads_collectEffectVocab h.ints hout (h.bodyEffect he)
  have hout := reads_collectFormulaVocab info.backEdgeGuard hbody h.backEdgeGuard
  intro t ht
  obtain hvar | hselect := List.mem_append.1 ht
  · obtain ⟨v, hv, rfl⟩ := List.mem_map.1 hvar
    exact List.forall_mem_singleton.2 (hout.vars v (List.mem_of_mem_filter hv))
  obtain hread | hpost := List.mem_append.1 (List.mem_eraseDups.1 hselect)
  · exact hout.selects t hread
  obtain ⟨φ, hφ, hread⟩ := List.mem_flatMap.1 hpost
  obtain ⟨n, -, hn⟩ := List.mem_filterMap.1 hφ
  exact reads_collectSelectTerms φ (h.postcondition n φ hn) t hread

/-- The atoms of the vocabulary are about what the loop speaks of. -/
theorem reads_generateAtoms (h : info.Speaks cfg postconditions Q) {atom : Formula}
    (hatom : atom ∈ generateAtoms (collectVocab info cfg postconditions)) :
    ∀ x ∈ atom.leaves, Q x := by
  have hterms := reads_collectVocab h
  obtain hpair | hconstant := List.mem_append.1 hatom
  · obtain ⟨a, ha, hpair⟩ := List.mem_flatMap.1 hpair
    obtain ⟨b, hb, hpair⟩ := List.mem_flatMap.1 hpair
    have hab : ∀ x ∈ a.leaves ++ b.leaves, Q x :=
      List.forall_mem_append.2 ⟨hterms a ha, hterms b hb⟩
    split_ifs at hpair
    · exact absurd hpair List.not_mem_nil
    simp only [List.mem_cons, List.not_mem_nil, or_false] at hpair
    rcases hpair with rfl | rfl | rfl <;> exact hab
  · obtain ⟨t, ht, hconstant⟩ := List.mem_flatMap.1 hconstant
    obtain ⟨c, -, hconstant⟩ := List.mem_flatMap.1 hconstant
    have htc : ∀ x ∈ t.leaves ++ (Term.int c).leaves, Q x :=
      List.forall_mem_append.2 ⟨hterms t ht, fun x hx ↦ absurd hx List.not_mem_nil⟩
    simp only [List.mem_cons, List.not_mem_nil, or_false] at hconstant
    rcases hconstant with rfl | rfl | rfl | rfl | rfl <;> exact htc

/-! ### What the mined comparisons speak of -/

mutual

theorem Term.forall_leaves_substitute {table : Var → Option Term}
    (htable : ∀ v u, table v = some u → ∀ x ∈ u.leaves, Q x) : ∀ t : Term,
    (∀ x ∈ t.leaves, Q x) → ∀ x ∈ (substituteTermVarsToTerms table t).leaves, Q x
  | .var v, ht => by
    rw [substituteTermVarsToTerms]
    cases hv : table v with
    | none => exact ht
    | some u => exact htable v u hv
  | .int _, _ | .real _, _ => nofun
  | .boolToInt φ, ht => Formula.forall_leaves_substitute htable φ ht
  | .select _ i, ht =>
    have hleaves := List.forall_mem_append.1 ht
    List.forall_mem_append.2 ⟨hleaves.1, Term.forall_leaves_substitute htable i hleaves.2⟩
  | .add l r, ht | .sub l r, ht | .mul l r, ht | .div l r, ht | .rem l r, ht =>
    have hleaves := List.forall_mem_append.1 ht
    List.forall_mem_append.2 ⟨Term.forall_leaves_substitute htable l hleaves.1,
      Term.forall_leaves_substitute htable r hleaves.2⟩
  | .neg t, ht => Term.forall_leaves_substitute htable t ht

/-- A substitution adds the leaves of the terms that are put in. -/
theorem Formula.forall_leaves_substitute {table : Var → Option Term}
    (htable : ∀ v u, table v = some u → ∀ x ∈ u.leaves, Q x) : ∀ φ : Formula,
    (∀ x ∈ φ.leaves, Q x) → ∀ x ∈ (substituteFormulaVarsToTerms table φ).leaves, Q x
  | .tru, _ | .fls, _ => nofun
  | .var _, hφ | .memoryEq _ _, hφ => hφ
  | .not φ, hφ => Formula.forall_leaves_substitute htable φ hφ
  | .and parts, hφ =>
    (hereditary_leaves Q).andMany (Formula.forall_leaves_substituteList htable parts hφ)
  | .or parts, hφ =>
    (hereditary_leaves Q).orMany (Formula.forall_leaves_substituteList htable parts hφ)
  | .implies l r, hφ =>
    have hleaves := List.forall_mem_append.1 hφ
    (hereditary_leaves Q).mkImplies (Formula.forall_leaves_substitute htable l hleaves.1)
      (Formula.forall_leaves_substitute htable r hleaves.2)
  | .eq l r, hφ | .lt l r, hφ | .le l r, hφ | .gt l r, hφ | .ge l r, hφ =>
    have hleaves := List.forall_mem_append.1 hφ
    List.forall_mem_append.2 ⟨Term.forall_leaves_substitute htable l hleaves.1,
      Term.forall_leaves_substitute htable r hleaves.2⟩

theorem Formula.forall_leaves_substituteList {table : Var → Option Term}
    (htable : ∀ v u, table v = some u → ∀ x ∈ u.leaves, Q x) : ∀ parts : List Formula,
    (∀ x ∈ Formula.leavesList parts, Q x) →
      ∀ φ ∈ substituteFormulasVarsToTerms table parts, ∀ x ∈ φ.leaves, Q x
  | [], _ => nofun
  | part :: rest, hparts =>
    have hleaves := List.forall_mem_append.1 hparts
    List.forall_mem_cons.2 ⟨Formula.forall_leaves_substitute htable part hleaves.1,
      Formula.forall_leaves_substituteList htable rest hleaves.2⟩

end

mutual

/-- The comparisons in a formula have the properties that it hands down. -/
theorem Hereditary.of_mem_collect {P : Formula → Prop} (hP : Hereditary P) : ∀ φ : Formula, P φ →
    ∀ ψ ∈ collectAtomicComparisons φ, P ψ
  | .le _ _, hφ | .lt _ _, hφ | .ge _ _, hφ | .gt _ _, hφ | .eq _ _, hφ =>
    List.forall_mem_singleton.2 hφ
  | .not φ, hφ => hP.of_mem_collect φ ((hP.not_iff φ).1 hφ)
  | .and parts, hφ => hP.of_mem_collectList parts ((hP.and_iff parts).1 hφ)
  | .or parts, hφ => hP.of_mem_collectList parts ((hP.or_iff parts).1 hφ)
  | .implies l r, hφ =>
    have hparts := (hP.implies_iff l r).1 hφ
    List.forall_mem_append.2 ⟨hP.of_mem_collect l hparts.1, hP.of_mem_collect r hparts.2⟩
  | .tru, _ | .fls, _ | .var _, _ | .memoryEq _ _, _ => nofun

theorem Hereditary.of_mem_collectList {P : Formula → Prop} (hP : Hereditary P) :
    ∀ parts : List Formula, (∀ φ ∈ parts, P φ) → ∀ ψ ∈ collectAtomicComparisonsList parts, P ψ
  | [], _ => nofun
  | part :: rest, hparts =>
    have hall := List.forall_mem_cons.1 hparts
    List.forall_mem_append.2
      ⟨hP.of_mem_collect part hall.1, hP.of_mem_collectList rest hall.2⟩

end

theorem Formula.IsComparison.leaves_eq {φ : Formula} (h : φ.IsComparison) :
    φ.leaves = φ.termLeaves := by
  cases φ with
  | le | lt | ge | gt | eq => rfl
  | _ => exact h.elim

theorem leaves_of_negateComparison {φ ψ : Formula}
    (h : ψ = φ ∨ negateComparison φ = some ψ) : ψ.leaves = φ.leaves := by
  obtain rfl | h := h
  · rfl
  cases φ with
  | lt l r | le l r | gt l r | ge l r | not inner => exact Option.some.inj h ▸ rfl
  | _ => cases h

theorem LoopInfo.Speaks.comparison (h : info.Speaks cfg postconditions Q) {φ : Formula}
    (hφ : φ ∈ info.comparisons cfg) : ∀ x ∈ φ.leaves, Q x := by
  obtain ⟨χ, hχ, hφ⟩ := List.mem_flatMap.1 hφ
  rw [(isComparison_of_mem_collect χ φ hφ).leaves_eq]
  refine (hereditary_termLeaves Q).of_mem_collect χ ?_ φ hφ
  obtain hguard | hpredicate := List.mem_append.1 hχ
  · obtain ⟨e, he, rfl⟩ := List.mem_map.1 hguard
    obtain ⟨node, -, he⟩ := List.mem_flatMap.1 he
    obtain ⟨id, -, hid⟩ := List.mem_filterMap.1 he
    cases hedge : cfg.edge id with
    | error _ => simp [hedge, Except.toOption] at hid
    | ok e' =>
      obtain rfl : e' = e := by simpa [hedge, Except.toOption] using hid
      exact h.guard e' (AbstractCfg.mem_of_edge_eq_ok hedge).1
  · obtain ⟨e, he, hpredicate⟩ := List.mem_filterMap.1 hpredicate
    have heffect := h.bodyEffect he
    cases e with
    | assume condition => exact Option.some.inj hpredicate ▸ heffect
    | assign target value =>
      cases value with
      | predicate value => exact Option.some.inj hpredicate ▸ heffect
      | term value => cases hpredicate
    | _ => cases hpredicate

theorem LoopInfo.Speaks.buildBodyVarSubst (h : info.Speaks cfg postconditions Q) {v : Var}
    {u : Term} (hu : (MayMust.buildBodyVarSubst info cfg).get? v = some u) :
    ∀ x ∈ u.leaves, Q x := by
  have hround (n : ℕ) : ∀ v u,
      definitionNaming.square^[n] (info.assignments cfg).get? v = some u → ∀ x ∈ u.leaves, Q x := by
    induction n with
    | zero =>
      intro v u hu
      obtain ⟨d, hd, -, rfl⟩ := LoopInfo.exists_of_get?_assignments hu
      obtain ⟨e, he, hd⟩ := List.mem_filterMap.1 hd
      cases e with
      | assign target value =>
        cases value with
        | term value =>
          obtain rfl := Option.some.inj hd
          exact h.bodyEffect he
        | predicate value => cases hd
      | _ => cases hd
    | succ n ih =>
      intro v u hu
      rw [Function.iterate_succ_apply'] at hu
      obtain ⟨t, ht, rfl⟩ := Option.map_eq_some_iff.1 hu
      exact Term.forall_leaves_substitute ih t (ih v t ht)
  rw [MayMust.buildBodyVarSubst, BodySubst.get?_resolveChains] at hu
  exact hround 8 v u hu

/-- The mined atoms are about what the loop speaks of. -/
theorem reads_collectPredicateAtoms (h : info.Speaks cfg postconditions Q) {atom : Formula}
    (hatom : atom ∈ collectPredicateAtoms info cfg) : ∀ x ∈ atom.leaves, Q x := by
  obtain ⟨φ, hφ, ψ, hψ, -, rfl⟩ := exists_of_mem_collectPredicateAtoms hatom
  have hleaves : ∀ x ∈ ψ.leaves, Q x := leaves_of_negateComparison hψ ▸ h.comparison hφ
  unfold resolveComparison
  dsimp only
  split_ifs
  · exact hleaves
  · exact Formula.forall_leaves_substitute (fun v u hu ↦ h.buildBodyVarSubst hu) ψ hleaves

end Reads

end MayMust
