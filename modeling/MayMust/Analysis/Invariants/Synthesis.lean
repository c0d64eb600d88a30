import MayMust.Analysis.AnalyzeWithTables
import MayMust.Analysis.Invariants.Feedback
import MayMust.Analysis.Invariants.Vocabulary

/-!
# The search for a loop invariant

`synthesize_with_cegis` tries candidates in tiers: the assertion itself, the comparisons the loop
makes, all comparisons in its vocabulary, and conjunctions and disjunctions of these. Every
candidate of a tier goes through `runTier`, and the states that failed checks have left screen out
candidates of later tiers too.

* The tiers in a row are one long tier (`runTiers_eq`), so what is known of a tier is known of the
  search. What it finds is accepted by the checker (`exists_of_synthesizeWithCegis`), and so the
  search fills the gap that `acceptedInvariant` leaves open (`acceptedInvariant_cegisCandidate`).
* All candidates are about what the loop, the assertion behind it and the stores before it speak of
  (`readsWithin_candidates`). So what is found holds at the arrivals at the header that the checks
  cover (`holds_of_synthesizeWithCegis`), with no assumption on the candidates.
* If the stored states decide the candidates rightly, the search finds the first candidate that is
  acceptable, and it finds one if a comparison in the vocabulary, or the conjunction of two, is
  acceptable (`isSome_synthesizeWithCegis`): the filter by the first example loses none of these.
-/

namespace MayMust

open Library

/-! ### Candidates -/

/-- The elements at different places of a list, in pairs. -/
def orderedPairs {α : Type*} : List α → List (α × α)
  | [] => []
  | a :: as => as.map (a, ·) ++ orderedPairs as

/-- `append_pairwise_conjunctions`. -/
def pairwiseConjunctions (atoms : List Formula) : List Formula :=
  (orderedPairs atoms).map fun p ↦ Formula.mkAnd p.1 p.2

/-- `append_pairwise_disjunctions`. -/
def pairwiseDisjunctions (atoms : List Formula) : List Formula :=
  (orderedPairs atoms).map fun p ↦ Formula.mkOr p.1 p.2

/-- The disjunctions of the formulas of one list with those of another one. -/
def disjunctions (first second : List Formula) : List Formula :=
  first.flatMap fun φ ↦ second.map fun ψ ↦ Formula.mkOr φ ψ

/-- `collect_idx_term`. -/
def collectIdxTerm : Term → List Term
  | .select _ index => [index]
  | .add l r | .sub l r | .mul l r | .div l r | .rem l r => collectIdxTerm l ++ collectIdxTerm r
  | .neg inner => collectIdxTerm inner
  | .var _ | .int _ | .real _ | .boolToInt _ => []
termination_by structural t => t

mutual

/-- `collect_idx_formula`. -/
def collectIdxFormula : Formula → List Term
  | .lt l r | .le l r | .gt l r | .ge l r | .eq l r => collectIdxTerm l ++ collectIdxTerm r
  | .not inner => collectIdxFormula inner
  | .and items | .or items => collectIdxFormulas items
  | .tru | .fls | .var _ | .implies _ _ | .memoryEq _ _ => []
termination_by structural φ => φ

/-- The loop of `collect_idx_formula` over the parts of a node. -/
def collectIdxFormulas : List Formula → List Term
  | [] => []
  | item :: rest => collectIdxFormula item ++ collectIdxFormulas rest
termination_by structural items => items

end

/-- `extract_back_edge_counter`. -/
def extractBackEdgeCounter (info : LoopInfo) : Option Var :=
  match info.backEdgeGuard with
  | .lt (.var counter) _ | .le (.var counter) _ =>
    if counter.sort = .int then some counter else none
  | _ => none

/-- The value stored is a literal. -/
def Term.isLiteral : Term → Bool
  | .int _ => true
  | _ => false

/-- The region the effect writes, as far as the search is concerned: of the regions that are
forgotten, the first one. -/
def TransferEffect.writtenRegion? : TransferEffect → Option String
  | .memoryStore region _ _ => some region
  | .havocRegions regions => regions.head?
  | _ => none

section Search

variable (info : LoopInfo) (cfg : AbstractCfg) (oracle : Oracle)
  (postconditions : CfgNodeId → Option Formula) (inner : InnerInvariants)

/-- `append_ice_disjunctions`: those with the counter of the loop come first. -/
def iceDisjunctions (posAtoms safetyAtoms : List Formula) : List Formula :=
  if safetyAtoms.isEmpty || posAtoms.isEmpty then []
  else
    (match extractBackEdgeCounter info with
      | none => []
      | some counter =>
        (info.violations cfg postconditions).flatMap fun violation ↦
          disjunctions ((collectIdxFormula violation).map fun k ↦ .le (.var counter) k)
            safetyAtoms) ++
      safetyAtoms.flatMap fun safe ↦ posAtoms.map fun pos ↦ Formula.mkOr pos safe

/-- `filter_positive_consistent`. -/
def filterPositiveConsistent (atoms : List Formula) (positive : IceState) : List Formula :=
  atoms.filter fun atom ↦ evalAtom positive atom ≠ some false

/-- `find_safety_atoms`. -/
def findSafetyAtoms (atoms : List Formula) (negatives : List IceState) : List Formula :=
  atoms.filter fun atom ↦ negatives.any fun state ↦ evalAtom state atom = some false

/-- The facts about cells at offset 0 that hold a literal when the loop is entered. -/
def initFacts : StoreFacts :=
  (preheaderStoreFactsAtHeader cfg info.header inner).filter fun p ↦ p.1.2 = 0 && p.2.isLiteral

/-- The equations of the facts whose regions the body does not write. -/
def immutableInits : List Formula :=
  ((initFacts info cfg inner).filter fun p ↦
    p.1.1 ∉ (info.bodyEffects cfg).filterMap TransferEffect.writtenRegion?).map StoreFacts.equation

/-- What the tiers are made of. -/
structure AtomPools where
  predicates : List Formula
  combos : List Formula
  posConsistent : List Formula
  negations : List Formula
  safety : List Formula
  counterInits : List Formula
  immutable : Option Formula

/-- The first half of `synthesize_with_cegis`: the formulas the tiers are made of. -/
def atomPools (positive : Option IceState) (negatives : List IceState) : AtomPools :=
  let vocab := collectVocab info cfg postconditions
  let combos := if vocab.terms.isEmpty then [] else generateAtoms vocab
  let negations := violationNegationAtoms info cfg postconditions
  let immutables := immutableInits info cfg inner
  { predicates := collectPredicateAtoms info cfg
    combos := combos
    posConsistent := positive.elim combos (filterPositiveConsistent combos)
    negations := negations
    safety := negations.foldl Connective.pushNew (findSafetyAtoms combos negatives)
    counterInits := (initFacts info cfg inner).map StoreFacts.equation
    immutable := if immutables.isEmpty then none else some (Formula.andMany immutables) }

/-- The tiers, in the order in which they are tried. -/
def AtomPools.tiers (pools : AtomPools) : List (List Formula) :=
  (if pools.negations.isEmpty then [] else [pools.negations]) ++
  (if pools.counterInits.isEmpty || pools.negations.isEmpty then []
    else disjunctions pools.counterInits pools.negations ::
      pools.immutable.elim [] fun fixed ↦
        [(disjunctions pools.counterInits pools.negations).map (Formula.mkAnd · fixed)]) ++
  (if pools.predicates.isEmpty || pools.negations.isEmpty then []
    else [disjunctions pools.predicates pools.negations]) ++
  [pools.predicates, pairwiseConjunctions pools.predicates] ++
  (if pools.counterInits.isEmpty then []
    else [disjunctions pools.counterInits pools.predicates,
      disjunctions pools.counterInits pools.combos]) ++
  [pools.posConsistent, pairwiseConjunctions pools.posConsistent,
    iceDisjunctions info cfg postconditions pools.posConsistent pools.safety,
    pairwiseDisjunctions pools.posConsistent]

/-- The second half of `synthesize_with_cegis`: the tiers one after the other, until one of them
finds an invariant or the deadline has passed. -/
def runTiers : ℕ → List (List Formula) → IceFeedback → ℕ → Option Formula
  | _, [], _, _ => none
  | budget, tier :: tiers, feedback, screened =>
    let result := runTier info cfg oracle postconditions inner budget tier feedback screened
    match result.1 with
    | some formula => some formula
    | none =>
      if budget ≤ tier.length then none
      else runTiers (budget - tier.length) tiers result.2.1 result.2.2

/-- The tiers of the search for this loop. -/
def searchTiers : List (List Formula) :=
  (atomPools info cfg postconditions inner (collectPositiveExample info cfg oracle inner)
    (collectNegativeExamples info cfg oracle postconditions)).tiers info cfg postconditions

/-- The store at the start of the search. -/
def initialFeedback : IceFeedback :=
  .new (collectPositiveExample info cfg oracle inner)
    (collectNegativeExamples info cfg oracle postconditions)

/-- `synthesize_with_cegis`. The deadline passes after as many candidates as `budget` says. -/
def synthesizeWithCegis (budget : ℕ) : Option Formula :=
  runTiers info cfg oracle postconditions inner budget
    (searchTiers info cfg oracle postconditions inner)
    (initialFeedback info cfg oracle postconditions inner) 0

end Search

/-! ### The tiers in a row -/

section Tiers

variable {info : LoopInfo} {cfg : AbstractCfg} {oracle : Oracle}
  {postconditions : CfgNodeId → Option Formula} {inner : InnerInvariants}
  {feedback : IceFeedback} {candidates : List Formula} {tiers : List (List Formula)}
  {formula : Formula}

/-- One candidate of a tier, as a screened search has it. -/
theorem runTier_cons (budget screened : ℕ) (candidate : Formula) :
    runTier info cfg oracle postconditions inner (budget + 1) (candidate :: candidates) feedback
        screened =
      let S := tierScreening info cfg oracle postconditions inner
      if S.screens feedback candidate then
        runTier info cfg oracle postconditions inner budget candidates feedback (screened + 1)
      else if S.accepts (S.judge candidate) then
        (some (normalizeCandidate cfg info.header candidate), feedback, screened)
      else
        runTier info cfg oracle postconditions inner budget candidates
          (S.absorb feedback (S.judge candidate)) screened := by
  rw [runTier]
  refine if_congr Iff.rfl rfl ?_
  by_cases htrivial : isTautology (normalizeCandidate cfg info.header candidate) = true
  · simp [tierScreening, htrivial]
  · by_cases haccepted : checkLoopInvariantVerbose info cfg candidate oracle postconditions
      inner = .accepted <;> simp [tierScreening, htrivial, haccepted]

/-- The store after a tier is what was learned from the candidates it came to. -/
theorem runTier_feedback (budget screened : ℕ) :
    (runTier info cfg oracle postconditions inner budget candidates feedback screened).2.1 =
      (tierScreening info cfg oracle postconditions inner).learn feedback
        (candidates.take budget) := by
  induction candidates generalizing budget feedback screened with
  | nil => cases budget <;> rfl
  | cons candidate rest ih =>
    cases budget with
    | zero => rfl
    | succ budget =>
      rw [runTier_cons, List.take_succ_cons, Screening.learn]
      dsimp only
      split_ifs
      · exact ih budget (screened + 1)
      · rfl
      · exact ih budget screened

/-- **The tiers in a row are one long tier.** -/
theorem runTiers_eq (budget screened : ℕ) :
    runTiers info cfg oracle postconditions inner budget tiers feedback screened =
      (runTier info cfg oracle postconditions inner budget tiers.flatten feedback screened).1 := by
  rw [runTier_fst]
  induction tiers generalizing budget feedback screened with
  | nil => rw [runTiers, List.flatten_nil, List.take_nil]; rfl
  | cons tier tiers ih =>
    rw [runTiers, List.flatten_cons, List.take_append, Screening.search_append, Option.map_or,
      ← runTier_fst budget screened, ← runTier_feedback budget screened]
    cases (runTier info cfg oracle postconditions inner budget tier feedback screened).1 with
    | some formula => rfl
    | none =>
      dsimp only [Option.none_or]
      split_ifs with hbudget
      · rw [Nat.sub_eq_zero_of_le hbudget]
        rfl
      · exact ih (budget - tier.length) _

variable (info cfg oracle postconditions inner) in
/-- The candidate whose normal form the search returns. -/
def cegisCandidate (budget : ℕ) : Option Formula :=
  (tierScreening info cfg oracle postconditions inner).search
    (initialFeedback info cfg oracle postconditions inner)
    ((searchTiers info cfg oracle postconditions inner).flatten.take budget)

theorem synthesizeWithCegis_eq (budget : ℕ) :
    synthesizeWithCegis info cfg oracle postconditions inner budget =
      (cegisCandidate info cfg oracle postconditions inner budget).map
        (normalizeCandidate cfg info.header) := by
  rw [synthesizeWithCegis, runTiers_eq, runTier_fst, cegisCandidate]

/-- A candidate that is found is one of the tiers, is not trivial, and is accepted. -/
theorem exists_of_cegisCandidate {budget : ℕ} {candidate : Formula}
    (h : cegisCandidate info cfg oracle postconditions inner budget = some candidate) :
    candidate ∈ (searchTiers info cfg oracle postconditions inner).flatten ∧
      isTautology (normalizeCandidate cfg info.header candidate) = false ∧
      checkLoopInvariantVerbose info cfg candidate oracle postconditions inner = .accepted := by
  obtain ⟨hmem, haccepts⟩ := Screening.mem_of_search h
  rw [accepts_judge_tierScreening, decide_eq_true_eq] at haccepts
  exact ⟨List.mem_of_mem_take hmem, haccepts⟩

/-- What the search returns is the normal form of a candidate that is not trivial and accepted. -/
theorem exists_of_synthesizeWithCegis {budget : ℕ}
    (h : synthesizeWithCegis info cfg oracle postconditions inner budget = some formula) :
    ∃ candidate ∈ (searchTiers info cfg oracle postconditions inner).flatten,
      formula = normalizeCandidate cfg info.header candidate ∧ isTautology formula = false ∧
      checkLoopInvariantVerbose info cfg candidate oracle postconditions inner = .accepted := by
  rw [synthesizeWithCegis_eq] at h
  obtain ⟨candidate, hcandidate, rfl⟩ := Option.map_eq_some_iff.1 h
  obtain ⟨hmem, htrivial, haccepted⟩ := exists_of_cegisCandidate hcandidate
  exact ⟨candidate, hmem, rfl, htrivial, haccepted⟩

/-- **The search fills the gap in the analysis of graphs with loops**: with the candidates it finds,
the invariants are those it returns. -/
theorem acceptedInvariant_cegisCandidate (budget : ℕ) :
    acceptedInvariant (fun info postconditions inner ↦
        cegisCandidate info cfg oracle postconditions inner budget) cfg oracle postconditions inner
        info =
      synthesizeWithCegis info cfg oracle postconditions inner budget := by
  rw [acceptedInvariant, synthesizeWithCegis_eq]
  cases hcandidate : cegisCandidate info cfg oracle postconditions inner budget with
  | none => rfl
  | some candidate => exact if_pos (exists_of_cegisCandidate hcandidate).2.2

end Tiers

/-! ### What all candidates have -/

section Candidates

variable {P : Formula → Prop} {info : LoopInfo} {cfg : AbstractCfg}
  {postconditions : CfgNodeId → Option Formula} {inner : InnerInvariants} {pools : AtomPools}
  {atoms first second : List Formula} {φ : Formula}

theorem mem_orderedPairs {α : Type*} {as : List α} {a b : α} :
    (a, b) ∈ orderedPairs as ↔ [a, b].Sublist as := by
  induction as with
  | nil => simp [orderedPairs]
  | cons c as ih =>
    rw [orderedPairs, List.mem_append, List.mem_map, ih, List.sublist_cons_iff]
    have hhead : (∃ x ∈ as, (c, x) = (a, b)) ↔ ∃ r, [a, b] = c :: r ∧ r.Sublist as := by
      constructor
      · rintro ⟨x, hx, heq⟩
        obtain ⟨rfl, rfl⟩ := Prod.mk.inj heq
        exact ⟨[x], rfl, List.singleton_sublist.2 hx⟩
      · rintro ⟨r, heq, hr⟩
        obtain ⟨rfl, rfl⟩ := List.cons.inj heq
        exact ⟨b, List.singleton_sublist.1 hr, rfl⟩
    rw [hhead, or_comm]

theorem forall_orderedPairs {α : Type*} {as : List α} {p : α × α} (hp : p ∈ orderedPairs as) :
    p.1 ∈ as ∧ p.2 ∈ as := by
  have hsub := (mem_orderedPairs.1 hp).subset
  exact ⟨hsub List.mem_cons_self, hsub (List.mem_cons_of_mem p.1 List.mem_cons_self)⟩

variable (hP : Hereditary P)
include hP

theorem forall_disjunctions (hfirst : ∀ φ ∈ first, P φ) (hsecond : ∀ φ ∈ second, P φ) :
    ∀ φ ∈ disjunctions first second, P φ := by
  intro φ hφ
  obtain ⟨χ, hχ, hφ⟩ := List.mem_flatMap.1 hφ
  obtain ⟨ψ, hψ, rfl⟩ := List.mem_map.1 hφ
  exact hP.mkOr (hfirst χ hχ) (hsecond ψ hψ)

theorem forall_pairwiseConjunctions (h : ∀ φ ∈ atoms, P φ) :
    ∀ φ ∈ pairwiseConjunctions atoms, P φ :=
  List.forall_mem_map.2 fun p hp ↦
    hP.mkAnd (h p.1 (forall_orderedPairs hp).1) (h p.2 (forall_orderedPairs hp).2)

theorem forall_pairwiseDisjunctions (h : ∀ φ ∈ atoms, P φ) :
    ∀ φ ∈ pairwiseDisjunctions atoms, P φ :=
  List.forall_mem_map.2 fun p hp ↦
    hP.mkOr (h p.1 (forall_orderedPairs hp).1) (h p.2 (forall_orderedPairs hp).2)

omit hP in
/-- All formulas in the pools have the property, and so have the comparisons of the counter of the
loop with the indices that are read behind its exits. -/
structure AtomPools.All (P : Formula → Prop) (info : LoopInfo) (cfg : AbstractCfg)
    (postconditions : CfgNodeId → Option Formula) (pools : AtomPools) : Prop where
  predicates : ∀ φ ∈ pools.predicates, P φ
  combos : ∀ φ ∈ pools.combos, P φ
  posConsistent : ∀ φ ∈ pools.posConsistent, P φ
  negations : ∀ φ ∈ pools.negations, P φ
  safety : ∀ φ ∈ pools.safety, P φ
  counterInits : ∀ φ ∈ pools.counterInits, P φ
  immutable : ∀ φ, pools.immutable = some φ → P φ
  counter : ∀ counter, extractBackEdgeCounter info = some counter →
    ∀ violation ∈ info.violations cfg postconditions, ∀ k ∈ collectIdxFormula violation,
      P (.le (.var counter) k)

theorem AtomPools.All.iceDisjunctions (h : pools.All P info cfg postconditions) :
    ∀ φ ∈ iceDisjunctions info cfg postconditions pools.posConsistent pools.safety, P φ := by
  rw [MayMust.iceDisjunctions]
  split_ifs
  · exact fun φ hφ ↦ absurd hφ List.not_mem_nil
  refine List.forall_mem_append.2 ⟨fun φ hφ ↦ ?_, fun φ hφ ↦ ?_⟩
  · cases hcounter : extractBackEdgeCounter info with
    | none =>
      rw [hcounter] at hφ
      exact absurd hφ List.not_mem_nil
    | some counter =>
      rw [hcounter] at hφ
      obtain ⟨violation, hviolation, hφ⟩ := List.mem_flatMap.1 hφ
      refine forall_disjunctions hP (List.forall_mem_map.2 fun k hk ↦ ?_) h.safety φ hφ
      exact h.counter counter hcounter violation hviolation k hk
  · obtain ⟨safe, hsafe, hφ⟩ := List.mem_flatMap.1 hφ
    obtain ⟨pos, hpos, rfl⟩ := List.mem_map.1 hφ
    exact hP.mkOr (h.posConsistent pos hpos) (h.safety safe hsafe)

/-- Conjunction and disjunction keep the property, so all candidates have it. -/
theorem AtomPools.All.tiers (h : pools.All P info cfg postconditions) :
    ∀ tier ∈ pools.tiers info cfg postconditions, ∀ φ ∈ tier, P φ := by
  have hnone (tier : List Formula) (htier : tier ∈ ([] : List (List Formula))) :
      ∀ φ ∈ tier, P φ := absurd htier List.not_mem_nil
  rw [AtomPools.tiers]
  simp only [List.forall_mem_append]
  refine ⟨⟨⟨⟨⟨?_, ?_⟩, ?_⟩, ?_⟩, ?_⟩, ?_⟩
  · split_ifs
    · exact hnone
    · exact List.forall_mem_singleton.2 h.negations
  · split_ifs
    · exact hnone
    have hdisj := forall_disjunctions hP h.counterInits h.negations
    refine List.forall_mem_cons.2 ⟨hdisj, ?_⟩
    cases hfixed : pools.immutable with
    | none => exact hnone
    | some fixed =>
      exact List.forall_mem_singleton.2
        (List.forall_mem_map.2 fun φ hφ ↦ hP.mkAnd (hdisj φ hφ) (h.immutable fixed hfixed))
  · split_ifs
    · exact hnone
    · exact List.forall_mem_singleton.2 (forall_disjunctions hP h.predicates h.negations)
  · exact List.forall_mem_cons.2 ⟨h.predicates,
      List.forall_mem_singleton.2 (forall_pairwiseConjunctions hP h.predicates)⟩
  · split_ifs
    · exact hnone
    · exact List.forall_mem_cons.2 ⟨forall_disjunctions hP h.counterInits h.predicates,
        List.forall_mem_singleton.2 (forall_disjunctions hP h.counterInits h.combos)⟩
  · exact List.forall_mem_cons.2 ⟨h.posConsistent, List.forall_mem_cons.2
      ⟨forall_pairwiseConjunctions hP h.posConsistent, List.forall_mem_cons.2
        ⟨h.iceDisjunctions hP, List.forall_mem_singleton.2
          (forall_pairwiseDisjunctions hP h.posConsistent)⟩⟩⟩

end Candidates

/-! ### What the candidates speak of -/

section Reads

theorem Term.reads_collectIdxTerm {Q : Leaf → Prop} : ∀ t : Term, (∀ x ∈ t.leaves, Q x) →
    ∀ k ∈ collectIdxTerm t, ∀ x ∈ k.leaves, Q x
  | .select _ _, ht => List.forall_mem_singleton.2 (List.forall_mem_append.1 ht).2
  | .add l r, ht | .sub l r, ht | .mul l r, ht | .div l r, ht | .rem l r, ht =>
    have hleaves := List.forall_mem_append.1 ht
    List.forall_mem_append.2
      ⟨Term.reads_collectIdxTerm l hleaves.1, Term.reads_collectIdxTerm r hleaves.2⟩
  | .neg t, ht => Term.reads_collectIdxTerm t ht
  | .var _, _ | .int _, _ | .real _, _ | .boolToInt _, _ => nofun

mutual

theorem reads_collectIdxFormula {Q : Leaf → Prop} : ∀ φ : Formula, (∀ x ∈ φ.termLeaves, Q x) →
    ∀ k ∈ collectIdxFormula φ, ∀ x ∈ k.leaves, Q x
  | .lt l r, hφ | .le l r, hφ | .gt l r, hφ | .ge l r, hφ | .eq l r, hφ =>
    have hleaves := List.forall_mem_append.1 hφ
    List.forall_mem_append.2
      ⟨Term.reads_collectIdxTerm l hleaves.1, Term.reads_collectIdxTerm r hleaves.2⟩
  | .not φ, hφ => reads_collectIdxFormula φ hφ
  | .and items, hφ | .or items, hφ => reads_collectIdxFormulas items hφ
  | .tru, _ | .fls, _ | .var _, _ | .implies _ _, _ | .memoryEq _ _, _ => nofun

theorem reads_collectIdxFormulas {Q : Leaf → Prop} : ∀ items : List Formula,
    (∀ x ∈ Formula.termLeavesList items, Q x) →
      ∀ k ∈ collectIdxFormulas items, ∀ x ∈ k.leaves, Q x
  | [], _ => nofun
  | item :: rest, hitems =>
    have hleaves := List.forall_mem_append.1 hitems
    List.forall_mem_append.2
      ⟨reads_collectIdxFormula item hleaves.1, reads_collectIdxFormulas rest hleaves.2⟩

end

mutual

theorem Formula.termLeaves_subset : ∀ φ : Formula, φ.termLeaves ⊆ φ.leaves
  | .tru | .fls | .var _ => List.nil_subset _
  | .not φ => Formula.termLeaves_subset φ
  | .and items | .or items => Formula.termLeavesList_subset items
  | .implies l r => List.append_subset.2
    ⟨List.subset_append_of_subset_left _ (Formula.termLeaves_subset l),
      List.subset_append_of_subset_right _ (Formula.termLeaves_subset r)⟩
  | .eq _ _ | .lt _ _ | .le _ _ | .gt _ _ | .ge _ _ | .memoryEq _ _ => List.Subset.refl _

theorem Formula.termLeavesList_subset : ∀ items : List Formula,
    Formula.termLeavesList items ⊆ Formula.leavesList items
  | [] => List.nil_subset _
  | item :: rest => List.append_subset.2
    ⟨List.subset_append_of_subset_left _ (Formula.termLeaves_subset item),
      List.subset_append_of_subset_right _ (Formula.termLeavesList_subset rest)⟩

end

theorem TransferEffect.termLeaves_subset (e : TransferEffect) : e.termLeaves ⊆ e.leaves := by
  cases e with
  | assign target value =>
    cases value with
    | term value => exact List.Subset.refl _
    | predicate value => exact value.termLeaves_subset
  | assume condition | obligation condition => exact condition.termLeaves_subset
  | _ => exact List.Subset.refl _

variable {info : LoopInfo} {cfg : AbstractCfg} {oracle : Oracle}
  {postconditions : CfgNodeId → Option Formula} {inner : InnerInvariants} {K : Var → Prop}
  {R : String → Prop} {φ : Formula}

/-- A formula whose leaves are all in the sets reads within them. -/
theorem Formula.readsWithin_of_leaves (h : ∀ x ∈ φ.leaves, x.VarIn K ∧ x.RegionIn R) :
    φ.ReadsWithin K R where
  terms := Formula.termReads_iff.2 fun x hx ↦ (h x (φ.termLeaves_subset hx)).1
  regions x hx := (h x hx).2

theorem Formula.ReadsWithin.of_termLeaves (h : φ.ReadsWithin K R) :
    ∀ x ∈ φ.termLeaves, x.VarIn K ∧ x.RegionIn R := fun x hx ↦
  ⟨Formula.termReads_iff.1 h.terms x hx, h.regions x (φ.termLeaves_subset hx)⟩

/-- The graph, the postconditions and the facts at the header speak of variables in `K` below terms
and of regions in `R` only. -/
structure LoopInfo.Within (info : LoopInfo) (cfg : AbstractCfg)
    (postconditions : CfgNodeId → Option Formula) (inner : InnerInvariants) (K : Var → Prop)
    (R : String → Prop) : Prop where
  graph : cfg.ReadsWithin K R
  postcondition : ∀ n φ, postconditions n = some φ → φ.ReadsWithin K R
  ints : ∀ v : Var, v.sort = .int → K v
  facts : ∀ p ∈ initFacts info cfg inner, R p.1.1

/-- The guard of the back edge of a loop is one of the graph. -/
theorem exists_backEdgeGuard (hinfo : info ∈ detectLoops cfg) :
    ∃ e ∈ cfg.edges, info.backEdgeGuard = e.guard := by
  obtain ⟨e, he, -, rfl⟩ := mem_detectLoops.1 hinfo
  exact ⟨e, he, rfl⟩

theorem LoopInfo.Within.speaks (h : info.Within cfg postconditions inner K R)
    (hinfo : info ∈ detectLoops cfg) :
    info.Speaks cfg postconditions fun x ↦ x.VarIn K ∧ x.RegionIn R where
  ints v hv := ⟨h.ints v hv, trivial⟩
  effect n e he x hx :=
    ⟨forall_varIn_iff.2 (h.graph.node n e he).terms x hx,
      (h.graph.node n e he).regions x (e.termLeaves_subset hx)⟩
  guard e he := (h.graph.guard e he).of_termLeaves
  backEdgeGuard := by
    obtain ⟨e, he, heq⟩ := exists_backEdgeGuard hinfo
    rw [heq]
    exact (h.graph.guard e he).of_termLeaves
  postcondition n φ hφ := (h.postcondition n φ hφ).of_termLeaves

theorem LoopInfo.Within.violation (h : info.Within cfg postconditions inner K R) :
    ∀ violation ∈ info.violations cfg postconditions, violation.ReadsWithin K R := by
  intro violation hviolation
  obtain ⟨id, -, hid⟩ := List.mem_filterMap.1 hviolation
  split at hid
  · cases hid
  · exact h.postcondition _ violation hid

theorem LoopInfo.Within.negation (h : info.Within cfg postconditions inner K R) :
    ∀ φ ∈ violationNegationAtoms info cfg postconditions, φ.ReadsWithin K R := by
  have hhereditary := hereditary_readsWithin K R
  intro ψ hψ
  obtain ⟨violation, hviolation, hψ⟩ := List.mem_flatMap.1 hψ
  split_ifs at hψ
  · exact absurd hψ List.not_mem_nil
  obtain ⟨φ, hφ, hneg⟩ := List.mem_filterMap.1 hψ
  have hconjunct : φ.ReadsWithin K R := by
    have hviolation := h.violation violation hviolation
    cases violation with
    | and items => exact (hhereditary.and_iff items).1 hviolation φ hφ
    | _ => exact List.mem_singleton.1 hφ ▸ hviolation
  cases φ with
  | lt l r | le l r | gt l r | ge l r =>
    obtain rfl := Option.some.inj hneg
    exact Formula.readsWithin_of_leaves hconjunct.of_termLeaves
  | not inner =>
    obtain rfl := Option.some.inj hneg
    exact (hhereditary.not_iff inner).1 hconjunct
  | _ => cases hneg

/-- The equation of a fact about a literal. -/
theorem readsWithin_equation {p : Cell × Term} (hp : p ∈ initFacts info cfg inner)
    (h : info.Within cfg postconditions inner K R) :
    (StoreFacts.equation p).ReadsWithin K R := by
  refine Formula.readsWithin_of_leaves fun x hx ↦ ?_
  have hliteral := (Bool.and_eq_true_iff.1 (List.mem_filter.1 hp).2).2
  obtain ⟨cell, value⟩ := p
  cases value with
  | int n =>
    obtain rfl : x = .region cell.1 := by
      simpa [StoreFacts.equation, Formula.leaves, Term.leaves, Memory.leaves] using hx
    exact ⟨trivial, h.facts _ hp⟩
  | _ => cases hliteral

theorem LoopInfo.Within.all (h : info.Within cfg postconditions inner K R)
    (hinfo : info ∈ detectLoops cfg) (positive : Option IceState) (negatives : List IceState) :
    (atomPools info cfg postconditions inner positive negatives).All (Formula.ReadsWithin K R) info
      cfg postconditions := by
  have hspeaks := h.speaks hinfo
  have hcombos : ∀ φ ∈ (atomPools info cfg postconditions inner positive negatives).combos,
      φ.ReadsWithin K R := by
    intro φ hφ
    dsimp only [atomPools] at hφ
    split_ifs at hφ
    · exact absurd hφ List.not_mem_nil
    · exact Formula.readsWithin_of_leaves (reads_generateAtoms hspeaks hφ)
  have hfacts (facts : StoreFacts) (hsub : facts ⊆ initFacts info cfg inner) :
      ∀ φ ∈ facts.map StoreFacts.equation, φ.ReadsWithin K R :=
    List.forall_mem_map.2 fun p hp ↦ readsWithin_equation (hsub hp) h
  refine ⟨fun φ hφ ↦ Formula.readsWithin_of_leaves (reads_collectPredicateAtoms hspeaks hφ),
    hcombos, ?_, h.negation, ?_, hfacts _ (List.Subset.refl _), ?_, ?_⟩
  · cases positive with
    | none => exact hcombos
    | some state => exact fun φ hφ ↦ hcombos φ (List.mem_of_mem_filter hφ)
  · intro φ hφ
    obtain hsafety | hnegation := Connective.mem_foldl_pushNew.1 hφ
    · exact hcombos φ (List.mem_of_mem_filter hsafety)
    · exact h.negation φ hnegation
  · intro φ hφ
    dsimp only [atomPools] at hφ
    split_ifs at hφ
    obtain rfl := Option.some.inj hφ
    exact (hereditary_readsWithin K R).andMany (hfacts _ (List.filter_subset_self _))
  · intro counter hcounter violation hviolation k hk
    have hviolation := (h.violation violation hviolation).of_termLeaves
    refine Formula.readsWithin_of_leaves (List.forall_mem_cons.2 ⟨?_,
      reads_collectIdxFormula violation hviolation k hk⟩)
    refine ⟨h.ints counter ?_, trivial⟩
    unfold extractBackEdgeCounter at hcounter
    split at hcounter
    · split_ifs at hcounter with hsort
      exact Option.some.inj hcounter ▸ hsort
    · split_ifs at hcounter with hsort
      exact Option.some.inj hcounter ▸ hsort
    · cases hcounter

/-- All candidates read within the sets. -/
theorem readsWithin_searchTiers (h : info.Within cfg postconditions inner K R)
    (hinfo : info ∈ detectLoops cfg) :
    ∀ candidate ∈ (searchTiers info cfg oracle postconditions inner).flatten,
      candidate.ReadsWithin K R := by
  intro candidate hcandidate
  obtain ⟨tier, htier, hcandidate⟩ := List.mem_flatten.1 hcandidate
  exact (h.all hinfo _ _).tiers (hereditary_readsWithin K R) tier htier candidate hcandidate

end Reads

/-! ### What is found -/

section Found

variable {info : LoopInfo} {cfg : AbstractCfg} {oracle : Oracle}
  {postconditions : CfgNodeId → Option Formula} {inner : InnerInvariants} {K : Var → Prop}
  {R : String → Prop} {sem : Semantics} {formula : Formula} {budget : ℕ}

/-- What the search returns reads what the candidates read. -/
theorem readsWithin_of_synthesizeWithCegis (hwithin : info.Within cfg postconditions inner K R)
    (hinfo : info ∈ detectLoops cfg)
    (h : synthesizeWithCegis info cfg oracle postconditions inner budget = some formula) :
    formula.ReadsWithin K R := by
  obtain ⟨candidate, hmem, rfl, -, -⟩ := exists_of_synthesizeWithCegis h
  exact readsWithin_normalizeCandidate hwithin.graph
    (readsWithin_searchTiers hwithin hinfo candidate hmem) info.header

/-- What the search returns holds at an arrival the checks cover, if the supplied invariants are
true along the execution to it. -/
theorem LoopArrival.holds_of_synthesized (hsound : oracle.InfeasibleSound)
    (hinfo : info ∈ detectLoops cfg) (hwithin : info.Within cfg postconditions inner K R)
    (hinner : ∀ pair ∈ inner, pair.2.ReadsWithin K R)
    (h : synthesizeWithCegis info cfg oracle postconditions inner budget = some formula)
    {s₀ s : State} {cs : List Crossing}
    (harrival : LoopArrival info cfg sem K R inner ⟨cfg.entry, s₀⟩ cs s)
    (htrue : ∀ pair ∈ inner, ∀ cs₁ s, cs₁ <+: cs →
      cfg.Run sem cs₁ ⟨cfg.entry, s₀⟩ ⟨pair.1, s⟩ → pair.2.Holds s) : formula.Holds s := by
  obtain ⟨candidate, hmem, rfl, -, haccepted⟩ := exists_of_synthesizeWithCegis h
  have hcandidate := readsWithin_searchTiers hwithin hinfo candidate hmem
  induction harrival with
  | enter hfirst hlast hstarts hfacts hback htracked =>
    obtain ⟨-, hinitiation, -⟩ := accepted_iff.1 haccepted
    refine holds_of_checkInitiation hsound hinitiation (holds_forwardReachAtHeader hlast
      (hfirst.node_mem cfg.entry_mem) hstarts ?_ hfacts hback htracked)
    rcases hstarts with ⟨-, rfl⟩ | hinv
    · exact Formula.holds_tru _
    · exact htrue _ (InnerInvariants.mem_of_at? hinv) _ _ (List.prefix_append _ _) hfirst
  | iterate _ hiteration ih =>
    refine hiteration.holds_of_accepted hsound hinfo hwithin.graph hcandidate hinner haccepted
      (ih fun pair hpair cs₁ s hpre ↦ ?_)
    exact htrue pair hpair cs₁ s (hpre.trans (List.prefix_append _ _))

/-- **What the search returns is an invariant.** Let the oracle be sound and the supplied invariants
true. Along every execution that enters the loop as the forward pass has it and iterates through its
own back edge, with one enabled edge at each node of the body, the formula holds at every arrival at
the header. -/
theorem holds_of_synthesizeWithCegis (hsound : oracle.InfeasibleSound)
    (hinfo : info ∈ detectLoops cfg) (hwithin : info.Within cfg postconditions inner K R)
    (hinner : ∀ pair ∈ inner, pair.2.ReadsWithin K R)
    (htrue : ∀ pair ∈ inner, ∀ cs s₀ s, cfg.Run sem cs ⟨cfg.entry, s₀⟩ ⟨pair.1, s⟩ →
      pair.2.Holds s)
    (h : synthesizeWithCegis info cfg oracle postconditions inner budget = some formula)
    {s₀ s : State} {cs : List Crossing}
    (harrival : LoopArrival info cfg sem K R inner ⟨cfg.entry, s₀⟩ cs s) : formula.Holds s := by
  refine harrival.holds_of_synthesized hsound hinfo hwithin hinner h fun pair hpair cs₁ s _ hrun ↦ ?_
  exact htrue pair hpair cs₁ s₀ s hrun

variable (info cfg oracle postconditions inner) in
/-- What keeps the search from losing a candidate: every state it may store is one that enters the
loop or leads to a violation, as the list has it, and decides all candidates. -/
structure SearchReliable : Prop where
  models : oracle.ModelsHold
  negatives : ∀ state ∈ collectNegativeExamples info cfg oracle postconditions,
    state.Violates info cfg postconditions inner
  steps : ∀ candidate ∈ (searchTiers info cfg oracle postconditions inner).flatten, ∀ model,
    checkLoopInvariantVerbose info cfg candidate oracle postconditions inner ≠
      .inductivenessFailed (some model)
  initial : ∀ candidate ∈ (searchTiers info cfg oracle postconditions inner).flatten,
    ∀ state ∈ (initialFeedback info cfg oracle postconditions inner).states,
      state.Decides cfg info.header candidate
  witness : ∀ candidate ∈ (searchTiers info cfg oracle postconditions inner).flatten,
    ∀ earlier ∈ (searchTiers info cfg oracle postconditions inner).flatten,
      ∀ model ∈ (checkLoopInvariantVerbose info cfg earlier oracle postconditions inner).witness,
        (IceState.fromModel model).Decides cfg info.header candidate

/-- **A reliable search finds the first acceptable candidate** of those it comes to before the
deadline, over all tiers. -/
theorem synthesizeWithCegis_eq_find? (hsound : oracle.InfeasibleSound)
    (h : SearchReliable info cfg oracle postconditions inner) (budget : ℕ) :
    synthesizeWithCegis info cfg oracle postconditions inner budget =
      (((searchTiers info cfg oracle postconditions inner).flatten.take budget).find?
        fun candidate ↦ decide (isTautology (normalizeCandidate cfg info.header candidate) = false ∧
          checkLoopInvariantVerbose info cfg candidate oracle postconditions inner =
            .accepted)).map (normalizeCandidate cfg info.header) := by
  rw [synthesizeWithCegis, runTiers_eq]
  refine runTier_eq_find? hsound ⟨⟨fun state hstate ↦ ?_, h.negatives⟩, h.initial⟩
    (fun candidate hcandidate ↦ ?_) h.witness budget 0
  · exact enters_of_collectPositiveExample h.models (Option.mem_toList.1 hstate)
  · exact grounds_checkLoopInvariantVerbose h.models (h.steps candidate hcandidate)

variable (info cfg postconditions) in
/-- The comparisons in the vocabulary of the loop, and the conjunctions of two of them. -/
def vocabularyCandidates : List Formula :=
  let atoms := generateAtoms (collectVocab info cfg postconditions)
  atoms ++ pairwiseConjunctions atoms

/-- The conjuncts of an accepted candidate are not false where the loop may be entered. -/
theorem evalAtom_ne_of_accepted (hsound : oracle.InfeasibleSound) {state : IceState}
    {candidate atom : Formula} (henters : state.Enters info cfg inner)
    (hcandidate : state.Decides cfg info.header candidate)
    (hatom : state.Decides cfg info.header atom)
    (himplies : ∀ s, candidate.Holds s → atom.Holds s)
    (haccepted : checkLoopInvariantVerbose info cfg candidate oracle postconditions inner =
      .accepted) : evalAtom state atom ≠ some false := by
  obtain ⟨s, hagree, hreach⟩ := henters
  obtain ⟨-, hinitiation, -⟩ := accepted_iff.1 haccepted
  have hnormal := holds_of_checkInitiation hsound hinitiation hreach
  intro hfalse
  have hholds := himplies s ((hcandidate.unmoved s hagree).1 hnormal)
  rw [Formula.Holds, hagree.eval_eq (hatom.fits s hagree) hfalse] at hholds
  exact Bool.false_ne_true hholds

/-- The filter by the first example loses no acceptable comparison of the vocabulary, and no
acceptable conjunction of two. -/
theorem mem_searchTiers_of_accepted (hsound : oracle.InfeasibleSound)
    (hmodels : oracle.ModelsHold)
    (hdecides : ∀ state, collectPositiveExample info cfg oracle inner = some state →
      ∀ φ ∈ vocabularyCandidates info cfg postconditions, state.Decides cfg info.header φ)
    {candidate : Formula} (hmem : candidate ∈ vocabularyCandidates info cfg postconditions)
    (haccepted : checkLoopInvariantVerbose info cfg candidate oracle postconditions inner =
      .accepted) : candidate ∈ (searchTiers info cfg oracle postconditions inner).flatten := by
  set pools := atomPools info cfg postconditions inner
    (collectPositiveExample info cfg oracle inner)
    (collectNegativeExamples info cfg oracle postconditions)
  have hcombos : pools.combos = generateAtoms (collectVocab info cfg postconditions) := by
    show (if (collectVocab info cfg postconditions).terms.isEmpty then []
      else generateAtoms (collectVocab info cfg postconditions)) = _
    split_ifs with hempty
    · rw [generateAtoms, List.isEmpty_iff.1 hempty]
      rfl
    · rfl
  -- a conjunct of the candidate passes the filter
  have hpasses (atoms : List Formula) (hsub : atoms.Sublist pools.combos)
      (himplies : ∀ atom ∈ atoms, ∀ s, candidate.Holds s → atom.Holds s) :
      atoms.Sublist pools.posConsistent := by
    have hpositive : pools.posConsistent =
        (collectPositiveExample info cfg oracle inner).elim pools.combos
          (filterPositiveConsistent pools.combos) := rfl
    rw [hpositive]
    cases hstate : collectPositiveExample info cfg oracle inner with
    | none => exact hsub
    | some state =>
      have hatom (atom : Formula) (hatom : atom ∈ atoms) : evalAtom state atom ≠ some false :=
        evalAtom_ne_of_accepted hsound (enters_of_collectPositiveExample hmodels hstate)
          (hdecides state hstate candidate hmem)
          (hdecides state hstate atom
            (List.mem_append_left _ (hcombos ▸ hsub.subset hatom)))
          (himplies atom hatom) haccepted
      have hfilter := hsub.filter fun atom ↦ decide (evalAtom state atom ≠ some false)
      rwa [List.filter_eq_self.2 fun atom hmem ↦ decide_eq_true (hatom atom hmem)] at hfilter
  have htier (tier : List Formula)
      (htier : tier ∈ [pools.posConsistent, pairwiseConjunctions pools.posConsistent,
        iceDisjunctions info cfg postconditions pools.posConsistent pools.safety,
        pairwiseDisjunctions pools.posConsistent]) (hcandidate : candidate ∈ tier) :
      candidate ∈ (searchTiers info cfg oracle postconditions inner).flatten :=
    List.mem_flatten.2 ⟨tier, List.mem_append_right _ htier, hcandidate⟩
  obtain hatom | hconjunction := List.mem_append.1 hmem
  · refine htier _ List.mem_cons_self (List.singleton_sublist.1 (hpasses [candidate] ?_ ?_))
    · exact List.singleton_sublist.2 (hcombos ▸ hatom)
    · exact List.forall_mem_singleton.2 fun _ hs ↦ hs
  · obtain ⟨⟨a, b⟩, hpair, rfl⟩ := List.mem_map.1 hconjunction
    refine htier _ (List.mem_cons_of_mem _ List.mem_cons_self)
      (List.mem_map_of_mem (mem_orderedPairs.2 (hpasses [a, b] ?_ ?_)))
    · exact hcombos ▸ mem_orderedPairs.1 hpair
    · exact List.forall_mem_cons.2 ⟨fun s hs ↦ ((Formula.holds_mkAnd a b).1 hs).1,
        List.forall_mem_singleton.2 fun s hs ↦ ((Formula.holds_mkAnd a b).1 hs).2⟩

end Found

/-! ### A solver without models -/

section NoModels

variable {info : LoopInfo} {cfg : AbstractCfg} {oracle : Oracle} {candidate : Formula}
  {postconditions : CfgNodeId → Option Formula} {inner : InnerInvariants}
  {result : InvariantCheckResult}

/-- The solver reports no models. -/
def Oracle.Modelless (oracle : Oracle) : Prop :=
  ∀ φ report, oracle.feasibilityWithModel φ = .ok report → report.model = none

theorem Oracle.modelless_knowing (refuted satisfied : List Formula) :
    (Oracle.knowing refuted satisfied).Modelless := by
  intro φ report h
  unfold feasibilityWithModel knowing at h
  split at h
  · cases h
  · obtain rfl := Except.ok.inj h
    rfl

namespace Oracle.Modelless

theorem checkInitiation (h : oracle.Modelless) {reachH : Formula}
    (hresult : MayMust.checkInitiation candidate oracle reachH = some result) :
    result.witness = none := by
  rw [MayMust.checkInitiation] at hresult
  split at hresult
  · cases hresult
    rfl
  rename_i report hreport
  split at hresult
  · cases hresult
    exact h _ report hreport
  · cases hresult
    rfl
  split at hresult
  · cases hresult
    rfl
  split_ifs at hresult
  cases hresult
  rfl

theorem checkInductiveness (h : oracle.Modelless)
    (hresult : MayMust.checkInductiveness info cfg candidate oracle inner = some result) :
    result.witness = none := by
  rw [MayMust.checkInductiveness] at hresult
  split at hresult
  · cases hresult
    rfl
  split at hresult
  · cases hresult
    rfl
  split at hresult
  · cases hresult
  · rename_i model himplies
    cases hresult
    unfold impliesWithModel at himplies
    obtain ⟨report, hreport, hpair⟩ := bind_eq_ok.1 himplies
    obtain ⟨-, rfl⟩ := Prod.mk.inj (pure_eq_ok.1 hpair)
    exact h _ report hreport
  · cases hresult
    rfl
  · cases hresult
    rfl

theorem checkExit (h : oracle.Modelless) {id : CfgEdgeId}
    (hresult : MayMust.checkExit info cfg candidate oracle postconditions inner id =
      some result) : result.witness = none := by
  rw [MayMust.checkExit] at hresult
  split at hresult
  · cases hresult
  split at hresult
  · cases hresult
  split_ifs at hresult
  split at hresult
  · cases hresult
    rfl
  split at hresult
  · cases hresult
    rfl
  split at hresult
  · cases hresult
    rfl
  rename_i report hreport
  split_ifs at hresult
  cases hresult
  exact h _ report hreport

/-- Failed checks come with no models then. -/
theorem witness (h : oracle.Modelless) (candidate : Formula) :
    (checkLoopInvariantVerbose info cfg candidate oracle postconditions inner).witness = none := by
  unfold checkLoopInvariantVerbose
  dsimp only
  split_ifs
  · rfl
  split
  · rename_i failure hfailure
    exact h.checkInitiation hfailure
  split
  · rename_i failure hfailure
    exact h.checkInductiveness hfailure
  · cases hexit : info.exitEdges.findSome? (MayMust.checkExit info cfg
        (normalizeCandidate cfg info.header candidate) oracle postconditions inner) with
    | none => rfl
    | some failure =>
      obtain ⟨id, -, hfailure⟩ := List.exists_of_findSome?_eq_some hexit
      exact h.checkExit hfailure

theorem collectPositiveExample (h : oracle.Modelless) :
    MayMust.collectPositiveExample info cfg oracle inner = none := by
  rw [MayMust.collectPositiveExample]
  split_ifs
  · rfl
  split
  · rfl
  rename_i report hreport
  rw [h _ report hreport]
  split_ifs <;> rfl

theorem collectNegativeExamples (h : oracle.Modelless) :
    MayMust.collectNegativeExamples info cfg oracle postconditions = [] := by
  rw [MayMust.collectNegativeExamples, List.filterMap_eq_nil_iff]
  intro id _
  rw [negativeExample]
  split
  · rfl
  split
  · rfl
  split_ifs
  · rfl
  split
  · rfl
  rename_i report hreport
  rw [h _ report hreport]
  rfl

/-- A search that stores no states is reliable. -/
theorem searchReliable (h : oracle.Modelless) :
    SearchReliable info cfg oracle postconditions inner where
  models φ report model hreport hmodel := by
    rw [h φ report hreport] at hmodel
    cases hmodel
  negatives state hstate := by
    rw [h.collectNegativeExamples] at hstate
    cases hstate
  steps candidate _ model hresult := by
    have hnone : (checkLoopInvariantVerbose info cfg candidate oracle postconditions
      inner).witness = none := h.witness candidate
    rw [hresult] at hnone
    cases hnone
  initial candidate _ state hstate := by
    rw [initialFeedback, h.collectPositiveExample, h.collectNegativeExamples] at hstate
    cases hstate
  witness candidate _ earlier _ model hmodel := by
    rw [h.witness] at hmodel
    cases hmodel

end Oracle.Modelless

end NoModels

/-! ### The loop that sets `x` to 1 -/

section Iterated

/-- The loop of the graph. -/
def iteratedLoop : LoopInfo := loopOf iteratedCfg ⟨2, 2, 1, .tru, []⟩

theorem iteratedLoop_mem : iteratedLoop ∈ detectLoops iteratedCfg := by decide

theorem synthesizeWithCegis_iteratedLoop :
    synthesizeWithCegis iteratedLoop iteratedCfg nonnegativeOracle (fun _ ↦ none) [] 5 =
      some xNonnegative := by
  decide

theorem step_assign_iteratedCfg (s : State) (n : Int64) :
    (TransferEffect.assign (.int "x") (.term (.int n))).Step .unknownCallees s
      (s.set (.int "x") (.int n.toInt)) := by
  refine ⟨?_, by decide, ?_⟩
  · simp [Term.eval, Var.int]
  · simp [Term.eval]

/-- The loop is entered as the checks have it. -/
theorem arrival_enter : LoopArrival iteratedLoop iteratedCfg .unknownCallees (fun _ ↦ True)
    (fun _ ↦ True) [] ⟨iteratedCfg.entry, .zero⟩ (iterateOnce.take 1) zeroState := by
  have hfacts : preheaderStoreFactsAtHeader iteratedCfg 0 [] = [] := by decide
  have hentry : iteratedCfg.Run .unknownCallees [] ⟨iteratedCfg.entry, .zero⟩ ⟨0, .zero⟩ := rfl
  obtain ⟨m, ⟨hvalid, -, rfl⟩, -⟩ := run_iterateOnce
  have htracked : iteratedCfg.Tracked .unknownCallees
      (preheaderStoreFactsAtHeader iteratedCfg · []) .tru (iterateOnce.take 1) := by
    refine ⟨?_, rfl, trivial⟩
    show Effects.SparingRun _ (iteratedCfg.transferAt 0).effects
      ⟨.tru, preheaderStoreFactsAtHeader iteratedCfg 0 []⟩ .zero zeroState
    rw [hfacts]
    exact ⟨zeroState, step_assign_iteratedCfg .zero 0,
      ⟨fun _ ↦ Formula.holds_tru _, by simp, trivial, by simp [resolveSelectInTerm, Term.eval]⟩, rfl⟩
  exact .enter hentry (Path.singleton_iff.2 ⟨hvalid, rfl, rfl⟩) (Or.inl ⟨rfl, rfl⟩)
    (by simp [hfacts, StoreFacts.Holds]) (by decide) htracked

/-- And iterated once, as the checks have it. -/
theorem arrival_iterate : LoopArrival iteratedLoop iteratedCfg .unknownCallees (fun _ ↦ True)
    (fun _ ↦ True) [] ⟨iteratedCfg.entry, .zero⟩ iterateOnce oneState := by
  obtain ⟨m, ⟨-, -, rfl⟩, hrest⟩ := run_iterateOnce
  have hdecided : ∀ c ∈ iterateOnce.drop 1,
      c.Decided iteratedLoop iteratedCfg (fun _ ↦ True) (fun _ ↦ True) [] := by
    have hfollows : ∀ e ∈ iteratedCfg.edges, e.id = iteratedLoop.backEdge ∨
        (e.id ∉ iteratedCfg.detectBackEdges ∧ e.source ∈ iteratedLoop.body ∧
          e.target ∈ iteratedLoop.body) → e = ⟨1, 1, 2, .tru, []⟩ ∨ e = ⟨2, 2, 1, .tru, []⟩ := by
      decide
    have hnone : ∀ n, (summarizeInnerLoops iteratedCfg (some iteratedLoop.body) []).1 n = none := by
      intro n
      simp [summarizeInnerLoops, InnerInvariants.at?]
    refine List.forall_mem_cons.2 ⟨⟨⟨rfl, rfl⟩, fun e he hsource hne hfollow ↦ ?_, hnone _⟩,
      List.forall_mem_singleton.2 ⟨⟨?_, rfl⟩, fun e he hsource hne hfollow ↦ ?_, hnone _⟩⟩
    · rcases hfollows e he hfollow with rfl | rfl
      · exact absurd rfl hne
      · cases hsource
    · exact Path.singleton_iff.2 ⟨⟨trivial, .inr (step_assign_iteratedCfg zeroState 1)⟩,
        fun regions h ↦ TransferEffect.noConfusion h⟩
    · rcases hfollows e he hfollow with rfl | rfl
      · cases hsource
      · exact absurd rfl hne
  have hiteration : Iteration iteratedLoop iteratedCfg .unknownCallees (fun _ ↦ True)
      (fun _ ↦ True) [] [⟨⟨1, 1, 2, .tru, []⟩, zeroState, zeroState, zeroState⟩]
      ⟨⟨2, 2, 1, .tru, []⟩, zeroState, oneState, oneState⟩ ⟨1, zeroState⟩ ⟨1, oneState⟩ :=
    ⟨hrest, List.forall_mem_singleton.2 (by decide), by decide, hdecided⟩
  exact .iterate arrival_enter hiteration

/-- What is found holds when the loop is entered, and after the iteration. -/
theorem holds_of_synthesizeWithCegis_iteratedLoop : xNonnegative.Holds oneState := by
  have hwithin : iteratedLoop.Within iteratedCfg (fun _ ↦ none) [] (fun _ ↦ True)
      (fun _ ↦ True) :=
    ⟨iteratedCfg.readsWithin_true, fun _ φ h ↦ absurd h.symm (Option.some_ne_none φ),
      fun _ _ ↦ trivial, fun _ _ ↦ trivial⟩
  exact holds_of_synthesizeWithCegis infeasibleSound_nonnegativeOracle iteratedLoop_mem hwithin
    (by simp) (by simp) synthesizeWithCegis_iteratedLoop arrival_iterate

end Iterated

end MayMust
