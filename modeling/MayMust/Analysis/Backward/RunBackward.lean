import MayMust.Analysis.Backward.RuleSpecs

/-!
# One assertion check

`run_backward` of the source and the preliminary backward pass. Both prepare an engine in the
same way: excluded edges are blocked and the site is seeded with the transformer of its node
applied to the negated obligation. `run_backward` also injects loop invariants, iterates to a
fixpoint and reads the verdict off the entry.

The source writes `run_backward` as one function. Here the engine it ends with is a definition
of its own (`fixpointEngine`), as most results are about that engine.
-/

namespace MayMust

open Library

/-- The outcome of an assertion check. -/
inductive Judgement
  | verified
  | bugFound (model : Option SmtModel)
  | unknown
  deriving DecidableEq

/-- A loop invariant that passed the checks, together with the header it holds at. -/
structure VerifiedLoopInvariant where
  header : CfgNodeId
  formula : Formula
  deriving DecidableEq

/-- The outcome of an assertion check with supporting data. -/
structure AssertionResult where
  siteId : ℕ
  siteLabel : String
  judgement : Judgement
  entrySummary : NodeSummary
  assertionSummary : NodeSummary

/-- The errors of the analysis. -/
inductive BackwardError
  | cyclicCfgUnsupported
  | rule (error : RuleError)
  | oracle (error : OracleError)
  deriving DecidableEq

/-- One step of `conjunct_loop_invariants`: the map from headers to formulas is kept sorted by
header. -/
def conjunctLoopInvariant (header : CfgNodeId) (formula : Formula) :
    List (CfgNodeId × Formula) → List (CfgNodeId × Formula)
  | [] => [(header, formula)]
  | (h, current) :: rest =>
    if header = h then (h, Formula.mkAnd current formula) :: rest
    else if header < h then (header, formula) :: (h, current) :: rest
    else (h, current) :: conjunctLoopInvariant header formula rest

/-- `conjunct_loop_invariants`: several invariants of one header are conjoined. -/
def conjunctLoopInvariants (invariants : List VerifiedLoopInvariant) :
    List (CfgNodeId × Formula) :=
  invariants.foldl (fun combined inv ↦ conjunctLoopInvariant inv.header inv.formula combined) []

namespace RuleEngine

variable (cfg : AbstractCfg)

/-- Block the excluded edges of a fresh engine. -/
def initExcluding (excluded : Finset CfgEdgeId) : RuleEngine :=
  { init cfg with blockedEdges := excluded }

/-- Inject the invariant of a header into its reach formula. -/
def injectInvariant (engine : RuleEngine) (header : CfgNodeId) (inv : Formula) :
    Except RuleError RuleEngine :=
  engine.modifySummary cfg header fun summary ↦
    { summary with
      reach := if summary.reach = .fls then inv else Formula.mkAnd summary.reach inv }

/-- Seed the site with the states from which its node's effects violate the obligation. -/
def seedSite (engine : RuleEngine) (site : AssertionSite) : Except RuleError RuleEngine := do
  let node ← ruleNode cfg site.node
  engine.setState cfg site.node (node.transfer.wp (.not site.obligation))

end RuleEngine

/-- The conversion of rule errors that `?` inserts. -/
def liftRule {α : Type} (x : Except RuleError α) : Except BackwardError α := x.mapError .rule

@[simp] theorem liftRule_eq_ok {α : Type} {x : Except RuleError α} {a : α} :
    liftRule x = .ok a ↔ x = .ok a := ok_of_mapError

section RunBackward

variable (cfg : AbstractCfg) (site : AssertionSite) (oracle : Oracle)
  (excluded : Finset CfgEdgeId) (invariants : List VerifiedLoopInvariant)
  (tables : ContextualSummaryTable)

/-- The engine `run_backward` has when the fixpoint ends. -/
def fixpointEngine : Except BackwardError RuleEngine := do
  match cfg.topologicalOrderExcluding excluded with
  | none => throw .cyclicCfgUnsupported
  | some order =>
    let engine ← liftRule <| (conjunctLoopInvariants invariants).foldlM
      (fun engine pair ↦ engine.injectInvariant cfg pair.1 pair.2)
      (RuleEngine.initExcluding cfg excluded)
    let engine ← liftRule (engine.seedSite cfg site)
    liftRule (RuleEngine.runToFixpoint cfg tables oracle order engine)

/-- The verdict of `run_backward`: a bug first, then safety. -/
def judgement (engine : RuleEngine) : Except BackwardError Judgement := do
  let cfgIsAcyclic := cfg.detectBackEdges.isEmpty
  let bug ← liftRule (engine.bugfound cfg oracle cfg.entry cfgIsAcyclic)
  match bug with
  | some model => return .bugFound model
  | none =>
    let verified ← liftRule (engine.verified cfg oracle cfg.entry)
    return if verified then .verified else .unknown

/-- `run_backward`. -/
def runBackward : Except BackwardError AssertionResult := do
  let engine ← fixpointEngine cfg site oracle excluded invariants tables
  let judgement ← judgement cfg oracle engine
  let entrySummary ← liftRule (engine.summary cfg cfg.entry)
  let assertionSummary ← liftRule (engine.summary cfg site.node)
  return ⟨site.id, site.location, judgement, entrySummary, assertionSummary⟩

/-- `compute_preliminary_backward_states`: one backward pass without any oracle query. -/
def computePreliminaryBackwardStates : Except BackwardError (CfgNodeId → Formula) := do
  match cfg.topologicalOrderExcluding excluded with
  | none => throw .cyclicCfgUnsupported
  | some order =>
    let engine ← liftRule ((RuleEngine.initExcluding cfg excluded).seedSite cfg site)
    let engine ← liftRule <| (order.reverse.flatMap cfg.incomingEdges).foldlM
      (fun engine edge ↦ engine.notmayPre cfg edge) engine
    return fun id ↦ (engine.summaries id).state

end RunBackward

/-! ### What a successful run says -/

section Inversion

variable {cfg : AbstractCfg} {site : AssertionSite} {oracle : Oracle}
  {excluded : Finset CfgEdgeId} {invariants : List VerifiedLoopInvariant}
  {tables : ContextualSummaryTable} {engine : RuleEngine} {result : AssertionResult}

/-- The engine the fixpoint starts from. -/
structure Prepared (cfg : AbstractCfg) (site : AssertionSite) (excluded : Finset CfgEdgeId)
    (invariants : List VerifiedLoopInvariant) (engine : RuleEngine) : Prop where
  blocked_eq : engine.blockedEdges = excluded
  /-- The reach formula of a node is its initial one, conjoined with its invariants if it is the
  entry and replaced by them otherwise. -/
  reach_eq : ∀ n, engine.reachAt n = (RuleEngine.init cfg).reachAt n ∨
    ∃ inv, (n, inv) ∈ conjunctLoopInvariants invariants
  reach_entry : ∀ s, (∀ inv, (cfg.entry, inv) ∈ conjunctLoopInvariants invariants → inv.Holds s) →
    (engine.reachAt cfg.entry).Holds s
  state_eq : ∀ n, engine.stateAt n =
    if n = site.node then (cfg.transferAt site.node).wp (.not site.obligation) else .fls

theorem RuleEngine.seedSite_eq_ok {engine engine' : RuleEngine}
    (h : engine.seedSite cfg site = .ok engine') :
    engine' = engine.setStateAt site.node
      ((cfg.transferAt site.node).wp (.not site.obligation)) := by
  rw [RuleEngine.seedSite] at h
  simp only [bind_eq_ok] at h
  obtain ⟨node, hnode, h⟩ := h
  rw [AbstractCfg.transferAt_eq (RuleEngine.ruleNode_eq_ok hnode)]
  exact RuleEngine.setState_eq_ok h

/-- Injection touches only the reach formulas of the listed headers. -/
theorem RuleEngine.injectInvariants_eq_ok {pairs : List (CfgNodeId × Formula)}
    {engine engine' : RuleEngine}
    (h : pairs.foldlM (fun engine pair ↦ engine.injectInvariant cfg pair.1 pair.2) engine =
      .ok engine') :
    engine'.blockedEdges = engine.blockedEdges ∧
      (∀ n, engine'.stateAt n = engine.stateAt n) ∧
      (∀ n, engine'.reachAt n = engine.reachAt n ∨ ∃ inv, (n, inv) ∈ pairs) ∧
      ∀ n s, (engine.reachAt n).Holds s → (∀ inv, (n, inv) ∈ pairs → inv.Holds s) →
        (engine'.reachAt n).Holds s := by
  induction pairs generalizing engine with
  | nil =>
    obtain rfl : engine = engine' := pure_eq_ok.1 h
    exact ⟨rfl, fun _ ↦ rfl, fun _ ↦ Or.inl rfl, fun _ _ hs _ ↦ hs⟩
  | cons pair rest ih =>
    obtain ⟨header, inv⟩ := pair
    simp only [List.foldlM_cons, bind_eq_ok] at h
    obtain ⟨mid, hmid, h⟩ := h
    obtain ⟨hblocked, hstate, hreach, hholds⟩ := ih h
    obtain rfl := RuleEngine.modifySummary_eq_ok hmid
    refine ⟨hblocked, fun n ↦ ?_, fun n ↦ ?_, fun n s hs hinv ↦ ?_⟩
    · rw [hstate]
      by_cases hn : n = header <;> simp [RuleEngine.stateAt, hn]
    · by_cases hn : n = header
      · subst hn
        exact Or.inr ⟨inv, List.mem_cons_self⟩
      · refine (hreach n).imp (fun heq ↦ ?_) fun ⟨inv', hmem⟩ ↦
          ⟨inv', List.mem_cons_of_mem _ hmem⟩
        rw [heq]
        simp [RuleEngine.reachAt, hn]
    · refine hholds n s ?_ fun inv' hmem ↦ hinv inv' (List.mem_cons_of_mem _ hmem)
      by_cases hn : n = header
      · subst hn
        have hinv' := hinv inv List.mem_cons_self
        simp only [RuleEngine.reachAt, Function.update_self] at hs ⊢
        split
        · exact hinv'
        · exact (Formula.holds_mkAnd _ _).2 ⟨hs, hinv'⟩
      · simpa [RuleEngine.reachAt, hn] using hs

theorem RuleEngine.stateAt_init (n : CfgNodeId) : (RuleEngine.init cfg).stateAt n = .fls := by
  unfold RuleEngine.init RuleEngine.stateAt
  dsimp only
  split <;> rfl

theorem RuleEngine.reachAt_init_entry : (RuleEngine.init cfg).reachAt cfg.entry = .tru := by
  simp [RuleEngine.init, RuleEngine.reachAt, NodeSummary.entry]

/-- The order is topological, the fixpoint starts from a prepared engine, and it runs at least
one complete pass. -/
theorem fixpointEngine_eq_ok
    (h : fixpointEngine cfg site oracle excluded invariants tables = .ok engine) :
    ∃ order engine₀ k, cfg.topologicalOrderExcluding excluded = some order ∧
      Prepared cfg site excluded invariants engine₀ ∧
      RuleEngine.Calls cfg tables oracle
        (List.replicate (k + 1) (RuleEngine.passCalls cfg order)).flatten engine₀ engine := by
  rw [fixpointEngine] at h
  split at h
  · simp at h
  rename_i order horder
  simp only [bind_eq_ok, liftRule_eq_ok] at h
  obtain ⟨engine₁, hinject, engine₂, hseed, hrun⟩ := h
  obtain ⟨k, hcalls⟩ := RuleEngine.runToFixpoint_calls hrun
  obtain ⟨hblocked, hstate, hreach, hholds⟩ := RuleEngine.injectInvariants_eq_ok hinject
  obtain rfl := RuleEngine.seedSite_eq_ok hseed
  refine ⟨order, engine₁.setStateAt site.node _, k, horder,
    ⟨hblocked, fun n ↦ ?_, fun s hs ↦ ?_, fun n ↦ ?_⟩, hcalls⟩
  · rw [RuleEngine.reachAt_setStateAt]
    exact hreach n
  · rw [RuleEngine.reachAt_setStateAt]
    refine hholds cfg.entry s ?_ hs
    have hentry : (RuleEngine.initExcluding cfg excluded).reachAt cfg.entry = .tru :=
      RuleEngine.reachAt_init_entry
    rw [hentry]
    exact Formula.holds_tru s
  · rw [RuleEngine.stateAt_setStateAt, hstate]
    split
    · rfl
    · exact RuleEngine.stateAt_init n

/-- A verdict is about the entry summary of the engine. -/
theorem judgement_eq_ok {j : Judgement} (h : judgement cfg oracle engine = .ok j) :
    (j = .verified → ∃ report,
      oracle.feasibilityWithModel (engine.summaries cfg.entry).combined = .ok report ∧
        report.feasibility = .infeasible) ∧
      ∀ model, j = .bugFound model → cfg.detectBackEdges = [] ∧ ∃ report,
        oracle.feasibilityWithModel (engine.summaries cfg.entry).combined = .ok report ∧
          report.feasibility = .feasible := by
  rw [judgement] at h
  simp only [bind_eq_ok, liftRule_eq_ok] at h
  obtain ⟨bug, hbug, h⟩ := h
  split at h
  · obtain rfl := pure_eq_ok.1 h
    refine ⟨by simp, fun model _ ↦ ?_⟩
    rw [RuleEngine.bugfound] at hbug
    split at hbug
    · simp at hbug
    rename_i hacyclic
    simp only [bind_eq_ok, ok_of_mapError] at hbug
    obtain ⟨summary, hsummary, report, hreport, hif⟩ := hbug
    obtain rfl := RuleEngine.summary_eq_ok hsummary
    refine ⟨by simpa using hacyclic, report, hreport, ?_⟩
    by_contra hne
    simp [hne] at hif
  · simp only [bind_eq_ok, liftRule_eq_ok, pure_eq_ok] at h
    obtain ⟨verified, hverified, rfl⟩ := h
    refine ⟨fun hj ↦ ?_, fun model hj ↦ by split at hj <;> simp at hj⟩
    rw [RuleEngine.verified] at hverified
    simp only [bind_eq_ok, ok_of_mapError, pure_eq_ok] at hverified
    obtain ⟨summary, hsummary, report, hreport, rfl⟩ := hverified
    obtain rfl := RuleEngine.summary_eq_ok hsummary
    refine ⟨report, hreport, ?_⟩
    by_contra hne
    simp [hne] at hj

/-- `run_backward` reads its result off the fixpoint engine. -/
theorem runBackward_eq_ok
    (h : runBackward cfg site oracle excluded invariants tables = .ok result) :
    ∃ engine, fixpointEngine cfg site oracle excluded invariants tables = .ok engine ∧
      judgement cfg oracle engine = .ok result.judgement ∧
      result.entrySummary = engine.summaries cfg.entry ∧
      result.assertionSummary = engine.summaries site.node := by
  rw [runBackward] at h
  simp only [bind_eq_ok, liftRule_eq_ok, pure_eq_ok] at h
  obtain ⟨engine, hengine, j, hj, entry, hentry, site', hsite, rfl⟩ := h
  exact ⟨engine, hengine, hj, RuleEngine.summary_eq_ok hentry, RuleEngine.summary_eq_ok hsite⟩

end Inversion

end MayMust
