import MayMust.Analysis.AnalyzeWithTables
import MayMust.Analysis.Backward.CallSummaries
import MayMust.Analysis.Backward.Ssa

/-!
# The summaries that an analysis reads

Only two rules look at the summaries, and they look at those of the procedure that a node calls. So
the outcome for a site depends on a table only through the entries of the callees of its graph
(`analyzeWithTables_congr`), and a graph that calls nothing is analysed as with the empty table. In
particular a verified verdict about such a graph in single-assignment form is right, whatever the
table says.
-/

namespace MayMust

open Library

/-- The tables have the same entries for the callees of the graph, as far as the rules read them. -/
structure ContextualSummaryTable.AgreeOn (cfg : AbstractCfg)
    (tables tables' : ContextualSummaryTable) : Prop where
  notmay : ∀ n callee, cfg.CallsAt n callee → tables.notmay callee = tables'.notmay callee
  forwardMay : ∀ n callee, cfg.CallsAt n callee →
    tables.forwardMay callee = tables'.forwardMay callee

section Congr

variable {cfg : AbstractCfg} {tables tables' : ContextualSummaryTable} {oracle : Oracle}
  {synthesize : Synthesizer} {site : AssertionSite} {excluded : Finset CfgEdgeId}
  {invariants : List VerifiedLoopInvariant} {n : CfgNodeId} {node : AbstractNode}

theorem AbstractCfg.callsAt_of_ruleNode {callee : String}
    (hnode : RuleEngine.ruleNode cfg n = .ok node) (hcallee : calleeOf node = some callee) :
    cfg.CallsAt n callee :=
  ⟨node, ok_of_mapError.1 hnode, hcallee⟩

namespace RuleEngine

theorem notmayPreUsesummary_congr (h : tables.AgreeOn cfg tables') (engine : RuleEngine)
    (id : CfgEdgeId) : engine.notmayPreUsesummary cfg tables oracle id =
      engine.notmayPreUsesummary cfg tables' oracle id := by
  rw [notmayPreUsesummary, notmayPreUsesummary]
  split_ifs
  · rfl
  refine bind_congr_ok fun edge _ ↦ bind_congr_ok fun node hnode ↦ ?_
  cases hcallee : calleeOf node with
  | none => rfl
  | some callee =>
    dsimp only
    rw [h.notmay _ _ (AbstractCfg.callsAt_of_ruleNode hnode hcallee)]

theorem forwardMayUsesummary_congr (h : tables.AgreeOn cfg tables') (engine : RuleEngine)
    (id : CfgEdgeId) : engine.forwardMayUsesummary cfg tables oracle id =
      engine.forwardMayUsesummary cfg tables' oracle id := by
  rw [forwardMayUsesummary, forwardMayUsesummary]
  split_ifs
  · rfl
  refine bind_congr_ok fun edge _ ↦ bind_congr_ok fun node hnode ↦ ?_
  cases hcallee : calleeOf node with
  | none => rfl
  | some callee =>
    dsimp only
    rw [h.forwardMay _ _ (AbstractCfg.callsAt_of_ruleNode hnode hcallee)]

/-- No rule sees the difference. -/
theorem apply_congr (h : tables.AgreeOn cfg tables') :
    apply cfg tables oracle = apply cfg tables' oracle := by
  funext engine call
  cases call with
  | forwardMayUsesummary id => exact forwardMayUsesummary_congr h engine id
  | notmayPreUsesummary id => exact notmayPreUsesummary_congr h engine id
  | _ => rfl

theorem runPasses_congr (h : tables.AgreeOn cfg tables') (order : List CfgNodeId) (fuel : ℕ)
    (engine : RuleEngine) : runPasses cfg tables oracle order fuel engine =
      runPasses cfg tables' oracle order fuel engine := by
  induction fuel generalizing engine with
  | zero => rfl
  | succ fuel ih =>
    rw [runPasses, runPasses, runPass, runPass, apply_congr h]
    simp only [ih]

end RuleEngine

theorem runBackward_congr (h : tables.AgreeOn cfg tables') :
    runBackward cfg site oracle excluded invariants tables =
      runBackward cfg site oracle excluded invariants tables' := by
  have hfixpoint : fixpointEngine cfg site oracle excluded invariants tables =
      fixpointEngine cfg site oracle excluded invariants tables' := by
    simp only [fixpointEngine, RuleEngine.runToFixpoint, RuleEngine.runPasses_congr h]
  rw [runBackward, runBackward, hfixpoint]

/-- **The analysis reads the summaries of the callees.** Tables with the same entries for the
callees of a graph lead to the same outcome for a site. -/
theorem analyzeWithTables_congr (h : tables.AgreeOn cfg tables') :
    analyzeWithTables synthesize cfg oracle site tables =
      analyzeWithTables synthesize cfg oracle site tables' := by
  simp only [analyzeWithTables, runBackward_congr h]

end Congr

/-! ### Graphs that call nothing -/

namespace AbstractCfg

variable {cfg : AbstractCfg} {site : AssertionSite} {oracle : Oracle} {synthesize : Synthesizer}
  {tables : ContextualSummaryTable} {result : AssertionResult}

/-- Basic effects are no calls. -/
theorem Basic.not_callsAt (hbasic : cfg.Basic) {n : CfgNodeId} {callee : String} :
    ¬ cfg.CallsAt n callee := by
  rintro ⟨node, hnode, hcallee⟩
  obtain ⟨e, he, hsome⟩ := List.exists_of_findSome?_eq_some hcallee
  have heffect := hbasic.node n e (by rwa [transferAt_eq hnode])
  cases heffect <;> cases hsome

/-- Any table will do. -/
theorem Basic.agreeOn (hbasic : cfg.Basic) (tables tables' : ContextualSummaryTable) :
    tables.AgreeOn cfg tables' :=
  ⟨fun _ _ h ↦ absurd h hbasic.not_callsAt, fun _ _ h ↦ absurd h hbasic.not_callsAt⟩

/-- With any table, a verified site of a loop-free graph in single-assignment form is safe. -/
theorem Ssa.not_violable_of_verified (hssa : cfg.Ssa) (hbasic : cfg.Basic)
    (hacyclic : cfg.topologicalOrder.isSome) (hsound : oracle.InfeasibleSound)
    (h : analyzeWithTables synthesize cfg oracle site tables = .ok result)
    (hverified : result.judgement = .verified) : ¬ site.Violable .unknownCallees cfg := by
  rintro ⟨cs, s₀, s, hrun, s', hviolating, hnot⟩
  rw [analyzeWithTables_congr (hbasic.agreeOn tables .new), analyzeWithTables,
    if_pos hacyclic] at h
  obtain ⟨engine, hengine, hjudgement, -, -⟩ := runBackward_eq_ok h
  obtain ⟨report, hreport, hinfeasible⟩ := (judgement_eq_ok hjudgement).1 hverified
  have hpath := hssa.path _ _ hrun.edgePath
  obtain ⟨hmerged, hquiet⟩ := hrun.withScalars hbasic hpath (hbasic.node _) hviolating
  have hsite : SsaEffects ((cfg.transferAt site.node).effects ++ []) := by
    rw [List.append_nil]
    exact hpath.of_append _
  have hend := hsite.merge (by simpa using hbasic.node _) hviolating rfl
  rw [State.withScalars_self] at hend
  -- what is left is the cover of the execution with the final scalars
  refine hsound _ report hreport hinfeasible (s₀.withScalars s'.scalars) ?_
  refine holds_combined_of_run hsound hengine hmerged hquiet cfg.readsWithin_true.termsRead
    ⟨hend, hnot⟩ site.obligation.readsWithin_true.terms (by simp)
    (by simp [conjunctLoopInvariants]) (undisturbed_withScalars fun c hc ↦ ?_)
  obtain ⟨-, -, -, hvalid, -⟩ := hrun.split hc
  exact hssa.guard _ hvalid.edge_mem

end AbstractCfg

end MayMust
