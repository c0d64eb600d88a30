import MayMust.Analysis.Backward.Coverage
import MayMust.Analysis.Loops.ExitClosure

/-!
# The preliminary backward states

`compute_preliminary_backward_states` seeds the site and makes one backward pass over the graph
without its back edges. The invariant checker takes what it finds at the target of a loop exit
for the states from which the site can still be violated.

The pass covers every execution to the site that takes no back edge
(`holds_preliminaryBackwardStates_of_run`), hence every execution after its last back edge. An
execution that iterates a later loop before it violates the site can start outside the states of
its first node: `not_holds_preliminaryBackwardStates` leaves one loop and iterates the next.
-/

namespace MayMust

open Library

section Preliminary

variable {cfg : AbstractCfg} {sem : Semantics} {site : AssertionSite}
  {excluded : Finset CfgEdgeId} {states : CfgNodeId → Formula} {K : Var → Prop}
  {cs : List Crossing} {p : Position} {s s' : State}

/-- The states are the state formulas of an engine that has been seeded and then propagated once
over every edge, in a topological order from its end. No summaries and no solver take part. -/
theorem computePreliminaryBackwardStates_eq_ok (tables : ContextualSummaryTable) (oracle : Oracle)
    (h : computePreliminaryBackwardStates cfg site excluded = .ok states) :
    ∃ order engine, cfg.topologicalOrderExcluding excluded = some order ∧
      RuleEngine.Calls cfg tables oracle
        ((order.reverse.flatMap cfg.incomingEdges).map .notmayPre)
        ((RuleEngine.initExcluding cfg excluded).setStateAt site.node
          ((cfg.transferAt site.node).wp (.not site.obligation))) engine ∧
      ∀ n, states n = engine.stateAt n := by
  rw [computePreliminaryBackwardStates] at h
  split at h
  · simp at h
  rename_i order horder
  simp only [bind_eq_ok, liftRule_eq_ok, pure_eq_ok] at h
  obtain ⟨seeded, hseed, engine, hpass, rfl⟩ := h
  obtain rfl := RuleEngine.seedSite_eq_ok hseed
  refine ⟨order, engine, horder, ?_, fun _ ↦ rfl⟩
  rw [List.map_eq_flatMap, RuleEngine.Calls, Path.flatMap_iff]
  exact Path.mono (fun id _ mid mid' hstep ↦ Path.singleton_iff.2 hstep) (foldlM_eq_ok_iff.1 hpass)

/-- The engine the pass starts from covers the seeds. -/
theorem Cover.kept_seeded {K : Cover cfg} {φ : Formula}
    (hexcluded : ∀ p e q, K.crosses p e q → e.id ∉ excluded) (hadmits : K.Admits φ)
    (hseed : ∀ p, K.seed p → p.node = site.node ∧ φ.Holds p.state) :
    K.Kept [] ((RuleEngine.initExcluding cfg excluded).setStateAt site.node φ) where
  admits n := by
    rw [RuleEngine.stateAt_setStateAt]
    split
    · exact hadmits
    · have hinit : (RuleEngine.initExcluding cfg excluded).stateAt n = .fls :=
        RuleEngine.stateAt_init n
      exact hinit ▸ K.hereditary.fls
  seeds p hp := by
    obtain ⟨hnode, hholds⟩ := hseed p hp
    rw [RuleEngine.StateHolds, RuleEngine.stateAt_setStateAt, if_pos hnode]
    exact hholds
  crossed _ _ _ _ hmem := absurd hmem List.not_mem_nil
  free p e q hcross := hexcluded p e q hcross

/-- The pass carries the violations back over an execution that takes no back edge. -/
theorem preliminaryState_of_quietRun
    (h : computePreliminaryBackwardStates cfg site cfg.detectBackEdges.toFinset = .ok states)
    (hK : cfg.TermsRead K) (hobligation : site.obligation.TermReads K)
    (hrun : cfg.Run sem cs p ⟨site.node, s⟩)
    (hback : ∀ c ∈ cs, c.edge.id ∉ cfg.detectBackEdges) (hquiet : ∀ c ∈ cs, c.Quiet cfg K)
    (hsite : Path (TransferEffect.Quiet K) (cfg.transferAt site.node).effects s s')
    (hviolated : ¬ site.obligation.Holds s') : (states p.node).Holds p.state := by
  obtain ⟨order, engine, horder, hcalls, hstates⟩ :=
    computePreliminaryBackwardStates_eq_ok .new (.knowing [] []) h
  have hnot : (Formula.not site.obligation).TermReads K := by
    rw [Formula.termReads_iff, Formula.termLeaves, ← Formula.termReads_iff]
    exact hobligation
  have hseed : ((cfg.transferAt site.node).wp (.not site.obligation)).Holds s :=
    holds_wp_of_quiet hsite (hK.node _) hnot ((Formula.holds_not _ _).2 hviolated)
  -- The cover of the execution: its positions, with the end as the seed.
  let C := Cover.ofRun hrun hquiet hK
  have hexcluded : ∀ p e q, C.crosses p e q → e.id ∉ cfg.detectBackEdges.toFinset := by
    rintro _ _ _ ⟨c, hc, -, rfl, -⟩
    exact mt List.mem_toFinset.1 (hback c hc)
  have hkept : C.Kept [] ((RuleEngine.initExcluding cfg cfg.detectBackEdges.toFinset).setStateAt
      site.node ((cfg.transferAt site.node).wp (.not site.obligation))) := by
    refine Cover.kept_seeded hexcluded (termReads_wp hnot (hK.node _)) ?_
    rintro _ rfl
    exact ⟨rfl, hseed⟩
  have hcovered := hkept.propagate horder hexcluded hcalls
  rw [hstates]
  refine hcovered.stateHolds (Cover.start_ofRun hrun hquiet hK) fun e q hcross ↦ ?_
  -- Every edge is visited, as every node is in the order.
  obtain ⟨-, hnodes, -⟩ := AbstractCfg.topologicalOrderExcluding_sorted horder
  have hedge := C.edge_mem hcross
  exact List.mem_flatMap.2 ⟨e.target, List.mem_reverse.2 ((hnodes _).2 (cfg.target_mem e hedge)),
    AbstractCfg.mem_incomingEdges hedge⟩

/-- **The preliminary states cover the executions that take no back edge.** A state from which such
an execution reaches the site and violates the obligation satisfies the formula of its node,
provided that every step on the way is one that the backward transformer accounts for. -/
theorem holds_preliminaryBackwardStates_of_run
    (h : computePreliminaryBackwardStates cfg site cfg.detectBackEdges.toFinset = .ok states)
    (hK : cfg.TermsRead K) (hobligation : site.obligation.TermReads K)
    (hrun : cfg.Run sem cs p ⟨site.node, s⟩)
    (hback : ∀ c ∈ cs, c.edge.id ∉ cfg.detectBackEdges) (hquiet : ∀ c ∈ cs, c.Quiet cfg K)
    (hsite : Path (TransferEffect.Quiet K) (cfg.transferAt site.node).effects s s')
    (hviolated : ¬ site.obligation.Holds s') : (states p.node).Holds p.state :=
  preliminaryState_of_quietRun h hK hobligation hrun hback hquiet hsite hviolated

end Preliminary

/-! ### Two loops in sequence -/

section Sequence

variable {cfg : AbstractCfg} {site : AssertionSite}

/-- A loop between nodes 0 and 1, and after its exit to node 2 a loop between nodes 3 and 4, whose
body sets `x` to 1. -/
def loopsInSequenceCfg : AbstractCfg where
  nodes := [⟨0, "first", .entry, .identity⟩, ⟨1, "first.body", .normal, .identity⟩,
    ⟨2, "between", .normal, .identity⟩, ⟨3, "second", .normal, .identity⟩,
    ⟨4, "second.body", .normal, ⟨[.assign (.int "x") (.term (.int 1))]⟩⟩,
      ⟨5, "exit", .exit, .identity⟩]
  edges := [⟨0, 0, 1, .tru, []⟩, ⟨1, 1, 0, .tru, []⟩, ⟨2, 0, 2, .tru, []⟩, ⟨3, 2, 3, .tru, []⟩,
    ⟨4, 3, 4, .tru, []⟩, ⟨5, 4, 3, .tru, []⟩, ⟨6, 3, 5, .tru, []⟩]
  entry := 0
  concreteExits := [5]
  exit := some 5
  nextNode := 6
  nextEdge := 7
  nodes_sorted := by simp
  edges_sorted := by simp
  node_lt := by simp
  edge_lt := by simp
  entry_mem := by simp
  source_mem := by simp
  target_mem := by simp

/-- The site at the second header asks `x` to be 0. -/
def secondHeaderSite : AssertionSite := ⟨0, 3, xIsZero, "second"⟩

/-- The formula the pass assigns to a node, if it succeeds. -/
def preliminaryStateAt (cfg : AbstractCfg) (site : AssertionSite) (n : CfgNodeId) :
    Option Formula :=
  match computePreliminaryBackwardStates cfg site cfg.detectBackEdges.toFinset with
  | .ok states => some (states n)
  | .error _ => none

theorem exists_preliminaryStates {n : CfgNodeId} {φ : Formula}
    (h : preliminaryStateAt cfg site n = some φ) :
    ∃ states, computePreliminaryBackwardStates cfg site cfg.detectBackEdges.toFinset = .ok states ∧
      states n = φ := by
  rw [preliminaryStateAt] at h
  split at h
  · rename_i states hstates
    exact ⟨states, hstates, Option.some.inj h⟩
  · cases h

/-- What the checker is to refute at the exit of the first loop. -/
theorem preliminaryStateAt_between :
    preliminaryStateAt loopsInSequenceCfg secondHeaderSite 2 = some (.not xIsZero) := by
  decide

/-- The execution that goes from the exit of the first loop straight to the site. -/
theorem holds_preliminaryBackwardStates_of_run_loopsInSequenceCfg :
    ∃ states, computePreliminaryBackwardStates loopsInSequenceCfg secondHeaderSite
      loopsInSequenceCfg.detectBackEdges.toFinset = .ok states ∧
        (states 2).Holds (State.zero.set (.int "x") (.int 1)) := by
  let s := State.zero.set (.int "x") (.int 1)
  obtain ⟨states, hstates, -⟩ := exists_preliminaryStates preliminaryStateAt_between
  have hrun :
      loopsInSequenceCfg.Run .unknownCallees [⟨⟨3, 2, 3, .tru, []⟩, s, s, s⟩] ⟨2, s⟩ ⟨3, s⟩ :=
    Path.singleton_iff.2 ⟨⟨by decide, rfl, Formula.holds_tru s, rfl⟩, rfl, rfl⟩
  have hviolated : ¬ xIsZero.Holds s := by
    rw [holds_xIsZero_iff, State.lookup_set_self rfl]
    simp
  refine ⟨states, hstates, holds_preliminaryBackwardStates_of_run (K := fun _ ↦ True) hstates
    loopsInSequenceCfg.readsWithin_true.termsRead xIsZero.readsWithin_true.terms hrun
    (fun c hc ↦ ?_) (fun c hc ↦ ?_) rfl hviolated⟩
  · obtain rfl := List.mem_singleton.1 hc
    decide
  · obtain rfl := List.mem_singleton.1 hc
    exact ⟨rfl, rfl⟩

/-- From the exit of the first loop with `x` equal to 0, one iteration of the second loop violates
the site, but the states of the exit ask `x` to differ from 0. -/
theorem not_holds_preliminaryBackwardStates :
    ∃ info ∈ detectLoops loopsInSequenceCfg, ∃ e ∈ loopsInSequenceCfg.edges, e.id ∈ info.exitEdges ∧
      ∃ states, computePreliminaryBackwardStates loopsInSequenceCfg secondHeaderSite
        loopsInSequenceCfg.detectBackEdges.toFinset = .ok states ∧
      ∃ cs s s', loopsInSequenceCfg.Run .unknownCallees cs ⟨e.target, s⟩
        ⟨secondHeaderSite.node, s'⟩ ∧
        secondHeaderSite.ViolatedFrom .unknownCallees loopsInSequenceCfg s' ∧
        ¬ (states e.target).Holds s := by
  let s := State.zero.set (.int "x") (.int 0)
  let s' := s.set (.int "x") (.int 1)
  obtain ⟨states, hstates, heq⟩ := exists_preliminaryStates preliminaryStateAt_between
  refine ⟨loopOf loopsInSequenceCfg ⟨1, 1, 0, .tru, []⟩, by decide, ⟨2, 0, 2, .tru, []⟩, by decide,
    by decide, states, hstates, [⟨⟨3, 2, 3, .tru, []⟩, s, s, s⟩, ⟨⟨4, 3, 4, .tru, []⟩, s, s, s⟩,
      ⟨⟨5, 4, 3, .tru, []⟩, s, s', s'⟩], s, s', ?_, ⟨s', rfl, ?_⟩, ?_⟩
  · refine ⟨_, ⟨⟨by decide, rfl, Formula.holds_tru s, rfl⟩, rfl, rfl⟩, _, ⟨⟨by decide, rfl,
      Formula.holds_tru s, rfl⟩, rfl, rfl⟩, _,
        ⟨⟨by decide, Path.singleton_iff.2 ⟨?_, by decide, ?_⟩,
      Formula.holds_tru s', rfl⟩, rfl, rfl⟩, rfl⟩
    · simp [Term.eval, Var.int]
    · simp [Term.eval, s']
  · show ¬ xIsZero.Holds s'
    rw [holds_xIsZero_iff, State.lookup_set_self rfl]
    simp
  · show ¬ (states 2).Holds s
    rw [heq, Formula.holds_not, not_not, holds_xIsZero_iff, State.lookup_set_self rfl]

end Sequence

end MayMust
