import MayMust.Analysis.Backward.Coverage

/-!
# Applications of the callee-summary rule

The rule blocks the edge into a call node and erases the whole state formula of its source. An
application is harmless (`Harmless`) if no execution over the blocked edge violates the site
afterwards and every erased state that can violate the site in another way is back when the
fixpoint ends.

The rule asks whether the summary's precondition is possible and whether the state formula of the
call node implies its postcondition. It does not ask whether the precondition holds, nor whether
the erased formula also stands for the site itself or for other edges. `Spares` collects what an
execution must satisfy for the questions to suffice: every summary whose postcondition holds when
the call node is entered has its precondition hold there as well, the call changes nothing the
transformer misses, and an edge into a call node that competes with an edge of the execution is
visited before it. On such executions the state formulas are never lost, so the summary, being
true, rules the application out.
-/

namespace MayMust

open Library

/-- The summaries are true of the procedures: no execution from the precondition ends in the
postcondition. -/
def ContextualSummaryTable.TrueOf (tables : ContextualSummaryTable) (sem : Semantics) : Prop :=
  ∀ callee, ∀ entry ∈ tables.notmay callee, ∀ s s', sem.callee callee s s' →
    entry.precondition.Holds s → ¬ entry.postcondition.Holds s'

/-- The node calls the procedure. -/
def AbstractCfg.CallsAt (cfg : AbstractCfg) (n : CfgNodeId) (callee : String) : Prop :=
  ∃ node, cfg.node n = .ok node ∧ calleeOf node = some callee

/-- A violating execution from a position: crossings to the site and a run of the site's node. -/
structure Violation (sem : Semantics) (cfg : AbstractCfg) (site : AssertionSite)
    (cs : List Crossing) (p : Position) (s s' : State) : Prop where
  run : cfg.Run sem cs p ⟨site.node, s⟩
  final : (cfg.transferAt site.node).Run sem s s'
  violated : ¬ site.obligation.Holds s'

/-- One application of the rule in a run of `run_to_fixpoint`: the edge the call blocks, the engine
before the call, and the engine when the fixpoint ends. -/
def SummaryApplication (cfg : AbstractCfg) (site : AssertionSite) (tables : ContextualSummaryTable)
    (oracle : Oracle) (order : List CfgNodeId) (e : AbstractEdge) (mid engine : RuleEngine) :
      Prop :=
  ∃ engine₀ mid' k pre post, Prepared cfg site ∅ [] engine₀ ∧
    RuleEngine.runToFixpoint cfg tables oracle order engine₀ = .ok engine ∧
    (List.replicate (k + 1) (RuleEngine.passCalls cfg order)).flatten =
      pre ++ .notmayPreUsesummary e.id :: post ∧
    RuleEngine.Calls cfg tables oracle pre engine₀ mid ∧
    mid.notmayPreUsesummary cfg tables oracle e.id = .ok mid' ∧
    e.id ∉ mid.blockedEdges ∧ e.id ∈ mid'.blockedEdges ∧
    RuleEngine.Calls cfg tables oracle post mid' engine

/-- What the conditions on an execution are about: the first crossings, the crossing of the
blocked edge if there is one, the crossings from there to the site, and the states before and
after the site's node. -/
abbrev ExecutionCondition :=
  List Crossing → Option Crossing → List Crossing → State → State → Prop

/-- The application is harmless for the executions that meet the condition. -/
structure Harmless (sem : Semantics) (cfg : AbstractCfg) (site : AssertionSite)
    (condition : ExecutionCondition) (e : AbstractEdge) (mid engine : RuleEngine) : Prop where
  /-- No execution over the blocked edge violates the site. -/
  blocked : ∀ cs₀ c cs s₀ s s', c.edge = e →
    cfg.Run sem (cs₀ ++ [c]) ⟨cfg.entry, s₀⟩ ⟨e.target, c.post⟩ →
    condition cs₀ (some c) cs s s' → ¬ Violation sem cfg site cs ⟨e.target, c.post⟩ s s'
  /-- An erased state that can violate the site without the edge is back. -/
  restored : ∀ cs₀ cs s₀ t s s', cfg.Run sem cs₀ ⟨cfg.entry, s₀⟩ ⟨e.source, t⟩ →
    (mid.stateAt e.source).Holds t → cs.head?.map (·.edge) ≠ some e →
    condition cs₀ none cs s s' → Violation sem cfg site cs ⟨e.source, t⟩ s s' →
    (engine.stateAt e.source).Holds t

/-- What an execution has to satisfy for the rule to spare it. -/
structure Spares (cfg : AbstractCfg) (site : AssertionSite) (tables : ContextualSummaryTable)
    (order : List CfgNodeId) (K : Var → Prop) (cs₀ : List Crossing) (blocked : Option Crossing)
    (cs : List Crossing) (s s' : State) : Prop where
  undisturbed : Undisturbed (cs₀ ++ blocked.toList ++ cs)
  quiet : ∀ c ∈ cs, c.Quiet cfg K
  final : Path (TransferEffect.Quiet K) (cfg.transferAt site.node).effects s s'
  /-- Where a summarised call is entered in a summary's postcondition, its precondition holds, and
  the node does nothing but call. -/
  arrival : ∀ c ∈ blocked.toList ++ cs, ∀ callee, cfg.CallsAt c.edge.target callee →
    ∀ entry ∈ tables.notmay callee, entry.postcondition.Holds c.post →
      entry.precondition.Holds c.post ∧
        ∃ effect, (cfg.transferAt c.edge.target).effects = [.call callee effect]
  /-- A competing edge into a summarised call node leads further down the order. -/
  siblings : ∀ c ∈ cs, ∀ e ∈ cfg.edges, e.source = c.edge.source → e.target ≠ c.edge.target →
    ∀ callee, cfg.CallsAt e.target callee → tables.notmay callee ≠ [] →
      ∃ before after, order = before ++ e.target :: after ∧ c.edge.target ∈ before
  /-- No edge leads from the site to a summarised call node. -/
  site_edges : ∀ e ∈ cfg.edges, e.source = site.node →
    ∀ callee, cfg.CallsAt e.target callee → tables.notmay callee = []

section CallSummaries

variable {sem : Semantics} {cfg : AbstractCfg} {site : AssertionSite}
  {tables : ContextualSummaryTable} {oracle : Oracle} {order : List CfgNodeId} {K : Var → Prop}
  {cs₀ cs : List Crossing} {p q : Position} {s s' : State} {e : AbstractEdge}
  {mid engine engine₀ : RuleEngine}

/-! ### Calls that do nothing -/

/-- A quiet run of a block that only calls leaves the state unchanged and is one of the callee. -/
theorem callee_of_quiet {callee : String} {effect : CallMemoryEffect}
    {effects : List TransferEffect} (heffects : effects = [.call callee effect])
    (hrun : Effects.Run sem effects s s') (hquiet : Path (TransferEffect.Quiet K) effects s s') :
    sem.callee callee s s := by
  subst heffects
  have hstep := Path.singleton_iff.1 hrun
  have hsame : s' = s := (Path.singleton_iff.1 hquiet).1
  exact hsame ▸ hstep.1

/-- At a position of an execution that `Spares` accepts, a summary whose postcondition holds where
the call node is entered is not true. -/
theorem not_holds_postcondition {callee : String} {effect : CallMemoryEffect}
    {entry : NotMaySummary} (htables : tables.TrueOf sem) (hentry : entry ∈ tables.notmay callee)
    (hviolation : Violation sem cfg site cs p s s') (hquiet : ∀ c ∈ cs, c.Quiet cfg K)
    (hfinal : Path (TransferEffect.Quiet K) (cfg.transferAt site.node).effects s s')
    (heffects : (cfg.transferAt p.node).effects = [.call callee effect])
    (hpre : entry.precondition.Holds p.state) : ¬ entry.postcondition.Holds p.state := by
  refine htables callee entry hentry p.state p.state ?_ hpre
  cases cs with
  | nil =>
    obtain rfl : p = ⟨site.node, s⟩ := hviolation.run
    exact callee_of_quiet heffects hviolation.final hfinal
  | cons c cs =>
    obtain ⟨_, ⟨hvalid, rfl, -⟩, -⟩ := hviolation.run
    exact callee_of_quiet heffects hvalid.transfer (hquiet c List.mem_cons_self).transfer

/-! ### Visiting order -/

/-- An edge whose target stands earlier in the order is visited later. -/
theorem notMem_of_target_before (hnodup : order.Nodup) {e e' : AbstractEdge} (he : e ∈ cfg.edges)
    (he' : e' ∈ cfg.edges) {pre post : List CfgEdgeId}
    (hsplit : order.reverse.flatMap cfg.incomingEdges = pre ++ e.id :: post)
    {before after : List CfgNodeId} (horder : order = before ++ e.target :: after)
    (hbefore : e'.target ∈ before) : e'.id ∉ pre ++ [e.id] := by
  obtain ⟨l₁, b, l₂, as, bs, hrev, hb, rfl, -⟩ := flatMap_eq_append_cons hsplit
  obtain rfl : e.target = b := AbstractCfg.target_eq_of_mem_incomingEdges he (by simp [hb])
  have horder' : order = l₂.reverse ++ e.target :: l₁.reverse := by
    rw [← List.reverse_reverse order, hrev]; simp
  have hne : e'.target ≠ e.target := by
    intro heq
    rw [horder, List.nodup_append] at hnodup
    exact hnodup.2.2 _ hbefore e.target List.mem_cons_self heq
  intro hmem
  -- The edges visited so far lead to `e.target` or to nodes after it.
  have hlater : e'.target ∈ l₁ := by
    rw [List.append_assoc, List.mem_append, List.mem_append, List.mem_singleton] at hmem
    rcases hmem with hmem | hmem | hmem
    · obtain ⟨n, hn, hin⟩ := List.mem_flatMap.1 hmem
      rwa [AbstractCfg.target_eq_of_mem_incomingEdges he' hin]
    · exact absurd (AbstractCfg.target_eq_of_mem_incomingEdges he' (by simp [hb, hmem])) hne
    · exact absurd (congrArg AbstractEdge.target (AbstractCfg.edge_id_inj he' he hmem)) hne
  have hbefore' : before = l₂.reverse := by
    have heq : before ++ e.target :: after = l₂.reverse ++ e.target :: l₁.reverse :=
      horder.symm.trans horder'
    rw [horder, List.nodup_append, List.nodup_cons] at hnodup
    have hnotMem : e.target ∉ before := fun h ↦ hnodup.2.2 _ h e.target List.mem_cons_self rfl
    exact ((List.append_cons_inj_of_notMem hnotMem hnodup.2.1.1).1 heq).1
  rw [horder', List.nodup_append] at hnodup
  exact hnodup.2.2 _ (hbefore' ▸ hbefore) e'.target
    (List.mem_cons_of_mem _ (List.mem_reverse.2 hlater)) rfl

/-! ### No application on a spared execution -/

/-- At an engine that covers a spared execution, the rule does not apply to an edge into a call
node that the execution enters. -/
theorem not_prunedBySummary (hsound : oracle.InfeasibleSound) (htables : tables.TrueOf sem)
    (hviolation : Violation sem cfg site cs p s s') (hquiet : ∀ c ∈ cs, c.Quiet cfg K)
    (hfinal : Path (TransferEffect.Quiet K) (cfg.transferAt site.node).effects s s')
    (hp : p.node = e.target)
    (harrival : ∀ callee, cfg.CallsAt p.node callee → ∀ entry ∈ tables.notmay callee,
      entry.postcondition.Holds p.state → entry.precondition.Holds p.state ∧
        ∃ effect, (cfg.transferAt p.node).effects = [.call callee effect])
    (hstate : mid.StateHolds p) {callee : String} {entry : NotMaySummary}
    (hpruned : RuleEngine.PrunedBySummary cfg tables oracle mid e callee entry) : False := by
  have hpost : entry.postcondition.Holds p.state := by
    refine Oracle.holds_of_implies hsound hpruned.valid ?_
    rw [← hp]
    exact hstate
  have hcalls : cfg.CallsAt p.node callee := hp ▸ hpruned.callee_eq
  obtain ⟨hpre, effect, heffects⟩ := harrival callee hcalls entry hpruned.entry_mem hpost
  exact not_holds_postcondition htables hpruned.entry_mem hviolation hquiet hfinal heffects hpre
    hpost

/-- The rest of a violating execution is one. -/
theorem Violation.rest (h : Violation sem cfg site cs p s s') {c : Crossing} (hc : c ∈ cs) :
    ∃ cs', cs' ⊆ cs ∧ Violation sem cfg site cs' ⟨c.edge.target, c.post⟩ s s' := by
  obtain ⟨cs₁, cs₂, rfl, -, -, hlast⟩ := h.run.split hc
  exact ⟨cs₂, by simp, hlast, h.final, h.violated⟩

/-- The rule spares the cover of the last part of a spared execution. -/
theorem Spares.spared {blocked : Option Crossing} (hsound : oracle.InfeasibleSound)
    (htables : tables.TrueOf sem) (horder : cfg.topologicalOrderExcluding ∅ = some order)
    (hspares : Spares cfg site tables order K cs₀ blocked cs s s')
    (hviolation : Violation sem cfg site cs p s s') (hK : cfg.TermsRead K) :
    (Cover.ofRun hviolation.run hspares.quiet hK).Spared tables oracle order := by
  intro e he pre post hsplit mid callee entry hkept hreached hpruned q hq
  obtain ⟨hnodup, -, -⟩ := AbstractCfg.topologicalOrderExcluding_sorted horder
  have hentries : tables.notmay callee ≠ [] := List.ne_nil_of_mem hpruned.entry_mem
  refine ⟨fun hseed ↦ ?_, ?_⟩
  · obtain rfl : q = ⟨site.node, s⟩ := hseed
    exact hentries (hspares.site_edges e he hq.symm callee hpruned.callee_eq)
  rintro e' r ⟨c, hc, rfl, rfl, rfl⟩ hvisited
  have hsource : e.source = c.edge.source := hq.symm
  obtain ⟨-, -, -, hvalid, -⟩ := hviolation.run.split hc
  by_cases htarget : e.target = c.edge.target
  · -- The execution enters the call node, so the call node's state formula is not lost.
    obtain ⟨cs', hsub, hrest⟩ := hviolation.rest hc
    have hcovers : (Cover.ofRun hviolation.run hspares.quiet hK).Covers
        ⟨c.edge.target, c.post⟩ :=
      (Cover.ofRun hviolation.run hspares.quiet hK).next (p := ⟨c.edge.source, c.pre⟩)
        (e := c.edge) ⟨c, hc, rfl, rfl, rfl⟩
    have hstate := hkept.stateHolds hcovers fun e'' r hcross ↦ List.mem_append_left _ <|
      Cover.visited_target horder (by simp) he hsplit htarget.symm e'' r hcross
    exact not_prunedBySummary hsound htables hrest (fun c' hc' ↦ hspares.quiet c' (hsub hc'))
      hspares.final htarget.symm (hspares.arrival c (List.mem_append_right _ hc)) hstate hpruned
  · obtain ⟨before, after, hbefore, hmem⟩ := hspares.siblings c hc e he hsource htarget callee
      hpruned.callee_eq hentries
    exact notMem_of_target_before hnodup he hvalid.edge_mem hsplit hbefore hmem hvisited

/-! ### Where an application stands -/

/-- Before an application, complete passes have run, then a forward loop, then the backward calls
for the edges visited earlier, then the propagation over the edge itself. -/
theorem split_passes {id : CfgEdgeId} {k : ℕ} {pre post : List RuleCall}
    (h : (List.replicate k (RuleEngine.passCalls cfg order)).flatten =
      pre ++ .notmayPreUsesummary id :: post) :
    ∃ i visited later, order.reverse.flatMap cfg.incomingEdges = visited ++ id :: later ∧
      pre = (List.replicate i (RuleEngine.passCalls cfg order)).flatten ++
        (order.flatMap (RuleEngine.forwardCallsAt cfg) ++
          (visited.flatMap RuleEngine.backwardCallsOn ++ [.notmayPre id])) := by
  obtain ⟨i, pre', post', rfl, hpass⟩ := flatten_replicate_eq_append_cons h
  have hforward : RuleCall.notmayPreUsesummary id ∉
      order.flatMap (RuleEngine.forwardCallsAt cfg) := by
    simp [RuleEngine.forwardCallsAt]
  obtain ⟨pre'', rfl, hbackward⟩ := append_eq_append_cons_of_notMem hforward hpass
  unfold RuleEngine.backwardCallsAt at hbackward
  rw [← List.flatMap_assoc] at hbackward
  obtain ⟨visited, id', later, as, bs, hedges, hon, rfl, -⟩ := flatMap_eq_append_cons hbackward
  -- Only the second of the three calls for an edge is an application.
  obtain ⟨rfl, rfl⟩ : id' = id ∧ as = [.notmayPre id] := by
    clear hbackward hpass hedges h
    rw [RuleEngine.backwardCallsOn] at hon
    rcases as with _ | ⟨a, _ | ⟨a', _ | ⟨a'', as⟩⟩⟩
    · simp at hon
    · simp only [List.cons_append, List.nil_append, List.cons.injEq,
        RuleCall.notmayPreUsesummary.injEq] at hon
      obtain ⟨rfl, rfl, -⟩ := hon
      exact ⟨rfl, rfl⟩
    · simp at hon
    · simp at hon
  exact ⟨i, visited, later, hedges, rfl⟩

/-- At an application the cover is kept as far as the pass has got. -/
theorem kept_at_application {K : Cover cfg} (hsound : oracle.InfeasibleSound)
    (horder : cfg.topologicalOrderExcluding ∅ = some order) (hspared : K.Spared tables oracle order)
    (hstart : K.Kept [] engine₀)
    (hreach : ∀ mid, RuleEngine.Calls cfg tables oracle
      (order.flatMap (RuleEngine.forwardCallsAt cfg)) engine₀ mid → K.Reached mid)
    {id : CfgEdgeId} {k : ℕ} {pre post : List RuleCall}
    (hsplit : (List.replicate k (RuleEngine.passCalls cfg order)).flatten =
      pre ++ .notmayPreUsesummary id :: post)
    (hcalls : RuleEngine.Calls cfg tables oracle pre engine₀ mid) :
    ∃ visited later, order.reverse.flatMap cfg.incomingEdges = visited ++ id :: later ∧
      K.Kept (visited ++ [id]) mid := by
  have hexcluded : ∀ p e q, K.crosses p e q → e.id ∉ (∅ : Finset CfgEdgeId) := by simp
  obtain ⟨i, visited, later, hedges, rfl⟩ := split_passes hsplit
  obtain ⟨engine₁, hpasses, hcalls⟩ := Path.append_iff.1 hcalls
  obtain ⟨engine₂, hforward, hcalls⟩ := Path.append_iff.1 hcalls
  obtain ⟨engine₃, hbackward, hlast⟩ := Path.append_iff.1 hcalls
  have hboth : K.Kept [] engine₁ ∧ K.Reached engine₂ := by
    rcases i with _ | i
    · obtain rfl : engine₀ = engine₁ := by simpa using hpasses
      exact ⟨hstart, hreach engine₂ hforward⟩
    · obtain ⟨hkept, hreached⟩ := hstart.passes hsound horder hexcluded hspared hreach hpasses
      exact ⟨hkept.mono (List.nil_subset _), hreached.mono (RuleEngine.Calls.grows hforward)⟩
  obtain ⟨hkept₁, hreached₂⟩ := hboth
  obtain ⟨hblocked, hstate⟩ := RuleEngine.forwardPass_frame hforward
  obtain ⟨hkept₃, -⟩ := (hkept₁.congr hstate hblocked).backwardCalls hsound horder hexcluded hspared
    hreached₂ hedges hbackward
  exact ⟨visited, later, hedges, hkept₃.notmayPre (Path.singleton_iff.1 hlast)
    (Cover.visited horder hexcluded hedges)⟩

/-! ### The result -/

/-- **Applications of the callee-summary rule are harmless on spared executions.** With true
summaries and a sound solver, no spared execution over an edge that the rule blocks violates the
site, and every erased state from which a spared execution violates the site without the edge
satisfies the state formula again when the fixpoint ends. -/
theorem harmless_of_spares (hsound : oracle.InfeasibleSound) (htables : tables.TrueOf sem)
    (horder : cfg.topologicalOrderExcluding ∅ = some order) (hK : cfg.TermsRead K)
    (hobligation : site.obligation.TermReads K) (he : e ∈ cfg.edges)
    (happlication : SummaryApplication cfg site tables oracle order e mid engine) :
    Harmless sem cfg site (Spares cfg site tables order K) e mid engine := by
  obtain ⟨engine₀, mid', k, pre, post, hprepared, -, hsplit, hpre, hcall, hfree, hblocked, hpost⟩ :=
    happlication
  have hnot : (Formula.not site.obligation).TermReads K :=
    ((hereditary_termReads K).not_iff _).2 hobligation
  -- The cover of the last part of an execution, at the start and after the first forward loop.
  have hcover {cs₀ cs : List Crossing} {blocked : Option Crossing} {p : Position} {s₀ s s' : State}
      (hfirst : cfg.Run sem (cs₀ ++ blocked.toList) ⟨cfg.entry, s₀⟩ p)
      (hspares : Spares cfg site tables order K cs₀ blocked cs s s')
      (hviolation : Violation sem cfg site cs p s s') :
      (Cover.ofRun hviolation.run hspares.quiet hK).Kept [] engine₀ ∧
        ∀ mid, RuleEngine.Calls cfg tables oracle
          (order.flatMap (RuleEngine.forwardCallsAt cfg)) engine₀ mid →
            (Cover.ofRun hviolation.run hspares.quiet hK).Reached mid := by
    have hseed := holds_wp_of_quiet hspares.final (hK.node _) hnot
      ((Formula.holds_not _ _).2 hviolation.violated)
    refine ⟨Cover.kept_of_prepared hprepared (by simp) (termReads_wp hnot (hK.node _)) ?_, ?_⟩
    · rintro _ rfl
      exact ⟨rfl, hseed⟩
    · exact fun mid hforward ↦ Cover.reached_ofRun hfirst (by simp)
        (by simp [conjunctLoopInvariants]) hspares.undisturbed horder hprepared hforward
  constructor
  · rintro cs₀ c cs s₀ s s' rfl hfirst hspares hviolation
    obtain ⟨hstart, hreach⟩ := hcover hfirst hspares hviolation
    obtain ⟨visited, later, hedges, hkept⟩ := kept_at_application hsound horder
      (hspares.spared hsound htables horder hviolation hK) hstart hreach hsplit hpre
    have hstate := hkept.stateHolds (Cover.start_ofRun hviolation.run hspares.quiet hK)
      fun e' r hcross ↦ List.mem_append_left _ <|
        Cover.visited_target horder (by simp) he hedges rfl e' r hcross
    rcases RuleEngine.notmayPreUsesummary_eq_ok hcall with
      rfl | ⟨e, he', hid, ⟨callee, entry, hpruned⟩, -⟩
    · exact hfree hblocked
    · obtain rfl := AbstractCfg.edge_id_inj he' he hid
      exact not_prunedBySummary hsound htables hviolation hspares.quiet hspares.final rfl
        (hspares.arrival c (by simp)) hstate hpruned
  · intro cs₀ cs s₀ t s s' hfirst herased hother hspares hviolation
    have hfirst' : cfg.Run sem (cs₀ ++ (none : Option Crossing).toList) ⟨cfg.entry, s₀⟩
        ⟨e.source, t⟩ := by simpa using hfirst
    obtain ⟨hstart, hreach⟩ := hcover hfirst' hspares hviolation
    have hall : RuleEngine.Calls cfg tables oracle
        (List.replicate (k + 1) (RuleEngine.passCalls cfg order)).flatten engine₀ engine :=
      hsplit ▸ Path.append hpre ⟨mid', hcall, hpost⟩
    obtain ⟨hkept, -⟩ := hstart.passes hsound horder (by simp)
      (hspares.spared hsound htables horder hviolation hK) hreach hall
    refine hkept.stateHolds (Cover.start_ofRun hviolation.run hspares.quiet hK) fun e' r hcross ↦ ?_
    have hmem := (Cover.ofRun hviolation.run hspares.quiet hK).edge_mem hcross
    obtain ⟨-, hnodes, -⟩ := AbstractCfg.topologicalOrderExcluding_sorted horder
    exact List.mem_flatMap.2 ⟨e'.target,
      List.mem_reverse.2 ((hnodes _).2 (cfg.target_mem e' hmem)),
        AbstractCfg.mem_incomingEdges hmem⟩

end CallSummaries

/-! ### A block that calls -/

/-- The entry leads to a block that calls `f`. -/
def callCfg : AbstractCfg where
  nodes := [⟨0, "entry", .entry, .identity⟩, ⟨1, "call", .exit, ⟨[.call "f" .preservesMemory]⟩⟩]
  edges := [⟨0, 0, 1, .tru, []⟩]
  entry := 0
  concreteExits := [1]
  exit := some 1
  nextNode := 2
  nextEdge := 1
  nodes_sorted := by simp
  edges_sorted := AbstractCfg.edges_sorted_single
  node_lt := by decide
  edge_lt := AbstractCfg.edge_lt_single
  entry_mem := by simp
  source_mem := by simp
  target_mem := by simp

/-- A table with one summary of `f`. -/
def ContextualSummaryTable.single (entry : NotMaySummary) : ContextualSummaryTable :=
  { ContextualSummaryTable.new with notmay := fun callee ↦ if callee = "f" then [entry] else [] }

theorem ContextualSummaryTable.trueOf_single {entry : NotMaySummary} {sem : Semantics}
    (h : ∀ s s', sem.callee "f" s s' → ¬ entry.postcondition.Holds s') :
    (ContextualSummaryTable.single entry).TrueOf sem := by
  intro callee entry' hentry s s' hcallee _
  rw [single] at hentry
  dsimp only at hentry
  split at hentry
  · rename_i hf
    rw [List.mem_singleton.1 hentry]
    exact h s s' (hf ▸ hcallee)
  · exact absurd hentry List.not_mem_nil

/-- What one pass over `callCfg` does when the summary rule applies and a second pass confirms
the fixpoint: the numbers of blocked edges around the application and after each pass, and the
state formulas of the entry before the application and at the end. -/
def callCfgTrace (site : AssertionSite) (tables : ContextualSummaryTable) (oracle : Oracle) :
    Except RuleError (List ℕ × Formula × Formula) := do
  let start := (RuleEngine.initExcluding callCfg ∅).setStateAt site.node
    ((callCfg.transferAt site.node).wp (.not site.obligation))
  let mid ← [.forwardMayPost 0, .forwardMayUsesummary 0, .notmayPre 0].foldlM
    (RuleEngine.apply callCfg tables oracle) start
  let mid' ← mid.notmayPreUsesummary callCfg tables oracle 0
  let first ← [.notmayPrePruned 0].foldlM (RuleEngine.apply callCfg tables oracle) mid'
  let second ← RuleEngine.runPass callCfg tables oracle [0, 1] first
  return ([mid.blockedCount, mid'.blockedCount, first.blockedCount, second.blockedCount],
    mid.stateAt 0, second.stateAt 0)

/-- A trace in which the first application blocks the edge is an application. -/
theorem summaryApplication_callCfg {site : AssertionSite} {tables : ContextualSummaryTable}
    {oracle : Oracle} {erased restored : Formula}
    (h : callCfgTrace site tables oracle = .ok ([0, 1, 1, 1], erased, restored)) :
    ∃ mid engine, SummaryApplication callCfg site tables oracle [0, 1]
      ⟨0, 0, 1, .tru, []⟩ mid engine ∧
      mid.stateAt 0 = erased ∧ engine.stateAt 0 = restored := by
  rw [callCfgTrace] at h
  simp only [bind_eq_ok, pure_eq_ok, Prod.mk.injEq, List.cons.injEq, and_true] at h
  obtain ⟨mid, hmid, mid', happlied, first, hfirst, second, hsecond, hcounts, rfl, rfl⟩ := h
  obtain ⟨h₀, h₁, h₂, h₃⟩ := hcounts
  rw [foldlM_eq_ok_iff] at hmid hfirst
  have hpass : RuleEngine.passCalls callCfg [0, 1] =
      [.forwardMayPost 0, .forwardMayUsesummary 0, .notmayPre 0] ++
        .notmayPreUsesummary 0 :: [.notmayPrePruned 0] := by decide
  have happlied' : RuleEngine.Calls callCfg tables oracle
      (.notmayPreUsesummary 0 :: [.notmayPrePruned 0]) mid first := ⟨mid', happlied, hfirst⟩
  have hcalls :
      RuleEngine.Calls callCfg tables oracle (RuleEngine.passCalls callCfg [0, 1]) _ first :=
    hpass ▸ Path.append hmid happlied'
  have hfree : mid.blockedEdges = ∅ := Finset.card_eq_zero.1 h₀
  refine ⟨mid, second,
    ⟨_, mid', 1, _, .notmayPrePruned 0 :: RuleEngine.passCalls callCfg [0, 1], ?_,
    RuleEngine.runToFixpoint_of_second_pass hcalls (RuleEngine.runPass_eq_ok.1 hsecond)
      (by rw [h₂]; exact Nat.zero_ne_one) (h₂.trans h₃.symm),
    ?_, hmid, happlied, by simp [hfree], ?_,
    Path.append hfirst (RuleEngine.runPass_eq_ok.1 hsecond)⟩, rfl, rfl⟩
  · exact ⟨rfl, fun n ↦ Or.inl (by rw [RuleEngine.reachAt_setStateAt]; rfl), fun s _ ↦ by
      rw [RuleEngine.reachAt_setStateAt]
      exact (congrArg (Formula.Holds s) RuleEngine.reachAt_init_entry).mpr (Formula.holds_tru s),
      fun n ↦ by
        rw [RuleEngine.stateAt_setStateAt]
        split
        · rfl
        · exact RuleEngine.stateAt_init n⟩
  · decide
  · rcases RuleEngine.notmayPreUsesummary_eq_ok happlied with rfl | ⟨e, -, hid, -, rfl⟩
    · rw [h₀] at h₁
      exact absurd h₁ Nat.zero_ne_one
    · rw [RuleEngine.blockedEdges_pruned, ← hid]
      exact Finset.mem_insert_self _ _

/-- The general statement where `f` never returns with `x ≠ 0` and the call is checked for that. -/
theorem harmless_of_spares_callCfg :
    let φ : Formula := .eq (.var (.int "x")) (.int 0)
    let site : AssertionSite := ⟨0, 1, φ, ""⟩
    ∃ mid engine, Harmless ⟨fun _ _ s' ↦ φ.Holds s', False⟩ callCfg site
      (Spares callCfg site (.single ⟨.tru, .not φ⟩) [0, 1] fun _ ↦ True) ⟨0, 0, 1, .tru, []⟩
        mid engine := by
  intro φ site
  have htrace : callCfgTrace site (.single ⟨.tru, .not φ⟩)
      (.knowing [.and [.not φ, .not (.not φ)]] []) =
        .ok ([0, 1, 1, 1], .not φ, .fls) := by decide
  obtain ⟨mid, engine, happlication, -, -⟩ := summaryApplication_callCfg htrace
  refine ⟨mid, engine, harmless_of_spares (Oracle.infeasibleSound_knowing ?_)
    (ContextualSummaryTable.trueOf_single ?_) (by decide)
    ⟨by simp, by simp, fun _ _ _ _ ↦ trivial⟩ (fun _ _ ↦ trivial) (by decide) happlication⟩
  · intro ψ hψ s
    obtain rfl := List.mem_singleton.1 hψ
    simp
  · intro s s' hs
    simpa using hs

/-- The site is at the entry, which leads to a call. The state formula of the call node is
`false`, so it implies every postcondition; the rule applies and erases the violating states of
the site. -/
theorem not_harmless :
    ¬ ∀ (sem : Semantics) (cfg : AbstractCfg) (site : AssertionSite)
      (tables : ContextualSummaryTable) (oracle : Oracle) (order : List CfgNodeId)
      (e : AbstractEdge) (mid engine : RuleEngine), oracle.InfeasibleSound → tables.TrueOf sem →
      cfg.topologicalOrderExcluding ∅ = some order → e ∈ cfg.edges →
      SummaryApplication cfg site tables oracle order e mid engine →
      Harmless sem cfg site (fun _ _ _ _ _ ↦ True) e mid engine := by
  intro h
  let φ : Formula := .eq (.var (.int "x")) (.int 0)
  let site : AssertionSite := ⟨0, 0, φ, ""⟩
  have htrace : callCfgTrace site (.single ⟨.tru, .fls⟩) (.knowing [.fls] []) =
      .ok ([0, 1, 1, 1], .not φ, .fls) := by decide
  obtain ⟨mid, engine, happlication, herased, hend⟩ := summaryApplication_callCfg htrace
  have hharmless := h .unknownCallees callCfg site (.single ⟨.tru, .fls⟩) (.knowing [.fls] [])
    [0, 1] ⟨0, 0, 1, .tru, []⟩ mid engine (Oracle.infeasibleSound_knowing (by simp))
    (ContextualSummaryTable.trueOf_single (by simp)) (by decide) (by decide) happlication
  let t : State := State.zero.set (.int "x") (.int 1)
  have ht : ¬ φ.Holds t := by
    simp [φ, t, Formula.Holds, Formula.eval, Term.eval, Value.compare, State.set, State.lookup,
      Var.int]
  have hrestored := hharmless.restored [] [] t t t t rfl
    (by rw [herased]; exact (Formula.holds_not _ _).2 ht) (by simp) trivial ⟨rfl, rfl, ht⟩
  rw [hend] at hrestored
  exact Formula.not_holds_fls t hrestored

end MayMust
