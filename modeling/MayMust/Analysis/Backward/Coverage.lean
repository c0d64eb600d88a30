import MayMust.Analysis.Backward.Reach
import MayMust.Cfg.Faithful

/-!
# What the fixpoint never loses

A cover is a set of positions of executions, closed under the crossings of edges that lead to
the site, such that the backward rule carries any admitted formula from the target of a covered
crossing back to its source. The engine keeps a cover: its backward passes visit an edge after
all edges out of its target, so each pass brings every covered position back into the state
formula of its node (`Cover.Kept`), and no covered crossing is ever blocked.

* `Cover.Kept` is the invariant inside a pass, relative to the edges visited so far.
* `Cover.kept_fixpointEngine` is the result for the whole fixpoint. Pruning is harmless because
  a covered position satisfies both formulas of its node; applications of the summary rule are
  harmless when they spare the cover (`Cover.Spared`).
* `Cover.ofRun` is the cover of one execution whose steps the transformer accounts for.
-/

namespace MayMust

open Library

/-- The position satisfies the state formula of its node. -/
def RuleEngine.StateHolds (engine : RuleEngine) (p : Position) : Prop :=
  (engine.stateAt p.node).Holds p.state

/-- The position satisfies the reach formula of its node. -/
def RuleEngine.ReachHolds (engine : RuleEngine) (p : Position) : Prop :=
  (engine.reachAt p.node).Holds p.state

/-- Positions from which covered crossings lead to seeds, and a class of formulas the backward
rule carries over these crossings. -/
structure Cover (cfg : AbstractCfg) where
  Admits : Formula → Prop
  seed : Position → Prop
  crosses : Position → AbstractEdge → Position → Prop
  hereditary : Hereditary Admits
  admits_pre : ∀ e ∈ cfg.edges, ∀ φ, Admits φ → Admits (RuleEngine.predecessorState cfg e φ)
  edge_mem : ∀ {p e q}, crosses p e q → e ∈ cfg.edges
  source_eq : ∀ {p e q}, crosses p e q → p.node = e.source
  target_eq : ∀ {p e q}, crosses p e q → q.node = e.target
  holds_pre : ∀ {p e q φ}, crosses p e q → Admits φ → φ.Holds q.state →
    (RuleEngine.predecessorState cfg e φ).Holds p.state
  next : ∀ {p e q}, crosses p e q → seed q ∨ ∃ e' r, crosses q e' r

namespace Cover

variable {cfg : AbstractCfg} {site : AssertionSite} {tables : ContextualSummaryTable}
  {oracle : Oracle} {excluded : Finset CfgEdgeId} {invariants : List VerifiedLoopInvariant}
  {order : List CfgNodeId} {engine engine' : RuleEngine} {id : CfgEdgeId}
  {done pre post : List CfgEdgeId} (K : Cover cfg)

/-- A position of the cover. -/
def Covers (p : Position) : Prop := K.seed p ∨ ∃ e q, K.crosses p e q

/-- All positions of the cover satisfy the reach formulas. -/
def Reached (engine : RuleEngine) : Prop := ∀ p, K.Covers p → engine.ReachHolds p

/-- The invariant of a backward pass that has visited the edges `done`: seeds and sources of
visited crossings satisfy the state formulas, and no covered crossing is blocked. -/
structure Kept (done : List CfgEdgeId) (engine : RuleEngine) : Prop where
  admits : ∀ n, K.Admits (engine.stateAt n)
  seeds : ∀ p, K.seed p → engine.StateHolds p
  crossed : ∀ p e q, K.crosses p e q → e.id ∈ done → engine.StateHolds p
  free : ∀ p e q, K.crosses p e q → e.id ∉ engine.blockedEdges

variable {K}

theorem Reached.mono (h : K.Reached engine) (hgrows : RuleEngine.Grows engine engine') :
    K.Reached engine' :=
  fun p hp ↦ hgrows.reach _ _ (h p hp)

theorem Kept.mono {done' : List CfgEdgeId} (h : K.Kept done engine) (hsub : done' ⊆ done) :
    K.Kept done' engine where
  admits := h.admits
  seeds := h.seeds
  crossed p e q hcross hmem := h.crossed p e q hcross (hsub hmem)
  free := h.free

/-- Only the state formulas and the blocked edges matter. -/
theorem Kept.congr (h : K.Kept done engine) (hstate : ∀ n, engine'.stateAt n = engine.stateAt n)
    (hblocked : engine'.blockedEdges = engine.blockedEdges) : K.Kept done engine' where
  admits n := hstate n ▸ h.admits n
  seeds p hp := by rw [RuleEngine.StateHolds, hstate]; exact h.seeds p hp
  crossed p e q hcross hmem := by
    rw [RuleEngine.StateHolds, hstate]; exact h.crossed p e q hcross hmem
  free p e q hcross := hblocked ▸ h.free p e q hcross

/-! ### One rule -/

/-- A covered position satisfies its state formula once the crossings from it have been
visited. -/
theorem Kept.stateHolds (h : K.Kept done engine) {q : Position} (hq : K.Covers q)
    (hvisited : ∀ e' r, K.crosses q e' r → e'.id ∈ done) : engine.StateHolds q := by
  rcases hq with hseed | ⟨e', r, hcross'⟩
  · exact h.seeds q hseed
  · exact h.crossed q e' r hcross' (hvisited e' r hcross')

theorem stateHolds_joinStateAt {n : CfgNodeId} {φ : Formula} {p : Position}
    (h : engine.StateHolds p) : (engine.joinStateAt n φ).StateHolds p := by
  unfold RuleEngine.StateHolds at h ⊢
  rw [RuleEngine.stateAt_joinStateAt]
  split
  · rename_i hn
    exact (Formula.holds_mkOr _ _).2 (Or.inl (hn ▸ h))
  · exact h

/-- Visiting an edge covers the sources of its crossings. -/
theorem Kept.notmayPre (h : K.Kept done engine) (hcall : engine.notmayPre cfg id = .ok engine')
    (hvisited : ∀ p e q, K.crosses p e q → e.id = id → ∀ e' r, K.crosses q e' r → e'.id ∈ done) :
    K.Kept (done ++ [id]) engine' := by
  rcases RuleEngine.notmayPre_eq_ok hcall with ⟨hblocked, rfl⟩ | ⟨-, e, he, hid, rfl⟩
  · refine ⟨h.admits, h.seeds, fun p e q hcross hmem ↦ ?_, h.free⟩
    rcases List.mem_append.1 hmem with hmem | hmem
    · exact h.crossed p e q hcross hmem
    · obtain rfl := List.mem_singleton.1 hmem
      exact absurd hblocked (h.free p e q hcross)
  refine ⟨fun n ↦ ?_, fun p hp ↦ stateHolds_joinStateAt (h.seeds p hp), ?_, h.free⟩
  · rw [RuleEngine.stateAt_joinStateAt]
    split
    · exact K.hereditary.mkOr (h.admits _) (K.admits_pre e he _ (h.admits _))
    · exact h.admits n
  intro p e' q hcross hmem
  rcases List.mem_append.1 hmem with hmem | hmem
  · exact stateHolds_joinStateAt (h.crossed p e' q hcross hmem)
  obtain rfl := AbstractCfg.edge_id_inj (K.edge_mem hcross) he (by simpa [hid] using hmem)
  have hq := h.stateHolds (K.next hcross) (hvisited p e' q hcross hid)
  rw [RuleEngine.StateHolds, RuleEngine.stateAt_joinStateAt, if_pos (K.source_eq hcross),
    Formula.holds_mkOr, ← K.target_eq hcross]
  exact Or.inr (K.holds_pre hcross (h.admits _) hq)

/-- Pruning an edge is harmless if the cover has no use for the state formula of its source. -/
theorem Kept.pruned (h : K.Kept done engine) {e : AbstractEdge} (he : e ∈ cfg.edges)
    (hmem : e.id ∈ done) (hspared : ∀ p, p.node = e.source →
      ¬ K.seed p ∧ ∀ e' q, K.crosses p e' q → e'.id ∉ done) : K.Kept done (engine.pruned e) := by
  have hne {p : Position} (hp : p.node ≠ e.source) (hs : engine.StateHolds p) :
      (engine.pruned e).StateHolds p := by
    rw [RuleEngine.StateHolds, RuleEngine.stateAt_pruned, if_neg hp]
    exact hs
  refine ⟨fun n ↦ ?_, fun p hp ↦ hne (fun hn ↦ (hspared p hn).1 hp) (h.seeds p hp),
    fun p e' q hcross hdone ↦ hne (fun hn ↦ (hspared p hn).2 e' q hcross hdone)
      (h.crossed p e' q hcross hdone), fun p e' q hcross hblocked ↦ ?_⟩
  · rw [RuleEngine.stateAt_pruned]
    split
    · exact K.hereditary.fls
    · exact h.admits n
  · rw [RuleEngine.blockedEdges_pruned, Finset.mem_insert] at hblocked
    refine hblocked.elim (fun hid ↦ ?_) (h.free p e' q hcross)
    obtain rfl := AbstractCfg.edge_id_inj (K.edge_mem hcross) he hid
    exact (hspared p (K.source_eq hcross)).2 e' q hcross hmem

/-- The pruning rule finds no covered position at the node it erases. -/
theorem Kept.notmayPrePruned (hsound : oracle.InfeasibleSound) (hreach : K.Reached engine)
    (h : K.Kept done engine) (hcall : engine.notmayPrePruned cfg oracle id = .ok engine')
    (hmem : id ∈ done)
    (hvisited : ∀ p e q, K.crosses p e q → e.id = id → ∀ e' r, K.crosses q e' r → e'.id ∈ done) :
    K.Kept done engine' := by
  obtain ⟨mid, hpre, e, he, rfl, hend⟩ := RuleEngine.notmayPrePruned_eq_ok hcall
  have hkept : K.Kept done mid := (h.notmayPre hpre hvisited).mono (List.subset_append_left _ _)
  have hreach' := hreach.mono (RuleEngine.notmayPre_grows hpre)
  rcases hend with rfl | ⟨hinfeasible, rfl⟩
  · exact hkept
  refine hkept.pruned he hmem fun p hnode ↦ ?_
  have habsurd (hcovers : K.Covers p) (hstate : mid.StateHolds p) : False := by
    refine Oracle.not_holds_of_feasibility hsound hinfeasible p.state ?_
    exact NodeSummary.holds_combined.2 ⟨hnode ▸ hreach' p hcovers, hnode ▸ hstate⟩
  exact ⟨fun hp ↦ habsurd (Or.inl hp) (hkept.seeds p hp),
    fun e' q hcross hdone ↦ habsurd (Or.inr ⟨e', q, hcross⟩) (hkept.crossed p e' q hcross hdone)⟩

/-! ### Passes -/

variable (K) in
/-- Applications of the summary rule, in the order in which a pass visits the edges, spare the
cover: no seed and no source of a crossing visited so far is at the node they erase. -/
def Spared (tables : ContextualSummaryTable) (oracle : Oracle) (order : List CfgNodeId) : Prop :=
  ∀ e ∈ cfg.edges, ∀ pre post, order.reverse.flatMap cfg.incomingEdges = pre ++ e.id :: post →
    ∀ engine callee entry, K.Kept (pre ++ [e.id]) engine → K.Reached engine →
      RuleEngine.PrunedBySummary cfg tables oracle engine e callee entry →
      ∀ p, p.node = e.source → ¬ K.seed p ∧ ∀ e' q, K.crosses p e' q → e'.id ∉ pre ++ [e.id]

/-- Without summaries there is nothing to spare. -/
theorem spared_of_new : K.Spared .new oracle order := by
  intro e _ pre post _ engine callee entry _ _ hpruned
  exact absurd hpruned.entry_mem (by simp [ContextualSummaryTable.new])

/-- In a backward pass over a topological order, covered crossings from the target of an edge
come before the edge. -/
theorem visited_target (horder : cfg.topologicalOrderExcluding excluded = some order)
    (hexcluded : ∀ p e q, K.crosses p e q → e.id ∉ excluded) {e : AbstractEdge}
    (he : e ∈ cfg.edges) (hsplit : order.reverse.flatMap cfg.incomingEdges = pre ++ e.id :: post)
    {q : Position} (hq : q.node = e.target) : ∀ e' r, K.crosses q e' r → e'.id ∈ pre := by
  intro e' r hcross'
  obtain ⟨hnodup, hnodes, hsorted⟩ := AbstractCfg.topologicalOrderExcluding_sorted horder
  obtain ⟨b, hb, hall⟩ := hsorted.visited AbstractEdge.id hnodup
    (fun e he ↦ ⟨(hnodes _).2 (cfg.target_mem e (List.mem_of_mem_filter he)),
      AbstractCfg.mem_incomingEdges (List.mem_of_mem_filter he)⟩) hsplit
  have htarget : e.target = b := AbstractCfg.target_eq_of_mem_incomingEdges he hb
  refine hall e' (List.mem_filter.2 ⟨K.edge_mem hcross', ?_⟩)
    ((K.source_eq hcross').symm.trans (hq.trans htarget))
  simpa using hexcluded q e' r hcross'

theorem visited (horder : cfg.topologicalOrderExcluding excluded = some order)
    (hexcluded : ∀ p e q, K.crosses p e q → e.id ∉ excluded)
    (hsplit : order.reverse.flatMap cfg.incomingEdges = pre ++ id :: post) :
    ∀ p e q, K.crosses p e q → e.id = id → ∀ e' r, K.crosses q e' r → e'.id ∈ pre := by
  rintro p e q hcross rfl
  exact visited_target horder hexcluded (K.edge_mem hcross) hsplit (K.target_eq hcross)

/-- A backward pass that only propagates covers all positions. -/
theorem Kept.propagate (horder : cfg.topologicalOrderExcluding excluded = some order)
    (hexcluded : ∀ p e q, K.crosses p e q → e.id ∉ excluded) (h : K.Kept [] engine)
    (hcalls : RuleEngine.Calls cfg tables oracle
      ((order.reverse.flatMap cfg.incomingEdges).map .notmayPre) engine engine') :
    K.Kept (order.reverse.flatMap cfg.incomingEdges) engine' := by
  rw [List.map_eq_flatMap, RuleEngine.Calls, Path.flatMap_iff] at hcalls
  refine Path.invariant_of_prefix (P := K.Kept)
    (fun pre id post hsplit engine engine' hcall hkept ↦ ?_)
    hcalls h
  exact hkept.notmayPre (Path.singleton_iff.1 hcall) (visited horder hexcluded hsplit)

/-- The backward calls for the first edges of a pass cover the sources of these edges. -/
theorem Kept.backwardCalls (hsound : oracle.InfeasibleSound)
    (horder : cfg.topologicalOrderExcluding excluded = some order)
    (hexcluded : ∀ p e q, K.crosses p e q → e.id ∉ excluded)
      (hspared : K.Spared tables oracle order)
    (h : K.Kept [] engine) (hreach : K.Reached engine) {rest : List CfgEdgeId}
    (hdone : order.reverse.flatMap cfg.incomingEdges = done ++ rest)
    (hcalls : RuleEngine.Calls cfg tables oracle (done.flatMap RuleEngine.backwardCallsOn)
      engine engine') :
    K.Kept done engine' ∧ K.Reached engine' := by
  rw [RuleEngine.Calls, Path.flatMap_iff] at hcalls
  refine Path.invariant_of_prefix (P := fun done engine ↦ K.Kept done engine ∧ K.Reached engine)
    (fun pre id post hdone' engine engine' hcall ⟨hkept, hreach⟩ ↦ ?_) hcalls ⟨h, hreach⟩
  have hsplit : order.reverse.flatMap cfg.incomingEdges = pre ++ id :: (post ++ rest) := by
    rw [hdone, hdone', List.append_assoc, List.cons_append]
  have hvisited := visited horder hexcluded hsplit
  have hvisited' : ∀ p e q, K.crosses p e q → e.id = id →
      ∀ e' r, K.crosses q e' r → e'.id ∈ pre ++ [id] :=
    fun p e q hcross hid e' r hcross' ↦
      List.mem_append_left _ (hvisited p e q hcross hid e' r hcross')
  refine ⟨?_, hreach.mono (RuleEngine.Calls.grows hcall)⟩
  obtain ⟨engine₁, hpre, engine₂, hsummary, hpruned⟩ := hcall
  have hkept₁ : K.Kept (pre ++ [id]) engine₁ := hkept.notmayPre hpre hvisited
  have hreach₁ := hreach.mono (RuleEngine.apply_grows hpre)
  have hreach₂ := hreach₁.mono (RuleEngine.apply_grows hsummary)
  have hkept₂ : K.Kept (pre ++ [id]) engine₂ := by
    rcases RuleEngine.notmayPreUsesummary_eq_ok hsummary with
      rfl | ⟨e, he, rfl, ⟨callee, entry, hentry⟩, rfl⟩
    · exact hkept₁
    · exact hkept₁.pruned he (by simp)
        (hspared e he pre _ hsplit engine₁ callee entry hkept₁ hreach₁ hentry)
  exact hkept₂.notmayPrePruned hsound hreach₂ (Path.singleton_iff.1 hpruned) (by simp) hvisited'

/-- The backward loop of a pass covers all positions. -/
theorem Kept.backwardPass (hsound : oracle.InfeasibleSound)
    (horder : cfg.topologicalOrderExcluding excluded = some order)
    (hexcluded : ∀ p e q, K.crosses p e q → e.id ∉ excluded)
      (hspared : K.Spared tables oracle order)
    (h : K.Kept [] engine) (hreach : K.Reached engine)
    (hcalls : RuleEngine.Calls cfg tables oracle
      (order.reverse.flatMap (RuleEngine.backwardCallsAt cfg)) engine engine') :
    K.Kept (order.reverse.flatMap cfg.incomingEdges) engine' := by
  unfold RuleEngine.backwardCallsAt at hcalls
  rw [← List.flatMap_assoc] at hcalls
  exact (h.backwardCalls hsound horder hexcluded hspared hreach (List.append_nil _).symm hcalls).1

/-- Complete passes keep the cover, from the first one on that leaves it reached. -/
theorem Kept.passes (hsound : oracle.InfeasibleSound)
    (horder : cfg.topologicalOrderExcluding excluded = some order)
    (hexcluded : ∀ p e q, K.crosses p e q → e.id ∉ excluded)
      (hspared : K.Spared tables oracle order)
    (h : K.Kept [] engine)
    (hreach : ∀ mid, RuleEngine.Calls cfg tables oracle
      (order.flatMap (RuleEngine.forwardCallsAt cfg)) engine mid → K.Reached mid) {k : ℕ}
    (hcalls : RuleEngine.Calls cfg tables oracle
      (List.replicate (k + 1) (RuleEngine.passCalls cfg order)).flatten engine engine') :
    K.Kept (order.reverse.flatMap cfg.incomingEdges) engine' ∧ K.Reached engine' := by
  induction k generalizing engine with
  | zero =>
    rw [Nat.zero_add, List.replicate_one, List.flatten_singleton, RuleEngine.passCalls] at hcalls
    obtain ⟨mid, hforward, hbackward⟩ := Path.append_iff.1 hcalls
    obtain ⟨hblocked, hstate⟩ := RuleEngine.forwardPass_frame hforward
    refine ⟨(h.congr hstate hblocked).backwardPass hsound horder hexcluded hspared
      (hreach mid hforward) hbackward,
        (hreach mid hforward).mono (RuleEngine.Calls.grows hbackward)⟩
  | succ k ih =>
    rw [List.replicate_succ, List.flatten_cons, RuleEngine.passCalls, List.append_assoc] at hcalls
    obtain ⟨mid, hforward, hrest⟩ := Path.append_iff.1 hcalls
    obtain ⟨mid', hbackward, hrest⟩ := Path.append_iff.1 hrest
    obtain ⟨hblocked, hstate⟩ := RuleEngine.forwardPass_frame hforward
    have hreach' := hreach mid hforward
    refine ih (((h.congr hstate hblocked).backwardPass hsound horder hexcluded hspared hreach'
      hbackward).mono (List.nil_subset _)) (fun mid'' hforward' ↦ ?_) hrest
    exact (hreach'.mono (RuleEngine.Calls.grows hbackward)).mono (RuleEngine.Calls.grows hforward')

/-- The engine the fixpoint starts from covers the seeds. -/
theorem kept_of_prepared (hprepared : Prepared cfg site excluded invariants engine)
    (hexcluded : ∀ p e q, K.crosses p e q → e.id ∉ excluded)
    (hadmits : K.Admits ((cfg.transferAt site.node).wp (.not site.obligation)))
    (hseed : ∀ p, K.seed p → p.node = site.node ∧
      ((cfg.transferAt site.node).wp (.not site.obligation)).Holds p.state) :
    K.Kept [] engine where
  admits n := by
    rw [hprepared.state_eq]
    split
    · exact hadmits
    · exact K.hereditary.fls
  seeds p hp := by
    obtain ⟨hnode, hholds⟩ := hseed p hp
    rw [RuleEngine.StateHolds, hprepared.state_eq, if_pos hnode]
    exact hholds
  crossed _ _ _ _ hmem := absurd hmem List.not_mem_nil
  free p e q hcross := hprepared.blocked_eq ▸ hexcluded p e q hcross

/-- **The fixpoint keeps a cover.** When `run_to_fixpoint` ends, every covered position satisfies
the state formula and the reach formula of its node, and no covered crossing has been blocked. -/
theorem kept_fixpointEngine (hsound : oracle.InfeasibleSound)
    (h : fixpointEngine cfg site oracle excluded invariants tables = .ok engine)
    (hexcluded : ∀ p e q, K.crosses p e q → e.id ∉ excluded)
    (hadmits : K.Admits ((cfg.transferAt site.node).wp (.not site.obligation)))
    (hseed : ∀ p, K.seed p → p.node = site.node ∧
      ((cfg.transferAt site.node).wp (.not site.obligation)).Holds p.state)
    (hreach : ∀ order engine₀ mid, cfg.topologicalOrderExcluding excluded = some order →
      Prepared cfg site excluded invariants engine₀ → RuleEngine.Calls cfg tables oracle
        (order.flatMap (RuleEngine.forwardCallsAt cfg)) engine₀ mid → K.Reached mid)
    (hspared : ∀ order, cfg.topologicalOrderExcluding excluded = some order →
      K.Spared tables oracle order) :
    (∀ p, K.Covers p → engine.StateHolds p ∧ engine.ReachHolds p) ∧
      ∀ p e q, K.crosses p e q → e.id ∉ engine.blockedEdges := by
  obtain ⟨order, engine₀, k, horder, hprepared, hcalls⟩ := fixpointEngine_eq_ok h
  obtain ⟨hkept, hreached⟩ := (kept_of_prepared hprepared hexcluded hadmits hseed).passes hsound
    horder hexcluded (hspared order horder)
    (fun mid hforward ↦ hreach order engine₀ mid horder hprepared hforward) hcalls
  refine ⟨fun p hp ↦ ⟨?_, hreached p hp⟩, hkept.free⟩
  rcases hp with hp | ⟨e, q, hcross⟩
  · exact hkept.seeds p hp
  -- Every edge is visited, as every node is in the order.
  refine hkept.crossed p e q hcross (List.mem_flatMap.2 ⟨e.target, ?_,
    AbstractCfg.mem_incomingEdges (K.edge_mem hcross)⟩)
  obtain ⟨-, hnodes, -⟩ := AbstractCfg.topologicalOrderExcluding_sorted horder
  exact List.mem_reverse.2 ((hnodes _).2 (cfg.target_mem e (K.edge_mem hcross)))

end Cover

/-! ### The cover of one execution -/

section OfRun

variable {cfg : AbstractCfg} {sem : Semantics} {K : Var → Prop} {c : Crossing}
  {cs : List Crossing} {p q r : Position} {φ : Formula}

theorem AbstractCfg.TermsRead.predecessorState (hK : cfg.TermsRead K) {e : AbstractEdge}
    (he : e ∈ cfg.edges) (hφ : φ.TermReads K) :
    (RuleEngine.predecessorState cfg e φ).TermReads K :=
  termReads_wp ((hereditary_termReads K).mkAnd (hK.guard e he) (termReads_wp hφ (hK.edge e he)))
    (hK.node e.source)

/-- The backward rule carries a formula over a quiet crossing. -/
theorem Crossing.Quiet.holds_predecessorState (hquiet : c.Quiet cfg K) (hvalid : c.Valid sem cfg)
    (hK : cfg.TermsRead K) (hφ : φ.TermReads K) (h : φ.Holds c.post) :
    (RuleEngine.predecessorState cfg c.edge φ).Holds c.pre := by
  have hedge := hvalid.edge_mem
  have hpost : (c.edge.transfer.wp φ).Holds c.mid :=
    holds_wp_of_quiet hquiet.effects (hK.edge _ hedge) hφ h
  exact holds_wp_of_quiet hquiet.transfer (hK.node _)
    ((hereditary_termReads K).mkAnd (hK.guard _ hedge) (termReads_wp hφ (hK.edge _ hedge)))
    ((Formula.holds_mkAnd _ _).2 ⟨hvalid.guard, hpost⟩)

/-- The positions of an execution, its end being the seed. -/
def Cover.ofRun (hrun : cfg.Run sem cs p q) (hquiet : ∀ c ∈ cs, c.Quiet cfg K)
    (hK : cfg.TermsRead K) : Cover cfg where
  Admits := Formula.TermReads K
  seed r := r = q
  crosses r e r' := ∃ c ∈ cs, r = ⟨c.edge.source, c.pre⟩ ∧ e = c.edge ∧
    r' = ⟨c.edge.target, c.post⟩
  hereditary := hereditary_termReads K
  admits_pre _ he _ hφ := hK.predecessorState he hφ
  edge_mem := by
    rintro _ _ _ ⟨c, hc, rfl, rfl, rfl⟩
    obtain ⟨-, -, -, hvalid, -⟩ := hrun.split hc
    exact hvalid.edge_mem
  source_eq := by rintro _ _ _ ⟨c, -, rfl, rfl, rfl⟩; rfl
  target_eq := by rintro _ _ _ ⟨c, -, rfl, rfl, rfl⟩; rfl
  holds_pre := by
    rintro _ _ _ φ ⟨c, hc, rfl, rfl, rfl⟩ hφ h
    obtain ⟨-, -, -, hvalid, -⟩ := hrun.split hc
    exact (hquiet c hc).holds_predecessorState hvalid hK hφ h
  next := by
    rintro _ _ _ ⟨c, hc, rfl, rfl, rfl⟩
    obtain ⟨cs₁, cs₂, rfl, -, -, hlast⟩ := hrun.split hc
    cases cs₂ with
    | nil => exact Or.inl hlast
    | cons c' cs₂ =>
      obtain ⟨m, ⟨-, hm, -⟩, -⟩ := hlast
      exact Or.inr ⟨_, _, c', by simp, hm, rfl, rfl⟩

/-- Every position of the cover is reached by a first part of the execution. -/
theorem Cover.covers_ofRun {hrun : cfg.Run sem cs p q} {hquiet : ∀ c ∈ cs, c.Quiet cfg K}
    {hK : cfg.TermsRead K} (h : (Cover.ofRun hrun hquiet hK).Covers r) :
    ∃ cs₁ cs₂, cs = cs₁ ++ cs₂ ∧ cfg.Run sem cs₁ p r ∧ cfg.Run sem cs₂ r q := by
  rcases h with hr | ⟨e, r', c, hc, hr, -, -⟩
  · have hr' : r = q := hr
    exact ⟨cs, [], by simp, hr' ▸ hrun, hr'⟩
  · obtain ⟨cs₁, cs₂, hcs, hvalid, hfirst, hlast⟩ := hrun.split hc
    exact ⟨cs₁, c :: cs₂, hcs, hr ▸ hfirst, _, ⟨hvalid, hr, rfl⟩, hlast⟩

theorem Cover.start_ofRun (hrun : cfg.Run sem cs p q) (hquiet : ∀ c ∈ cs, c.Quiet cfg K)
    (hK : cfg.TermsRead K) : (Cover.ofRun hrun hquiet hK).Covers p := by
  cases cs with
  | nil => exact Or.inl hrun
  | cons c cs =>
    obtain ⟨m, ⟨-, hm, -⟩, -⟩ := id hrun
    exact Or.inr ⟨_, _, c, List.mem_cons_self, hm, rfl, rfl⟩

/-- The cover of the last part of an undisturbed execution from the entry is reached. -/
theorem Cover.reached_ofRun {excluded : Finset CfgEdgeId} {invariants : List VerifiedLoopInvariant}
    {site : AssertionSite} {tables : ContextualSummaryTable} {oracle : Oracle}
    {order : List CfgNodeId} {engine mid : RuleEngine} {cs₀ : List Crossing} {s₀ : State}
    {hrun : cfg.Run sem cs p q} {hquiet : ∀ c ∈ cs, c.Quiet cfg K} {hK : cfg.TermsRead K}
    (hfirst : cfg.Run sem cs₀ ⟨cfg.entry, s₀⟩ p)
    (hexcluded : ∀ c ∈ cs₀ ++ cs, c.edge.id ∉ excluded)
    (hinv : ∀ inv, (cfg.entry, inv) ∈ conjunctLoopInvariants invariants →
      inv.Holds s₀ ∧ ∀ c ∈ cs₀ ++ cs, c.Keeps inv)
    (hund : Undisturbed (cs₀ ++ cs))
    (horder : cfg.topologicalOrderExcluding excluded = some order)
    (hprepared : Prepared cfg site excluded invariants engine)
    (hforward : RuleEngine.Calls cfg tables oracle
      (order.flatMap (RuleEngine.forwardCallsAt cfg)) engine mid) :
    (Cover.ofRun hrun hquiet hK).Reached mid := by
  intro r hr
  obtain ⟨cs₁, cs₂, rfl, hto, -⟩ := Cover.covers_ofRun hr
  rw [← List.append_assoc] at hexcluded hinv hund
  have hblocked : mid.blockedEdges = excluded :=
    (RuleEngine.forwardPass_frame hforward).1.trans hprepared.blocked_eq
  have hcalls : RuleEngine.Calls cfg tables oracle
      (order.flatMap (RuleEngine.forwardCallsAt cfg) ++ []) engine mid := by simpa using hforward
  refine reachAt_of_run horder hprepared hcalls (Path.append hfirst hto) (fun c hc ↦ ?_)
    (fun inv hmem ↦ ?_) hund.of_append
  · exact hblocked ▸ hexcluded c (List.mem_append_left _ hc)
  · obtain ⟨hstart, hkeeps⟩ := hinv inv hmem
    exact ⟨hstart, fun c hc ↦ hkeeps c (List.mem_append_left _ hc)⟩

/-- Without summaries, an undisturbed quiet execution that violates the site is in both formulas
of the entry when the fixpoint ends. -/
theorem holds_combined_of_run {site : AssertionSite} {oracle : Oracle}
    {excluded : Finset CfgEdgeId} {invariants : List VerifiedLoopInvariant} {engine : RuleEngine}
    {s₀ s s' : State} (hsound : oracle.InfeasibleSound)
    (h : fixpointEngine cfg site oracle excluded invariants .new = .ok engine)
    (hrun : cfg.Run sem cs ⟨cfg.entry, s₀⟩ ⟨site.node, s⟩)
    (hquiet : ∀ c ∈ cs, c.Quiet cfg K) (hK : cfg.TermsRead K)
    (hviolated : Path (TransferEffect.Quiet K) (cfg.transferAt site.node).effects s s' ∧
      ¬ site.obligation.Holds s') (hobligation : site.obligation.TermReads K)
    (hexcluded : ∀ c ∈ cs, c.edge.id ∉ excluded)
    (hinv : ∀ inv, (cfg.entry, inv) ∈ conjunctLoopInvariants invariants →
      inv.Holds s₀ ∧ ∀ c ∈ cs, c.Keeps inv)
    (hund : Undisturbed cs) : (engine.summaries cfg.entry).combined.Holds s₀ := by
  have hnot : (Formula.not site.obligation).TermReads K := by
    rw [Formula.termReads_iff, Formula.termLeaves, ← Formula.termReads_iff]
    exact hobligation
  have hseed := holds_wp_of_quiet hviolated.1 (hK.node _) hnot
    ((Formula.holds_not _ _).2 hviolated.2)
  have hstart : cfg.Run sem [] ⟨cfg.entry, s₀⟩ ⟨cfg.entry, s₀⟩ := rfl
  obtain ⟨hcovered, -⟩ := Cover.kept_fixpointEngine (K := .ofRun hrun hquiet hK) hsound h
    (by rintro _ _ _ ⟨c, hc, -, rfl, -⟩; exact hexcluded c hc) (termReads_wp hnot (hK.node _))
    (by rintro _ rfl; exact ⟨rfl, hseed⟩)
    (fun order engine₀ mid horder hprepared hforward ↦ Cover.reached_ofRun hstart hexcluded
      hinv hund horder hprepared hforward)
    fun _ _ ↦ Cover.spared_of_new
  obtain ⟨hstate, hreach⟩ := hcovered _ (Cover.start_ofRun hrun hquiet hK)
  exact NodeSummary.holds_combined.2 ⟨hreach, hstate⟩

end OfRun

end MayMust
