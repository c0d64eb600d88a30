import MayMust.Analysis.Backward.RunBackward

/-!
# What the reach formulas say

The forward rule conjoins the guard of an edge to the reach formula of its source and never
looks at the effects of the source or of the edge. After one forward pass in topological order
the reach formula of a node therefore follows, in any fixed state, from the guards along any
unblocked path from the entry, all read in that state (`reachAt_of_guards`).

For an execution this means: the state in which it arrives satisfies the reach formula as long
as no step made false a guard that was crossed before it, or an invariant injected at the entry
(`Undisturbed`). A step that does so leaves a stale conjunct behind, and the reach formula then
excludes a state that is really reached (`not_reachAt_of_run`).
-/

namespace MayMust

open Library

/-- A path of the graph, as a list of edges. -/
def AbstractCfg.EdgePath (cfg : AbstractCfg) : List AbstractEdge → CfgNodeId → CfgNodeId → Prop :=
  Path fun e n m ↦ e ∈ cfg.edges ∧ n = e.source ∧ m = e.target

namespace RuleEngine

variable {cfg : AbstractCfg} {tables : ContextualSummaryTable} {oracle : Oracle}
  {engine engine' : RuleEngine} {t : State}

/-- Crossing an unblocked edge whose guard holds in `t` carries the reach formula over. -/
theorem reachAt_of_forwardMayPost {e : AbstractEdge} (he : e ∈ cfg.edges)
    (h : engine.apply cfg tables oracle (.forwardMayPost e.id) = .ok engine')
    (hfree : e.id ∉ engine'.blockedEdges) (hguard : e.guard.Holds t)
    (hsource : (engine.reachAt e.source).Holds t) : (engine'.reachAt e.target).Holds t := by
  rcases forwardMayPost_eq_ok h with ⟨hblocked, rfl⟩ | ⟨-, e', he', hid, rfl⟩
  · exact absurd hblocked hfree
  · obtain rfl := AbstractCfg.edge_id_inj he' he hid
    rw [reachAt_joinReachAt, if_pos rfl]
    simp [hsource, hguard]

/-- The forward calls at a node reach the targets of its edges. -/
theorem reachAt_of_forwardCallsAt {e : AbstractEdge} (he : e ∈ cfg.edges)
    (h : Calls cfg tables oracle (forwardCallsAt cfg e.source) engine engine')
    (hfree : e.id ∉ engine'.blockedEdges) (hguard : e.guard.Holds t)
    (hsource : (engine.reachAt e.source).Holds t) : (engine'.reachAt e.target).Holds t := by
  obtain ⟨pre, post, hsplit⟩ := List.append_of_mem (AbstractCfg.mem_outgoingEdges he)
  rw [forwardCallsAt, hsplit, List.flatMap_append, List.flatMap_cons] at h
  obtain ⟨mid, hpre, mid', hpost, hrest⟩ := Path.append_iff.1 h
  have hgrows : Grows mid' engine' := Calls.grows hrest
  refine hgrows.reach _ _ (reachAt_of_forwardMayPost he hpost
    (fun hmem ↦ hfree (hgrows.blocked hmem)) hguard ?_)
  exact (Calls.grows hpre).reach _ _ hsource

/-- After the forward calls at a prefix of the order, a path whose last edge starts in the prefix
has carried the reach formula of the entry over. -/
theorem reachAt_of_guards_before {excluded : Finset CfgEdgeId} {pre post : List CfgNodeId}
    (hsorted : Sorted (cfg.edges.filter (·.id ∉ excluded)) (·.source) (·.target) (pre ++ post))
    (h : Calls cfg tables oracle (pre.flatMap (forwardCallsAt cfg)) engine engine')
    (hentry : (engine.reachAt cfg.entry).Holds t) {es : List AbstractEdge} {e : AbstractEdge}
    {n : CfgNodeId} (hpath : cfg.EdgePath (es ++ [e]) cfg.entry n)
    (hguards : ∀ e' ∈ es ++ [e], e'.guard.Holds t)
    (hfree : ∀ e' ∈ es ++ [e], e'.id ∉ engine'.blockedEdges ∧ e'.id ∉ excluded)
    (hsource : e.source ∈ pre) : (engine'.reachAt n).Holds t := by
  induction pre using List.reverseRecOn generalizing post es e n engine' with
  | nil => simp at hsource
  | append_singleton pre b ih =>
    rw [List.flatMap_append, List.flatMap_singleton] at h
    obtain ⟨mid, hpre, hlast⟩ := Path.append_iff.1 h
    have hgrows : Grows mid engine' := Calls.grows hlast
    rw [List.append_assoc] at hsorted
    by_cases hmem : e.source ∈ pre
    · exact hgrows.reach _ _ (ih hsorted hpre hpath hguards
        (fun e' he' ↦ ⟨fun hb ↦ (hfree e' he').1 (hgrows.blocked hb), (hfree e' he').2⟩) hmem)
    -- The last edge leaves the node whose calls come last.
    obtain rfl : e.source = b := by simpa [hmem] using hsource
    obtain ⟨m, hes, hlastEdge⟩ := Path.append_iff.1 hpath
    obtain ⟨he, rfl, rfl⟩ := Path.singleton_iff.1 hlastEdge
    have hmemLast : e ∈ es ++ [e] := by simp
    refine reachAt_of_forwardCallsAt he hlast (hfree e hmemLast).1 (hguards e hmemLast) ?_
    rcases List.eq_nil_or_concat es with rfl | ⟨es', e', rfl⟩
    · have hentry' : cfg.entry = e.source := hes
      exact (Calls.grows hpre).reach _ _ (hentry' ▸ hentry)
    · rw [List.concat_eq_append] at hes hguards hfree
      obtain ⟨m', -, hlast'⟩ := Path.append_iff.1 hes
      obtain ⟨he', -, htgt⟩ := Path.singleton_iff.1 hlast'
      refine ih hsorted hpre hes (fun e'' he'' ↦ hguards e'' (List.mem_append_left _ he''))
        (fun e'' he'' ↦ ⟨fun hb ↦ (hfree e'' (List.mem_append_left _ he'')).1 (hgrows.blocked hb),
          (hfree e'' (List.mem_append_left _ he'')).2⟩) ?_
      refine hsorted pre e.source post (by simp) e' (List.mem_filter.2 ⟨he', ?_⟩) htgt.symm
      simpa using (hfree e' (by simp)).2

/-- **Guards entail reach.** After a forward pass, whatever calls follow, a state that satisfies
the reach formula of the entry and all guards along an unblocked path satisfies the reach formula
at the end of the path. -/
theorem reachAt_of_guards {excluded : Finset CfgEdgeId} {order : List CfgNodeId}
    {calls : List RuleCall} (horder : cfg.topologicalOrderExcluding excluded = some order)
    (hexcluded : excluded ⊆ engine.blockedEdges)
    (h : Calls cfg tables oracle (order.flatMap (forwardCallsAt cfg) ++ calls) engine engine')
    (hentry : (engine.reachAt cfg.entry).Holds t) {es : List AbstractEdge} {n : CfgNodeId}
    (hpath : cfg.EdgePath es cfg.entry n) (hguards : ∀ e ∈ es, e.guard.Holds t)
    (hfree : ∀ e ∈ es, e.id ∉ engine'.blockedEdges) : (engine'.reachAt n).Holds t := by
  have hgrows : Grows engine engine' := Calls.grows h
  obtain ⟨-, hnodes, hsorted⟩ := AbstractCfg.topologicalOrderExcluding_sorted horder
  rcases List.eq_nil_or_concat es with rfl | ⟨es, e, rfl⟩
  · obtain rfl : cfg.entry = n := hpath
    exact hgrows.reach _ _ hentry
  rw [List.concat_eq_append] at hpath hguards hfree
  obtain ⟨mid, hforward, hrest⟩ := Path.append_iff.1 h
  have hgrows' : Grows mid engine' := Calls.grows hrest
  obtain ⟨m, -, hlast⟩ := Path.append_iff.1 hpath
  obtain ⟨he, -, -⟩ := Path.singleton_iff.1 hlast
  have hsorted' : Sorted (cfg.edges.filter (·.id ∉ excluded)) (·.source) (·.target)
      (order ++ []) := by rwa [List.append_nil]
  refine hgrows'.reach _ _ (reachAt_of_guards_before hsorted'
    hforward hentry hpath hguards (fun e' he' ↦ ?_) ((hnodes _).2 (cfg.source_mem e he)))
  exact ⟨fun hb ↦ hfree e' he' (hgrows'.blocked hb),
    fun hx ↦ hfree e' he' (hgrows.blocked (hexcluded hx))⟩

end RuleEngine

/-! ### Executions that leave the guards undisturbed -/

/-- The crossing does not make the formula false. -/
def Crossing.Keeps (c : Crossing) (φ : Formula) : Prop := φ.Holds c.pre → φ.Holds c.post

/-- No step of the run makes false a guard that was crossed before it. -/
structure Undisturbed (cs : List Crossing) : Prop where
  own : ∀ c ∈ cs, c.edge.guard.Holds c.mid → c.edge.guard.Holds c.post
  later : cs.Pairwise fun c c' ↦ c'.Keeps c.edge.guard

section Undisturbed

variable {sem : Semantics} {cfg : AbstractCfg} {c : Crossing} {cs : List Crossing}
  {p q : Position} {φ : Formula}

/-- A crossing that changes nothing the formula reads does not make it false. -/
theorem Crossing.Valid.keeps (h : c.Valid sem cfg) (hsame : ∀ x ∈ φ.leaves, x.Same c.pre c.post) :
    c.Keeps φ := by
  intro hφ
  rwa [Formula.Holds, ← Formula.eval_congr h.sameUndefined hsame]

theorem AbstractCfg.Run.edgePath (h : cfg.Run sem cs p q) :
    cfg.EdgePath (cs.map (·.edge)) p.node q.node := by
  induction cs generalizing p with
  | nil => obtain rfl : p = q := h; rfl
  | cons c cs ih =>
    obtain ⟨m, ⟨hvalid, rfl, rfl⟩, hrest⟩ := h
    exact ⟨c.edge.target, ⟨hvalid.edge_mem, rfl, rfl⟩, ih hrest⟩

/-- What every crossing keeps holds at the end of the run if it holds at its start. -/
theorem AbstractCfg.Run.holds_of_keeps (h : cfg.Run sem cs p q) (hkeeps : ∀ c ∈ cs, c.Keeps φ)
    (hφ : φ.Holds p.state) : φ.Holds q.state := by
  refine Path.invariant (P := fun p : Position ↦ φ.Holds p.state) (fun c hc p q hcross hp ↦ ?_) h hφ
  obtain ⟨-, rfl, rfl⟩ := hcross
  exact hkeeps c hc hp

/-- At the end of an undisturbed run all guards that were crossed hold. -/
theorem Undisturbed.guards (hund : Undisturbed cs) (h : cfg.Run sem cs p q) :
    ∀ c ∈ cs, c.edge.guard.Holds q.state := by
  induction cs generalizing p with
  | nil => simp
  | cons c cs ih =>
    obtain ⟨m, ⟨hvalid, rfl, rfl⟩, hrest⟩ := h
    obtain ⟨hlater, hpairs⟩ := List.pairwise_cons.1 hund.later
    rw [List.forall_mem_cons]
    refine ⟨?_, ih ⟨fun c' hc' ↦ hund.own c' (List.mem_cons_of_mem _ hc'), hpairs⟩ hrest⟩
    exact AbstractCfg.Run.holds_of_keeps hrest hlater
      (hund.own c List.mem_cons_self hvalid.guard)

end Undisturbed

theorem Undisturbed.of_append {cs cs' : List Crossing} (h : Undisturbed (cs ++ cs')) :
    Undisturbed cs :=
  ⟨fun c hc ↦ h.own c (List.mem_append_left _ hc), (List.pairwise_append.1 h.later).1⟩

section Reach

variable {cfg : AbstractCfg} {site : AssertionSite} {oracle : Oracle}
  {excluded : Finset CfgEdgeId} {invariants : List VerifiedLoopInvariant}
  {tables : ContextualSummaryTable} {order : List CfgNodeId} {calls : List RuleCall}
  {engine engine' : RuleEngine} {sem : Semantics} {cs : List Crossing} {s₀ : State}

/-- An execution arrives in the reach formula of its end if, in the state at the end, the
invariants injected at the entry and all guards on the way hold. -/
theorem reachAt_of_run {p : Position}
    (horder : cfg.topologicalOrderExcluding excluded = some order)
    (hprepared : Prepared cfg site excluded invariants engine)
    (hcalls : RuleEngine.Calls cfg tables oracle
      (order.flatMap (RuleEngine.forwardCallsAt cfg) ++ calls) engine engine')
    (hrun : cfg.Run sem cs ⟨cfg.entry, s₀⟩ p)
    (hfree : ∀ c ∈ cs, c.edge.id ∉ engine'.blockedEdges)
    (hinv : ∀ inv, (cfg.entry, inv) ∈ conjunctLoopInvariants invariants →
      inv.Holds s₀ ∧ ∀ c ∈ cs, c.Keeps inv)
    (hund : Undisturbed cs) : (engine'.reachAt p.node).Holds p.state := by
  have hguards := hund.guards hrun
  refine RuleEngine.reachAt_of_guards horder (hprepared.blocked_eq ▸ subset_rfl) hcalls
    (hprepared.reach_entry _ fun inv hmem ↦ ?_) hrun.edgePath ?_ ?_
  · obtain ⟨hstart, hkeeps⟩ := hinv inv hmem
    exact hrun.holds_of_keeps hkeeps hstart
  · simpa using hguards
  · simpa using hfree

/-- **Reach formulas cover undisturbed executions.** Let the engine run a forward pass and then
anything. If an execution from the entry uses no blocked edge, starts in a state that satisfies
the invariants injected at the entry, and no step of it makes false one of these invariants or a
guard crossed earlier, then every position it visits satisfies the reach formula of its node. -/
theorem reachAt_of_undisturbed_run
    (horder : cfg.topologicalOrderExcluding excluded = some order)
    (hprepared : Prepared cfg site excluded invariants engine)
    (hcalls : RuleEngine.Calls cfg tables oracle
      (order.flatMap (RuleEngine.forwardCallsAt cfg) ++ calls) engine engine')
    {p : Position} (hrun : cfg.Run sem cs ⟨cfg.entry, s₀⟩ p)
    (hfree : ∀ c ∈ cs, c.edge.id ∉ engine'.blockedEdges)
    (hinv : ∀ inv, (cfg.entry, inv) ∈ conjunctLoopInvariants invariants →
      inv.Holds s₀ ∧ ∀ c ∈ cs, c.Keeps inv)
    (hund : Undisturbed cs) :
    ∀ cs₁ cs₂ r, cs = cs₁ ++ cs₂ → cfg.Run sem cs₁ ⟨cfg.entry, s₀⟩ r →
      (engine'.reachAt r.node).Holds r.state := by
  rintro cs₁ cs₂ r rfl hfirst
  refine reachAt_of_run horder hprepared hcalls hfirst
    (fun c hc ↦ hfree c (List.mem_append_left _ hc)) (fun inv hmem ↦ ?_) hund.of_append
  obtain ⟨hstart, hkeeps⟩ := hinv inv hmem
  exact ⟨hstart, fun c hc ↦ hkeeps c (List.mem_append_left _ hc)⟩

end Reach

/-! ### A guard that goes stale -/

/-- The first edge asks for `x = 0`; the node it leads to sets `x` to 5. -/
def overwrittenGuardCfg : AbstractCfg where
  nodes := [⟨0, "entry", .entry, .identity⟩,
    ⟨1, "body", .normal, ⟨[.assign (.int "x") (.term (.int 5))]⟩⟩, ⟨2, "exit", .exit, .identity⟩]
  edges := [⟨0, 0, 1, .eq (.var (.int "x")) (.int 0), []⟩, ⟨1, 1, 2, .tru, []⟩]
  entry := 0
  concreteExits := [2]
  exit := some 2
  nextNode := 3
  nextEdge := 2
  nodes_sorted := by simp
  edges_sorted := by simp
  node_lt := by simp
  edge_lt := by decide
  entry_mem := by simp
  source_mem := by simp
  target_mem := by simp

/-- The engine keeps the guard as the reach formula of the exit and blocks nothing. -/
theorem fixpointEngine_overwrittenGuardCfg :
    (fixpointEngine overwrittenGuardCfg ⟨0, 2, .tru, ""⟩ (.knowing [] []) ∅ [] .new).map
      (fun engine ↦ (engine.reachAt 2, engine.blockedEdges)) =
        .ok (.eq (.var (.int "x")) (.int 0), ∅) := by
  decide

/-- The general statement at the crossing of the first edge, which changes nothing. -/
theorem reachAt_of_undisturbed_run_overwrittenGuardCfg :
    ∃ engine, fixpointEngine overwrittenGuardCfg ⟨0, 2, .tru, ""⟩ (.knowing [] []) ∅
      [] .new = .ok engine ∧
      (engine.reachAt 1).Holds .zero := by
  obtain ⟨engine, hengine, hread⟩ := map_eq_ok.1 fixpointEngine_overwrittenGuardCfg
  obtain ⟨-, hblocked⟩ := Prod.mk.inj hread
  obtain ⟨order, engine₀, k, horder, hprepared, hcalls⟩ := fixpointEngine_eq_ok hengine
  rw [List.replicate_succ, List.flatten_cons, RuleEngine.passCalls, List.append_assoc] at hcalls
  have hguard : (Formula.eq (.var (.int "x")) (.int 0)).Holds .zero := by
    simp [Formula.Holds, Formula.eval, Term.eval, Value.compare, State.lookup, State.zero, Var.int]
  let c : Crossing := ⟨⟨0, 0, 1, .eq (.var (.int "x")) (.int 0), []⟩, .zero, .zero, .zero⟩
  have hvalid : c.Valid .unknownCallees overwrittenGuardCfg :=
    ⟨by decide, rfl, hguard, rfl⟩
  have hrun : overwrittenGuardCfg.Run .unknownCallees [c] ⟨0, .zero⟩ ⟨1, .zero⟩ :=
    Path.singleton_iff.2 ⟨hvalid, rfl, rfl⟩
  refine ⟨engine, hengine, reachAt_of_undisturbed_run horder hprepared hcalls hrun
    (by simp [hblocked]) (by simp [conjunctLoopInvariants]) ⟨by simp [c], by simp⟩ [c]
      [] _ rfl hrun⟩

/-- The reach formula of the exit keeps the guard of the first edge, although every execution
gets there with another value of `x`. -/
theorem not_reachAt_of_run :
    ¬ ∀ (cfg : AbstractCfg) (site : AssertionSite) (oracle : Oracle) (excluded : Finset CfgEdgeId)
      (invariants : List VerifiedLoopInvariant) (tables : ContextualSummaryTable)
      (engine : RuleEngine) (cs : List Crossing) (n : CfgNodeId) (s₀ s : State),
      fixpointEngine cfg site oracle excluded invariants tables = .ok engine →
      (∀ inv ∈ invariants, ∀ cs s₀ s, cfg.Run .unknownCallees cs ⟨cfg.entry, s₀⟩ ⟨inv.header, s⟩ →
        inv.formula.Holds s) →
      cfg.Run .unknownCallees cs ⟨cfg.entry, s₀⟩ ⟨n, s⟩ →
      (∀ c ∈ cs, c.edge.id ∉ engine.blockedEdges) → (engine.reachAt n).Holds s := by
  intro h
  obtain ⟨engine, hengine, hread⟩ := map_eq_ok.1 fixpointEngine_overwrittenGuardCfg
  obtain ⟨hreach, hblocked⟩ := Prod.mk.inj hread
  let s : State := State.zero.set (.int "x") (.int 5)
  have hguard : (Formula.eq (.var (.int "x")) (.int 0)).Holds .zero := by
    simp [Formula.Holds, Formula.eval, Term.eval, Value.compare, State.lookup, State.zero, Var.int]
  have hfirst : Crossing.Valid .unknownCallees overwrittenGuardCfg
      ⟨⟨0, 0, 1, .eq (.var (.int "x")) (.int 0), []⟩, .zero, .zero, .zero⟩ :=
    ⟨by decide, rfl, hguard, rfl⟩
  have hsecond : Crossing.Valid .unknownCallees overwrittenGuardCfg
      ⟨⟨1, 1, 2, .tru, []⟩, .zero, s, s⟩ :=
    ⟨by decide, Path.singleton_iff.2 ⟨rfl, by decide, rfl⟩, Formula.holds_tru s, rfl⟩
  have hs := h overwrittenGuardCfg _ _ _ [] _ engine [_, _] 2 .zero s hengine (by simp)
    ⟨_, ⟨hfirst, rfl, rfl⟩, Path.singleton_iff.2 ⟨hsecond, rfl, rfl⟩⟩ (by simp [hblocked])
  rw [hreach] at hs
  simp [s, Formula.Holds, Formula.eval, Term.eval, Value.compare, State.lookup, State.set,
    Var.int] at hs

end MayMust
