import MayMust.Cfg.Graph
import MayMust.Library.DepthFirst

/-!
# Cycles of a graph

What the two graph algorithms of the source say about cycles. A topological order of the edges
that are not excluded exists exactly when they form no cycle
(`exists_topologicalOrderExcluding_iff`). The search for back edges is the depth-first search of
the library (`detectBackEdgesFrom_ofDepthFirst`), so in a graph whose nodes can all be reached from
the entry, cutting the back edges leaves such an order, and there are back edges exactly when
there is a cycle (`detectBackEdges_cut_cycles`).

Nothing is assumed about the shape of the graph: parallel edges, self-loops and irreducible
cycles are covered.
-/

namespace MayMust

open Library

namespace AbstractCfg

variable {cfg : AbstractCfg}

/-! ### Topological orders -/

/-- **A topological order exists exactly when there is no cycle** among the edges that are not
excluded; then it lists every node once, after the sources of its incoming edges. The order that
excludes no edge is `topological_order`. -/
theorem exists_topologicalOrderExcluding_iff (cfg : AbstractCfg) :
    (∀ excluded : Finset CfgEdgeId,
      ((∃ order, cfg.topologicalOrderExcluding excluded = some order) ↔
        Acyclic (cfg.edges.filter (·.id ∉ excluded)) (·.source) (·.target)) ∧
      ∀ order, cfg.topologicalOrderExcluding excluded = some order →
        order.Nodup ∧ (∀ n, n ∈ order ↔ n ∈ cfg.nodeIds) ∧
          Sorted (cfg.edges.filter (·.id ∉ excluded)) (·.source) (·.target) order) ∧
    cfg.topologicalOrder = cfg.topologicalOrderExcluding ∅ := by
  refine ⟨fun excluded ↦ ⟨?_, fun order horder ↦ topologicalOrderExcluding_sorted horder⟩,
    topologicalOrder_eq cfg⟩
  exact exists_kahn_iff cfg.nodeIds_nodup
    (fun e he ↦ cfg.source_mem e (List.mem_of_mem_filter he))
    fun e he ↦ cfg.target_mem e (List.mem_of_mem_filter he)

/-! ### Back edges -/

/-- The state of the library's search, without the list of nodes that have been left. -/
def BackEdgeSearch.ofDepthFirst (st : DepthFirst CfgNodeId AbstractEdge) : BackEdgeSearch :=
  ⟨st.visited, st.stack, st.backEdges.map (·.id)⟩

@[simp] theorem BackEdgeSearch.visited_ofDepthFirst (st : DepthFirst CfgNodeId AbstractEdge) :
    (BackEdgeSearch.ofDepthFirst st).visited = st.visited := rfl

@[simp] theorem BackEdgeSearch.stack_ofDepthFirst (st : DepthFirst CfgNodeId AbstractEdge) :
    (BackEdgeSearch.ofDepthFirst st).stack = st.stack := rfl

/-- The body of the loop over the outgoing edges; `visit` is the recursive call. -/
def searchEdgeId (cfg : AbstractCfg) (visit : CfgNodeId → BackEdgeSearch → BackEdgeSearch)
    (st : BackEdgeSearch) (edgeId : CfgEdgeId) : BackEdgeSearch :=
  match cfg.edge edgeId with
  | .error _ => st
  | .ok edge =>
    if edge.target ∈ st.stack then { st with backEdges := st.backEdges ++ [edge.id] }
    else if edge.target ∉ st.visited then visit edge.target st
    else st

theorem detectBackEdgesFrom_succ (fuel : ℕ) (node : CfgNodeId) (st : BackEdgeSearch) :
    cfg.detectBackEdgesFrom (fuel + 1) node st =
      let st' := (cfg.outgoingEdges node).foldl (cfg.searchEdgeId (cfg.detectBackEdgesFrom fuel))
        { st with visited := insert node st.visited, stack := insert node st.stack }
      { st' with stack := st'.stack.erase node } := rfl

theorem searchEdgeId_ofDepthFirst {visit : CfgNodeId → BackEdgeSearch → BackEdgeSearch}
    {visit' : CfgNodeId → DepthFirst CfgNodeId AbstractEdge → DepthFirst CfgNodeId AbstractEdge}
    (hvisit : ∀ n st, visit n (.ofDepthFirst st) = .ofDepthFirst (visit' n st)) {e : AbstractEdge}
    (he : e ∈ cfg.edges) (st : DepthFirst CfgNodeId AbstractEdge) :
    cfg.searchEdgeId visit (.ofDepthFirst st) e.id =
      .ofDepthFirst (depthFirstEdge (·.target) visit' st e) := by
  simp only [searchEdgeId, edge_eq_ok he, depthFirstEdge, BackEdgeSearch.stack_ofDepthFirst,
    BackEdgeSearch.visited_ofDepthFirst]
  by_cases hstack : e.target ∈ st.stack
  · simp only [hstack, if_true, BackEdgeSearch.ofDepthFirst, List.map_append, List.map_cons,
      List.map_nil]
  simp only [hstack, if_false]
  by_cases hvisited : e.target ∈ st.visited
  · simp only [hvisited, not_true_eq_false, if_false]
  · simp only [hvisited, not_false_eq_true, if_true]
    exact hvisit e.target st

/-- The source's search is the library's. -/
theorem detectBackEdgesFrom_ofDepthFirst (fuel : ℕ) (node : CfgNodeId)
    (st : DepthFirst CfgNodeId AbstractEdge) :
    cfg.detectBackEdgesFrom fuel node (.ofDepthFirst st) =
      .ofDepthFirst (depthFirst cfg.edges (·.source) (·.target) fuel node st) := by
  induction fuel generalizing node st with
  | zero => rfl
  | succ fuel ih =>
    have hfold (es : List AbstractEdge) (hes : ∀ e ∈ es, e ∈ cfg.edges)
        (st : DepthFirst CfgNodeId AbstractEdge) :
        (es.map (·.id)).foldl (cfg.searchEdgeId (cfg.detectBackEdgesFrom fuel)) (.ofDepthFirst st) =
          .ofDepthFirst (es.foldl
            (depthFirstEdge (·.target) (depthFirst cfg.edges (·.source) (·.target) fuel)) st) := by
      induction es generalizing st with
      | nil => rfl
      | cons e es ihes =>
        rw [List.forall_mem_cons] at hes
        rw [List.map_cons, List.foldl_cons, List.foldl_cons, ← ihes hes.2,
          searchEdgeId_ofDepthFirst ih hes.1]
    have hmem : ∀ e ∈ cfg.edges.filter (·.source = node), e ∈ cfg.edges := fun e he ↦
      List.mem_of_mem_filter he
    have houtgoing := hfold _ hmem (st.enter node)
    rw [detectBackEdgesFrom_succ]
    exact congrArg
      (fun st' : BackEdgeSearch ↦ { st' with stack := st'.stack.erase node }) houtgoing

/-- The back edges are the ones the library's search finds. -/
theorem detectBackEdges_eq (cfg : AbstractCfg) : cfg.detectBackEdges =
    (depthFirst cfg.edges (·.source) (·.target) cfg.nodeIds.length cfg.entry .empty).backEdges.map
      (·.id) := by
  have hlen : cfg.nodeIds.length = cfg.nodes.length := List.length_map _
  rw [hlen]
  have hrun : cfg.detectBackEdgesFrom cfg.nodes.length cfg.entry (.ofDepthFirst .empty) =
      .ofDepthFirst _ := detectBackEdgesFrom_ofDepthFirst cfg.nodes.length cfg.entry .empty
  exact congrArg BackEdgeSearch.backEdges hrun

/-- **Back edges cut all cycles.** In a graph whose nodes can all be reached from the entry,
a topological order of the edges that are no back edges exists, and there are no back edges
exactly when there is no cycle. -/
theorem detectBackEdges_cut_cycles (cfg : AbstractCfg)
    (hreach : ∀ n ∈ cfg.nodeIds, Reaches cfg.edges (·.source) (·.target) cfg.entry n) :
    (cfg.topologicalOrderExcluding cfg.detectBackEdges.toFinset).isSome ∧
      (cfg.detectBackEdges = [] ↔ Acyclic cfg.edges (·.source) (·.target)) := by
  have hback := detectBackEdges_eq cfg
  constructor
  · have hrest : Acyclic (cfg.edges.filter (·.id ∉ cfg.detectBackEdges.toFinset)) (·.source)
        (·.target) := by
      refine depthFirst_acyclic cfg.entry_mem cfg.source_mem cfg.target_mem hreach fun e he ↦ ?_
      obtain ⟨hmem, hcut⟩ := List.mem_filter.1 he
      have hcut : e.id ∉ cfg.detectBackEdges.toFinset := by simpa using hcut
      rw [List.mem_toFinset, hback] at hcut
      exact ⟨hmem, fun hfound ↦ hcut (List.mem_map_of_mem hfound)⟩
    rw [Option.isSome_iff_exists]
    exact (exists_kahn_iff cfg.nodeIds_nodup
      (fun e he ↦ cfg.source_mem e (List.mem_of_mem_filter he))
      fun e he ↦ cfg.target_mem e (List.mem_of_mem_filter he)).2 hrest
  · rw [hback, List.map_eq_nil_iff]
    exact depthFirst_backEdges_eq_nil_iff cfg.entry_mem cfg.source_mem cfg.target_mem hreach

end AbstractCfg

/-- Two nodes that lead to each other, each of them entered from outside. -/
def irreducibleCfg : AbstractCfg where
  nodes := [⟨0, "entry", .entry, .identity⟩, ⟨1, "left", .normal, .identity⟩,
    ⟨2, "right", .normal, .identity⟩]
  edges := [⟨0, 0, 1, .tru, []⟩, ⟨1, 0, 2, .tru, []⟩, ⟨2, 1, 2, .tru, []⟩, ⟨3, 2, 1, .tru, []⟩]
  entry := 0
  concreteExits := []
  exit := none
  nextNode := 3
  nextEdge := 4
  nodes_sorted := by decide
  edges_sorted := by decide
  node_lt := by decide
  edge_lt := by decide
  entry_mem := by decide
  source_mem := by decide
  target_mem := by decide

theorem detectBackEdges_cut_irreducible :
    (irreducibleCfg.topologicalOrderExcluding irreducibleCfg.detectBackEdges.toFinset).isSome ∧
      ¬ Acyclic irreducibleCfg.edges (·.source) (·.target) := by
  have hreach : ∀ n ∈ irreducibleCfg.nodeIds,
      Reaches irreducibleCfg.edges (·.source) (·.target) irreducibleCfg.entry n := by
    intro n hn
    have hstart : Reaches irreducibleCfg.edges (·.source) (·.target) irreducibleCfg.entry 0 :=
      ⟨[], rfl⟩
    have hnode : n = 0 ∨ n = 1 ∨ n = 2 := by simpa [irreducibleCfg, AbstractCfg.nodeIds] using hn
    rcases hnode with rfl | rfl | rfl
    · exact hstart
    · exact hstart.snoc (show ⟨0, 0, 1, .tru, []⟩ ∈ irreducibleCfg.edges by decide)
    · exact hstart.snoc (show ⟨1, 0, 2, .tru, []⟩ ∈ irreducibleCfg.edges by decide)
  obtain ⟨horder, hiff⟩ := AbstractCfg.detectBackEdges_cut_cycles irreducibleCfg hreach
  exact ⟨horder, fun hacyclic ↦ absurd (hiff.2 hacyclic) (by decide)⟩

end MayMust
