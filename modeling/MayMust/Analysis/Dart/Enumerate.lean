import MayMust.Cfg.Execution
import MayMust.Library.BoundedSearch

/-!
# Path enumeration

`enumerate_paths` of the source: a depth-first search over the edges of the graph, under bounds on
the length of a path, on the visits to a node along it and on the number of paths. The search
keeps three mutable values, the path so far, the visits so far and the paths found, and passes
them through the recursion; here they are the fields of `PathSearch`.

The path and the visits are restored on every way out (`dfs_eq`), so what one call adds to the
paths found is a prefix of what the unbudgeted search of the library finds. The result is exactly
the first `max_paths` candidate paths in the order of their edges (`enumeratePaths_spec`).
-/

namespace MayMust

open Library

/-- `DartConfig`. -/
structure DartConfig where
  maxDepth : ℕ
  maxLoopIters : ℕ
  maxPaths : ℕ
  deriving DecidableEq

/-- `DartConfig::default`. -/
def DartConfig.default : DartConfig := ⟨200, 4, 256⟩

/-- The mutable state of the search. A node that was never visited has count zero. -/
structure PathSearch where
  current : List CfgEdgeId
  visitCount : CfgNodeId → ℕ
  out : List (List CfgEdgeId)

namespace AbstractCfg

variable (cfg : AbstractCfg) (target : CfgNodeId)

/-- The body of the loop of `dfs` over the outgoing edges: push the edge, explore its target, pop
the edge. The loop ends early once the budget is spent, which here is a test at every edge. -/
def exploreEdge (maxPaths : ℕ) (explore : CfgNodeId → PathSearch → PathSearch) (st : PathSearch)
    (edgeId : CfgEdgeId) : PathSearch :=
  if maxPaths ≤ st.out.length then st
  else
    match cfg.edge edgeId with
    | .error _ => st
    | .ok edge =>
      let explored := explore edge.target { st with current := st.current ++ [edgeId] }
      { explored with current := explored.current.dropLast }

/-- `dfs`. -/
def dfs (maxIters maxPaths : ℕ) : ℕ → CfgNodeId → PathSearch → PathSearch
  | remainingDepth, node, st =>
    if maxPaths ≤ st.out.length then st
    else if node = target then { st with out := st.out ++ [st.current] }
    else
      match remainingDepth with
      | 0 => st
      | remainingDepth + 1 =>
        if maxIters ≤ st.visitCount node then st
        else
          let explored := (cfg.outgoingEdges node).foldl
            (cfg.exploreEdge maxPaths (dfs maxIters maxPaths remainingDepth))
            { st with visitCount := visit st.visitCount node }
          -- Decrement on backtrack, so that siblings have visits of their own.
          { explored with
            visitCount := Function.update explored.visitCount node (explored.visitCount node - 1) }

/-- `enumerate_paths`. -/
def enumeratePaths (start target : CfgNodeId) (config : DartConfig) : List (List CfgEdgeId) :=
  (cfg.dfs target config.maxLoopIters config.maxPaths config.maxDepth start ⟨[], fun _ ↦ 0, []⟩).out

/-! ### What the search returns -/

/-- The node an edge leads to; edges outside the graph are never asked for. -/
def headOf (id : CfgEdgeId) : CfgNodeId :=
  match cfg.edge id with
  | .ok e => e.target
  | .error _ => 0

/-- The edge, given by its id, leads from one node to another. -/
def Leads (id : CfgEdgeId) (n m : CfgNodeId) : Prop :=
  ∃ e ∈ cfg.edges, e.id = id ∧ e.source = n ∧ e.target = m

/-- The nodes a path leaves: the sources of its edges. -/
def sources (path : List CfgEdgeId) : List CfgNodeId :=
  path.filterMap fun id ↦
    match cfg.edge id with
    | .ok e => some e.source
    | .error _ => none

/-- A path from the start to its first arrival at the target, of at most `max_depth` edges and
with at most `max_loop_iters` visits to each node before the target. -/
structure Candidate (start : CfgNodeId) (config : DartConfig) (path : List CfgEdgeId) : Prop where
  leads : Path cfg.Leads path start target
  first : target ∉ cfg.sources path
  depth : path.length ≤ config.maxDepth
  visits : ∀ n, (cfg.sources path).count n ≤ config.maxLoopIters

variable {cfg target} {maxIters maxPaths remaining : ℕ} {st : PathSearch} {config : DartConfig}
  {start : CfgNodeId}

theorem headOf_eq {e : AbstractEdge} (he : e ∈ cfg.edges) : cfg.headOf e.id = e.target := by
  rw [headOf, edge_eq_ok he]

theorem follows_iff_leads {id : CfgEdgeId} {n m : CfgNodeId} :
    Follows cfg.outgoingEdges cfg.headOf id n m ↔ cfg.Leads id n m := by
  constructor
  · rintro ⟨hid, rfl⟩
    obtain ⟨e, he, rfl⟩ := List.mem_map.1 hid
    obtain ⟨hmem, hsource⟩ := List.mem_filter.1 he
    exact ⟨e, hmem, rfl, of_decide_eq_true hsource, (headOf_eq hmem).symm⟩
  · rintro ⟨e, he, rfl, rfl, rfl⟩
    exact ⟨mem_outgoingEdges he, (headOf_eq he).symm⟩

theorem path_follows_iff {path : List CfgEdgeId} {n m : CfgNodeId} :
    Path (Follows cfg.outgoingEdges cfg.headOf) path n m ↔ Path cfg.Leads path n m :=
  ⟨Path.mono fun _ _ _ _ ↦ follows_iff_leads.1, Path.mono fun _ _ _ _ ↦ follows_iff_leads.2⟩

theorem departures_eq_sources {path : List CfgEdgeId} {n m : CfgNodeId}
    (h : Path cfg.Leads path n m) : departures cfg.headOf n path = cfg.sources path := by
  induction path generalizing n with
  | nil => rfl
  | cons id path ih =>
    obtain ⟨k, ⟨e, he, rfl, rfl, rfl⟩, hpath⟩ := h
    have hrest : departures cfg.headOf e.target path = cfg.sources path := ih hpath
    rw [departures, headOf_eq he, hrest]
    simp [sources, edge_eq_ok he]

/-- The paths the search of the library finds are the candidates. -/
theorem bounded_iff_candidate {path : List CfgEdgeId} :
    Bounded cfg.outgoingEdges cfg.headOf target config.maxLoopIters config.maxDepth
      (fun _ ↦ 0) start
      path ↔ cfg.Candidate target start config path := by
  constructor
  · intro h
    have hleads := path_follows_iff.1 h.follows
    have hsources := departures_eq_sources hleads
    refine ⟨hleads, hsources ▸ h.first, h.length_le, fun n ↦ ?_⟩
    rw [← hsources]
    by_cases hn : n ∈ departures cfg.headOf start path
    · simpa using h.visits_le n hn
    · simp [List.count_eq_zero_of_not_mem hn]
  · intro h
    have hsources := departures_eq_sources h.leads
    refine ⟨path_follows_iff.2 h.leads, hsources ▸ h.first, h.depth, fun n _ ↦ ?_⟩
    rw [hsources, Nat.zero_add]
    exact h.visits n

theorem outgoingEdges_pairwise (cfg : AbstractCfg) (n : CfgNodeId) :
    (cfg.outgoingEdges n).Pairwise (· < ·) :=
  List.pairwise_map.2 (cfg.edges_sorted.filter _)

/-! ### Every way out restores the path and the visits -/

/-- The search after the given continuations of the current path were found, up to the budget. -/
def found (maxPaths : ℕ) (st : PathSearch) (paths : List (List CfgEdgeId)) : PathSearch :=
  { st with out := st.out ++ (paths.map (st.current ++ ·)).take (maxPaths - st.out.length) }

@[simp] theorem found_nil : found maxPaths st [] = st := by simp [found]

theorem found_of_full {paths : List (List CfgEdgeId)} (h : maxPaths ≤ st.out.length) :
    found maxPaths st paths = st := by
  have hbudget : maxPaths - st.out.length = 0 := by omega
  simp [found, hbudget]

/-- The current path itself is found. -/
theorem found_current (h : ¬ maxPaths ≤ st.out.length) :
    ({ st with out := st.out ++ [st.current] } : PathSearch) = found maxPaths st [[]] := by
  have hbudget : [st.current].length ≤ maxPaths - st.out.length := by
    rw [List.length_singleton]
    omega
  simp [found, List.take_of_length_le hbudget]

/-- Finding paths one list after the other is finding them at once. -/
theorem found_append (first second : List (List CfgEdgeId)) :
    found maxPaths (found maxPaths st first) second = found maxPaths st (first ++ second) := by
  have hbudget : maxPaths - (st.out ++ (first.map (st.current ++ ·)).take
      (maxPaths - st.out.length)).length = maxPaths - st.out.length - first.length := by
    simp only [List.length_append, List.length_take, List.length_map]
    omega
  simp only [found, hbudget, List.map_append, List.take_append, List.length_map, List.append_assoc]

/-- Paths found behind an edge are paths that start with the edge. -/
theorem found_push (edgeId : CfgEdgeId) (paths : List (List CfgEdgeId)) :
    ({ found maxPaths { st with current := st.current ++ [edgeId] } paths with
        current := (st.current ++ [edgeId]).dropLast } : PathSearch) =
      found maxPaths st (paths.map (edgeId :: ·)) := by
  simp [found, Function.comp_def]

/-- The loop over the edges finds what the calls find, in the order of the edges. -/
theorem foldl_exploreEdge {explore : CfgNodeId → PathSearch → PathSearch}
    {paths : CfgNodeId → (CfgNodeId → ℕ) → List (List CfgEdgeId)}
    (hexplore : ∀ node st, explore node st = found maxPaths st (paths node st.visitCount))
    {edges : List CfgEdgeId} (hedges : ∀ id ∈ edges, ∃ e ∈ cfg.edges, e.id = id) :
    edges.foldl (cfg.exploreEdge maxPaths explore) st =
      found maxPaths st (edges.flatMap fun id ↦
        (paths (cfg.headOf id) st.visitCount).map (id :: ·)) := by
  induction edges generalizing st with
  | nil => simp
  | cons id edges ih =>
    rw [List.forall_mem_cons] at hedges
    obtain ⟨⟨e, he, rfl⟩, hrest⟩ := hedges
    have hstep : cfg.exploreEdge maxPaths explore st e.id =
        found maxPaths st ((paths (cfg.headOf e.id) st.visitCount).map (e.id :: ·)) := by
      rw [exploreEdge]
      split
      · rename_i hfull
        exact (found_of_full hfull).symm
      · rw [edge_eq_ok he, headOf_eq he, ← found_push]
        simp only [hexplore]
        rfl
    rw [List.foldl_cons, hstep, ih hrest, List.flatMap_cons, ← found_append]
    rfl

/-- A call of `dfs` adds to the paths found what the search of the library finds, up to the budget,
and changes neither the path nor the visits. -/
theorem dfs_eq (remaining : ℕ) (node : CfgNodeId) (st : PathSearch) :
    cfg.dfs target maxIters maxPaths remaining node st =
      found maxPaths st
        (search cfg.outgoingEdges cfg.headOf target maxIters remaining node st.visitCount) := by
  induction remaining generalizing node st with
  | zero =>
    rw [dfs, search]
    split
    · rename_i hfull
      exact (found_of_full hfull).symm
    · rename_i hfree
      split
      · exact found_current hfree
      · simp
  | succ remaining ih =>
    rw [dfs, search]
    split
    · rename_i hfull
      exact (found_of_full hfull).symm
    · rename_i hfree
      split
      · exact found_current hfree
      split
      · simp
      · have hedges : ∀ id ∈ cfg.outgoingEdges node, ∃ e ∈ cfg.edges, e.id = id := fun id hid ↦ by
          obtain ⟨e, he, rfl⟩ := List.mem_map.1 hid
          exact ⟨e, List.mem_of_mem_filter he, rfl⟩
        have hloop := @foldl_exploreEdge cfg maxPaths
          { st with visitCount := visit st.visitCount node } _
          (search cfg.outgoingEdges cfg.headOf target maxIters remaining) ih _ hedges
        simp only [hloop]
        -- The count that was raised is lowered again.
        have hvisits : Function.update (visit st.visitCount node) node
            (visit st.visitCount node node - 1) = st.visitCount := by
          simp [visit]
        simp only [found, hvisits]

end AbstractCfg

/-- **The enumeration is exact.** For every graph, whatever its cycles, every two nodes and all
bounds there is one list of all candidate paths, without repetition and in the lexicographic order
of their edges, which is the depth-first order; `enumerate_paths` returns its first `max_paths`
members. -/
theorem enumeratePaths_spec (cfg : AbstractCfg) (start target : CfgNodeId) (config : DartConfig) :
    ∃ paths : List (List CfgEdgeId), paths.Nodup ∧ paths.Pairwise (List.Lex (· < ·)) ∧
      (∀ path, path ∈ paths ↔ cfg.Candidate target start config path) ∧
      cfg.enumeratePaths start target config = paths.take config.maxPaths := by
  refine ⟨_, nodup_search (fun n ↦ Nat.lt_irrefl n) cfg.outgoingEdges_pairwise,
    pairwise_search cfg.outgoingEdges_pairwise,
    fun path ↦ mem_search.trans AbstractCfg.bounded_iff_candidate, ?_⟩
  rw [AbstractCfg.enumeratePaths, AbstractCfg.dfs_eq]
  simp [AbstractCfg.found]

end MayMust
