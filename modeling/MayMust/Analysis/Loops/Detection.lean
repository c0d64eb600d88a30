import Mathlib.Data.List.Sort
import MayMust.Cfg.Graph

/-!
# Natural loops

`detect_loops` finds one loop for each back edge: the body is collected by a backward search from
the latch, and the exit edges are the edges that leave it. Two back edges to one header give two
loops with that header.

The search has no test for the header: the header is in the body before the search starts, so it
is never queued, unless the latch is the header itself.
-/

namespace MayMust

/-- A natural loop. The source location of its header, which no check reads, is left out. -/
structure LoopInfo where
  header : CfgNodeId
  latch : CfgNodeId
  backEdge : CfgEdgeId
  body : Finset CfgNodeId
  exitEdges : List CfgEdgeId
  backEdgeGuard : Formula
  deriving DecidableEq

section Detection

variable (cfg : AbstractCfg)

/-- Queue the predecessors that are new to the body. -/
def queueNew (acc : Finset CfgNodeId × List CfgNodeId) (pred : CfgNodeId) :
    Finset CfgNodeId × List CfgNodeId :=
  if pred ∈ acc.1 then acc else (insert pred acc.1, acc.2 ++ [pred])

/-- The backward search of `detect_loops`. Every node is queued at most once, so the number of
nodes bounds the number of turns. -/
def collectBody : ℕ → Finset CfgNodeId → List CfgNodeId → Finset CfgNodeId
  | 0, body, _ => body
  | _ + 1, body, [] => body
  | fuel + 1, body, node :: queue =>
    let acc := (cfg.predecessors node).foldl queueNew (body, queue)
    collectBody fuel acc.1 acc.2

/-- The body of the loop of a back edge. -/
def loopBody (edge : AbstractEdge) : Finset CfgNodeId :=
  collectBody cfg (cfg.nodes.length + 1) {edge.target, edge.source} [edge.source]

/-- Whether the edge leaves the set of nodes. -/
def leavesBody (body : Finset CfgNodeId) (id : CfgEdgeId) : Bool :=
  match cfg.edge id with
  | .ok edge => edge.target ∉ body
  | .error _ => false

/-- The edges that leave the body, by the nodes of the body in ascending order. -/
def loopExitEdges (body : Finset CfgNodeId) : List CfgEdgeId :=
  (cfg.nodeIds.filter (· ∈ body)).flatMap fun node ↦
    (cfg.outgoingEdges node).filter (leavesBody cfg body)

/-- The loop of a back edge. -/
def loopOf (edge : AbstractEdge) : LoopInfo where
  header := edge.target
  latch := edge.source
  backEdge := edge.id
  body := loopBody cfg edge
  exitEdges := loopExitEdges cfg (loopBody cfg edge)
  backEdgeGuard := edge.guard

/-- `detect_loops`. -/
def detectLoops : List LoopInfo :=
  cfg.detectBackEdges.filterMap fun id ↦
    match cfg.edge id with
    | .ok edge => some (loopOf cfg edge)
    | .error _ => none

end Detection

/-- `sort_innermost_first`: a stable sort by the size of the body. -/
def sortInnermostFirst (loops : List LoopInfo) : List LoopInfo :=
  loops.insertionSort fun a b ↦ a.body.card ≤ b.body.card

variable {cfg : AbstractCfg} {info : LoopInfo} {e : AbstractEdge}

/-- Every detected loop is the loop of a back edge. -/
theorem mem_detectLoops : info ∈ detectLoops cfg ↔
    ∃ e ∈ cfg.edges, e.id ∈ cfg.detectBackEdges ∧ info = loopOf cfg e := by
  rw [detectLoops]
  rw [List.mem_filterMap]
  constructor
  · rintro ⟨id, hid, h⟩
    split at h
    · rename_i edge hedge
      obtain ⟨hmem, rfl⟩ := AbstractCfg.mem_of_edge_eq_ok hedge
      exact ⟨edge, hmem, hid, (Option.some.inj h).symm⟩
    · simp at h
  · rintro ⟨e, he, hid, rfl⟩
    exact ⟨e.id, hid, by rw [AbstractCfg.edge_eq_ok he]⟩

theorem mem_sortInnermostFirst {loops : List LoopInfo} :
    info ∈ sortInnermostFirst loops ↔ info ∈ loops :=
  (List.perm_insertionSort _ _).mem_iff

/-- The exit edges are the edges that leave the body. -/
theorem mem_loopExitEdges {body : Finset CfgNodeId} (he : e ∈ cfg.edges) :
    e.id ∈ loopExitEdges cfg body ↔ e.source ∈ body ∧ e.target ∉ body := by
  have hleaves : leavesBody cfg body e.id = decide (e.target ∉ body) := by
    rw [leavesBody]
    rw [AbstractCfg.edge_eq_ok he]
  rw [loopExitEdges]
  rw [List.mem_flatMap]
  constructor
  · rintro ⟨n, hn, hid⟩
    obtain ⟨hout, hleave⟩ := List.mem_filter.1 hid
    obtain rfl := AbstractCfg.source_eq_of_mem_outgoingEdges he hout
    exact ⟨by simpa using (List.mem_filter.1 hn).2, by simpa [hleaves] using hleave⟩
  · rintro ⟨hsource, htarget⟩
    refine ⟨e.source, List.mem_filter.2 ⟨cfg.source_mem e he, by simpa using hsource⟩, ?_⟩
    exact List.mem_filter.2 ⟨AbstractCfg.mem_outgoingEdges he, by simpa [hleaves] using htarget⟩

/-! ### The body -/

theorem subset_foldl_queueNew (preds : List CfgNodeId) (acc : Finset CfgNodeId × List CfgNodeId) :
    acc.1 ⊆ (preds.foldl queueNew acc).1 := by
  induction preds generalizing acc with
  | nil => exact subset_rfl
  | cons p preds ih =>
    refine subset_trans ?_ (ih _)
    rw [queueNew]
    split
    · exact subset_rfl
    · exact Finset.subset_insert _ _

/-- The search only adds to the body. -/
theorem subset_collectBody {fuel : ℕ} {body : Finset CfgNodeId} {queue : List CfgNodeId} :
    body ⊆ collectBody cfg fuel body queue := by
  induction fuel generalizing body queue with
  | zero => exact subset_rfl
  | succ fuel ih =>
    cases queue with
    | nil => exact subset_rfl
    | cons node queue => exact subset_trans (subset_foldl_queueNew _ (body, queue)) ih

theorem header_mem_body : (loopOf cfg e).header ∈ (loopOf cfg e).body :=
  subset_collectBody (by simp [loopOf])

end MayMust
