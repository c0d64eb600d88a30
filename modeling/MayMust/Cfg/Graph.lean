import Mathlib.Data.Finset.Insert
import Mathlib.Data.Finset.Card
import Mathlib.Data.Finset.Erase
import MayMust.Cfg.WeakestPrecondition
import MayMust.Library.TopologicalSort

/-!
# Abstract control-flow graphs

Nodes carry the transfer function of a basic block; edges carry a guard and the effects of
crossing them. The source keeps both in ordered maps by id, so here they are lists sorted by id.
The fields that state the sorting, and that every edge joins known nodes, hold of every graph
the source can build: `AbstractCfg.new` and the operations below establish and keep them.

Labels, node kinds and the list of exits are kept because the construction reads them; source
locations and the scratch formulas `pre` and `post` of a node are left out, as no modelled
function reads them.
-/

namespace MayMust

open Library

/-- Node ids are indices into the graph's node map. -/
abbrev CfgNodeId := ℕ

/-- Edge ids are indices into the graph's edge map. -/
abbrev CfgEdgeId := ℕ

/-- The role of a node. -/
inductive NodeKind
  | entry
  | normal
  | exit
  | syntheticExit
  deriving DecidableEq, Repr

/-- A basic block. -/
structure AbstractNode where
  id : CfgNodeId
  label : String
  kind : NodeKind
  transfer : TransferFn
  deriving DecidableEq

/-- A control-flow transition. -/
structure AbstractEdge where
  id : CfgEdgeId
  source : CfgNodeId
  target : CfgNodeId
  guard : Formula
  effects : List TransferEffect
  deriving DecidableEq

/-- `AbstractEdge::transfer`. -/
def AbstractEdge.transfer (edge : AbstractEdge) : TransferFn := ⟨edge.effects⟩

/-- The errors of graph queries and mutations. -/
inductive CfgError
  | unknownNode (id : CfgNodeId)
  | unknownEdge (id : CfgEdgeId)
  | missingExit
  deriving DecidableEq

/-- A directed control-flow graph. -/
structure AbstractCfg where
  nodes : List AbstractNode
  edges : List AbstractEdge
  entry : CfgNodeId
  /-- Nodes marked as function returns, in ascending order. -/
  concreteExits : List CfgNodeId
  /-- The unique exit, once it has been determined. -/
  exit : Option CfgNodeId
  nextNode : ℕ
  nextEdge : ℕ
  nodes_sorted : nodes.Pairwise (·.id < ·.id)
  edges_sorted : edges.Pairwise (·.id < ·.id)
  node_lt : ∀ n ∈ nodes, n.id < nextNode
  edge_lt : ∀ e ∈ edges, e.id < nextEdge
  entry_mem : entry ∈ nodes.map (·.id)
  source_mem : ∀ e ∈ edges, e.source ∈ nodes.map (·.id)
  target_mem : ∀ e ∈ edges, e.target ∈ nodes.map (·.id)

namespace AbstractCfg

/-! ### Construction -/

/-- `AbstractCfg::new`: a graph with an entry node and nothing else. -/
def new (entryLabel : String) : AbstractCfg where
  nodes := [⟨0, entryLabel, .entry, .identity⟩]
  edges := []
  entry := 0
  concreteExits := []
  exit := none
  nextNode := 1
  nextEdge := 0
  nodes_sorted := by simp
  edges_sorted := by simp
  node_lt := by simp
  edge_lt := by simp
  entry_mem := by simp
  source_mem := by simp
  target_mem := by simp

/-- A graph that consists of its entry block. -/
def block (transfer : TransferFn) : AbstractCfg where
  nodes := [⟨0, "entry", .entry, transfer⟩]
  edges := []
  entry := 0
  concreteExits := [0]
  exit := some 0
  nextNode := 1
  nextEdge := 0
  nodes_sorted := by simp
  edges_sorted := by simp
  node_lt := by simp
  edge_lt := by simp
  entry_mem := by simp
  source_mem := by simp
  target_mem := by simp

/-- The edge from the entry to the next block is the only edge: it is in order. -/
theorem edges_sorted_single : [(⟨0, 0, 1, .tru, []⟩ : AbstractEdge)].Pairwise (·.id < ·.id) := by
  simp

theorem edge_lt_single : ∀ e ∈ [(⟨0, 0, 1, .tru, []⟩ : AbstractEdge)], e.id < 1 := by simp

/-- `AbstractCfg::add_node`. -/
def addNode (cfg : AbstractCfg) (label : String) (transfer : TransferFn) :
    CfgNodeId × AbstractCfg :=
  ⟨cfg.nextNode,
    { cfg with
      nodes := cfg.nodes ++ [⟨cfg.nextNode, label, .normal, transfer⟩]
      nextNode := cfg.nextNode + 1
      nodes_sorted := by
        rw [List.pairwise_append]
        exact ⟨cfg.nodes_sorted, by simp, by simpa using cfg.node_lt⟩
      node_lt := by
        simp only [List.mem_append, List.mem_singleton]
        rintro n (hn | rfl)
        · exact Nat.lt_succ_of_lt (cfg.node_lt n hn)
        · exact Nat.lt_succ_self _
      entry_mem := by simpa using Or.inl (List.mem_map.1 cfg.entry_mem)
      source_mem := fun e he ↦ by simpa using Or.inl (List.mem_map.1 (cfg.source_mem e he))
      target_mem := fun e he ↦ by simpa using Or.inl (List.mem_map.1 (cfg.target_mem e he)) }⟩

/-- `AbstractCfg::add_edge`: an error if an end point is unknown. -/
def addEdge (cfg : AbstractCfg) (source target : CfgNodeId) (guard : Formula)
    (effects : List TransferEffect) : Except CfgError (CfgEdgeId × AbstractCfg) :=
  if hs : source ∈ cfg.nodes.map (·.id) then
    if ht : target ∈ cfg.nodes.map (·.id) then
      .ok ⟨cfg.nextEdge,
        { cfg with
          edges := cfg.edges ++ [⟨cfg.nextEdge, source, target, guard, effects⟩]
          nextEdge := cfg.nextEdge + 1
          edges_sorted := by
            rw [List.pairwise_append]
            exact ⟨cfg.edges_sorted, by simp, by simpa using cfg.edge_lt⟩
          edge_lt := by
            simp only [List.mem_append, List.mem_singleton]
            rintro e (he | rfl)
            · exact Nat.lt_succ_of_lt (cfg.edge_lt e he)
            · exact Nat.lt_succ_self _
          source_mem := by
            simp only [List.mem_append, List.mem_singleton]
            rintro e (he | rfl)
            · exact cfg.source_mem e he
            · exact hs
          target_mem := by
            simp only [List.mem_append, List.mem_singleton]
            rintro e (he | rfl)
            · exact cfg.target_mem e he
            · exact ht }⟩
    else .error (.unknownNode target)
  else .error (.unknownNode source)

/-- `AbstractCfg::remove_edge`. -/
def removeEdge (cfg : AbstractCfg) (id : CfgEdgeId) : AbstractCfg :=
  { cfg with
    edges := cfg.edges.filter (·.id ≠ id)
    edges_sorted := cfg.edges_sorted.filter _
    edge_lt := fun e he ↦ cfg.edge_lt e (List.mem_of_mem_filter he)
    source_mem := fun e he ↦ cfg.source_mem e (List.mem_of_mem_filter he)
    target_mem := fun e he ↦ cfg.target_mem e (List.mem_of_mem_filter he) }

/-- `AbstractCfg::node_mut`, replacing the effects of a node. -/
def setEffects (cfg : AbstractCfg) (id : CfgNodeId) (effects : List TransferEffect) : AbstractCfg :=
  let nodes := cfg.nodes.map fun n ↦ if n.id = id then { n with transfer := ⟨effects⟩ } else n
  have hid (n : AbstractNode) :
      (if n.id = id then { n with transfer := ⟨effects⟩ } else n : AbstractNode).id = n.id := by
    split <;> rfl
  have hids : nodes.map (·.id) = cfg.nodes.map (·.id) := by simp [nodes, hid]
  { cfg with
    nodes := nodes
    nodes_sorted := by simpa [nodes, List.pairwise_map, hid] using cfg.nodes_sorted
    node_lt := by simpa [nodes, hid] using cfg.node_lt
    entry_mem := hids ▸ cfg.entry_mem
    source_mem := fun e he ↦ hids ▸ cfg.source_mem e he
    target_mem := fun e he ↦ hids ▸ cfg.target_mem e he }

/-! ### Queries -/

variable (cfg : AbstractCfg)

/-- `AbstractCfg::node_ids`. -/
def nodeIds : List CfgNodeId := cfg.nodes.map (·.id)

/-- `AbstractCfg::node`. -/
def node (id : CfgNodeId) : Except CfgError AbstractNode :=
  match cfg.nodes.find? (·.id = id) with
  | some n => .ok n
  | none => .error (.unknownNode id)

/-- `AbstractCfg::edge`. -/
def edge (id : CfgEdgeId) : Except CfgError AbstractEdge :=
  match cfg.edges.find? (·.id = id) with
  | some e => .ok e
  | none => .error (.unknownEdge id)

/-- The transfer function of a node; the identity for an unknown id. -/
def transferAt (id : CfgNodeId) : TransferFn :=
  match cfg.node id with
  | .ok n => n.transfer
  | .error _ => .identity

/-- `AbstractCfg::outgoing_edges`. -/
def outgoingEdges (id : CfgNodeId) : List CfgEdgeId :=
  (cfg.edges.filter (·.source = id)).map (·.id)

/-- `AbstractCfg::incoming_edges`. -/
def incomingEdges (id : CfgNodeId) : List CfgEdgeId :=
  (cfg.edges.filter (·.target = id)).map (·.id)

/-- `AbstractCfg::predecessors`. -/
def predecessors (id : CfgNodeId) : List CfgNodeId :=
  (cfg.edges.filter (·.target = id)).map (·.source)

/-- `AbstractCfg::topological_order_excluding`. -/
def topologicalOrderExcluding (excluded : Finset CfgEdgeId) : Option (List CfgNodeId) :=
  kahn cfg.nodeIds (cfg.edges.filter (·.id ∉ excluded)) (·.source) (·.target)

/-- `AbstractCfg::topological_order`. -/
def topologicalOrder : Option (List CfgNodeId) :=
  kahn cfg.nodeIds cfg.edges (·.source) (·.target)

/-- The state of the depth-first search for back edges. -/
structure BackEdgeSearch where
  visited : Finset CfgNodeId
  stack : Finset CfgNodeId
  backEdges : List CfgEdgeId

/-- `AbstractCfg::detect_back_edges_from`. Every nested call visits a new node, so the depth is
bounded by the number of nodes. -/
def detectBackEdgesFrom : ℕ → CfgNodeId → BackEdgeSearch → BackEdgeSearch
  | 0, _, st => st
  | fuel + 1, node, st =>
    let st := { st with visited := insert node st.visited, stack := insert node st.stack }
    let st := (cfg.outgoingEdges node).foldl
      (fun st edgeId ↦
        match cfg.edge edgeId with
        | .error _ => st
        | .ok edge =>
          if edge.target ∈ st.stack then { st with backEdges := st.backEdges ++ [edge.id] }
          else if edge.target ∉ st.visited then detectBackEdgesFrom fuel edge.target st
          else st) st
    { st with stack := st.stack.erase node }

/-- `AbstractCfg::detect_back_edges`. -/
def detectBackEdges : List CfgEdgeId :=
  (cfg.detectBackEdgesFrom cfg.nodes.length cfg.entry ⟨∅, ∅, []⟩).backEdges

/-! ### Looking up nodes and edges -/

section Lookup

variable {cfg}

theorem nodeIds_nodup (cfg : AbstractCfg) : cfg.nodeIds.Nodup :=
  List.pairwise_map.2 (cfg.nodes_sorted.imp Nat.ne_of_lt)

theorem mem_of_node_eq_ok {id : CfgNodeId} {n : AbstractNode} (h : cfg.node id = .ok n) :
    n ∈ cfg.nodes ∧ n.id = id := by
  rw [node] at h
  split at h
  · rename_i n' hn
    simp only [Except.ok.injEq] at h
    subst h
    exact ⟨List.mem_of_find?_eq_some hn, by simpa using List.find?_some hn⟩
  · simp at h

theorem mem_of_edge_eq_ok {id : CfgEdgeId} {e : AbstractEdge} (h : cfg.edge id = .ok e) :
    e ∈ cfg.edges ∧ e.id = id := by
  rw [edge] at h
  split at h
  · rename_i e' he
    simp only [Except.ok.injEq] at h
    subst h
    exact ⟨List.mem_of_find?_eq_some he, by simpa using List.find?_some he⟩
  · simp at h

theorem node_id_inj {n n' : AbstractNode} (hn : n ∈ cfg.nodes) (hn' : n' ∈ cfg.nodes)
    (h : n.id = n'.id) : n = n' :=
  List.inj_on_of_nodup_map cfg.nodeIds_nodup hn hn' h

theorem edge_id_inj {e e' : AbstractEdge} (he : e ∈ cfg.edges) (he' : e' ∈ cfg.edges)
    (h : e.id = e'.id) : e = e' :=
  List.inj_on_of_nodup_map (List.pairwise_map.2 (cfg.edges_sorted.imp Nat.ne_of_lt)) he he' h

theorem node_eq_ok {n : AbstractNode} (hn : n ∈ cfg.nodes) : cfg.node n.id = .ok n := by
  rw [node]
  split
  · rename_i n' hn'
    have hid : n'.id = n.id := by simpa using List.find?_some hn'
    rw [node_id_inj (List.mem_of_find?_eq_some hn') hn hid]
  · rename_i hnone
    simpa using List.find?_eq_none.1 hnone n hn

theorem edge_eq_ok {e : AbstractEdge} (he : e ∈ cfg.edges) : cfg.edge e.id = .ok e := by
  rw [edge]
  split
  · rename_i e' he'
    have hid : e'.id = e.id := by simpa using List.find?_some he'
    rw [edge_id_inj (List.mem_of_find?_eq_some he') he hid]
  · rename_i hnone
    simpa using List.find?_eq_none.1 hnone e he

theorem transferAt_eq {id : CfgNodeId} {n : AbstractNode} (h : cfg.node id = .ok n) :
    cfg.transferAt id = n.transfer := by
  simp [transferAt, h]

@[simp] theorem nodeIds_setEffects (cfg : AbstractCfg) (id : CfgNodeId)
    (effects : List TransferEffect) : (cfg.setEffects id effects).nodeIds = cfg.nodeIds := by
  simp only [nodeIds, setEffects, List.map_map]
  refine List.map_congr_left fun n _ ↦ ?_
  simp only [Function.comp_apply]
  split <;> rfl

theorem node_setEffects (cfg : AbstractCfg) (id n : CfgNodeId) (effects : List TransferEffect) :
    (cfg.setEffects id effects).node n = (cfg.node n).map fun node ↦
      if node.id = id then { node with transfer := ⟨effects⟩ } else node := by
  have hid : ((fun node : AbstractNode ↦ decide (node.id = n)) ∘ fun node ↦
      if node.id = id then { node with transfer := ⟨effects⟩ } else node) =
      fun node ↦ decide (node.id = n) := by
    funext node
    simp only [Function.comp_apply]
    split <;> rfl
  simp only [node, setEffects, List.find?_map, hid]
  cases cfg.nodes.find? fun node ↦ decide (node.id = n) <;> rfl

theorem transferAt_setEffects_of_ne {id n : CfgNodeId} (effects : List TransferEffect)
    (h : n ≠ id) : (cfg.setEffects id effects).transferAt n = cfg.transferAt n := by
  rw [transferAt, transferAt, node_setEffects]
  cases hn : cfg.node n with
  | error _ => rfl
  | ok node =>
    have hne : node.id ≠ id := (mem_of_node_eq_ok hn).2 ▸ h
    simp [Except.map, hne]

theorem transferAt_setEffects_self {id : CfgNodeId} (effects : List TransferEffect)
    (h : id ∈ cfg.nodeIds) : (cfg.setEffects id effects).transferAt id = ⟨effects⟩ := by
  obtain ⟨node, hmem, rfl⟩ := List.mem_map.1 h
  simp [transferAt, node_setEffects, node_eq_ok hmem, Except.map]

@[simp] theorem transferAt_block (transfer : TransferFn) :
    (block transfer).transferAt 0 = transfer := by
  simp [transferAt, node, block]

theorem transferAt_block_of_ne {transfer : TransferFn} {id : CfgNodeId} (h : id ≠ 0) :
    (block transfer).transferAt id = .identity := by
  simp [transferAt, node, block, h.symm]

theorem mem_outgoingEdges {e : AbstractEdge} (he : e ∈ cfg.edges) :
    e.id ∈ cfg.outgoingEdges e.source :=
  List.mem_map.2 ⟨e, List.mem_filter.2 ⟨he, by simp⟩, rfl⟩

theorem mem_incomingEdges {e : AbstractEdge} (he : e ∈ cfg.edges) :
    e.id ∈ cfg.incomingEdges e.target :=
  List.mem_map.2 ⟨e, List.mem_filter.2 ⟨he, by simp⟩, rfl⟩

theorem source_eq_of_mem_outgoingEdges {id : CfgNodeId} {e : AbstractEdge}
    (he : e ∈ cfg.edges) (h : e.id ∈ cfg.outgoingEdges id) : e.source = id := by
  obtain ⟨e', he', hid⟩ := List.mem_map.1 h
  obtain ⟨hmem, hsrc⟩ := List.mem_filter.1 he'
  rw [← edge_id_inj hmem he hid]
  simpa using hsrc

theorem target_eq_of_mem_incomingEdges {id : CfgNodeId} {e : AbstractEdge}
    (he : e ∈ cfg.edges) (h : e.id ∈ cfg.incomingEdges id) : e.target = id := by
  obtain ⟨e', he', hid⟩ := List.mem_map.1 h
  obtain ⟨hmem, htgt⟩ := List.mem_filter.1 he'
  rw [← edge_id_inj hmem he hid]
  simpa using htgt

/-- `topological_order` is the special case of no excluded edge. -/
theorem topologicalOrder_eq (cfg : AbstractCfg) :
    cfg.topologicalOrder = cfg.topologicalOrderExcluding ∅ := by
  simp [topologicalOrder, topologicalOrderExcluding]

/-- What a topological order of the remaining edges gives. -/
theorem topologicalOrderExcluding_sorted {excluded : Finset CfgEdgeId} {order : List CfgNodeId}
    (h : cfg.topologicalOrderExcluding excluded = some order) :
    order.Nodup ∧ (∀ n, n ∈ order ↔ n ∈ cfg.nodeIds) ∧
      Sorted (cfg.edges.filter (·.id ∉ excluded)) (·.source) (·.target) order :=
  kahn_sorted cfg.nodeIds_nodup (fun e he ↦ cfg.target_mem e (List.mem_of_mem_filter he)) h

end Lookup

end AbstractCfg

end MayMust
