import Mathlib.Data.List.Sort
import MayMust.Cfg.Execution
import MayMust.Library.Fallible

/-!
# Building a graph and giving it one exit

The adapter builds a graph with a handful of operations and calls `ensure_single_exit` at the end.
If one node is marked as a return, that node is the exit; if several are, a synthetic node without
effects is put behind all of them.

In every graph built so, whatever the order of the operations, the nodes marked as returns are
known nodes other than the entry (`marked_of_build`). This is what makes the call safe: it fails
only if there is no return, it does not change the executions between the nodes there are, and an
execution returns through the exit in a state exactly if it returns there through one of the marked
nodes (`returns_ensureSingleExit`).
-/

namespace MayMust

open Library

namespace AbstractCfg

/-! ### The source -/

/-- `AbstractCfg::set_entry_transfer`. -/
def setEntryTransfer (cfg : AbstractCfg) (transfer : TransferFn) : AbstractCfg :=
  cfg.setEffects cfg.entry transfer.effects

/-- `AbstractCfg::node_mut`, replacing the kind of a node. -/
def setKind (cfg : AbstractCfg) (id : CfgNodeId) (kind : NodeKind) : AbstractCfg :=
  let nodes := cfg.nodes.map fun n ↦ if n.id = id then { n with kind } else n
  have hid (n : AbstractNode) :
      (if n.id = id then { n with kind } else n : AbstractNode).id = n.id := by
    split <;> rfl
  have hids : nodes.map (·.id) = cfg.nodes.map (·.id) := by simp [nodes, hid]
  { cfg with
    nodes := nodes
    nodes_sorted := by simpa [nodes, List.pairwise_map, hid] using cfg.nodes_sorted
    node_lt := by simpa [nodes, hid] using cfg.node_lt
    entry_mem := hids ▸ cfg.entry_mem
    source_mem := fun e he ↦ hids ▸ cfg.source_mem e he
    target_mem := fun e he ↦ hids ▸ cfg.target_mem e he }

/-- Insert into a set, kept as a list in ascending order. -/
def insertSorted (id : CfgNodeId) (ids : List CfgNodeId) : List CfgNodeId :=
  if id ∈ ids then ids else ids.orderedInsert (· ≤ ·) id

/-- `AbstractCfg::mark_exit`. The entry is not marked. -/
def markExit (cfg : AbstractCfg) (id : CfgNodeId) : Except CfgError AbstractCfg :=
  if id = cfg.entry then .ok cfg
  else if id ∈ cfg.nodeIds then
    .ok { cfg.setKind id .exit with
      concreteExits := insertSorted id cfg.concreteExits
      exit := none }
  else .error (.unknownNode id)

/-- `AbstractCfg::append_edge_effects`. -/
def appendEdgeEffects (cfg : AbstractCfg) (id : CfgEdgeId) (effects : List TransferEffect) :
    Except CfgError AbstractCfg :=
  if id ∈ cfg.edges.map (·.id) then
    let edges := cfg.edges.map fun e ↦
      if e.id = id then { e with effects := e.effects ++ effects } else e
    have hmem {e : AbstractEdge} (he : e ∈ edges) : ∃ e' ∈ cfg.edges,
        e.id = e'.id ∧ e.source = e'.source ∧ e.target = e'.target := by
      obtain ⟨e', he', rfl⟩ := List.mem_map.1 he
      refine ⟨e', he', ?_⟩
      split <;> exact ⟨rfl, rfl, rfl⟩
    have hid (e : AbstractEdge) :
        (if e.id = id then { e with effects := e.effects ++ effects } else e : AbstractEdge).id =
          e.id := by
      split <;> rfl
    .ok { cfg with
      edges := edges
      edges_sorted := by simpa [edges, List.pairwise_map, hid] using cfg.edges_sorted
      edge_lt := by simpa [edges, hid] using cfg.edge_lt
      source_mem := fun e he ↦ by
        obtain ⟨e', he', -, hsource, -⟩ := hmem he
        exact hsource ▸ cfg.source_mem e' he'
      target_mem := fun e he ↦ by
        obtain ⟨e', he', -, -, htarget⟩ := hmem he
        exact htarget ▸ cfg.target_mem e' he' }
  else .error (.unknownEdge id)

/-- The edges from the returns to the synthetic exit. -/
def connectExits (synthetic : CfgNodeId) (cfg : AbstractCfg) (exits : List CfgNodeId) :
    Except CfgError AbstractCfg :=
  exits.foldlM (fun cfg exit ↦ (cfg.addEdge exit synthetic .tru []).map (·.2)) cfg

/-- `AbstractCfg::ensure_single_exit`: the exit, and the graph afterwards. -/
def ensureSingleExit (cfg : AbstractCfg) : Except CfgError (CfgNodeId × AbstractCfg) :=
  match cfg.exit with
  | some exit => .ok (exit, cfg)
  | none =>
    match cfg.concreteExits with
    | [] => .error .missingExit
    | [exit] => .ok (exit, { cfg with exit := some exit })
    | exits => do
      let (synthetic, cfg) := cfg.addNode "__synthetic_exit" .identity
      let cfg ← connectExits synthetic (cfg.setKind synthetic .syntheticExit) exits
      return (synthetic, { cfg with exit := some synthetic })

/-! ### Histories of a graph -/

/-- The operations by which a graph is built. -/
inductive BuildOp
  | addNode (label : String) (transfer : TransferFn)
  | setEntryTransfer (transfer : TransferFn)
  | setEffects (id : CfgNodeId) (effects : List TransferEffect)
  | markExit (id : CfgNodeId)
  | addEdge (source target : CfgNodeId) (guard : Formula) (effects : List TransferEffect)
  | appendEdgeEffects (id : CfgEdgeId) (effects : List TransferEffect)
  | removeEdge (id : CfgEdgeId)

/-- The graph after an operation. -/
def BuildOp.apply (cfg : AbstractCfg) : BuildOp → Except CfgError AbstractCfg
  | addNode label transfer => .ok (cfg.addNode label transfer).2
  | setEntryTransfer transfer => .ok (cfg.setEntryTransfer transfer)
  | setEffects id effects =>
    if id ∈ cfg.nodeIds then .ok (cfg.setEffects id effects) else .error (.unknownNode id)
  | markExit id => cfg.markExit id
  | addEdge source target guard effects => (cfg.addEdge source target guard effects).map (·.2)
  | appendEdgeEffects id effects => cfg.appendEdgeEffects id effects
  | removeEdge id => .ok (cfg.removeEdge id)

/-- The graph after some operations on a new one. -/
def build (entryLabel : String) (ops : List BuildOp) : Except CfgError AbstractCfg :=
  ops.foldlM BuildOp.apply (new entryLabel)

section Histories

variable {cfg cfg' : AbstractCfg} {id r : CfgNodeId} {ids : List CfgNodeId}

/-- What is true of the returns of a graph that is being built: they are known nodes other than the
entry, in order, and none of them has been made the exit. -/
structure Marked (cfg : AbstractCfg) : Prop where
  exit_eq : cfg.exit = none
  sorted : cfg.concreteExits.Pairwise (· < ·)
  known : ∀ r ∈ cfg.concreteExits, r ∈ cfg.nodeIds ∧ r ≠ cfg.entry

theorem mem_insertSorted : r ∈ insertSorted id ids ↔ r = id ∨ r ∈ ids := by
  rw [insertSorted]
  split_ifs with hid
  · constructor
    · exact Or.inr
    · rintro (rfl | hr)
      · exact hid
      · exact hr
  · exact List.mem_orderedInsert _

theorem pairwise_insertSorted (h : ids.Pairwise (· < ·)) :
    (insertSorted id ids).Pairwise (· < ·) := by
  rw [insertSorted]
  split_ifs with hid
  · exact h
  · have hsorted : (ids.orderedInsert (· ≤ ·) id).Pairwise (· ≤ ·) :=
      (h.imp Nat.le_of_lt).orderedInsert id
    have hnodup : (ids.orderedInsert (· ≤ ·) id).Nodup :=
      (List.perm_orderedInsert _ id ids).nodup_iff.2
        (List.nodup_cons.2 ⟨hid, h.imp Nat.ne_of_lt⟩)
    exact hsorted.imp₂ (fun _ _ ↦ lt_of_le_of_ne) hnodup

@[simp] theorem nodeIds_setKind (cfg : AbstractCfg) (id : CfgNodeId) (kind : NodeKind) :
    (cfg.setKind id kind).nodeIds = cfg.nodeIds := by
  simp only [nodeIds, setKind, List.map_map]
  refine List.map_congr_left fun n _ ↦ ?_
  simp only [Function.comp_apply]
  split <;> rfl

@[simp] theorem nodeIds_addNode (cfg : AbstractCfg) (label : String) (transfer : TransferFn) :
    (cfg.addNode label transfer).2.nodeIds = cfg.nodeIds ++ [cfg.nextNode] := by
  simp [nodeIds, addNode]

theorem addEdge_eq_ok {source target : CfgNodeId} {guard : Formula}
    {effects : List TransferEffect}
    (h : (cfg.addEdge source target guard effects).map (·.2) = .ok cfg') :
    cfg'.nodes = cfg.nodes ∧ cfg'.entry = cfg.entry ∧ cfg'.exit = cfg.exit ∧
      cfg'.concreteExits = cfg.concreteExits ∧
      cfg'.edges = cfg.edges ++ [⟨cfg.nextEdge, source, target, guard, effects⟩] := by
  rw [addEdge] at h
  split_ifs at h with hsource htarget
  · obtain rfl := Except.ok.inj h
    exact ⟨rfl, rfl, rfl, rfl, rfl⟩
  · cases h
  · cases h

/-- One operation keeps it. -/
theorem Marked.apply (h : cfg.Marked) {op : BuildOp} (hop : op.apply cfg = .ok cfg') :
    cfg'.Marked := by
  cases op with
  | addNode label transfer =>
    obtain rfl := Except.ok.inj hop
    refine ⟨h.exit_eq, h.sorted, fun r hr ↦ ⟨?_, (h.known r hr).2⟩⟩
    rw [nodeIds_addNode]
    exact List.mem_append_left _ (h.known r hr).1
  | setEntryTransfer transfer =>
    obtain rfl := Except.ok.inj hop
    refine ⟨h.exit_eq, h.sorted, fun r hr ↦ ?_⟩
    show r ∈ (cfg.setEffects cfg.entry transfer.effects).nodeIds ∧ r ≠ cfg.entry
    rw [nodeIds_setEffects]
    exact h.known r hr
  | setEffects id effects =>
    rw [BuildOp.apply] at hop
    split_ifs at hop
    obtain rfl := Except.ok.inj hop
    refine ⟨h.exit_eq, h.sorted, fun r hr ↦ ?_⟩
    show r ∈ (cfg.setEffects id effects).nodeIds ∧ r ≠ cfg.entry
    rw [nodeIds_setEffects]
    exact h.known r hr
  | markExit id =>
    rw [BuildOp.apply, markExit] at hop
    split_ifs at hop with hentry hid
    · obtain rfl := Except.ok.inj hop
      exact h
    · obtain rfl := Except.ok.inj hop
      refine ⟨rfl, pairwise_insertSorted h.sorted, fun r hr ↦ ?_⟩
      show r ∈ (cfg.setKind id .exit).nodeIds ∧ r ≠ cfg.entry
      rw [nodeIds_setKind]
      rcases mem_insertSorted.1 hr with rfl | hr
      · exact ⟨hid, hentry⟩
      · exact h.known r hr
  | addEdge source target guard effects =>
    obtain ⟨hnodes, hentry, hexit, hexits, -⟩ := addEdge_eq_ok hop
    refine ⟨hexit.trans h.exit_eq, hexits ▸ h.sorted, fun r hr ↦ ?_⟩
    rw [nodeIds, hnodes, hentry]
    exact h.known r (hexits ▸ hr)
  | appendEdgeEffects id effects =>
    rw [BuildOp.apply, appendEdgeEffects] at hop
    split_ifs at hop
    obtain rfl := Except.ok.inj hop
    exact ⟨h.exit_eq, h.sorted, h.known⟩
  | removeEdge id =>
    obtain rfl := Except.ok.inj hop
    exact ⟨h.exit_eq, h.sorted, h.known⟩

/-- It is true of every graph that has been built by the operations. -/
theorem marked_of_build {entryLabel : String} {ops : List BuildOp}
    (h : build entryLabel ops = .ok cfg) : cfg.Marked := by
  have hnew : (new entryLabel).Marked := ⟨rfl, List.Pairwise.nil, by simp [new]⟩
  rw [build, foldlM_eq_ok_iff] at h
  exact h.invariant (fun _ _ _ _ hop hmarked ↦ hmarked.apply hop) hnew

end Histories

/-! ### A node behind the returns -/

/-- An edge into a node that tests nothing and does nothing. -/
def Joins (e : AbstractEdge) (join : CfgNodeId) : Prop :=
  e.target = join ∧ e.guard = .tru ∧ e.effects = []

/-- The second graph is the first with a new node without effects behind some of its nodes. -/
structure JoinedAt (cfg cfg' : AbstractCfg) (exits : List CfgNodeId) (join : CfgNodeId) :
    Prop where
  entry_eq : cfg'.entry = cfg.entry
  fresh : join ∉ cfg.nodeIds
  transfer_join : cfg'.transferAt join = .identity
  transfer_eq : ∀ n, n ≠ join → cfg'.transferAt n = cfg.transferAt n
  edges_subset : ∀ e ∈ cfg.edges, e ∈ cfg'.edges
  mem_edges : ∀ e ∈ cfg'.edges, e ∈ cfg.edges ∨ e.source ∈ exits ∧ Joins e join
  exists_edge : ∀ r ∈ exits, ∃ e ∈ cfg'.edges, e.source = r ∧ Joins e join

/-- From a position, an execution gets to the end of a node, in some state. -/
def ReturnsAt (cfg : AbstractCfg) (sem : Semantics) (p : Position) (exit : CfgNodeId)
    (s : State) : Prop :=
  ∃ cs m, cfg.Run sem cs p ⟨exit, m⟩ ∧ (cfg.transferAt exit).Run sem m s

section Joined

variable {cfg cfg' : AbstractCfg} {exits : List CfgNodeId} {join : CfgNodeId} {sem : Semantics}
  {cs : List Crossing} {c : Crossing} {p q : Position} {s : State}

namespace JoinedAt

/-- No edge leaves the new node. -/
theorem source_ne (h : JoinedAt cfg cfg' exits join) (hexits : ∀ r ∈ exits, r ∈ cfg.nodeIds)
    {e : AbstractEdge} (he : e ∈ cfg'.edges) : e.source ≠ join := by
  rintro rfl
  rcases h.mem_edges e he with hold | ⟨hexit, -⟩
  · exact h.fresh (cfg.source_mem e hold)
  · exact h.fresh (hexits _ hexit)

theorem valid_iff (h : JoinedAt cfg cfg' exits join) (hexits : ∀ r ∈ exits, r ∈ cfg.nodeIds)
    (htarget : c.edge.target ≠ join) : c.Valid sem cfg' ↔ c.Valid sem cfg := by
  constructor
  · intro hvalid
    have hsource := h.source_ne hexits hvalid.edge_mem
    refine ⟨?_, h.transfer_eq _ hsource ▸ hvalid.transfer, hvalid.guard, hvalid.effects⟩
    exact (h.mem_edges _ hvalid.edge_mem).resolve_right fun hnew ↦ htarget hnew.2.1
  · intro hvalid
    have hedge := h.edges_subset _ hvalid.edge_mem
    have hsource := h.source_ne hexits hedge
    exact ⟨hedge, (h.transfer_eq _ hsource).symm ▸ hvalid.transfer, hvalid.guard, hvalid.effects⟩

/-- Executions that do not end in the new node are those of the old graph. -/
theorem run_iff (h : JoinedAt cfg cfg' exits join) (hexits : ∀ r ∈ exits, r ∈ cfg.nodeIds)
    (hq : q.node ≠ join) : cfg'.Run sem cs p q ↔ cfg.Run sem cs p q := by
  induction cs generalizing p with
  | nil => exact Iff.rfl
  | cons c cs ih =>
    constructor
    · rintro ⟨m, ⟨hvalid, rfl, rfl⟩, hrest⟩
      have htarget : c.edge.target ≠ join := by
        intro heq
        cases cs with
        | nil => exact hq (congrArg Position.node hrest ▸ heq)
        | cons c' cs =>
          -- The next crossing would start in the new node.
          obtain ⟨m', ⟨hvalid', hm, -⟩, -⟩ := hrest
          exact h.source_ne hexits hvalid'.edge_mem ((Position.mk.inj hm).1 ▸ heq)
      exact ⟨_, ⟨(h.valid_iff hexits htarget).1 hvalid, rfl, rfl⟩, ih.1 hrest⟩
    · rintro ⟨m, ⟨hvalid, rfl, rfl⟩, hrest⟩
      have htarget : c.edge.target ≠ join := fun heq ↦
        h.fresh (heq ▸ cfg.target_mem _ hvalid.edge_mem)
      exact ⟨_, ⟨(h.valid_iff hexits htarget).2 hvalid, rfl, rfl⟩, ih.2 hrest⟩

/-- An execution gets to the new node through one of the nodes in front of it, in the state in
which that node is left. -/
theorem returnsAt_iff (h : JoinedAt cfg cfg' exits join) (hexits : ∀ r ∈ exits, r ∈ cfg.nodeIds)
    (hp : p.node ∈ cfg.nodeIds) :
    cfg'.ReturnsAt sem p join s ↔ ∃ r ∈ exits, cfg.ReturnsAt sem p r s := by
  constructor
  · rintro ⟨cs, m, hrun, htransfer⟩
    rw [h.transfer_join] at htransfer
    obtain rfl : m = s := htransfer
    rcases List.eq_nil_or_concat cs with rfl | ⟨cs, c, rfl⟩
    · obtain rfl : p = ⟨join, m⟩ := hrun
      exact absurd hp h.fresh
    · rw [List.concat_eq_append] at hrun
      obtain ⟨q, hfirst, hlast⟩ := Path.append_iff.1 hrun
      obtain ⟨hvalid, rfl, hq⟩ := Path.singleton_iff.1 hlast
      obtain ⟨rfl, rfl⟩ := Position.mk.inj hq
      have hsource := h.source_ne hexits hvalid.edge_mem
      have hnew := (h.mem_edges _ hvalid.edge_mem).resolve_left fun hold ↦
        h.fresh (cfg.target_mem _ hold)
      obtain ⟨hexit, -, -, heffects⟩ := hnew
      have hpost := hvalid.effects
      rw [heffects] at hpost
      replace hpost : c.mid = c.post := hpost
      refine ⟨_, hexit, cs, c.pre, (h.run_iff hexits hsource).1 hfirst, ?_⟩
      rw [← h.transfer_eq _ hsource, ← hpost]
      exact hvalid.transfer
  · rintro ⟨r, hr, cs, m, hrun, htransfer⟩
    obtain ⟨e, he, rfl, rfl, hguard, heffects⟩ := h.exists_edge r hr
    have hsource := h.source_ne hexits he
    have hcross : cfg'.Crosses sem ⟨e, m, s, s⟩ ⟨e.source, m⟩ ⟨e.target, s⟩ := by
      refine ⟨⟨he, (h.transfer_eq _ hsource).symm ▸ htransfer, ?_, ?_⟩, rfl, rfl⟩
      · show e.guard.Holds s
        rw [hguard]
        exact Formula.holds_tru s
      · show Effects.Run sem e.effects s s
        rw [heffects]
        rfl
    refine ⟨cs ++ [⟨e, m, s, s⟩], s,
      Path.append ((h.run_iff hexits hsource).2 hrun) (Path.singleton_iff.2 hcross), ?_⟩
    rw [h.transfer_join]
    rfl

end JoinedAt

end Joined

/-! ### The single exit -/

section SingleExit

variable {cfg cfg' : AbstractCfg} {exits : List CfgNodeId} {exit join n : CfgNodeId}
  {sem : Semantics} {p : Position} {s : State}

theorem transferAt_congr (h : cfg'.nodes = cfg.nodes) (n : CfgNodeId) :
    cfg'.transferAt n = cfg.transferAt n := by
  rw [transferAt, transferAt, node, node, h]

/-- Executions depend on the nodes and the edges only. -/
theorem run_congr {cs : List Crossing} {q : Position} (hnodes : cfg'.nodes = cfg.nodes)
    (hedges : cfg'.edges = cfg.edges) : cfg'.Run sem cs p q ↔ cfg.Run sem cs p q := by
  have hvalid (c : Crossing) : c.Valid sem cfg' ↔ c.Valid sem cfg := by
    constructor
    · intro h
      exact ⟨hedges ▸ h.edge_mem, transferAt_congr hnodes _ ▸ h.transfer, h.guard, h.effects⟩
    · intro h
      exact ⟨hedges.symm ▸ h.edge_mem, (transferAt_congr hnodes _).symm ▸ h.transfer, h.guard,
        h.effects⟩
  constructor
  · exact Path.mono fun c _ _ _ hcross ↦ ⟨(hvalid c).1 hcross.1, hcross.2⟩
  · exact Path.mono fun c _ _ _ hcross ↦ ⟨(hvalid c).2 hcross.1, hcross.2⟩

theorem returnsAt_congr (hnodes : cfg'.nodes = cfg.nodes) (hedges : cfg'.edges = cfg.edges) :
    cfg'.ReturnsAt sem p exit s ↔ cfg.ReturnsAt sem p exit s := by
  simp only [ReturnsAt, run_congr hnodes hedges, transferAt_congr hnodes]

theorem transferAt_of_mem {node : AbstractNode} (h : node ∈ cfg.nodes) :
    cfg.transferAt node.id = node.transfer :=
  transferAt_eq (node_eq_ok h)

theorem transferAt_of_notMem (h : n ∉ cfg.nodeIds) : cfg.transferAt n = .identity := by
  rw [transferAt]
  split
  · rename_i node hnode
    obtain ⟨hmem, rfl⟩ := mem_of_node_eq_ok hnode
    exact absurd (List.mem_map_of_mem hmem) h
  · rfl

@[simp] theorem transferAt_setKind (cfg : AbstractCfg) (id : CfgNodeId) (kind : NodeKind)
    (n : CfgNodeId) : (cfg.setKind id kind).transferAt n = cfg.transferAt n := by
  by_cases hn : n ∈ cfg.nodeIds
  · obtain ⟨node, hnode, rfl⟩ := List.mem_map.1 hn
    have hmem : (if node.id = id then { node with kind } else node : AbstractNode) ∈
        (cfg.setKind id kind).nodes := List.mem_map_of_mem hnode
    have hid : (if node.id = id then { node with kind } else node : AbstractNode).id = node.id := by
      split <;> rfl
    rw [transferAt_of_mem hnode, ← hid, transferAt_of_mem hmem]
    split <;> rfl
  · rw [transferAt_of_notMem hn, transferAt_of_notMem (by simpa using hn)]

theorem transferAt_addNode (cfg : AbstractCfg) (label : String) (transfer : TransferFn) :
    (cfg.addNode label transfer).2.transferAt cfg.nextNode = transfer := by
  have hmem : (⟨cfg.nextNode, label, .normal, transfer⟩ : AbstractNode) ∈
      (cfg.addNode label transfer).2.nodes :=
    List.mem_append_right _ (List.mem_singleton.2 rfl)
  exact transferAt_of_mem hmem

theorem transferAt_addNode_of_ne (label : String) (transfer : TransferFn) (h : n ≠ cfg.nextNode) :
    (cfg.addNode label transfer).2.transferAt n = cfg.transferAt n := by
  by_cases hn : n ∈ cfg.nodeIds
  · obtain ⟨node, hnode, rfl⟩ := List.mem_map.1 hn
    have hmem : node ∈ (cfg.addNode label transfer).2.nodes := List.mem_append_left _ hnode
    rw [transferAt_of_mem hnode, transferAt_of_mem hmem]
  · rw [transferAt_of_notMem hn, transferAt_of_notMem]
    rw [nodeIds_addNode, List.mem_append, List.mem_singleton]
    exact fun hmem ↦ hmem.elim hn h

theorem nextNode_notMem (cfg : AbstractCfg) : cfg.nextNode ∉ cfg.nodeIds := by
  intro hmem
  obtain ⟨node, hnode, hid⟩ := List.mem_map.1 hmem
  exact absurd (cfg.node_lt node hnode) (hid ▸ Nat.lt_irrefl _)

/-- The edges to the synthetic exit are added, and nothing else changes. -/
theorem connectExits_eq_ok (h : connectExits join cfg exits = .ok cfg') :
    cfg'.nodes = cfg.nodes ∧ cfg'.entry = cfg.entry ∧ ∃ added, cfg'.edges = cfg.edges ++ added ∧
      (∀ e ∈ added, e.source ∈ exits ∧ Joins e join) ∧
      ∀ r ∈ exits, ∃ e ∈ added, e.source = r ∧ Joins e join := by
  induction exits generalizing cfg with
  | nil =>
    obtain rfl := Except.ok.inj h
    exact ⟨rfl, rfl, [], by simp, by simp, by simp⟩
  | cons r exits ih =>
    rw [connectExits, List.foldlM_cons, bind_eq_ok] at h
    obtain ⟨mid, hadd, hrest⟩ := h
    obtain ⟨hnodes, hentry, -, -, hedges⟩ := addEdge_eq_ok hadd
    obtain ⟨hnodes', hentry', added, hedges', hsound, htotal⟩ := ih hrest
    refine ⟨hnodes'.trans hnodes, hentry'.trans hentry,
      ⟨cfg.nextEdge, r, join, .tru, []⟩ :: added, ?_, ?_, ?_⟩
    · rw [hedges', hedges, List.append_assoc, List.singleton_append]
    · refine List.forall_mem_cons.2 ⟨⟨List.mem_cons_self, rfl, rfl, rfl⟩, fun e he ↦ ?_⟩
      exact ⟨List.mem_cons_of_mem r (hsound e he).1, (hsound e he).2⟩
    · refine List.forall_mem_cons.2 ⟨⟨_, List.mem_cons_self, rfl, rfl, rfl, rfl⟩, fun r' hr' ↦ ?_⟩
      obtain ⟨e, he, hjoins⟩ := htotal r' hr'
      exact ⟨e, List.mem_cons_of_mem _ he, hjoins⟩

theorem exists_connectExits (hjoin : join ∈ cfg.nodeIds) (hexits : ∀ r ∈ exits, r ∈ cfg.nodeIds) :
    ∃ cfg', connectExits join cfg exits = .ok cfg' := by
  have hstep : ∀ r ∈ exits, ∀ mid : AbstractCfg, mid.nodeIds = cfg.nodeIds →
      ∃ next, (mid.addEdge r join .tru []).map (·.2) = .ok next ∧ next.nodeIds = cfg.nodeIds := by
    intro r hr mid hmid
    rw [← hmid] at hexits hjoin
    have hr' : r ∈ mid.nodes.map (·.id) := hexits r hr
    have hjoin' : join ∈ mid.nodes.map (·.id) := hjoin
    simp only [addEdge, hr', hjoin', dif_pos]
    exact ⟨_, rfl, hmid⟩
  obtain ⟨cfg', hcfg', -⟩ := exists_foldlM_eq_ok hstep rfl
  exact ⟨cfg', hcfg'⟩

/-- A graph with several returns gets a new node behind them. -/
theorem joinedAt_of_connectExits (hjoin : join = cfg.nextNode)
    (h : connectExits join (((cfg.addNode "__synthetic_exit" .identity).2).setKind join
      .syntheticExit) exits = .ok cfg') : JoinedAt cfg cfg' exits join := by
  subst hjoin
  obtain ⟨hnodes, hentry, added, hedges, hsound, htotal⟩ := connectExits_eq_ok h
  have htransfer (n : CfgNodeId) :
      cfg'.transferAt n = (cfg.addNode "__synthetic_exit" .identity).2.transferAt n := by
    rw [transferAt_congr hnodes, transferAt_setKind]
  refine ⟨hentry, nextNode_notMem cfg, ?_, fun n hn ↦ ?_, fun e he ↦ ?_, fun e he ↦ ?_,
    fun r hr ↦ ?_⟩
  · rw [htransfer, transferAt_addNode]
  · rw [htransfer, transferAt_addNode_of_ne _ _ hn]
  · rw [hedges]
    exact List.mem_append_left _ he
  · rw [hedges] at he
    exact (List.mem_append.1 he).imp_right (hsound e)
  · obtain ⟨e, he, hjoins⟩ := htotal r hr
    rw [hedges]
    exact ⟨e, List.mem_append_right _ he, hjoins⟩

/-- The two ways to an exit: the only return, or a new node behind all returns. -/
theorem ensureSingleExit_eq_ok (hmarked : cfg.Marked)
    (h : cfg.ensureSingleExit = .ok (exit, cfg')) :
    cfg'.exit = some exit ∧ (cfg.concreteExits = [exit] ∧ cfg' = { cfg with exit := some exit } ∨
      JoinedAt cfg cfg' cfg.concreteExits exit) := by
  rw [ensureSingleExit, hmarked.exit_eq] at h
  rcases hexits : cfg.concreteExits with _ | ⟨r, _ | ⟨r', rest⟩⟩
  · rw [hexits] at h
    cases h
  · rw [hexits] at h
    obtain ⟨rfl, rfl⟩ := Prod.mk.inj (Except.ok.inj h)
    exact ⟨rfl, Or.inl ⟨rfl, rfl⟩⟩
  · rw [hexits] at h
    simp only [bind_eq_ok, pure_eq_ok, Prod.mk.injEq] at h
    obtain ⟨joined, hjoined, rfl, rfl⟩ := h
    have hjoinedAt := joinedAt_of_connectExits rfl hjoined
    exact ⟨rfl, Or.inr ⟨hjoinedAt.entry_eq, hjoinedAt.fresh, hjoinedAt.transfer_join,
      hjoinedAt.transfer_eq, hjoinedAt.edges_subset, hjoinedAt.mem_edges, hjoinedAt.exists_edge⟩⟩

theorem exists_ensureSingleExit_iff (hmarked : cfg.Marked) :
    (∃ r, cfg.ensureSingleExit = .ok r) ↔ cfg.concreteExits ≠ [] := by
  rw [ensureSingleExit, hmarked.exit_eq]
  rcases hexits : cfg.concreteExits with _ | ⟨r, _ | ⟨r', rest⟩⟩
  · simp
  · simp
  · refine ⟨fun _ ↦ List.cons_ne_nil _ _, fun _ ↦ ?_⟩
    obtain ⟨joined, hjoined⟩ := @exists_connectExits
      ((cfg.addNode "__synthetic_exit" .identity).2.setKind cfg.nextNode .syntheticExit)
      (r :: r' :: rest) cfg.nextNode (by simp) fun e he ↦ by
        rw [nodeIds_setKind, nodeIds_addNode]
        exact List.mem_append_left _ (hmarked.known e (hexits ▸ he)).1
    exact ⟨(cfg.nextNode, { joined with exit := some cfg.nextNode }),
      bind_eq_ok.2 ⟨joined, hjoined, rfl⟩⟩

/-- The executions between the old nodes are the same. -/
theorem run_ensureSingleExit_iff (hmarked : cfg.Marked)
    (h : cfg.ensureSingleExit = .ok (exit, cfg')) {cs : List Crossing} {q : Position}
    (hq : q.node ∈ cfg.nodeIds) : cfg'.Run sem cs p q ↔ cfg.Run sem cs p q := by
  have hknown : ∀ r ∈ cfg.concreteExits, r ∈ cfg.nodeIds := fun r hr ↦ (hmarked.known r hr).1
  rcases (ensureSingleExit_eq_ok hmarked h).2 with ⟨-, rfl⟩ | hjoined
  · exact run_congr rfl rfl
  · exact hjoined.run_iff hknown fun heq ↦ hjoined.fresh (heq ▸ hq)

/-- The executions through the exit are those through the returns. -/
theorem returnsAt_ensureSingleExit_iff (hmarked : cfg.Marked)
    (h : cfg.ensureSingleExit = .ok (exit, cfg')) (hp : p.node ∈ cfg.nodeIds) :
    cfg'.ReturnsAt sem p exit s ↔ ∃ r ∈ cfg.concreteExits, cfg.ReturnsAt sem p r s := by
  have hknown : ∀ r ∈ cfg.concreteExits, r ∈ cfg.nodeIds := fun r hr ↦ (hmarked.known r hr).1
  rcases (ensureSingleExit_eq_ok hmarked h).2 with ⟨honly, rfl⟩ | hjoined
  · have hsame : ({ cfg with exit := some exit } : AbstractCfg).ReturnsAt sem p exit s ↔
        cfg.ReturnsAt sem p exit s := returnsAt_congr rfl rfl
    rw [hsame, honly]
    constructor
    · exact fun hreturns ↦ ⟨exit, List.mem_singleton.2 rfl, hreturns⟩
    · rintro ⟨r, hr, hreturns⟩
      rwa [← List.mem_singleton.1 hr]
  · exact hjoined.returnsAt_iff hknown hp

theorem entry_ensureSingleExit (hmarked : cfg.Marked)
    (h : cfg.ensureSingleExit = .ok (exit, cfg')) : cfg'.entry = cfg.entry := by
  rcases (ensureSingleExit_eq_ok hmarked h).2 with ⟨-, rfl⟩ | hjoined
  · rfl
  · exact hjoined.entry_eq

/-- **One exit, the same executions.** In every graph built by the operations, the call succeeds
exactly if there is a return. The executions that end in one of the old nodes are then the same, and
an execution gets to the end of the exit in a state exactly if it gets to the end of one of the
returns in it. -/
theorem returns_ensureSingleExit {entryLabel : String} {ops : List BuildOp}
    (hbuilt : build entryLabel ops = .ok cfg) :
    ((∃ r, cfg.ensureSingleExit = .ok r) ↔ cfg.concreteExits ≠ []) ∧
      ∀ exit cfg', cfg.ensureSingleExit = .ok (exit, cfg') →
        cfg'.exit = some exit ∧ cfg'.entry = cfg.entry ∧
        ∀ sem p, p.node ∈ cfg.nodeIds →
          (∀ cs q, q.node ∈ cfg.nodeIds → (cfg'.Run sem cs p q ↔ cfg.Run sem cs p q)) ∧
          ∀ s, cfg'.ReturnsAt sem p exit s ↔ ∃ r ∈ cfg.concreteExits, cfg.ReturnsAt sem p r s := by
  have hmarked := marked_of_build hbuilt
  refine ⟨exists_ensureSingleExit_iff hmarked, fun exit cfg' h ↦
    ⟨(ensureSingleExit_eq_ok hmarked h).1, entry_ensureSingleExit hmarked h, fun sem p hp ↦
      ⟨fun cs q hq ↦ run_ensureSingleExit_iff hmarked h hq, fun s ↦ ?_⟩⟩⟩
  exact returnsAt_ensureSingleExit_iff hmarked h hp

/-- The general statement at a graph with two returns, which gets a third node. -/
theorem returns_ensureSingleExit_two :
    ∃ cfg cfg' exit, build "entry" [.addNode "ret" .identity, .addNode "ret" .identity,
        .addEdge 0 1 .tru [], .addEdge 0 2 .tru [], .markExit 2, .markExit 1] = .ok cfg ∧
      cfg.concreteExits = [1, 2] ∧ cfg.ensureSingleExit = .ok (exit, cfg') ∧
      cfg'.entry = cfg.entry := by
  obtain ⟨cfg, hbuilt, hexits⟩ := map_eq_ok.1 (show (build "entry" [.addNode "ret" .identity,
    .addNode "ret" .identity, .addEdge 0 1 .tru [], .addEdge 0 2 .tru [], .markExit 2,
    .markExit 1]).map (·.concreteExits) = .ok [1, 2] by decide)
  obtain ⟨hsucceeds, hsame⟩ := returns_ensureSingleExit hbuilt
  obtain ⟨⟨exit, cfg'⟩, h⟩ := hsucceeds.2 (by simp [hexits])
  exact ⟨cfg, cfg', exit, hbuilt, hexits, h, (hsame exit cfg' h).2.1⟩

end SingleExit

end AbstractCfg

end MayMust
