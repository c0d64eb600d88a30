import Mathlib.Logic.Relation
import MayMust.Cfg.Adapter.PhiEdges
import MayMust.Cfg.SingleExit

/-!
# From a function to its graph

`adapt_with_purity_and_summaries` of the source makes a node of every visible instruction, marks the
returns, adds the edges with their guards, appends the assignments of the PHIs to them, and gives
the graph one exit. Here the effects of the single instructions are a parameter (the families of
instructions have modules of their own), and so is the order in which a hash map yields the edges.

A function is executed instruction by instruction. From a terminator control may go to the first
instruction of a block which the terminator takes, and the block's PHIs are assigned in parallel.
The executions of the graph are those of the function (`executes_iff_of_adapt`), unless a
conditional branch has one target: then the graph has fewer. And the function is adapted exactly if
its parts are supported and it has a return other than its first instruction
(`exists_adapt_iff`).

The passes that read the graph afterwards (assertions, assumptions, memory, summaries) are not part
of this module.
-/

namespace MayMust

namespace Lowering

open Library Relation

/-! ### The source -/

/-- What is printed for an instruction. -/
def Instruction.printed : Instruction → String
  | phi instruction => instruction.result.printed
  | body instruction => instruction.printed
  | terminator instruction => instruction.printed

/-- `is_return_instruction`. -/
def Instruction.isReturnInstruction : Instruction → Bool
  | terminator ⟨_, .ret⟩ => true
  | _ => false

namespace LlvmFunction

variable (f : LlvmFunction)

/-- What is printed for the instruction of a handle. -/
def printed (x : InstructionId) : String := ((f.instruction? x).map (·.printed)).getD ""

/-- The instruction of the handle is a return. -/
def isReturn (x : InstructionId) : Bool := (f.instruction? x).any (·.isReturnInstruction)

/-- `FunctionGraph::start`: the first visible instruction. -/
def start : Option InstructionId := f.blockIds.findSome? fun k ↦ (f.visible k).head?

/-- `FunctionGraph::end`: the visible returns. -/
def ends : List InstructionId := (f.blockIds.flatMap f.visible).filter f.isReturn

end LlvmFunction

/-- `AdapterError`, with the errors of the construction of the graph. -/
inductive AssemblyError
  | missingStart
  | adapter (error : AdapterError)
  | cfg (error : CfgError)
  deriving DecidableEq

/-- `lower_node_transfer`: a PHI has no effects of its own. -/
def lowerNodeTransfer (f : LlvmFunction) (lower : InstructionId → Except AdapterError TransferFn)
    (x : InstructionId) : Except AdapterError TransferFn :=
  match f.instruction? x with
  | some (.phi _) => .ok .identity
  | _ => lower x

/-- A graph and the nodes of the instructions (`instruction_nodes`). -/
structure Adapted where
  cfg : AbstractCfg
  node : InstructionId → Option CfgNodeId

/-- The body of the loop over the vertices. -/
def addInstructionNode (f : LlvmFunction) (lower : InstructionId → Except AdapterError TransferFn)
    (start : InstructionId) (a : Adapted) (x : InstructionId) : Except AssemblyError Adapted :=
  if x = start then .ok a
  else do
    let transfer ← (lowerNodeTransfer f lower x).mapError .adapter
    let (id, cfg) := a.cfg.addNode (f.printed x) transfer
    return ⟨cfg, Function.update a.node x (some id)⟩

/-- The body of the loop over the returns. -/
def markReturn (node : InstructionId → Option CfgNodeId) (cfg : AbstractCfg) (x : InstructionId) :
    Except AssemblyError AbstractCfg :=
  match node x with
  | some id => (cfg.markExit id).mapError .cfg
  | none => .ok cfg

/-- The body of the loop over the edges. -/
def addInstructionEdge (node : InstructionId → Option CfgNodeId) (cfg : AbstractCfg)
    (e : LoweredEdge) : Except AssemblyError AbstractCfg :=
  match node e.source, node e.target with
  | some source, some target =>
    ((cfg.addEdge source target e.guard e.effects).map (·.2)).mapError .cfg
  | _, _ => .error .missingStart

/-- The entry node, for the first instruction. -/
def entryNode (f : LlvmFunction) (start : InstructionId) (transfer : TransferFn) : Adapted :=
  let cfg := (AbstractCfg.new (f.printed start)).setEntryTransfer transfer
  ⟨cfg, Function.update (fun _ ↦ none) start (some cfg.entry)⟩

/-- `adapt_with_purity_and_summaries`, up to the single exit. The edges are kept in a list until the
assignments of the PHIs have been appended. -/
def adapt (f : LlvmFunction) (lower : InstructionId → Except AdapterError TransferFn)
    (order : List LoweredEdge → List LoweredEdge) : Except AssemblyError Adapted :=
  match f.start with
  | none => .error .missingStart
  | some start => do
    let transfer ← (lowerNodeTransfer f lower start).mapError .adapter
    let a ← (FunctionGraph.new f).vertices.foldlM (addInstructionNode f lower start)
      (entryNode f start transfer)
    let cfg ← f.ends.foldlM (markReturn a.node) a.cfg
    let edges ← (lowerEdges f).mapError .adapter
    let edges ← (lowerPhiEdgeEffects f edges).mapError .adapter
    let cfg ← (order edges).foldlM (addInstructionEdge a.node) cfg
    let (_, cfg) ← cfg.ensureSingleExit.mapError .cfg
    return ⟨cfg, a.node⟩

/-! ### Executions of a function -/

/-- An instruction and the state in which it is executed. -/
structure At where
  instruction : InstructionId
  state : State

/-- The state changes that way when control goes from one instruction to another: behind a
terminator the PHIs of the block are assigned in parallel, and otherwise nothing happens. -/
inductive Enters (f : LlvmFunction) (x y : InstructionId) (s : State) : State → Prop
  | inside (hx : ∀ t, f.instruction? x ≠ some (.terminator t)) : Enters f x y s s
  | across {t : Terminator} {b : BasicBlock} {s' : State}
      (hx : f.instruction? x = some (.terminator t)) (hb : f.blocks[y.block]? = some b)
      (hphis : ParallelAssignment f b x.block s s') (hundefined : s.SameUndefined s') :
      Enters f x y s s'

/-- An instruction is executed. -/
def Executed (f : LlvmFunction) (lower : InstructionId → Except AdapterError TransferFn)
    (sem : Semantics) (p : At) (s : State) : Prop :=
  ∃ transfer, lowerNodeTransfer f lower p.instruction = .ok transfer ∧ transfer.Run sem p.state s

/-- An instruction is executed, and control goes on to another one. -/
def Steps (f : LlvmFunction) (lower : InstructionId → Except AdapterError TransferFn)
    (sem : Semantics) (p q : At) : Prop :=
  ∃ m, Executed f lower sem p m ∧ Moves f m p.instruction q.instruction ∧
    Enters f p.instruction q.instruction m q.state

/-- The function, called in a state, gets to an instruction in a state. -/
def Executes (f : LlvmFunction) (lower : InstructionId → Except AdapterError TransferFn)
    (sem : Semantics) (s : State) (p : At) : Prop :=
  ∃ start, f.start = some start ∧ ReflTransGen (Steps f lower sem) ⟨start, s⟩ p

/-- The function, called in a state, returns in a state. -/
def Returns (f : LlvmFunction) (lower : InstructionId → Except AdapterError TransferFn)
    (sem : Semantics) (s s' : State) : Prop :=
  ∃ p, f.isReturn p.instruction ∧ Executes f lower sem s p ∧ Executed f lower sem p s'

/-! ### The nodes and the edges -/

section Construction

variable {f : LlvmFunction} {lower : InstructionId → Except AdapterError TransferFn}
  {start x y : InstructionId} {xs : List InstructionId} {a a' : Adapted} {cfg cfg' : AbstractCfg}
  {node : InstructionId → Option CfgNodeId} {n : CfgNodeId}

/-- Some instructions, and the first one, have nodes of their own with their effects. -/
structure NodesFor (f : LlvmFunction) (lower : InstructionId → Except AdapterError TransferFn)
    (start : InstructionId) (a : Adapted) (xs : List InstructionId) : Prop where
  start_eq : a.node start = some a.cfg.entry
  exists_node_iff : ∀ x, (∃ n, a.node x = some n) ↔ x = start ∨ x ∈ xs
  inj : ∀ x y n, a.node x = some n → a.node y = some n → x = y
  known : ∀ x n, a.node x = some n → n ∈ a.cfg.nodeIds
  lowers : ∀ x n, a.node x = some n → lowerNodeTransfer f lower x = .ok (a.cfg.transferAt n)

theorem node_entryNode {transfer : TransferFn} :
    (entryNode f start transfer).node x = if x = start then some 0 else none := by
  show Function.update (fun _ ↦ none) start (some 0) x = _
  rw [Function.update_apply]

theorem nodesFor_entryNode {transfer : TransferFn}
    (h : lowerNodeTransfer f lower start = .ok transfer) :
    NodesFor f lower start (entryNode f start transfer) [] := by
  have hnode {x : InstructionId} {n : CfgNodeId}
      (h : (entryNode f start transfer).node x = some n) : x = start ∧ n = 0 := by
    rw [node_entryNode] at h
    split_ifs at h with hx
    exact ⟨hx, (Option.some.inj h).symm⟩
  refine ⟨node_entryNode.trans (if_pos rfl), fun x ↦ ⟨?_, ?_⟩, fun x y n hx hy ↦ ?_,
    fun x n hx ↦ ?_, fun x n hx ↦ ?_⟩
  · rintro ⟨n, hn⟩
    exact Or.inl (hnode hn).1
  · rintro (rfl | hx)
    · exact ⟨_, node_entryNode.trans (if_pos rfl)⟩
    · cases hx
  · exact (hnode hx).1.trans (hnode hy).1.symm
  · obtain ⟨-, rfl⟩ := hnode hx
    exact (entryNode f start transfer).cfg.entry_mem
  · obtain ⟨rfl, rfl⟩ := hnode hx
    rw [h]
    rfl

/-- Instructions other than the first get a new node. -/
theorem addInstructionNode_eq_ok (hx : x ≠ start)
    (h : addInstructionNode f lower start a x = .ok a') :
    ∃ transfer, lowerNodeTransfer f lower x = .ok transfer ∧
      a'.cfg = (a.cfg.addNode (f.printed x) transfer).2 ∧
      a'.node = Function.update a.node x (some a.cfg.nextNode) := by
  rw [addInstructionNode, if_neg hx] at h
  obtain ⟨transfer, hlower, hadd⟩ := bind_eq_ok.1 h
  obtain rfl := pure_eq_ok.1 hadd
  exact ⟨transfer, ok_of_mapError.1 hlower, rfl, rfl⟩

theorem NodesFor.addInstructionNode (h : NodesFor f lower start a xs)
    (ha : addInstructionNode f lower start a x = .ok a') :
    NodesFor f lower start a' (xs ++ [x]) := by
  rcases eq_or_ne x start with rfl | hstart
  · rw [Lowering.addInstructionNode, if_pos rfl] at ha
    obtain rfl := Except.ok.inj ha
    refine ⟨h.start_eq, fun y ↦ ?_, h.inj, h.known, h.lowers⟩
    rw [h.exists_node_iff, List.mem_append, List.mem_singleton]
    tauto
  · obtain ⟨transfer, hlower, hcfg, hnode⟩ := addInstructionNode_eq_ok hstart ha
    -- The new node is none of the old ones.
    have hfresh {z : InstructionId} {n : CfgNodeId} (hz : a.node z = some n) :
        n ≠ a.cfg.nextNode := by
      rintro rfl
      exact AbstractCfg.nextNode_notMem a.cfg (h.known z _ hz)
    have hnode' {z : InstructionId} {n : CfgNodeId} (hz : a'.node z = some n) :
        z = x ∧ n = a.cfg.nextNode ∨ z ≠ x ∧ a.node z = some n := by
      rw [hnode, Function.update_apply] at hz
      split_ifs at hz with hzx
      · exact Or.inl ⟨hzx, (Option.some.inj hz).symm⟩
      · exact Or.inr ⟨hzx, hz⟩
    refine ⟨?_, fun y ↦ ?_, fun y z n hy hz ↦ ?_, fun y n hy ↦ ?_, fun y n hy ↦ ?_⟩
    · rw [hnode, hcfg, Function.update_of_ne hstart.symm]
      exact h.start_eq
    · rw [hnode, List.mem_append, List.mem_singleton]
      rcases eq_or_ne y x with rfl | hne
      · simp
      · simp only [Function.update_of_ne hne, h.exists_node_iff, hne, or_false]
    · rcases hnode' hy with ⟨rfl, rfl⟩ | ⟨-, hy⟩
      · rcases hnode' hz with ⟨rfl, -⟩ | ⟨-, hz⟩
        · rfl
        · exact absurd rfl (hfresh hz)
      · rcases hnode' hz with ⟨-, rfl⟩ | ⟨-, hz⟩
        · exact absurd rfl (hfresh hy)
        · exact h.inj y z n hy hz
    · rw [hcfg, AbstractCfg.nodeIds_addNode, List.mem_append, List.mem_singleton]
      rcases hnode' hy with ⟨-, rfl⟩ | ⟨-, hy⟩
      · exact Or.inr rfl
      · exact Or.inl (h.known y n hy)
    · rw [hcfg]
      rcases hnode' hy with ⟨rfl, rfl⟩ | ⟨-, hy⟩
      · rw [hlower, AbstractCfg.transferAt_addNode]
      · rw [h.lowers y n hy, AbstractCfg.transferAt_addNode_of_ne _ _ (hfresh hy)]

/-- What the construction of the nodes leaves as it is. -/
structure NoEdges (cfg : AbstractCfg) : Prop where
  edges_eq : cfg.edges = []
  exits_eq : cfg.concreteExits = []
  marked : cfg.Marked

theorem NoEdges.addInstructionNode (h : NoEdges a.cfg)
    (ha : addInstructionNode f lower start a x = .ok a') : NoEdges a'.cfg := by
  rcases eq_or_ne x start with rfl | hstart
  · rw [Lowering.addInstructionNode, if_pos rfl] at ha
    rwa [← Except.ok.inj ha]
  · obtain ⟨transfer, -, hcfg, -⟩ := addInstructionNode_eq_ok hstart ha
    have hop : (AbstractCfg.BuildOp.addNode (f.printed x) transfer).apply a.cfg =
        .ok (a.cfg.addNode (f.printed x) transfer).2 := rfl
    rw [hcfg]
    exact ⟨h.edges_eq, h.exits_eq, h.marked.apply hop⟩

/-- The returns are marked. -/
structure MarksOf (node : InstructionId → Option CfgNodeId) (cfg : AbstractCfg)
    (xs : List InstructionId) (cfg' : AbstractCfg) : Prop where
  entry_eq : cfg'.entry = cfg.entry
  edges_eq : cfg'.edges = cfg.edges
  nodeIds_eq : cfg'.nodeIds = cfg.nodeIds
  transfer_eq : ∀ n, cfg'.transferAt n = cfg.transferAt n
  marked : cfg'.Marked
  mem_exits : ∀ n, n ∈ cfg'.concreteExits ↔
    n ∈ cfg.concreteExits ∨ n ≠ cfg.entry ∧ ∃ x ∈ xs, node x = some n

theorem MarksOf.markReturn {cfg₀ : AbstractCfg} (h : MarksOf node cfg₀ xs cfg)
    (hmark : markReturn node cfg x = .ok cfg') : MarksOf node cfg₀ (xs ++ [x]) cfg' := by
  have hexits (hx : ∀ n, n ≠ cfg₀.entry → node x ≠ some n) (n : CfgNodeId) :
      (n ∈ cfg₀.concreteExits ∨ n ≠ cfg₀.entry ∧ ∃ y ∈ xs, node y = some n) ↔
        n ∈ cfg₀.concreteExits ∨ n ≠ cfg₀.entry ∧ ∃ y ∈ xs ++ [x], node y = some n := by
    refine or_congr_right (and_congr_right fun hn ↦ ?_)
    simp only [List.mem_append, List.mem_singleton, or_and_right, exists_or, exists_eq_left,
      hx n hn, or_false]
  rw [Lowering.markReturn] at hmark
  split at hmark
  · rename_i id hid
    rw [ok_of_mapError] at hmark
    have hop : (AbstractCfg.BuildOp.markExit id).apply cfg = .ok cfg' := hmark
    rw [AbstractCfg.markExit] at hmark
    split_ifs at hmark with hentry hknown
    · obtain rfl := Except.ok.inj hmark
      refine ⟨h.entry_eq, h.edges_eq, h.nodeIds_eq, h.transfer_eq, h.marked, fun n ↦ ?_⟩
      rw [h.mem_exits, hexits]
      intro n hn hx
      rw [hid, Option.some.injEq] at hx
      exact hn (hx ▸ hentry.trans h.entry_eq)
    · obtain rfl := Except.ok.inj hmark
      refine ⟨h.entry_eq, h.edges_eq, (AbstractCfg.nodeIds_setKind ..).trans h.nodeIds_eq,
        fun n ↦ ?_, h.marked.apply hop, fun n ↦ ?_⟩
      · exact (AbstractCfg.transferAt_setKind ..).trans (h.transfer_eq n)
      · show n ∈ AbstractCfg.insertSorted id cfg.concreteExits ↔ _
        rw [AbstractCfg.mem_insertSorted, h.mem_exits]
        simp only [List.mem_append, List.mem_singleton, or_and_right, exists_or, exists_eq_left,
          hid, Option.some.injEq]
        constructor
        · rintro (rfl | hold | ⟨hne, hn⟩)
          · exact Or.inr ⟨fun heq ↦ hentry (heq.trans h.entry_eq.symm), Or.inr rfl⟩
          · exact Or.inl hold
          · exact Or.inr ⟨hne, Or.inl hn⟩
        · rintro (hold | ⟨hne, hn | rfl⟩)
          · exact Or.inr (Or.inl hold)
          · exact Or.inr (Or.inr ⟨hne, hn⟩)
          · exact Or.inl rfl
  · rename_i hnone
    obtain rfl := Except.ok.inj hmark
    refine ⟨h.entry_eq, h.edges_eq, h.nodeIds_eq, h.transfer_eq, h.marked, fun n ↦ ?_⟩
    rw [h.mem_exits, hexits]
    intro n _ hx
    rw [hnone] at hx
    cases hx

/-- An edge of the graph stands for a lowered edge. -/
def EdgeFor (node : InstructionId → Option CfgNodeId) (e : LoweredEdge) (e' : AbstractEdge) :
    Prop :=
  node e.source = some e'.source ∧ node e.target = some e'.target ∧
    e'.guard = e.guard ∧ e'.effects = e.effects

/-- Some edges are added, and nothing else changes. -/
structure EdgesFor (node : InstructionId → Option CfgNodeId) (cfg : AbstractCfg)
    (es : List LoweredEdge) (cfg' : AbstractCfg) : Prop where
  nodes_eq : cfg'.nodes = cfg.nodes
  entry_eq : cfg'.entry = cfg.entry
  exits_eq : cfg'.concreteExits = cfg.concreteExits
  marked : cfg'.Marked
  sound : ∀ e' ∈ cfg'.edges, e' ∈ cfg.edges ∨ ∃ e ∈ es, EdgeFor node e e'
  complete : ∀ e ∈ es, ∃ e' ∈ cfg'.edges, EdgeFor node e e'

theorem EdgesFor.addInstructionEdge {cfg₀ : AbstractCfg} {es : List LoweredEdge} {e : LoweredEdge}
    (h : EdgesFor node cfg₀ es cfg) (hadd : addInstructionEdge node cfg e = .ok cfg') :
    EdgesFor node cfg₀ (es ++ [e]) cfg' := by
  rw [Lowering.addInstructionEdge] at hadd
  split at hadd
  · rename_i source target hsource htarget
    rw [ok_of_mapError] at hadd
    obtain ⟨hnodes, hentry, -, hexits, hedges⟩ := AbstractCfg.addEdge_eq_ok hadd
    have hnew : EdgeFor node e ⟨cfg.nextEdge, source, target, e.guard, e.effects⟩ :=
      ⟨hsource, htarget, rfl, rfl⟩
    have hop : (AbstractCfg.BuildOp.addEdge source target e.guard e.effects).apply cfg =
        .ok cfg' := hadd
    refine ⟨hnodes.trans h.nodes_eq, hentry.trans h.entry_eq, hexits.trans h.exits_eq,
      h.marked.apply hop, fun e' he' ↦ ?_, fun e' he' ↦ ?_⟩
    · rw [hedges, List.mem_append, List.mem_singleton] at he'
      rcases he' with he' | rfl
      · rcases h.sound e' he' with hold | ⟨e'', he'', hfor⟩
        · exact Or.inl hold
        · exact Or.inr ⟨e'', List.mem_append_left _ he'', hfor⟩
      · exact Or.inr ⟨e, List.mem_append_right _ List.mem_cons_self, hnew⟩
    · rw [hedges]
      rcases List.mem_append.1 he' with he' | he'
      · obtain ⟨e'', he'', hfor⟩ := h.complete e' he'
        exact ⟨e'', List.mem_append_left _ he'', hfor⟩
      · obtain rfl := List.mem_singleton.1 he'
        exact ⟨_, List.mem_append_right _ List.mem_cons_self, hnew⟩
  · cases hadd

/-- The nodes are made. -/
theorem of_nodes_eq_ok {transfer : TransferFn}
    (htransfer : lowerNodeTransfer f lower start = .ok transfer)
    (h : xs.foldlM (addInstructionNode f lower start) (entryNode f start transfer) = .ok a) :
    NodesFor f lower start a xs ∧ NoEdges a.cfg := by
  rw [foldlM_eq_ok_iff] at h
  constructor
  · exact Path.invariant_of_prefix (P := fun xs a ↦ NodesFor f lower start a xs)
      (fun _ _ _ _ _ _ ha hfor ↦ hfor.addInstructionNode ha) h (nodesFor_entryNode htransfer)
  · refine h.invariant (P := fun a ↦ NoEdges a.cfg) (fun _ _ _ _ ha hno ↦ hno.addInstructionNode ha)
      ⟨rfl, rfl, rfl, List.Pairwise.nil, fun r hr ↦ ?_⟩
    exact absurd hr List.not_mem_nil

/-- The returns are marked. -/
theorem of_marks_eq_ok (hmarked : cfg.Marked) (h : xs.foldlM (markReturn node) cfg = .ok cfg') :
    MarksOf node cfg xs cfg' :=
  Path.invariant_of_prefix (P := MarksOf node cfg)
    (fun _ _ _ _ _ _ hmark hof ↦ hof.markReturn hmark) (foldlM_eq_ok_iff.1 h)
    ⟨rfl, rfl, rfl, fun _ ↦ rfl, hmarked, by simp⟩

/-- The edges are added. -/
theorem of_edges_eq_ok {es : List LoweredEdge} (hmarked : cfg.Marked)
    (h : es.foldlM (addInstructionEdge node) cfg = .ok cfg') : EdgesFor node cfg es cfg' :=
  Path.invariant_of_prefix (P := EdgesFor node cfg)
    (fun _ _ _ _ _ _ hadd hfor ↦ hfor.addInstructionEdge hadd) (foldlM_eq_ok_iff.1 h)
    ⟨rfl, rfl, rfl, hmarked, fun _ he' ↦ Or.inl he', fun _ he ↦ absurd he List.not_mem_nil⟩

/-- The graph of a function before it is given one exit. -/
structure Represents (f : LlvmFunction) (lower : InstructionId → Except AdapterError TransferFn)
    (start : InstructionId) (edges : List LoweredEdge) (cfg : AbstractCfg)
    (node : InstructionId → Option CfgNodeId) : Prop where
  start_eq : node start = some cfg.entry
  exists_node_iff : ∀ x, (∃ n, node x = some n) ↔ f.isVisible x
  inj : ∀ x y n, node x = some n → node y = some n → x = y
  known : ∀ x n, node x = some n → n ∈ cfg.nodeIds
  lowers : ∀ x n, node x = some n → lowerNodeTransfer f lower x = .ok (cfg.transferAt n)
  sound : ∀ e' ∈ cfg.edges, ∃ e ∈ edges, EdgeFor node e e'
  complete : ∀ e ∈ edges, ∃ e' ∈ cfg.edges, EdgeFor node e e'
  mem_exits : ∀ n, n ∈ cfg.concreteExits ↔ n ≠ cfg.entry ∧ ∃ x ∈ f.ends, node x = some n
  marked : cfg.Marked

theorem isVisible_start (h : f.start = some start) : f.isVisible start := by
  obtain ⟨k, -, hk⟩ := List.exists_of_findSome?_eq_some h
  exact (LlvmFunction.mem_visible.1 (List.mem_of_mem_head? hk)).2

/-- What has been built when the adapter succeeds. -/
theorem represents_of_adapt {order : List LoweredEdge → List LoweredEdge}
    (horder : ∀ edges, (order edges).Perm edges) (h : adapt f lower order = .ok a) :
    ∃ start edges edges' cfg exit, f.start = some start ∧ lowerEdges f = .ok edges ∧
      lowerPhiEdgeEffects f edges = .ok edges' ∧ Represents f lower start edges' cfg a.node ∧
      cfg.ensureSingleExit = .ok (exit, a.cfg) := by
  rw [adapt] at h
  split at h
  · cases h
  · rename_i start hstart
    simp only [bind_eq_ok, ok_of_mapError, pure_eq_ok] at h
    obtain ⟨transfer, htransfer, b, hnodes, cfg₁, hmarks, edges, hedges, edges', hphis, cfg₂,
      hadd, ⟨exit, cfg₃⟩, hexit, rfl⟩ := h
    obtain ⟨hnodesFor, hnone⟩ := of_nodes_eq_ok htransfer hnodes
    have hmarksOf := of_marks_eq_ok hnone.marked hmarks
    have hedgesFor := of_edges_eq_ok hmarksOf.marked hadd
    have hentry : cfg₂.entry = b.cfg.entry := hedgesFor.entry_eq.trans hmarksOf.entry_eq
    have hids : cfg₂.nodeIds = b.cfg.nodeIds := by
      rw [AbstractCfg.nodeIds, hedgesFor.nodes_eq]
      exact hmarksOf.nodeIds_eq
    have htransferAt (n : CfgNodeId) : cfg₂.transferAt n = b.cfg.transferAt n :=
      (AbstractCfg.transferAt_congr hedgesFor.nodes_eq n).trans (hmarksOf.transfer_eq n)
    refine ⟨start, edges, edges', cfg₂, exit, hstart, hedges, hphis, ?_, hexit⟩
    refine ⟨hentry ▸ hnodesFor.start_eq, fun x ↦ ?_, hnodesFor.inj, hids ▸ hnodesFor.known,
      fun x n hx ↦ ?_, fun e' he' ↦ ?_, fun e he ↦ ?_, fun n ↦ ?_, hedgesFor.marked⟩
    · rw [hnodesFor.exists_node_iff, FunctionGraph.mem_vertices_new]
      constructor
      · rintro (rfl | hx)
        · exact isVisible_start hstart
        · exact hx
      · exact Or.inr
    · rw [htransferAt]
      exact hnodesFor.lowers x n hx
    · rcases hedgesFor.sound e' he' with hold | ⟨e, he, hfor⟩
      · rw [hmarksOf.edges_eq, hnone.edges_eq] at hold
        cases hold
      · exact ⟨e, (horder edges').mem_iff.1 he, hfor⟩
    · exact hedgesFor.complete e ((horder edges').mem_iff.2 he)
    · rw [hedgesFor.exits_eq, hmarksOf.mem_exits, hnone.exits_eq, hentry]
      simp only [List.not_mem_nil, false_or]

end Construction

/-! ### Crossing an edge -/

section Crossing

variable {f : LlvmFunction} {edges edges' : List LoweredEdge} {e : LoweredEdge}
  {x y : InstructionId} {b c : BasicBlock} {source : ℕ} {s s' : State} {sem : Semantics}

/-- Control can come to the block of the instruction from outside. -/
def Entered (f : LlvmFunction) (x : InstructionId) : Prop :=
  x.block = 0 ∨ ∃ (source : ℕ) (c : BasicBlock), f.blocks[source]? = some c ∧
    x.block ∈ c.terminator.kind.getSuccessorBlocks ∧ source ≠ x.block

theorem entered_start (h : f.start = some x) : Entered f x := by
  obtain ⟨k, hk, hhead⟩ := List.exists_of_findSome?_eq_some h
  have hlt : 0 < f.blocks.length := Nat.zero_lt_of_lt (List.mem_range.1 hk)
  obtain ⟨z, hz, hblock⟩ := LlvmFunction.head?_visible hlt
  have hrange : f.blockIds = 0 :: (List.range (f.blocks.length - 1)).map Nat.succ := by
    rw [LlvmFunction.blockIds, ← List.range_succ_eq_map, Nat.sub_add_cancel hlt]
  rw [LlvmFunction.start, hrange, List.findSome?_cons, hz, Option.some.injEq] at h
  exact Or.inl (h ▸ hblock)

theorem Entered.of_mem_successors (h : Entered f x) (hy : y ∈ (FunctionGraph.new f).successors x) :
    Entered f y := by
  rcases eq_or_ne x.block y.block with heq | hne
  · rw [Entered, ← heq]
    exact h
  · obtain ⟨c, hc, hmem⟩ := (block_eq_or_of_mem_successors hy).resolve_left hne
    exact Or.inr ⟨x.block, c, hc, hmem, hne⟩

/-- Such a block has at most one PHI, if the PHIs can be lowered and the block has a
predecessor. -/
theorem Entered.length_lt (h : Entered f x) (hsingle : SinglePhis f)
    (hb : f.blocks[x.block]? = some b) (hc : f.blocks[source]? = some c)
    (hmem : x.block ∈ c.terminator.kind.getSuccessorBlocks) : b.phis.length < 2 := by
  by_contra hlen
  have hown := (hsingle x.block b hb).2 (not_lt.1 hlen)
  rcases h with hzero | ⟨source', c', hc', hmem', hne⟩
  · exact f.entry_notMem c (List.mem_of_getElem? hc) (hzero ▸ hmem)
  · exact hne (hown source' c' hc' hmem')

/-- The guards stay what they are when the PHIs are lowered. -/
theorem lowerEdgeGuard_of_mem (hedges : lowerEdges f = .ok edges)
    (h : lowerPhiEdgeEffects f edges = .ok edges') :
    ∀ e ∈ edges', lowerEdgeGuard f e.source e.target = .ok e.guard := by
  refine lowerPhiEdgeEffects_invariant
    (P := fun m ↦ ∀ e ∈ m, lowerEdgeGuard f e.source e.target = .ok e.guard)
    (fun y phi v incoming _ _ _ m n hmn hm e he ↦ ?_) h
    fun e he ↦ (of_mem_lowerEdges hedges he).2.1
  obtain ⟨source, a, -, -, -, rfl⟩ := lowerPhiIncoming_eq_ok.1 hmn
  rcases mem_appendEdgeEffects.1 he with ⟨he, -⟩ | ⟨e', he', -, -, rfl⟩
  · exact hm e he
  · exact hm e' he'

/-- Where the guard of an edge holds, control may go along the edge. -/
theorem moves_of_holds {guard : Formula} (hy : y ∈ (FunctionGraph.new f).successors x)
    (hguard : lowerEdgeGuard f x y = .ok guard) (hs : guard.Holds s) : Moves f s x y := by
  by_cases hterm : ∃ t, f.instruction? x = some (.terminator t)
  · obtain ⟨t, ht⟩ := hterm
    obtain ⟨target, htarget, hhead⟩ := (FunctionGraph.mem_successors_of_terminator ht).1 hy
    refine Moves.jump ht ?_ hhead
    have hblock := (LlvmFunction.mem_visible.1 (List.mem_of_mem_head? hhead)).1
    rcases t with ⟨printed, kind⟩
    cases kind with
    | br reported k => exact List.mem_singleton.1 htarget
    | condBr condition ifTrue ifFalse =>
      obtain ⟨hmem, hiff⟩ := holds_guard_of_condBr ht rfl hguard s
      rw [hiff, hblock] at hs
      rw [hblock] at hmem
      split_ifs at hs with htrue
      · exact Or.inl ⟨hs, htrue.symm⟩
      · exact Or.inr ⟨hs, (hmem.resolve_left htrue).symm⟩
    | switch targets => exact htarget
    | indirectBr targets => exact htarget
    | other targets => exact htarget
    | invoke normal unwind =>
      rw [lowerEdgeGuard, ht] at hguard
      cases hguard
    | ret => cases htarget
    | unreachable => cases htarget
  · have hnot : ∀ t, f.instruction? x ≠ some (.terminator t) := fun t ht ↦ hterm ⟨t, ht⟩
    exact Moves.next ((FunctionGraph.mem_successors_of_not_terminator hnot).1 hy)

/-- A parallel assignment has one result, if every PHI has a value for the block. -/
theorem ParallelAssignment.eq {s₁ s₂ : State} (h₁ : ParallelAssignment f b source s s₁)
    (h₂ : ParallelAssignment f b source s s₂)
    (htotal : ∀ phi ∈ b.phis, ∃ operand, (source, operand) ∈ phi.incomings)
    (hundefined₁ : s.SameUndefined s₁) (hundefined₂ : s.SameUndefined s₂) : s₁ = s₂ := by
  refine State.ext_lookup (hundefined₁.symm.trans hundefined₂) (fun v ↦ ?_) fun r i ↦ ?_
  · by_cases hv : IsPhiVar f b v
    · obtain ⟨phi, hphi, hvar⟩ := hv
      obtain ⟨operand, hoperand⟩ := htotal phi hphi
      obtain ⟨v₁, hv₁, a₁, ha₁, hvalue₁⟩ := h₁.assigned phi hphi operand hoperand
      obtain ⟨v₂, hv₂, a₂, ha₂, hvalue₂⟩ := h₂.assigned phi hphi operand hoperand
      obtain rfl := Except.ok.inj (hv₁.symm.trans hvar)
      obtain rfl := Except.ok.inj (hv₂.symm.trans hv₁)
      obtain rfl := Except.ok.inj (ha₂.symm.trans ha₁)
      rw [hvalue₁, hvalue₂]
    · rw [h₁.others v hv, h₂.others v hv]
  · rw [h₁.memory, h₂.memory]

/-- The effects of an edge are assignments of the PHI it leads to. -/
theorem effects_eq_nil (hedges : lowerEdges f = .ok edges)
    (h : lowerPhiEdgeEffects f edges = .ok edges') (he : e ∈ edges')
    (hphi : ∀ phi operand, f.instruction? e.target = some (.phi phi) →
      (e.source.block, operand) ∉ phi.incomings) : e.effects = [] := by
  refine List.eq_nil_iff_forall_not_mem.2 fun effect heffect ↦ ?_
  obtain ⟨phi, v, operand, a, hy, -, hmem, -, -⟩ :=
    phiEffect_of_lowerPhiEdgeEffects hedges h e he effect heffect
  exact hphi phi operand hy hmem

theorem run_nil_iff : Effects.Run sem [] s s' ↔ s = s' := Path.nil_iff

/-- Behind a terminator, the effects of the edge assign the PHIs in parallel. -/
theorem parallelAssignment_of_run_effects (hedges : lowerEdges f = .ok edges)
    (h : lowerPhiEdgeEffects f edges = .ok edges') (he : e ∈ edges') {t : Terminator}
    (ht : f.instruction? e.source = some (.terminator t))
    (hb : f.blocks[e.target.block]? = some b) (hlen : b.phis.length < 2)
    (hincoming : ∀ phi ∈ b.phis, ∃ operand, (e.source.block, operand) ∈ phi.incomings)
    (hrun : Effects.Run sem e.effects s s') : ParallelAssignment f b e.source.block s s' := by
  have hmem := (edgesOf_lowerPhiEdgeEffects (edgesOf_lowerEdges hedges) h).sound e he
  obtain ⟨target, -, hhead⟩ := (FunctionGraph.mem_successors_of_terminator ht).1 hmem
  obtain rfl := (LlvmFunction.mem_visible.1 (List.mem_of_mem_head? hhead)).1
  rcases hphis : b.phis with _ | ⟨phi, _ | ⟨phi', rest⟩⟩
  · -- There is nothing to assign.
    have hnil : e.effects = [] := by
      refine effects_eq_nil hedges h he fun phi operand hphi _ ↦ ?_
      obtain ⟨b', hb', hat⟩ := LlvmFunction.instruction?_eq_phi hphi
      obtain rfl := Option.some.inj (hb.symm.trans hb')
      rw [hphis] at hat
      cases hat
    rw [hnil, run_nil_iff] at hrun
    subst hrun
    refine ⟨fun phi hphi ↦ ?_, fun _ _ ↦ rfl, rfl⟩
    rw [hphis] at hphi
    cases hphi
  · have hfirst : b.phis[0]? = some phi := by rw [hphis]; rfl
    rw [LlvmFunction.head?_visible_of_phi hb hfirst, Option.some.injEq] at hhead
    have hy := LlvmFunction.instruction?_phi hb hfirst
    have hset {operand : LlvmValue} (hoperand : (e.source.block, operand) ∈ phi.incomings) :=
      eq_set_of_run_effects hedges h ht hy hoperand he rfl hhead.symm hrun
    obtain ⟨operand, hoperand⟩ := hincoming phi (by simp [hphis])
    refine ⟨fun phi' hphi' operand' hoperand' ↦ ?_, fun w hw ↦ ?_, ?_⟩
    · rw [hphis, List.mem_singleton] at hphi'
      subst hphi'
      obtain ⟨v, a, hv, hvalue, ha, rfl⟩ := hset hoperand'
      exact ⟨v, hv, a, ha, State.lookup_set_self hvalue.sort_value⟩
    · obtain ⟨v, a, hv, -, -, rfl⟩ := hset hoperand
      refine State.lookup_set_of_ne fun heq ↦ hw ⟨phi, by simp [hphis], ?_⟩
      rw [heq]
      exact hv
    · obtain ⟨v, a, -, -, -, rfl⟩ := hset hoperand
      exact State.memory_set s v _
  · simp only [hphis, List.length_cons] at hlen
    omega

/-- The effects of an edge are what happens when control goes along it. -/
theorem run_effects_iff (hedges : lowerEdges f = .ok edges)
    (h : lowerPhiEdgeEffects f edges = .ok edges') (he : e ∈ edges')
    (hentered : Entered f e.source) :
    Effects.Run sem e.effects s s' ↔ Enters f e.source e.target s s' := by
  have hsingle := (exists_lowerPhiEdgeEffects_iff (edgesOf_lowerEdges hedges)).1 ⟨edges', h⟩
  have hmem := (edgesOf_lowerPhiEdgeEffects (edgesOf_lowerEdges hedges) h).sound e he
  have hentered' := hentered.of_mem_successors hmem
  by_cases hterm : ∃ t, f.instruction? e.source = some (.terminator t)
  · obtain ⟨t, ht⟩ := hterm
    obtain ⟨c, hc, -, rfl⟩ := LlvmFunction.instruction?_eq_terminator ht
    have hsucc := block_of_mem_successors ht hmem
    have hlt := f.successor_lt c (List.mem_of_getElem? hc) _ hsucc
    obtain ⟨b, hb⟩ : ∃ b, f.blocks[e.target.block]? = some b := ⟨_, List.getElem?_eq_getElem hlt⟩
    have hlen := hentered'.length_lt hsingle hb hc hsucc
    have hincoming : ∀ phi ∈ b.phis, ∃ operand, (e.source.block, operand) ∈ phi.incomings := by
      intro phi hphi
      obtain ⟨⟨_, operand⟩, hoperand, rfl⟩ := List.mem_map.1
        ((f.mem_incomings_iff _ b hb phi hphi e.source.block).2 ⟨c, hc, hsucc⟩)
      exact ⟨operand, hoperand⟩
    have hparallel {m : State} (hrun : Effects.Run sem e.effects s m) :=
      parallelAssignment_of_run_effects hedges h he ht hb hlen hincoming hrun
    constructor
    · exact fun hrun ↦ Enters.across ht hb (hparallel hrun) hrun.sameUndefined
    · intro henters
      obtain ⟨m, hrun⟩ : ∃ m, Effects.Run sem e.effects s m := exists_run_effects hedges h he s
      cases henters with
      | inside hx => exact absurd ht (hx _)
      | across _ hb' hphis hundefined =>
        obtain rfl := Option.some.inj (hb.symm.trans hb')
        exact hphis.eq (hparallel hrun) hincoming hundefined hrun.sameUndefined ▸ hrun
  · have hnot : ∀ t, f.instruction? e.source ≠ some (.terminator t) := fun t ht ↦ hterm ⟨t, ht⟩
    -- Inside a block the target would be a second PHI.
    have hnil : e.effects = [] := by
      refine effects_eq_nil hedges h he fun phi operand hphi hoperand ↦ ?_
      obtain ⟨b, hb, hat⟩ := LlvmFunction.instruction?_eq_phi hphi
      obtain ⟨c, hc, hsucc⟩ := (f.mem_incomings_iff _ b hb phi (List.mem_of_getElem? hat) _).1
        (List.mem_map_of_mem hoperand)
      have hlen := hentered'.length_lt hsingle hb hc hsucc
      have hwindow := (FunctionGraph.mem_successors_of_not_terminator hnot).1 hmem
      have hposition := (LlvmFunction.mem_windows.1 hwindow).2.2.1
      have hlt := (List.getElem?_eq_some_iff.1 hat).1
      omega
    rw [hnil, run_nil_iff]
    constructor
    · rintro rfl
      exact Enters.inside hnot
    · intro henters
      cases henters with
      | inside => rfl
      | across ht => exact absurd ht (hnot _)

end Crossing

/-! ### The executions of the graph -/

section Executions

variable {f : LlvmFunction} {lower : InstructionId → Except AdapterError TransferFn}
  {start x : InstructionId} {edges edges' : List LoweredEdge} {a : Adapted} {cfg : AbstractCfg}
  {node : InstructionId → Option CfgNodeId} {n : CfgNodeId} {sem : Semantics} {s₀ s : State}
  {cs : List Crossing} {p : At} {q : Position}

theorem Represents.executed_iff (h : Represents f lower start edges' cfg node)
    (hn : node x = some n) {s' : State} :
    Executed f lower sem ⟨x, s⟩ s' ↔ (cfg.transferAt n).Run sem s s' := by
  rw [Executed, h.lowers x n hn]
  constructor
  · rintro ⟨transfer, htransfer, hrun⟩
    rwa [Except.ok.inj htransfer]
  · exact fun hrun ↦ ⟨_, rfl, hrun⟩

/-- The executions of the graph are executions of the function. -/
theorem Represents.executes_of_run (hrep : Represents f lower start edges' cfg node)
    (hedges : lowerEdges f = .ok edges) (hphis : lowerPhiEdgeEffects f edges = .ok edges')
    (hstart : f.start = some start) (hrun : cfg.Run sem cs ⟨cfg.entry, s₀⟩ q) :
    ∃ x, node x = some q.node ∧ Entered f x ∧
      ReflTransGen (Steps f lower sem) ⟨start, s₀⟩ ⟨x, q.state⟩ := by
  refine Path.invariant (P := fun q : Position ↦ ∃ x, node x = some q.node ∧ Entered f x ∧
    ReflTransGen (Steps f lower sem) ⟨start, s₀⟩ ⟨x, q.state⟩) (fun c _ p q hcross hp ↦ ?_) hrun
    ⟨start, hrep.start_eq, entered_start hstart, ReflTransGen.refl⟩
  obtain ⟨x, hx, hentered, hreach⟩ := hp
  obtain ⟨hvalid, rfl, rfl⟩ := hcross
  obtain ⟨e, he, hsource, htarget, hguard, heffects⟩ := hrep.sound _ hvalid.edge_mem
  obtain rfl := hrep.inj x e.source _ hx hsource
  have hmem := (edgesOf_lowerPhiEdgeEffects (edgesOf_lowerEdges hedges) hphis).sound e he
  refine ⟨e.target, htarget, hentered.of_mem_successors hmem, hreach.tail ⟨c.mid, ?_, ?_, ?_⟩⟩
  · exact (hrep.executed_iff hsource).2 hvalid.transfer
  · exact moves_of_holds hmem (lowerEdgeGuard_of_mem hedges hphis e he) (hguard ▸ hvalid.guard)
  · exact (run_effects_iff hedges hphis he hentered).1 (heffects ▸ hvalid.effects)

/-- The executions of the function are executions of the graph, unless a branch has one target. -/
theorem Represents.run_of_executes (hrep : Represents f lower start edges' cfg node)
    (hedges : lowerEdges f = .ok edges) (hphis : lowerPhiEdgeEffects f edges = .ok edges')
    (hstart : f.start = some start) (hbranch : ∀ x, ¬ DegenerateBranch f x)
    (hexec : ReflTransGen (Steps f lower sem) ⟨start, s₀⟩ p) :
    ∃ n cs, node p.instruction = some n ∧ Entered f p.instruction ∧
      cfg.Run sem cs ⟨cfg.entry, s₀⟩ ⟨n, p.state⟩ := by
  induction hexec with
  | refl => exact ⟨cfg.entry, [], hrep.start_eq, entered_start hstart, rfl⟩
  | @tail p q _ hstep ih =>
    obtain ⟨n, cs, hn, hentered, hrun⟩ := ih
    obtain ⟨m, hexecuted, hmoves, henters⟩ := hstep
    obtain ⟨e, he, hsource, htarget⟩ := (edgesOf_lowerPhiEdgeEffects
      (edgesOf_lowerEdges hedges) hphis).complete _ _ hmoves.mem_successors
    obtain ⟨e', he', hsource', htarget', hguard, heffects⟩ := hrep.complete e he
    rw [← hsource] at hn hentered hmoves henters
    rw [← htarget] at hmoves henters
    obtain rfl := Option.some.inj (hn.symm.trans hsource')
    have hcross : cfg.Crosses sem ⟨e', p.state, m, q.state⟩ ⟨e'.source, p.state⟩
        ⟨e'.target, q.state⟩ := by
      refine ⟨⟨he', ?_, ?_, ?_⟩, rfl, rfl⟩
      · refine (hrep.executed_iff (x := p.instruction) ?_).1 hexecuted
        exact hsource ▸ hsource'
      · show e'.guard.Holds m
        rw [hguard]
        exact holds_guard_of_moves (hbranch _) hmoves (lowerEdgeGuard_of_mem hedges hphis e he)
      · show Effects.Run sem e'.effects m q.state
        rw [heffects]
        exact (run_effects_iff hedges hphis he hentered).2 henters
    refine ⟨e'.target, cs ++ [_], htarget ▸ htarget', ?_,
      Path.append hrun (Path.singleton_iff.2 hcross)⟩
    rw [← htarget]
    exact hentered.of_mem_successors
      ((edgesOf_lowerPhiEdgeEffects (edgesOf_lowerEdges hedges) hphis).sound e he)

/-- The graph is left where the function returns, unless the first instruction is a return: it is
the entry, which is not marked. -/
theorem Represents.returns_iff (hrep : Represents f lower start edges' cfg node)
    (hedges : lowerEdges f = .ok edges) (hphis : lowerPhiEdgeEffects f edges = .ok edges')
    (hstart : f.start = some start) (hbranch : ∀ x, ¬ DegenerateBranch f x)
    (hreturn : ¬ f.isReturn start) :
    (∃ r ∈ cfg.concreteExits, cfg.ReturnsAt sem ⟨cfg.entry, s₀⟩ r s) ↔
      Returns f lower sem s₀ s := by
  constructor
  · rintro ⟨r, hr, cs, m, hrun, htransfer⟩
    obtain ⟨-, x, hends, hx⟩ := (hrep.mem_exits r).1 hr
    obtain ⟨y, hy, -, hreach⟩ := hrep.executes_of_run hedges hphis hstart hrun
    obtain rfl := hrep.inj x y r hx hy
    have hisReturn := (List.mem_filter.1 hends).2
    exact ⟨⟨x, m⟩, hisReturn, ⟨start, hstart, hreach⟩, (hrep.executed_iff hx).2 htransfer⟩
  · rintro ⟨⟨x, m⟩, hisReturn, ⟨start', hstart', hreach⟩, hexecuted⟩
    obtain rfl := Option.some.inj (hstart.symm.trans hstart')
    obtain ⟨r, cs, hr, -, hrun⟩ := hrep.run_of_executes hedges hphis hstart hbranch hreach
    refine ⟨r, (hrep.mem_exits r).2 ⟨?_, x, ?_, hr⟩, cs, m, hrun,
      (hrep.executed_iff hr).1 hexecuted⟩
    · rintro rfl
      exact hreturn (hrep.inj _ _ _ hr hrep.start_eq ▸ hisReturn)
    · have hvisible := (hrep.exists_node_iff x).1 ⟨r, hr⟩
      refine List.mem_filter.2 ⟨List.mem_flatMap.2 ⟨x.block, ?_,
        LlvmFunction.mem_visible.2 ⟨rfl, hvisible⟩⟩, hisReturn⟩
      obtain ⟨i, hi⟩ := Option.isSome_iff_exists.1 (LlvmFunction.isSome_of_isVisible hvisible)
      obtain ⟨b, hb, -⟩ := Option.bind_eq_some_iff.1 hi
      exact List.mem_range.2 (List.getElem?_eq_some_iff.1 hb).1

/-- **The graph executes the function.** Let the adapter succeed on a function none of whose
conditional branches has one target. Then the instructions which the function gets to, and the
states in which it does, are those of the nodes of the graph. If the first instruction is not a
return, the graph has an exit, and the states in which it is left there are those in which the
function returns. -/
theorem executes_iff_of_adapt {order : List LoweredEdge → List LoweredEdge}
    (horder : ∀ edges, (order edges).Perm edges) (h : adapt f lower order = .ok a)
    (hbranch : ∀ x, ¬ DegenerateBranch f x) (sem : Semantics) (s₀ : State) :
    (∀ x s, Executes f lower sem s₀ ⟨x, s⟩ ↔
      ∃ n cs, a.node x = some n ∧ a.cfg.Run sem cs ⟨a.cfg.entry, s₀⟩ ⟨n, s⟩) ∧
    ((∀ start, f.start = some start → ¬ f.isReturn start) →
      ∃ exit, a.cfg.exit = some exit ∧
        ∀ s, a.cfg.ReturnsAt sem ⟨a.cfg.entry, s₀⟩ exit s ↔ Returns f lower sem s₀ s) := by
  obtain ⟨start, edges, edges', cfg, exit, hstart, hedges, hphis, hrep, hexit⟩ :=
    represents_of_adapt horder h
  have hentry := AbstractCfg.entry_ensureSingleExit hrep.marked hexit
  rw [hentry]
  constructor
  · intro x s
    constructor
    · rintro ⟨start', hstart', hreach⟩
      obtain rfl := Option.some.inj (hstart.symm.trans hstart')
      obtain ⟨n, cs, hn, -, hrun⟩ := hrep.run_of_executes hedges hphis hstart hbranch hreach
      exact ⟨n, cs, hn, (AbstractCfg.run_ensureSingleExit_iff hrep.marked hexit
        (hrep.known x n hn)).2 hrun⟩
    · rintro ⟨n, cs, hn, hrun⟩
      rw [AbstractCfg.run_ensureSingleExit_iff hrep.marked hexit (hrep.known x n hn)] at hrun
      obtain ⟨y, hy, -, hreach⟩ := hrep.executes_of_run hedges hphis hstart hrun
      obtain rfl := hrep.inj x y n hn hy
      exact ⟨start, hstart, hreach⟩
  · intro hreturn
    refine ⟨exit, (AbstractCfg.ensureSingleExit_eq_ok hrep.marked hexit).1, fun s ↦ ?_⟩
    rw [AbstractCfg.returnsAt_ensureSingleExit_iff hrep.marked hexit cfg.entry_mem]
    exact hrep.returns_iff hedges hphis hstart hbranch (hreturn start hstart)

end Executions

/-! ### The functions that are adapted -/

section Success

variable {f : LlvmFunction} {lower : InstructionId → Except AdapterError TransferFn}
  {start x : InstructionId} {xs : List InstructionId} {edges : List LoweredEdge}
  {cfg : AbstractCfg} {node : InstructionId → Option CfgNodeId}

theorem exists_nodes (start : InstructionId)
    (hxs : ∀ x ∈ xs, ∃ transfer, lowerNodeTransfer f lower x = .ok transfer) (a : Adapted) :
    ∃ a', xs.foldlM (addInstructionNode f lower start) a = .ok a' := by
  have hstep : ∀ x ∈ xs, ∀ m : Adapted, True →
      ∃ n, addInstructionNode f lower start m x = .ok n ∧ True := by
    intro x hx m _
    obtain ⟨transfer, htransfer⟩ := hxs x hx
    rw [addInstructionNode, htransfer]
    split_ifs
    · exact ⟨_, rfl, trivial⟩
    · exact ⟨_, rfl, trivial⟩
  obtain ⟨a', ha', -⟩ := exists_foldlM_eq_ok hstep trivial
  exact ⟨a', ha'⟩

theorem exists_marks (xs : List InstructionId)
    (hnode : ∀ x n, node x = some n → n ∈ cfg.nodeIds) :
    ∃ cfg', xs.foldlM (markReturn node) cfg = .ok cfg' := by
  have hstep : ∀ x ∈ xs, ∀ m : AbstractCfg, m.nodeIds = cfg.nodeIds →
      ∃ m', markReturn node m x = .ok m' ∧ m'.nodeIds = cfg.nodeIds := by
    intro x _ m hm
    rw [markReturn]
    split
    · rename_i n hn
      rw [AbstractCfg.markExit, hm, if_pos (hnode x n hn)]
      split_ifs
      · exact ⟨m, rfl, hm⟩
      · exact ⟨_, rfl, (AbstractCfg.nodeIds_setKind ..).trans hm⟩
    · exact ⟨m, rfl, hm⟩
  obtain ⟨cfg', hcfg', -⟩ := exists_foldlM_eq_ok hstep rfl
  exact ⟨cfg', hcfg'⟩

theorem exists_edges (hnode : ∀ x n, node x = some n → n ∈ cfg.nodeIds)
    (hedges : ∀ e ∈ edges, (∃ n, node e.source = some n) ∧ ∃ n, node e.target = some n) :
    ∃ cfg', edges.foldlM (addInstructionEdge node) cfg = .ok cfg' := by
  have hstep : ∀ e ∈ edges, ∀ m : AbstractCfg, m.nodeIds = cfg.nodeIds →
      ∃ m', addInstructionEdge node m e = .ok m' ∧ m'.nodeIds = cfg.nodeIds := by
    intro e he m hm
    obtain ⟨⟨source, hsource⟩, target, htarget⟩ := hedges e he
    have hsourceMem : source ∈ m.nodes.map (·.id) :=
      (show m.nodes.map (·.id) = cfg.nodeIds from hm).symm ▸ hnode _ _ hsource
    have htargetMem : target ∈ m.nodes.map (·.id) :=
      (show m.nodes.map (·.id) = cfg.nodeIds from hm).symm ▸ hnode _ _ htarget
    rw [addInstructionEdge, hsource, htarget]
    simp only [AbstractCfg.addEdge, hsourceMem, htargetMem, dif_pos]
    exact ⟨_, rfl, hm⟩
  obtain ⟨cfg', hcfg', -⟩ := exists_foldlM_eq_ok hstep rfl
  exact ⟨cfg', hcfg'⟩

theorem isVisible_of_mem_successors {y : InstructionId}
    (h : y ∈ (FunctionGraph.new f).successors x) : f.isVisible x ∧ f.isVisible y := by
  have hx : f.isVisible x := by
    refine FunctionGraph.mem_vertices_new.1 ?_
    by_contra hx
    rw [(FunctionGraph.new f).successors_eq_nil x hx] at h
    cases h
  refine ⟨hx, ?_⟩
  rcases FunctionGraph.mem_successors_new.1 h with hwindow | hblock
  · obtain ⟨k, -, hk⟩ := List.mem_flatMap.1 hwindow
    exact (LlvmFunction.mem_visible.1 (LlvmFunction.mem_windows.1 hk).2.1).2
  · obtain ⟨t, target, -, -, hhead⟩ := LlvmFunction.mem_blockEdges.1 hblock
    exact (LlvmFunction.mem_visible.1 (List.mem_of_mem_head? hhead)).2

end Success

/-! ### A branch and a join -/

/-- `%x` is 1 or 2, depending on which way control comes to the last block, and is returned. -/
def joinPhi : PhiInstruction :=
  ⟨⟨.integer 32, "%x", none, none, "%x = phi i32 [ 1, %0 ], [ 2, %1 ]"⟩,
    [(0, word "1" 1), (1, word "2" 2)]⟩

/-- A conditional branch around an empty block, joined by one PHI. -/
def joinBlocks : List BasicBlock := [
  ⟨[], [], "br i1 %c, label %1, label %2", .condBr ⟨.integer 1, "%c", none, none, "i1 %c"⟩ 1 2⟩,
  ⟨[], [], "br label %2", .br none 2⟩,
  ⟨[joinPhi], [], "ret i32 %x", .ret⟩]

theorem eq_joinPhi {b : BasicBlock} (hb : b ∈ joinBlocks) {phi : PhiInstruction}
    (hphi : phi ∈ b.phis) : phi = joinPhi := by
  simp only [joinBlocks, List.mem_cons, List.not_mem_nil, or_false] at hb
  rcases hb with rfl | rfl | rfl
  · cases hphi
  · cases hphi
  · exact List.mem_singleton.1 hphi

/-- The function of these blocks. -/
def joinedBranch : LlvmFunction where
  name := "f"
  blocks := joinBlocks
  successor_lt := by decide
  entry_notMem := by decide
  mem_incomings_iff k b hb phi hphi source := by
    obtain rfl := eq_joinPhi (List.mem_of_getElem? hb) hphi
    match k, hb with
    | 0, hb | 1, hb =>
      obtain rfl := Option.some.inj hb
      cases hphi
    | 2, hb =>
      match source with
      | 0 | 1 | 2 | n + 3 => simp [joinBlocks, joinPhi, TerminatorKind.getSuccessorBlocks]
    | n + 3, hb => cases hb
  incoming_eq b hb phi hphi source v w hv hw := by
    obtain rfl := eq_joinPhi hb hphi
    rcases List.mem_pair.1 hv with hv | hv <;> rcases List.mem_pair.1 hw with hw | hw <;>
      simp_all
  incoming_kind b hb phi hphi incoming hincoming := by
    obtain rfl := eq_joinPhi hb hphi
    rcases List.mem_pair.1 hincoming with rfl | rfl <;> rfl
  constant_kind b hb phi hphi incoming hincoming := by
    obtain rfl := eq_joinPhi hb hphi
    rcases List.mem_pair.1 hincoming with rfl | rfl <;> decide

/-- The two targets of its branch are different. -/
theorem not_degenerateBranch_joinedBranch (x : InstructionId) :
    ¬ DegenerateBranch joinedBranch x := by
  rintro ⟨t, condition, target, ht, hkind, -⟩
  obtain ⟨b, hb, -, rfl⟩ := LlvmFunction.instruction?_eq_terminator ht
  have hmem := List.mem_of_getElem? hb
  simp only [joinedBranch, joinBlocks, List.mem_cons, List.not_mem_nil, or_false] at hmem
  rcases hmem with rfl | rfl | rfl
  · obtain ⟨-, h1, h2⟩ := TerminatorKind.condBr.inj hkind
    omega
  · cases hkind
  · cases hkind

theorem isSome_adapt_joinedBranch :
    (adapt joinedBranch (fun _ ↦ .ok .identity) id).toOption.isSome := by decide

/-- The graph of this function returns where the function does. -/
theorem executes_iff_of_adapt_joinedBranch :
    ∃ a exit, adapt joinedBranch (fun _ ↦ .ok .identity) id = .ok a ∧ a.cfg.exit = some exit ∧
      ∀ s, a.cfg.ReturnsAt .unknownCallees ⟨a.cfg.entry, .zero⟩ exit s ↔
        Returns joinedBranch (fun _ ↦ .ok .identity) .unknownCallees .zero s := by
  have hsome := isSome_adapt_joinedBranch
  rcases ha : adapt joinedBranch (fun _ ↦ .ok .identity) id with error | a
  · rw [ha] at hsome
    cases hsome
  · obtain ⟨exit, hexit, hreturns⟩ := (executes_iff_of_adapt (fun _ ↦ List.Perm.refl _) ha
      not_degenerateBranch_joinedBranch .unknownCallees .zero).2 (by decide)
    exact ⟨a, exit, rfl, hexit, hreturns⟩

end Lowering

end MayMust
