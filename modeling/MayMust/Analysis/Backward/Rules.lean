import MayMust.Interproc.Summaries
import MayMust.Library.Fallible
import MayMust.Smt.Oracle

/-!
# The rules of the backward engine

One summary per node (a forward formula `reach` and a backward formula `state`) and a set of
blocked edges. The five rules below update them across one edge; `RuleEngine.runToFixpoint`
applies them in passes over a topological order.

The two loops of a pass are written as one list of rule calls (`forwardCalls`, then
`backwardCalls`), folded over the engine. The order of the calls is the order of the nested
loops of the source, and every intermediate engine is a prefix of the fold.

The map of summaries has an entry for every node of the graph from initialisation on, so it is
a total function here, and a lookup fails exactly for ids outside the graph.
-/

namespace MayMust

open Library

/-! ### Node summaries -/

/-- The two formulas attached to a node, both about the state in which the node is entered. -/
structure NodeSummary where
  node : CfgNodeId
  /-- Forward: states in which the node may be entered. -/
  reach : Formula
  /-- Backward: states from which the violation may be reached. -/
  state : Formula
  deriving DecidableEq

namespace NodeSummary

/-- `NodeSummary::unreachable`. -/
def unreachable (node : CfgNodeId) : NodeSummary := ⟨node, .fls, .fls⟩

/-- `NodeSummary::entry`. -/
def entry (node : CfgNodeId) : NodeSummary := ⟨node, .tru, .fls⟩

/-- `NodeSummary::combined`. -/
def combined (summary : NodeSummary) : Formula :=
  if summary.reach = .fls ∨ summary.state = .fls then .fls
  else Formula.mkAnd summary.reach summary.state

/-- `NodeSummary::join_reach`. -/
def joinReach (summary : NodeSummary) (incoming : Formula) : NodeSummary :=
  { summary with reach := Formula.mkOr summary.reach incoming }

/-- `NodeSummary::join_state`. -/
def joinState (summary : NodeSummary) (incoming : Formula) : NodeSummary :=
  { summary with state := Formula.mkOr summary.state incoming }

@[simp] theorem holds_combined {summary : NodeSummary} {s : State} :
    summary.combined.Holds s ↔ summary.reach.Holds s ∧ summary.state.Holds s := by
  rw [combined]
  split
  · rename_i h
    rcases h with h | h <;> simp [h]
  · simp

end NodeSummary

/-! ### The engine -/

/-- The errors of a rule. -/
inductive RuleError
  | unknownEdge (edge : CfgEdgeId)
  | unknownNode (node : CfgNodeId)
  | oracle (error : OracleError)
  deriving DecidableEq

/-- The state of the fixpoint engine. -/
structure RuleEngine where
  summaries : CfgNodeId → NodeSummary
  blockedEdges : Finset CfgEdgeId

namespace RuleEngine

variable (cfg : AbstractCfg)

/-- `RuleEngine::init`: the entry is reachable, nothing else is, and nothing is blocked. -/
def init : RuleEngine where
  summaries id := if id = cfg.entry then .entry id else .unreachable id
  blockedEdges := ∅

/-- `RuleEngine::summary`. -/
def summary (engine : RuleEngine) (id : CfgNodeId) : Except RuleError NodeSummary :=
  if id ∈ cfg.nodeIds then .ok (engine.summaries id) else .error (.unknownNode id)

/-- Change the summary of a node, as the source does through `summary_mut`. -/
def modifySummary (engine : RuleEngine) (id : CfgNodeId) (f : NodeSummary → NodeSummary) :
    Except RuleError RuleEngine :=
  if id ∈ cfg.nodeIds then
    .ok { engine with
      summaries := Function.update engine.summaries id (f (engine.summaries id)) }
  else .error (.unknownNode id)

/-- `RuleEngine::is_blocked`. -/
def isBlocked (engine : RuleEngine) (edge : CfgEdgeId) : Bool := decide (edge ∈ engine.blockedEdges)

/-- `RuleEngine::blocked_count`. -/
def blockedCount (engine : RuleEngine) : ℕ := engine.blockedEdges.card

/-- `RuleEngine::block_edge`. -/
def blockEdge (engine : RuleEngine) (edge : CfgEdgeId) : RuleEngine :=
  { engine with blockedEdges := insert edge engine.blockedEdges }

/-- `RuleEngine::set_state`. -/
def setState (engine : RuleEngine) (node : CfgNodeId) (formula : Formula) :
    Except RuleError RuleEngine :=
  engine.modifySummary cfg node fun summary ↦ { summary with state := formula }

/-- The edge of a rule call, with the error of the rules. -/
def ruleEdge (edge : CfgEdgeId) : Except RuleError AbstractEdge :=
  (cfg.edge edge).mapError fun _ ↦ .unknownEdge edge

/-- The node of a rule call, with the error of the rules. -/
def ruleNode (node : CfgNodeId) : Except RuleError AbstractNode :=
  (cfg.node node).mapError fun _ ↦ .unknownNode node

/-- `RuleEngine::forward_may_post`. -/
def forwardMayPost (engine : RuleEngine) (edgeId : CfgEdgeId) : Except RuleError RuleEngine := do
  if engine.isBlocked edgeId then return engine
  let edge ← ruleEdge cfg edgeId
  let source ← engine.summary cfg edge.source
  engine.modifySummary cfg edge.target (·.joinReach (Formula.mkAnd source.reach edge.guard))

/-- `RuleEngine::notmay_pre`. -/
def notmayPre (engine : RuleEngine) (edgeId : CfgEdgeId) : Except RuleError RuleEngine := do
  if engine.isBlocked edgeId then return engine
  let edge ← ruleEdge cfg edgeId
  let target ← engine.summary cfg edge.target
  let edgePre := edge.transfer.wp target.state
  let postAtSource := Formula.mkAnd edge.guard edgePre
  let source ← ruleNode cfg edge.source
  engine.modifySummary cfg edge.source (·.joinState (source.transfer.wp postAtSource))

/-- Block the edge and erase the state of its source, as both pruning rules do. -/
def prune (engine : RuleEngine) (edge : AbstractEdge) : Except RuleError RuleEngine :=
  (engine.blockEdge edge.id).setState cfg edge.source .fls

/-- `RuleEngine::notmay_pre_pruned`. -/
def notmayPrePruned (oracle : Oracle) (engine : RuleEngine) (edgeId : CfgEdgeId) :
    Except RuleError RuleEngine := do
  let engine ← engine.notmayPre cfg edgeId
  let edge ← ruleEdge cfg edgeId
  let source ← engine.summary cfg edge.source
  let feasibility ← (oracle.feasibility source.combined).mapError .oracle
  if feasibility = .infeasible then engine.prune cfg edge else return engine

/-- The loop of `notmay_pre_usesummary` over the entries of the callee. -/
def useNotmaySummaries (oracle : Oracle) (engine : RuleEngine) (edge : AbstractEdge) :
    List NotMaySummary → Except RuleError RuleEngine
  | [] => return engine
  | entry :: rest => do
    let source ← engine.summary cfg edge.source
    let feasibility ← (oracle.feasibility
      (Formula.mkAnd source.reach entry.precondition)).mapError .oracle
    let target ← engine.summary cfg edge.target
    let validity ← (oracle.implies target.state entry.postcondition).mapError .oracle
    if feasibility ≠ .infeasible ∧ validity = .valid then engine.prune cfg edge
    else useNotmaySummaries oracle engine edge rest

/-- `RuleEngine::notmay_pre_usesummary`. -/
def notmayPreUsesummary (tables : ContextualSummaryTable) (oracle : Oracle)
    (engine : RuleEngine) (edgeId : CfgEdgeId) : Except RuleError RuleEngine := do
  if engine.isBlocked edgeId then return engine
  let edge ← ruleEdge cfg edgeId
  let target ← ruleNode cfg edge.target
  match calleeOf target with
  | none => return engine
  | some callee => engine.useNotmaySummaries cfg oracle edge (tables.notmay callee)

/-- Whether a forward-reach entry applies: its precondition is trivial or is implied by the
caller's reach formula. -/
def forwardMayApplies (oracle : Oracle) (callerReach : Formula) (entry : MaySummary) :
    Except RuleError Bool :=
  if entry.precondition = .tru then return true
  else do
    let validity ← (oracle.implies callerReach entry.precondition).mapError .oracle
    return validity = .valid

/-- The loop of `forward_may_usesummary` over the entries of the callee; `callerReach` is read
once, before it. -/
def useForwardMaySummaries (oracle : Oracle) (callerReach : Formula) (edge : AbstractEdge)
    (engine : RuleEngine) : List MaySummary → Except RuleError RuleEngine
  | [] => return engine
  | entry :: rest => do
    let applies ← forwardMayApplies oracle callerReach entry
    if applies then do
      let engine ← engine.modifySummary cfg edge.target (·.joinReach entry.postcondition)
      useForwardMaySummaries oracle callerReach edge engine rest
    else useForwardMaySummaries oracle callerReach edge engine rest

/-- `RuleEngine::forward_may_usesummary`. -/
def forwardMayUsesummary (tables : ContextualSummaryTable) (oracle : Oracle)
    (engine : RuleEngine) (edgeId : CfgEdgeId) : Except RuleError RuleEngine := do
  if engine.isBlocked edgeId then return engine
  let edge ← ruleEdge cfg edgeId
  let sourceNode ← ruleNode cfg edge.source
  match calleeOf sourceNode with
  | none => return engine
  | some callee =>
    let source ← engine.summary cfg edge.source
    engine.useForwardMaySummaries cfg oracle source.reach edge (tables.forwardMay callee)

end RuleEngine

/-! ### Passes -/

/-- One call of a rule on one edge. -/
inductive RuleCall
  | forwardMayPost (edge : CfgEdgeId)
  | forwardMayUsesummary (edge : CfgEdgeId)
  | notmayPre (edge : CfgEdgeId)
  | notmayPreUsesummary (edge : CfgEdgeId)
  | notmayPrePruned (edge : CfgEdgeId)
  deriving DecidableEq

namespace RuleEngine

variable (cfg : AbstractCfg) (tables : ContextualSummaryTable) (oracle : Oracle)

/-- Carry out a rule call. -/
def apply (engine : RuleEngine) : RuleCall → Except RuleError RuleEngine
  | .forwardMayPost edge => engine.forwardMayPost cfg edge
  | .forwardMayUsesummary edge => engine.forwardMayUsesummary cfg tables oracle edge
  | .notmayPre edge => engine.notmayPre cfg edge
  | .notmayPreUsesummary edge => engine.notmayPreUsesummary cfg tables oracle edge
  | .notmayPrePruned edge => engine.notmayPrePruned cfg oracle edge

/-- The calls of the forward loop at one node. -/
def forwardCallsAt (node : CfgNodeId) : List RuleCall :=
  (cfg.outgoingEdges node).flatMap fun edge ↦ [.forwardMayPost edge, .forwardMayUsesummary edge]

/-- The calls of the backward loop for one edge. -/
def backwardCallsOn (edge : CfgEdgeId) : List RuleCall :=
  [.notmayPre edge, .notmayPreUsesummary edge, .notmayPrePruned edge]

/-- The calls of the backward loop at one node. -/
def backwardCallsAt (node : CfgNodeId) : List RuleCall :=
  (cfg.incomingEdges node).flatMap backwardCallsOn

/-- The calls of one pass: forward over the order, then backward over it. -/
def passCalls (order : List CfgNodeId) : List RuleCall :=
  order.flatMap (forwardCallsAt cfg) ++ order.reverse.flatMap (backwardCallsAt cfg)

/-- One pass over the order. -/
def runPass (order : List CfgNodeId) (engine : RuleEngine) : Except RuleError RuleEngine :=
  (passCalls cfg order).foldlM (apply cfg tables oracle) engine

/-- Passes until no edge was newly blocked, at most `fuel` of them. -/
def runPasses (order : List CfgNodeId) : ℕ → RuleEngine → Except RuleError RuleEngine
  | 0, engine => return engine
  | fuel + 1, engine => do
    let engine' ← runPass cfg tables oracle order engine
    if engine.blockedCount = engine'.blockedCount then return engine'
    else runPasses order fuel engine'

/-- `RuleEngine::run_to_fixpoint`: the loop bound is the number of edges plus two. -/
def runToFixpoint (order : List CfgNodeId) (engine : RuleEngine) :
    Except RuleError RuleEngine :=
  runPasses cfg tables oracle order (cfg.edges.length + 2) engine

/-- `RuleEngine::verified`. -/
def verified (engine : RuleEngine) (entry : CfgNodeId) : Except RuleError Bool := do
  let summary ← engine.summary cfg entry
  let report ← (oracle.feasibilityWithModel summary.combined).mapError .oracle
  return report.feasibility = .infeasible

/-- `RuleEngine::bugfound`. -/
def bugfound (engine : RuleEngine) (entry : CfgNodeId) (cfgIsAcyclic : Bool) :
    Except RuleError (Option (Option SmtModel)) := do
  if !cfgIsAcyclic then return none
  let summary ← engine.summary cfg entry
  let report ← (oracle.feasibilityWithModel summary.combined).mapError .oracle
  if report.feasibility = .feasible then return some report.model else return none

end RuleEngine

end MayMust
