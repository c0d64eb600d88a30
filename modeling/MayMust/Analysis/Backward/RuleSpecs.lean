import MayMust.Analysis.Backward.Rules
import MayMust.Cfg.Execution

/-!
# What one rule call can do

One inversion lemma per rule: what a successful call says of the engine after it, guards
included. Everything proved about passes and fixpoints goes through these lemmas and never
unfolds a rule again.

`RuleEngine.Grows` is the part all rules share: edges are only ever blocked, and the reach
formulas only ever get weaker. States are different, since pruning erases them.
-/

namespace MayMust

open Library

namespace RuleEngine

variable {cfg : AbstractCfg} {tables : ContextualSummaryTable} {oracle : Oracle}
  {engine engine' engine'' : RuleEngine} {id : CfgEdgeId}

/-- The reach formula of a node. -/
def reachAt (engine : RuleEngine) (n : CfgNodeId) : Formula := (engine.summaries n).reach

/-- The state formula of a node. -/
def stateAt (engine : RuleEngine) (n : CfgNodeId) : Formula := (engine.summaries n).state

/-- Widen the reach formula of a node. -/
def joinReachAt (engine : RuleEngine) (n : CfgNodeId) (φ : Formula) : RuleEngine :=
  { engine with summaries := Function.update engine.summaries n ((engine.summaries n).joinReach φ) }

/-- Widen the state formula of a node. -/
def joinStateAt (engine : RuleEngine) (n : CfgNodeId) (φ : Formula) : RuleEngine :=
  { engine with summaries := Function.update engine.summaries n ((engine.summaries n).joinState φ) }

/-- Overwrite the state formula of a node. -/
def setStateAt (engine : RuleEngine) (n : CfgNodeId) (φ : Formula) : RuleEngine :=
  { engine with
    summaries := Function.update engine.summaries n { engine.summaries n with state := φ } }

/-- Block the edge and erase the state of its source. -/
def pruned (engine : RuleEngine) (e : AbstractEdge) : RuleEngine :=
  (engine.blockEdge e.id).setStateAt e.source .fls

/-- What the backward rule propagates across an edge for a formula at its target. -/
def predecessorState (cfg : AbstractCfg) (e : AbstractEdge) (φ : Formula) : Formula :=
  (cfg.transferAt e.source).wp (Formula.mkAnd e.guard (e.transfer.wp φ))

/-! ### Reading the updated engine -/

section Reading

variable (n m : CfgNodeId) (φ : Formula) (e : AbstractEdge)

@[simp] theorem blockedEdges_joinReachAt :
    (engine.joinReachAt n φ).blockedEdges = engine.blockedEdges := rfl

@[simp] theorem blockedEdges_joinStateAt :
    (engine.joinStateAt n φ).blockedEdges = engine.blockedEdges := rfl

@[simp] theorem blockedEdges_setStateAt :
    (engine.setStateAt n φ).blockedEdges = engine.blockedEdges := rfl

@[simp] theorem blockedEdges_pruned :
    (engine.pruned e).blockedEdges = insert e.id engine.blockedEdges := rfl

@[simp] theorem reachAt_joinReachAt : (engine.joinReachAt n φ).reachAt m =
    if m = n then Formula.mkOr (engine.reachAt n) φ else engine.reachAt m := by
  by_cases h : m = n <;> simp [reachAt, joinReachAt, h, NodeSummary.joinReach]

@[simp] theorem stateAt_joinReachAt : (engine.joinReachAt n φ).stateAt m = engine.stateAt m := by
  by_cases h : m = n <;> simp [stateAt, joinReachAt, h, NodeSummary.joinReach]

@[simp] theorem reachAt_joinStateAt : (engine.joinStateAt n φ).reachAt m = engine.reachAt m := by
  by_cases h : m = n <;> simp [reachAt, joinStateAt, h, NodeSummary.joinState]

@[simp] theorem stateAt_joinStateAt : (engine.joinStateAt n φ).stateAt m =
    if m = n then Formula.mkOr (engine.stateAt n) φ else engine.stateAt m := by
  by_cases h : m = n <;> simp [stateAt, joinStateAt, h, NodeSummary.joinState]

@[simp] theorem reachAt_setStateAt : (engine.setStateAt n φ).reachAt m = engine.reachAt m := by
  by_cases h : m = n <;> simp [reachAt, setStateAt, h]

@[simp] theorem stateAt_setStateAt : (engine.setStateAt n φ).stateAt m =
    if m = n then φ else engine.stateAt m := by
  by_cases h : m = n <;> simp [stateAt, setStateAt, h]

@[simp] theorem reachAt_pruned : (engine.pruned e).reachAt m = engine.reachAt m := by
  rw [pruned, reachAt_setStateAt]; rfl

@[simp] theorem stateAt_pruned : (engine.pruned e).stateAt m =
    if m = e.source then .fls else engine.stateAt m := by
  rw [pruned, stateAt_setStateAt]; rfl

end Reading

/-! ### Inversion of the accessors -/

theorem summary_eq_ok {n : CfgNodeId} {summary : NodeSummary}
    (h : engine.summary cfg n = .ok summary) : summary = engine.summaries n := by
  rw [RuleEngine.summary] at h
  split at h
  · exact (Except.ok.inj h).symm
  · simp at h

theorem modifySummary_eq_ok {n : CfgNodeId} {f : NodeSummary → NodeSummary}
    (h : engine.modifySummary cfg n f = .ok engine') :
    engine' = { engine with
      summaries := Function.update engine.summaries n (f (engine.summaries n)) } := by
  rw [modifySummary] at h
  split at h
  · exact (Except.ok.inj h).symm
  · simp at h

theorem setState_eq_ok {n : CfgNodeId} {φ : Formula} (h : engine.setState cfg n φ = .ok engine') :
    engine' = engine.setStateAt n φ :=
  modifySummary_eq_ok h

theorem ruleEdge_eq_ok {e : AbstractEdge} (h : ruleEdge cfg id = .ok e) :
    e ∈ cfg.edges ∧ e.id = id := by
  simp only [ruleEdge, ok_of_mapError] at h
  exact AbstractCfg.mem_of_edge_eq_ok h

theorem ruleNode_eq_ok {n : CfgNodeId} {node : AbstractNode} (h : ruleNode cfg n = .ok node) :
    cfg.node n = .ok node := by
  simpa only [ruleNode, ok_of_mapError] using h

theorem prune_eq_ok {e : AbstractEdge} (h : engine.prune cfg e = .ok engine') :
    engine' = engine.pruned e :=
  setState_eq_ok h

/-! ### The rules -/

theorem forwardMayPost_eq_ok (h : engine.forwardMayPost cfg id = .ok engine') :
    (id ∈ engine.blockedEdges ∧ engine' = engine) ∨
      id ∉ engine.blockedEdges ∧ ∃ e ∈ cfg.edges, e.id = id ∧
        engine' = engine.joinReachAt e.target
          (Formula.mkAnd (engine.reachAt e.source) e.guard) := by
  rw [forwardMayPost] at h
  split at h
  · rename_i hb
    simp only [isBlocked, decide_eq_true_eq] at hb
    exact Or.inl ⟨hb, (pure_eq_ok.1 h).symm⟩
  · rename_i hb
    simp only [isBlocked, decide_eq_true_eq] at hb
    simp only [bind_eq_ok] at h
    obtain ⟨e, he, source, hsource, h⟩ := h
    obtain ⟨hmem, hid⟩ := ruleEdge_eq_ok he
    obtain rfl := summary_eq_ok hsource
    exact Or.inr ⟨hb, e, hmem, hid, modifySummary_eq_ok h⟩

theorem notmayPre_eq_ok (h : engine.notmayPre cfg id = .ok engine') :
    (id ∈ engine.blockedEdges ∧ engine' = engine) ∨
      id ∉ engine.blockedEdges ∧ ∃ e ∈ cfg.edges, e.id = id ∧
        engine' = engine.joinStateAt e.source
          (predecessorState cfg e (engine.stateAt e.target)) := by
  rw [notmayPre] at h
  split at h
  · rename_i hb
    simp only [isBlocked, decide_eq_true_eq] at hb
    exact Or.inl ⟨hb, (pure_eq_ok.1 h).symm⟩
  · rename_i hb
    simp only [isBlocked, decide_eq_true_eq] at hb
    simp only [bind_eq_ok] at h
    obtain ⟨e, he, target, htarget, source, hsource, h⟩ := h
    obtain ⟨hmem, hid⟩ := ruleEdge_eq_ok he
    obtain rfl := summary_eq_ok htarget
    refine Or.inr ⟨hb, e, hmem, hid, ?_⟩
    rw [modifySummary_eq_ok h, predecessorState,
      AbstractCfg.transferAt_eq (ruleNode_eq_ok hsource)]
    rfl

theorem notmayPrePruned_eq_ok (h : engine.notmayPrePruned cfg oracle id = .ok engine'') :
    ∃ engine', engine.notmayPre cfg id = .ok engine' ∧ ∃ e ∈ cfg.edges, e.id = id ∧
      (engine'' = engine' ∨
        oracle.feasibility (engine'.summaries e.source).combined = .ok .infeasible ∧
          engine'' = engine'.pruned e) := by
  rw [notmayPrePruned] at h
  simp only [bind_eq_ok, ok_of_mapError] at h
  obtain ⟨engine', hpre, e, he, source, hsource, f, hf, h⟩ := h
  obtain ⟨hmem, hid⟩ := ruleEdge_eq_ok he
  obtain rfl := summary_eq_ok hsource
  refine ⟨engine', hpre, e, hmem, hid, ?_⟩
  split at h
  · rename_i hinf
    exact Or.inr ⟨hinf ▸ hf, prune_eq_ok h⟩
  · exact Or.inl (pure_eq_ok.1 h).symm

/-- An entry of the callee's table that lets the summary rule prune the edge. -/
structure PrunedBySummary (cfg : AbstractCfg) (tables : ContextualSummaryTable) (oracle : Oracle)
    (engine : RuleEngine) (e : AbstractEdge) (callee : String) (entry : NotMaySummary) : Prop where
  unblocked : e.id ∉ engine.blockedEdges
  callee_eq : ∃ node, cfg.node e.target = .ok node ∧ calleeOf node = some callee
  entry_mem : entry ∈ tables.notmay callee
  feasible : ∃ f, oracle.feasibility
    (Formula.mkAnd (engine.reachAt e.source) entry.precondition) = .ok f ∧ f ≠ .infeasible
  valid : oracle.implies (engine.stateAt e.target) entry.postcondition = .ok .valid

theorem useNotmaySummaries_eq_ok {e : AbstractEdge} {entries : List NotMaySummary}
    (h : engine.useNotmaySummaries cfg oracle e entries = .ok engine') :
    engine' = engine ∨ ∃ entry ∈ entries,
      (∃ f, oracle.feasibility
        (Formula.mkAnd (engine.reachAt e.source) entry.precondition) = .ok f ∧ f ≠ .infeasible) ∧
      oracle.implies (engine.stateAt e.target) entry.postcondition = .ok .valid ∧
      engine' = engine.pruned e := by
  induction entries with
  | nil => exact Or.inl (pure_eq_ok.1 h).symm
  | cons entry rest ih =>
    rw [useNotmaySummaries] at h
    simp only [bind_eq_ok, ok_of_mapError] at h
    obtain ⟨source, hsource, f, hf, target, htarget, v, hv, h⟩ := h
    obtain rfl := summary_eq_ok hsource
    obtain rfl := summary_eq_ok htarget
    split at h
    · rename_i hcond
      exact Or.inr ⟨entry, List.mem_cons_self, ⟨f, hf, hcond.1⟩, hcond.2 ▸ hv, prune_eq_ok h⟩
    · refine (ih h).imp_right ?_
      rintro ⟨entry', hmem, hrest⟩
      exact ⟨entry', List.mem_cons_of_mem _ hmem, hrest⟩

theorem notmayPreUsesummary_eq_ok
    (h : engine.notmayPreUsesummary cfg tables oracle id = .ok engine') :
    engine' = engine ∨ ∃ e ∈ cfg.edges, e.id = id ∧
      (∃ callee entry, PrunedBySummary cfg tables oracle engine e callee entry) ∧
        engine' = engine.pruned e := by
  rw [notmayPreUsesummary] at h
  split at h
  · exact Or.inl (pure_eq_ok.1 h).symm
  rename_i hb
  simp only [isBlocked, decide_eq_true_eq] at hb
  simp only [bind_eq_ok] at h
  obtain ⟨e, he, target, htarget, h⟩ := h
  obtain ⟨hmem, hid⟩ := ruleEdge_eq_ok he
  split at h
  · exact Or.inl (pure_eq_ok.1 h).symm
  · rename_i callee hcallee
    refine (useNotmaySummaries_eq_ok h).imp_right ?_
    rintro ⟨entry, hentry, hfeas, hvalid, hengine⟩
    exact ⟨e, hmem, hid, ⟨callee, entry, hid ▸ hb, ⟨target, ruleNode_eq_ok htarget, hcallee⟩,
      hentry, hfeas, hvalid⟩, hengine⟩

/-! ### What all rules share -/

/-- Edges are only ever blocked and reach formulas only ever get weaker. -/
structure Grows (engine engine' : RuleEngine) : Prop where
  blocked : engine.blockedEdges ⊆ engine'.blockedEdges
  reach : ∀ n s, (engine.reachAt n).Holds s → (engine'.reachAt n).Holds s

theorem Grows.refl (engine : RuleEngine) : Grows engine engine := ⟨subset_rfl, fun _ _ ↦ id⟩

theorem Grows.trans (h : Grows engine engine') (h' : Grows engine' engine'') :
    Grows engine engine'' :=
  ⟨h.blocked.trans h'.blocked, fun n s hs ↦ h'.reach n s (h.reach n s hs)⟩

theorem grows_joinReachAt (engine : RuleEngine) (n : CfgNodeId) (φ : Formula) :
    Grows engine (engine.joinReachAt n φ) where
  blocked := by simp
  reach m s hs := by
    rw [reachAt_joinReachAt]
    split
    · rename_i hm; subst hm; exact (Formula.holds_mkOr _ _).2 (Or.inl hs)
    · exact hs

theorem grows_joinStateAt (engine : RuleEngine) (n : CfgNodeId) (φ : Formula) :
    Grows engine (engine.joinStateAt n φ) :=
  ⟨by simp, by simp⟩

theorem grows_pruned (engine : RuleEngine) (e : AbstractEdge) : Grows engine (engine.pruned e) :=
  ⟨by simp, by simp⟩

theorem useForwardMaySummaries_eq_ok {e : AbstractEdge} {callerReach : Formula}
    {entries : List MaySummary}
    (h : engine.useForwardMaySummaries cfg oracle callerReach e entries = .ok engine') :
    Grows engine engine' ∧ engine'.blockedEdges = engine.blockedEdges ∧
      ∀ n, engine'.stateAt n = engine.stateAt n := by
  induction entries generalizing engine with
  | nil =>
    obtain rfl : engine = engine' := pure_eq_ok.1 h
    exact ⟨.refl _, rfl, fun _ ↦ rfl⟩
  | cons entry rest ih =>
    rw [useForwardMaySummaries] at h
    simp only [bind_eq_ok] at h
    obtain ⟨applies, -, h⟩ := h
    split at h
    · simp only [bind_eq_ok] at h
      obtain ⟨mid, hmid, h⟩ := h
      obtain rfl : mid = engine.joinReachAt e.target entry.postcondition := modifySummary_eq_ok hmid
      obtain ⟨hgrows, hblocked, hstate⟩ := ih h
      exact ⟨(grows_joinReachAt _ _ _).trans hgrows, hblocked, fun n ↦ by simp [hstate]⟩
    · exact ih h

theorem forwardMayUsesummary_eq_ok
    (h : engine.forwardMayUsesummary cfg tables oracle id = .ok engine') :
    Grows engine engine' ∧ engine'.blockedEdges = engine.blockedEdges ∧
      ∀ n, engine'.stateAt n = engine.stateAt n := by
  rw [forwardMayUsesummary] at h
  have hself : Grows engine engine ∧ engine.blockedEdges = engine.blockedEdges ∧
      ∀ n, engine.stateAt n = engine.stateAt n := ⟨.refl _, rfl, fun _ ↦ rfl⟩
  split at h
  · obtain rfl : engine = engine' := pure_eq_ok.1 h
    exact hself
  simp only [bind_eq_ok] at h
  obtain ⟨e, -, source, -, h⟩ := h
  split at h
  · obtain rfl : engine = engine' := pure_eq_ok.1 h
    exact hself
  · simp only [bind_eq_ok] at h
    obtain ⟨summary, -, h⟩ := h
    exact useForwardMaySummaries_eq_ok h

theorem notmayPre_grows (h : engine.notmayPre cfg id = .ok engine') : Grows engine engine' := by
  rcases notmayPre_eq_ok h with ⟨-, rfl⟩ | ⟨-, e, -, -, rfl⟩
  · exact .refl _
  · exact grows_joinStateAt _ _ _

theorem apply_grows {call : RuleCall} (h : engine.apply cfg tables oracle call = .ok engine') :
    Grows engine engine' := by
  cases call with
  | forwardMayPost id =>
    rcases forwardMayPost_eq_ok h with ⟨-, rfl⟩ | ⟨-, e, -, -, rfl⟩
    · exact .refl _
    · exact grows_joinReachAt _ _ _
  | forwardMayUsesummary id => exact (forwardMayUsesummary_eq_ok h).1
  | notmayPre id => exact notmayPre_grows h
  | notmayPreUsesummary id =>
    rcases notmayPreUsesummary_eq_ok h with rfl | ⟨e, -, -, -, rfl⟩
    · exact .refl _
    · exact grows_pruned _ _
  | notmayPrePruned id =>
    obtain ⟨mid, hpre, e, -, -, rfl | ⟨-, rfl⟩⟩ := notmayPrePruned_eq_ok h
    · exact notmayPre_grows hpre
    · exact (notmayPre_grows hpre).trans (grows_pruned _ _)

/-! ### Runs of the engine -/

/-- A successful sequence of rule calls. -/
def Calls (cfg : AbstractCfg) (tables : ContextualSummaryTable) (oracle : Oracle) :
    List RuleCall → RuleEngine → RuleEngine → Prop :=
  Path fun call engine engine' ↦ engine.apply cfg tables oracle call = .ok engine'

theorem Calls.grows {calls : List RuleCall} (h : Calls cfg tables oracle calls engine engine') :
    Grows engine engine' :=
  Path.rel Grows.refl (fun _ _ _ ↦ Grows.trans) (fun _ _ _ _ ↦ apply_grows) h

/-- The forward loop of a pass touches neither state formulas nor blocked edges. -/
theorem forwardPass_frame {order : List CfgNodeId}
    (h : Calls cfg tables oracle (order.flatMap (forwardCallsAt cfg)) engine engine') :
    engine'.blockedEdges = engine.blockedEdges ∧ ∀ n, engine'.stateAt n = engine.stateAt n := by
  refine Path.rel (R := fun engine engine' : RuleEngine ↦
      engine'.blockedEdges = engine.blockedEdges ∧ ∀ n, engine'.stateAt n = engine.stateAt n)
    (fun _ ↦ ⟨rfl, fun _ ↦ rfl⟩)
    (fun _ _ _ h h' ↦ ⟨h'.1.trans h.1, fun n ↦ (h'.2 n).trans (h.2 n)⟩)
    (fun call hcall engine engine' hstep ↦ ?_) h
  simp only [forwardCallsAt, List.mem_flatMap] at hcall
  obtain ⟨n, -, id, -, hcall⟩ := hcall
  rcases List.mem_pair.1 hcall with rfl | rfl
  · rcases forwardMayPost_eq_ok hstep with ⟨-, rfl⟩ | ⟨-, e, -, -, rfl⟩
    · exact ⟨rfl, fun _ ↦ rfl⟩
    · simp
  · exact (forwardMayUsesummary_eq_ok hstep).2

theorem runPass_eq_ok {order : List CfgNodeId} :
    runPass cfg tables oracle order engine = .ok engine' ↔
      Calls cfg tables oracle (passCalls cfg order) engine engine' :=
  foldlM_eq_ok_iff

/-- The fixpoint loop is a sequence of complete passes, at least one. -/
theorem runPasses_calls {order : List CfgNodeId} {fuel : ℕ} (hfuel : 0 < fuel)
    (h : runPasses cfg tables oracle order fuel engine = .ok engine') :
    ∃ k, Calls cfg tables oracle (List.replicate (k + 1) (passCalls cfg order)).flatten
      engine engine' := by
  induction fuel generalizing engine with
  | zero => exact absurd hfuel (Nat.lt_irrefl 0)
  | succ fuel ih =>
    rw [runPasses] at h
    simp only [bind_eq_ok] at h
    obtain ⟨mid, hpass, h⟩ := h
    rw [runPass_eq_ok] at hpass
    have hone : Calls cfg tables oracle (List.replicate 1 (passCalls cfg order)).flatten
        engine mid := by
      simpa using hpass
    split at h
    · obtain rfl : mid = engine' := pure_eq_ok.1 h
      exact ⟨0, hone⟩
    · cases fuel with
      | zero =>
        obtain rfl : mid = engine' := pure_eq_ok.1 h
        exact ⟨0, hone⟩
      | succ fuel =>
        obtain ⟨k, hk⟩ := ih (Nat.succ_pos fuel) h
        refine ⟨k + 1, ?_⟩
        rw [List.replicate_succ, List.flatten_cons]
        exact Path.append hpass hk

theorem runToFixpoint_calls {order : List CfgNodeId}
    (h : runToFixpoint cfg tables oracle order engine = .ok engine') :
    ∃ k, Calls cfg tables oracle (List.replicate (k + 1) (passCalls cfg order)).flatten
      engine engine' :=
  runPasses_calls (Nat.succ_pos _) h

/-- The fixpoint ends after a pass that blocks nothing. -/
theorem runToFixpoint_of_second_pass {order : List CfgNodeId}
    (hfirst : Calls cfg tables oracle (passCalls cfg order) engine engine')
    (hsecond : Calls cfg tables oracle (passCalls cfg order) engine' engine'')
    (hblocks : engine.blockedCount ≠ engine'.blockedCount)
    (hstable : engine'.blockedCount = engine''.blockedCount) :
    runToFixpoint cfg tables oracle order engine = .ok engine'' := by
  have hpass := runPass_eq_ok.2 hfirst
  have hpass' := runPass_eq_ok.2 hsecond
  show runPasses cfg tables oracle order (cfg.edges.length + 1 + 1) engine = _
  simp only [runPasses, bind_eq_ok]
  refine ⟨engine', hpass, ?_⟩
  rw [if_neg hblocks]
  exact bind_eq_ok.2 ⟨engine'', hpass', by rw [if_pos hstable]; rfl⟩

end RuleEngine

end MayMust
