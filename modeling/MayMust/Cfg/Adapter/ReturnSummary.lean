import MayMust.Analysis.Backward.Ssa
import MayMust.Analysis.Loops.BackwardStates
import MayMust.Formula.AlphaRename

/-!
# Return summaries

`compute_return_summary` relates the return value of an acyclic procedure to the state it is
called in. It observes the return variable at the exit under a second name, carries the equation
of the two names backward through the whole graph, joins at branches, and then renames the
observer back.

The relation loses no execution (`relation_of_run`). As in `Analysis.Backward.Ssa`, the final
scalars can stand in for the scalars of every state on the way, and then each step is one the
transformer accounts for. The observer is handled as an assignment after the exit: it gets its
value there, and nothing before reads it.
-/

namespace MayMust

open Library

/-! ### The source -/

/-- A way in which a callee may modify a region of its caller. -/
structure WriteEffectSummary where
  paramIndex : ℕ
  extRegionName : String
  obsName : String
  relation : Formula
  deriving DecidableEq

/-- A pointer value stored through a pointer parameter. -/
structure PointerWriteEffect where
  paramIndex : ℕ
  paramOffset : ℤ
  targetRegion : String
  targetOffset : Term
  deriving DecidableEq

/-- The summary of a function's return value and memory side effects. -/
structure ReturnSummary where
  function : String
  formalParameters : List String
  retvalName : String
  relation : Formula
  writeEffects : List WriteEffectSummary
  ptrWrites : List PointerWriteEffect
  deriving DecidableEq

/-- The front end's view of a function, as far as summaries read it. -/
structure FunctionGraph where
  params : List String

/-- A lowered procedure, as far as summaries read it. -/
structure AdaptedProcedure where
  name : String
  cfg : AbstractCfg

/-- The name a leaf reads. -/
def Leaf.name : Leaf → String
  | .boolVar v => v.name
  | .termVar v => v.name
  | .region name => name

/-- `formula_contains_var`: the name occurs, as a variable or as a region. -/
def formulaContainsVar (φ : Formula) (name : String) : Bool := name ∈ φ.leaves.map Leaf.name

/-- `synthetic_retval_name`. -/
def syntheticRetvalName (functionName : String) : String := functionName ++ "$__retval"

/-- `formal_parameter_names`. -/
def formalParameterNames (graph : FunctionGraph) (functionName : String) : List String :=
  graph.params.map fun parameter ↦ functionName ++ "$" ++ parameter

/-- The name under which the return value is observed at the exit. -/
def retvalObsName (functionName : String) : String := syntheticRetvalName functionName ++ "$obs"

/-- The inner loop of `compute_return_summary`: one incoming edge. -/
def propagateReturn (cfg : AbstractCfg) (state : CfgNodeId → Formula) (id : CfgEdgeId) :
    Option (CfgNodeId → Formula) :=
  match cfg.edge id with
  | .error _ => none
  | .ok edge =>
    let edgePre := edge.transfer.wp (state edge.target)
    let postAtSource := Formula.mkAnd edge.guard edgePre
    match cfg.node edge.source with
    | .error _ => none
    | .ok source =>
      some (Function.update state edge.source
        (Formula.mkOr (state edge.source) (source.transfer.wp postAtSource)))

/-- The state of the entry when the loops of `compute_return_summary` end. -/
def returnStateAtEntry (procedure : AdaptedProcedure) : Option Formula := do
  let cfg := procedure.cfg
  let order ← cfg.topologicalOrder
  let exit ← cfg.exit
  let postAtExit := Formula.eq (.var (.int (syntheticRetvalName procedure.name)))
    (.var (.int (retvalObsName procedure.name)))
  let exitNode ← (cfg.node exit).toOption
  let state := Function.update (fun _ ↦ Formula.fls) exit (exitNode.transfer.wp postAtExit)
  let state ← order.reverse.foldlM
    (fun state node ↦ (cfg.incomingEdges node).foldlM (propagateReturn cfg) state) state
  return state cfg.entry

/-- The observer's name is renamed back. -/
def renameObserver (functionName name : String) : String :=
  if name = retvalObsName functionName then syntheticRetvalName functionName else name

/-- `compute_return_summary`. -/
def computeReturnSummary (graph : FunctionGraph) (procedure : AdaptedProcedure) :
    Option ReturnSummary := do
  let entryState ← returnStateAtEntry procedure
  let relation := renameFormulaUniform (renameObserver procedure.name) entryState
  if formulaContainsVar relation (syntheticRetvalName procedure.name) then
    some
      { function := procedure.name
        formalParameters := formalParameterNames graph procedure.name
        retvalName := syntheticRetvalName procedure.name
        relation
        writeEffects := []
        ptrWrites := [] }
  else none

/-! ### The loops are a pass -/

section Pass

variable {cfg : AbstractCfg} {procedure : AdaptedProcedure} {graph : FunctionGraph}
  {summary : ReturnSummary} {φ : Formula}

/-- Visit one edge. -/
def visitReturnEdge (cfg : AbstractCfg) (state : CfgNodeId → Formula) (e : AbstractEdge) :
    CfgNodeId → Formula :=
  joinEdge (·.source) (·.target) Formula.mkOr
    (fun e ↦ edgePre false false (cfg.transferAt e.source) e) state e

theorem propagateReturn_eq {e : AbstractEdge} (he : e ∈ cfg.edges) (state : CfgNodeId → Formula) :
    propagateReturn cfg state e.id = some (visitReturnEdge cfg state e) := by
  obtain ⟨n, hnode, htransfer⟩ := AbstractCfg.node_source he
  rw [propagateReturn]
  simp [AbstractCfg.edge_eq_ok he, hnode, htransfer, visitReturnEdge, joinEdge, edgePre]

/-- The formula observed at the exit. -/
def observedAtExit (functionName : String) : Formula :=
  .eq (.var (.int (syntheticRetvalName functionName))) (.var (.int (retvalObsName functionName)))

/-- What the loops compute at the entry. -/
theorem returnStateAtEntry_eq_some (h : returnStateAtEntry procedure = some φ) :
    ∃ order exit, procedure.cfg.topologicalOrderExcluding ∅ = some order ∧
      procedure.cfg.exit = some exit ∧
      φ = backwardPass (·.source) (·.target) Formula.mkOr
        (fun e ↦ edgePre false false (procedure.cfg.transferAt e.source) e)
        (bodyEdges procedure.cfg ∅ none ∅ order)
        (Function.update (fun _ ↦ Formula.fls) exit
          ((procedure.cfg.transferAt exit).wp (observedAtExit procedure.name)))
        procedure.cfg.entry := by
  rw [returnStateAtEntry] at h
  simp only [Option.bind_eq_bind, Option.bind_eq_some_iff] at h
  obtain ⟨order, horder, exit, hexit, exitNode, hnode, states, hstates, hentry⟩ := h
  refine ⟨order, exit, by rw [← AbstractCfg.topologicalOrder_eq, horder], hexit, ?_⟩
  have hnode' : procedure.cfg.node exit = .ok exitNode := by
    cases hn : procedure.cfg.node exit with
    | error e => simp [hn, Except.toOption] at hnode
    | ok node =>
      rw [hn] at hnode
      exact congrArg Except.ok (Option.some.inj hnode)
  -- The loop over the incoming edges of a node visits these edges in turn.
  have hinner : ∀ n ∈ order.reverse, ∀ state : CfgNodeId → Formula,
      (procedure.cfg.incomingEdges n).foldlM (propagateReturn procedure.cfg) state =
        some ((procedure.cfg.edges.filter (·.target = n)).foldl (visitReturnEdge procedure.cfg)
          state) := by
    intro n _ state
    rw [AbstractCfg.incomingEdges, List.foldlM_map]
    exact foldlM_eq_some fun e he state ↦ propagateReturn_eq (List.mem_of_mem_filter he) state
  have hedges : bodyEdges procedure.cfg ∅ none ∅ order =
      order.reverse.flatMap fun n ↦ procedure.cfg.edges.filter (·.target = n) :=
    List.filter_eq_self.2 fun e _ ↦ by simp [insideBody]
  rw [foldlM_eq_some hinner] at hstates
  rw [hedges, backwardPass, List.foldl_flatMap, ← Option.some.inj hentry, ← Option.some.inj hstates,
    AbstractCfg.transferAt_eq hnode']
  rfl

theorem computeReturnSummary_eq_some (h : computeReturnSummary graph procedure = some summary) :
    summary.retvalName = syntheticRetvalName procedure.name ∧
      ∃ φ, returnStateAtEntry procedure = some φ ∧
        summary.relation = renameFormulaUniform (renameObserver procedure.name) φ := by
  rw [computeReturnSummary] at h
  obtain ⟨φ, hφ, h⟩ := Option.bind_eq_some_iff.1 h
  dsimp only at h
  split at h
  · obtain rfl := Option.some.inj h
    exact ⟨rfl, φ, hφ, rfl⟩
  · cases h

end Pass

/-! ### Names of the graph -/

/-- The graph assigns the scalar. -/
def AbstractCfg.Assigns (cfg : AbstractCfg) (v : Var) : Prop :=
  (∃ n, ∃ e ∈ (cfg.transferAt n).effects, e.Assigns v) ∨
    ∃ e ∈ cfg.edges, ∃ f ∈ e.effects, f.Assigns v

/-- The effect neither reads nor assigns the name. -/
structure TransferEffect.Avoids (name : String) (e : TransferEffect) : Prop where
  reads : ∀ x ∈ e.leaves, x.name ≠ name
  assigns : ∀ v, e.Assigns v → v.name ≠ name

/-- The name does not occur in the graph. -/
structure AbstractCfg.Avoids (cfg : AbstractCfg) (name : String) : Prop where
  node : ∀ n, ∀ e ∈ (cfg.transferAt n).effects, e.Avoids name
  edge : ∀ e ∈ cfg.edges, ∀ f ∈ e.effects, f.Avoids name
  guard : ∀ e ∈ cfg.edges, ∀ x ∈ e.guard.leaves, x.name ≠ name

/-- On every path from the entry each scalar is assigned at most once and not read before. -/
def AbstractCfg.SingleAssignment (cfg : AbstractCfg) : Prop :=
  ∀ es n, cfg.EdgePath es cfg.entry n →
    SsaEffects (es.flatMap cfg.crossingEffects ++ (cfg.transferAt n).effects)

section Names

variable {cfg : AbstractCfg} {name : String} {e : TransferEffect} {es : List TransferEffect}
  {v w : Var} {cs : List Crossing} {p q : Position}

theorem TransferEffect.Avoids.not_reads (h : e.Avoids v.name) : ¬ e.Reads v := by
  rintro (hread | hread) <;> exact h.reads _ hread rfl

theorem TransferEffect.Avoids.not_assigns (h : e.Avoids v.name) : ¬ e.Assigns v :=
  fun hassigns ↦ h.assigns v hassigns rfl

theorem AbstractCfg.Avoids.crossingEffects (h : cfg.Avoids name) {e : AbstractEdge}
    (he : e ∈ cfg.edges) : ∀ f ∈ cfg.crossingEffects e, f.Avoids name := by
  intro f hf
  rcases List.mem_append.1 hf with hf | hf
  · exact h.node _ f hf
  · rcases List.mem_cons.1 hf with rfl | hf
    · exact ⟨h.guard e he, by rintro v ⟨value, hvalue⟩; cases hvalue⟩
    · exact h.edge e he f hf

theorem AbstractCfg.not_assigns_crossingEffects (h : ¬ cfg.Assigns v) {e : AbstractEdge}
    (he : e ∈ cfg.edges) : ∀ f ∈ cfg.crossingEffects e, ¬ f.Assigns v := by
  intro f hf hassigns
  rcases List.mem_append.1 hf with hf | hf
  · exact h (Or.inl ⟨_, f, hf, hassigns⟩)
  · rcases List.mem_cons.1 hf with rfl | hf
    · obtain ⟨value, hvalue⟩ := hassigns
      cases hvalue
    · exact h (Or.inr ⟨e, he, f, hf, hassigns⟩)

/-- A property of all effects of the graph, guards included, holds of what a run executes. -/
theorem AbstractCfg.Run.forall_crossingEffects {P : TransferEffect → Prop}
    (hrun : cfg.Run .unknownCallees cs p q)
    (h : ∀ e ∈ cfg.edges, ∀ f ∈ cfg.crossingEffects e, P f) :
    ∀ f ∈ (cs.map (·.edge)).flatMap cfg.crossingEffects, P f := by
  intro f hf
  simp only [List.mem_flatMap, List.mem_map] at hf
  obtain ⟨_, ⟨c, hc, rfl⟩, hf⟩ := hf
  obtain ⟨-, -, -, hvalid, -⟩ := hrun.split hc
  exact h _ hvalid.edge_mem f hf

/-- The value of one variable is observed under a name that nothing before mentions. -/
theorem SsaEffects.observe (h : SsaEffects es) (hes : ∀ e ∈ es, e.Avoids v.name) (hvw : w ≠ v) :
    SsaEffects (es ++ [.assign v (.term (.var w))]) where
  later := by
    refine List.pairwise_append.2 ⟨h.later, List.pairwise_singleton _ _, fun e he e' he' u hu ↦ ?_⟩
    obtain rfl := List.mem_singleton.1 he'
    rintro ⟨value, hvalue⟩
    obtain ⟨rfl, -⟩ := TransferEffect.assign.inj hvalue
    exact hu.elim (hes e he).not_reads (hes e he).not_assigns
  own := by
    intro e he u hread
    rcases List.mem_append.1 he with he | he
    · exact h.own e he u hread
    · obtain rfl := List.mem_singleton.1 he
      rintro ⟨value, hvalue⟩
      obtain ⟨rfl, -⟩ := TransferEffect.assign.inj hvalue
      simp [TransferEffect.Reads, TransferEffect.leaves, Term.leaves] at hread
      exact hvw hread.symm

end Names

/-! ### No execution is lost -/

section Relation

variable {procedure : AdaptedProcedure} {graph : FunctionGraph} {summary : ReturnSummary}
  {cs : List Crossing} {exit : CfgNodeId} {s m s' : State} {φ : Formula} {r : ℤ}

theorem retvalObsName_ne (functionName : String) :
    retvalObsName functionName ≠ syntheticRetvalName functionName := by
  intro h
  have hlength := congrArg String.length h
  rw [retvalObsName, String.length_append] at hlength
  have hobs : "$obs".length = 4 := by decide
  omega

/-- The entry's formula mentions the observer only as the integer variable it was observed in. -/
theorem name_of_mem_returnStateAtEntry (h : returnStateAtEntry procedure = some φ)
    (havoids : procedure.cfg.Avoids (retvalObsName procedure.name)) :
    ∀ x ∈ φ.leaves, x.name ≠ retvalObsName procedure.name ∨
      x = .termVar (.int (retvalObsName procedure.name)) := by
  obtain ⟨order, exit, -, -, rfl⟩ := returnStateAtEntry_eq_some h
  let Q (x : Leaf) : Prop := x.name ≠ retvalObsName procedure.name ∨
    x = .termVar (.int (retvalObsName procedure.name))
  have hQ := hereditary_leaves Q
  have heffects {es : List TransferEffect} {ψ : Formula}
      (hes : ∀ e ∈ es, e.Avoids (retvalObsName procedure.name)) (hψ : ∀ x ∈ ψ.leaves, Q x) :
      ∀ x ∈ (TransferFn.wp ⟨es⟩ ψ).leaves, Q x :=
    forall_leaves_wp hψ fun e he x hx ↦ Or.inl ((hes e he).reads x hx)
  have hobserved : ∀ x ∈ (observedAtExit procedure.name).leaves, Q x := by
    intro x hx
    rcases List.mem_pair.1 hx with rfl | rfl
    · exact Or.inl (retvalObsName_ne procedure.name).symm
    · exact Or.inr rfl
  have hinitial : ∀ n, ∀ x ∈ (Function.update (fun _ ↦ Formula.fls) exit
      ((procedure.cfg.transferAt exit).wp (observedAtExit procedure.name)) n).leaves, Q x := by
    intro n
    by_cases hn : n = exit
    · subst hn
      rw [Function.update_self]
      exact heffects (havoids.node n) hobserved
    · rw [Function.update_of_ne hn]
      exact hQ.fls
  refine backwardPass_induction (P := fun _ (ψ : Formula) ↦ ∀ x ∈ ψ.leaves, Q x) hinitial
    (fun _ ψ ψ' hψ hψ' ↦ hQ.mkOr hψ hψ') (fun e he ψ hψ ↦ ?_) procedure.cfg.entry
  obtain ⟨hedge, -, -⟩ := mem_bodyEdges he
  refine heffects (havoids.node e.source) (hQ.mkAnd (fun x hx ↦ ?_)
    (heffects (havoids.edge e hedge) hψ))
  exact Or.inl (havoids.guard e hedge x hx)

/-- An execution from the entry to the exit satisfies the entry's formula in its first state, with
the final scalars in the place of the scalars and the return value under the observer's name. -/
theorem holds_returnStateAtEntry_of_run (h : returnStateAtEntry procedure = some φ)
    (hssa : procedure.cfg.SingleAssignment) (hbasic : procedure.cfg.Basic)
    (havoids : procedure.cfg.Avoids (retvalObsName procedure.name))
    (hexit : procedure.cfg.exit = some exit)
    (hrun : procedure.cfg.Run .unknownCallees cs ⟨procedure.cfg.entry, s⟩ ⟨exit, m⟩)
    (hreturn : (procedure.cfg.transferAt exit).Run .unknownCallees m s')
    (hr : s'.lookup (.int (syntheticRetvalName procedure.name)) = .int r) :
    φ.Holds (s.withScalars (s'.set (.int (retvalObsName procedure.name)) (.int r)).scalars) := by
  obtain ⟨order, exit', horder, hexit', rfl⟩ := returnStateAtEntry_eq_some h
  obtain rfl : exit = exit' := Option.some.inj (hexit.symm.trans hexit')
  let ret := Var.int (syntheticRetvalName procedure.name)
  let obs := Var.int (retvalObsName procedure.name)
  let last := s'.set obs (.int r)
  have hne : ret ≠ obs := fun heq ↦ retvalObsName_ne procedure.name (congrArg Var.name heq).symm
  have hobserve : TransferEffect.Step .unknownCallees (.assign obs (.term (.var ret))) s' last := by
    have heval : (Term.var ret).eval s' = .int r := hr
    have hint : obs.sort ≠ .bool := nofun
    refine ⟨?_, hint, ?_⟩
    · rw [heval]
      rfl
    · rw [heval]
  -- The observation is one more effect after those of the exit.
  have hpath := hssa _ _ hrun.edgePath
  have hall : ∀ e ∈ (cs.map (·.edge)).flatMap procedure.cfg.crossingEffects ++
      (procedure.cfg.transferAt exit).effects, e.Avoids obs.name :=
    List.forall_mem_append.2
      ⟨hrun.forall_crossingEffects fun e he ↦ havoids.crossingEffects he, havoids.node exit⟩
  have hssa' := hpath.observe hall hne
  rw [List.append_assoc] at hssa'
  have hbasic' : ∀ e ∈ (procedure.cfg.transferAt exit).effects ++
      [.assign obs (.term (.var ret))], e.Basic :=
    List.forall_mem_append.2 ⟨hbasic.node exit, by simpa using TransferEffect.Basic.assign _ _⟩
  have hobserve' := Path.singleton_iff.2 hobserve
  obtain ⟨hmerged, hquiet⟩ :=
    hrun.withScalars hbasic hssa' hbasic' (Path.append hreturn hobserve')
  have hexitQuiet := (hssa'.of_append _).merge hbasic' hreturn hobserve'
  have hobserved : (observedAtExit procedure.name).Holds (s'.withScalars last.scalars) := by
    have hret : (s'.withScalars last.scalars).lookup ret = .int r :=
      (State.lookup_set_of_ne hne).trans hr
    have hobs : last.lookup obs = .int r := State.lookup_set_self rfl
    show Value.compare _ _ ((s'.withScalars last.scalars).lookup ret) (last.lookup obs) = true
    rw [hret, hobs]
    simp [Value.compare]
  have hK := procedure.cfg.readsWithin_true.termsRead
  have hseed := holds_wp_of_quiet hexitQuiet (hK.node _)
    (observedAtExit procedure.name).readsWithin_true.terms hobserved
  refine holds_backwardPass_of_run (p := ⟨procedure.cfg.entry, _⟩) horder hK
    (fun n ↦ ?_) hmerged hquiet
    (fun c _ ↦ ⟨Finset.notMem_empty _, by simp [insideBody]⟩) ?_
  · exact (Formula.readsWithin_true _).terms
  · rw [Function.update_self]
    exact hseed

/-- **A return summary loses no execution.** Let the graph be in single-assignment form with basic
effects, and let no effect mention the observer. Take an execution from state `s` at the entry to
the end of the exit, with return value `r`. If there is a summary, its relation holds in some state
with the memory of `s` and the return value `r`, where every scalar that the graph does not assign
has its value in `s`. -/
theorem relation_of_run (h : computeReturnSummary graph procedure = some summary)
    (hssa : procedure.cfg.SingleAssignment) (hbasic : procedure.cfg.Basic)
    (havoids : procedure.cfg.Avoids (retvalObsName procedure.name))
    (hexit : procedure.cfg.exit = some exit)
    (hrun : procedure.cfg.Run .unknownCallees cs ⟨procedure.cfg.entry, s⟩ ⟨exit, m⟩)
    (hreturn : (procedure.cfg.transferAt exit).Run .unknownCallees m s')
    (hr : s'.lookup (.int summary.retvalName) = .int r) :
    ∃ t, summary.relation.Holds t ∧ t.memory = s.memory ∧ s.SameUndefined t ∧
      t.lookup (.int summary.retvalName) = .int r ∧
      ∀ v, ¬ procedure.cfg.Assigns v → t.lookup v = s.lookup v := by
  obtain ⟨hname, φ, hφ, hrelation⟩ := computeReturnSummary_eq_some h
  rw [hname] at hr ⊢
  have hentry := holds_returnStateAtEntry_of_run hφ hssa hbasic havoids hexit hrun hreturn hr
  have hleaves := name_of_mem_returnStateAtEntry hφ havoids
  have hundefined : s.SameUndefined s' := hrun.sameUndefined.trans hreturn.sameUndefined
  refine ⟨s.withScalars s'.scalars, ?_, rfl, hundefined, hr, fun v hv ↦ ?_⟩
  · -- Renaming the observer back reads the return value where the observer was read.
    rw [hrelation, holds_renameFormulaUniform]
    have hsame : ((s.withScalars s'.scalars).pullback (renameObserver procedure.name)
        (renameObserver procedure.name)).SameUndefined (s.withScalars
          (s'.set (.int (retvalObsName procedure.name)) (.int r)).scalars) := ⟨rfl, rfl, rfl⟩
    refine (Formula.holds_congr hsame fun x hx ↦ ?_).2 hentry
    have hkept {name : String} (hne : name ≠ retvalObsName procedure.name) :
        renameObserver procedure.name name = name := if_neg hne
    have hscalar {v : Var} (hne : v.name ≠ retvalObsName procedure.name) :
        ((s.withScalars s'.scalars).pullback (renameObserver procedure.name)
          (renameObserver procedure.name)).lookup v =
            (s'.set (.int (retvalObsName procedure.name)) (.int r)).lookup v := by
      have hvar : v ≠ .int (retvalObsName procedure.name) := fun heq ↦ hne (congrArg Var.name heq)
      rw [State.lookup_pullback, State.lookup_set_of_ne hvar, Var.rename, hkept hne]
      rfl
    rcases hleaves x hx with hne | rfl
    · cases x with
      | boolVar v => exact hscalar hne
      | termVar v => exact hscalar hne
      | region name => exact congrArg s.memory (hkept hne)
    · have hrenamed : (Var.int (retvalObsName procedure.name)).rename
          (renameObserver procedure.name) = .int (syntheticRetvalName procedure.name) :=
        congrArg Var.int (if_pos rfl)
      have hread : ((s.withScalars s'.scalars).pullback (renameObserver procedure.name)
          (renameObserver procedure.name)).lookup (.int (retvalObsName procedure.name)) =
            .int r := by
        rw [State.lookup_pullback, hrenamed]
        exact hr
      have hobserved : (s'.set (.int (retvalObsName procedure.name)) (.int r)).lookup
          (.int (retvalObsName procedure.name)) = .int r := State.lookup_set_self rfl
      exact hread.trans hobserved.symm
  · have heffects := Path.append hrun.effects hreturn
    show s'.lookup v = s.lookup v
    refine Effects.Run.lookup_eq (List.forall_mem_append.2 ⟨?_, hbasic.node _⟩) heffects
      (List.forall_mem_append.2 ⟨?_, fun e he hassigns ↦ hv (Or.inl ⟨_, e, he, hassigns⟩)⟩)
    · exact hrun.forall_crossingEffects fun e he ↦ hbasic.crossingEffects he
    · exact hrun.forall_crossingEffects fun e he ↦ AbstractCfg.not_assigns_crossingEffects hv he

end Relation

/-! ### A procedure that returns its argument -/

section Identity

/-- The graph of a procedure `f` that returns its parameter. -/
def returnParameterCfg : AbstractCfg where
  nodes := [⟨0, "entry", .entry, ⟨[.assign (.int "f$__retval") (.term (.var (.int "f$%x")))]⟩⟩,
    ⟨1, "exit", .exit, .identity⟩]
  edges := [⟨0, 0, 1, .tru, []⟩]
  entry := 0
  concreteExits := [1]
  exit := some 1
  nextNode := 2
  nextEdge := 1
  nodes_sorted := by simp
  edges_sorted := AbstractCfg.edges_sorted_single
  node_lt := by decide
  edge_lt := AbstractCfg.edge_lt_single
  entry_mem := by simp
  source_mem := by simp
  target_mem := by simp

example : (computeReturnSummary ⟨["%x"]⟩ ⟨"f", returnParameterCfg⟩).map (·.relation) =
    some (.eq (.var (.int "f$%x")) (.var (.int "f$__retval"))) := by decide

theorem effects_returnParameterCfg (n : CfgNodeId) :
    (returnParameterCfg.transferAt n).effects = [] ∨
      (returnParameterCfg.transferAt n).effects =
        [.assign (.int "f$__retval") (.term (.var (.int "f$%x")))] := by
  rw [AbstractCfg.transferAt]
  split
  · rename_i node hnode
    obtain ⟨hmem, -⟩ := AbstractCfg.mem_of_node_eq_ok hnode
    rcases List.mem_pair.1 hmem with rfl | rfl
    · exact Or.inr rfl
    · exact Or.inl rfl
  · exact Or.inl rfl

theorem singleAssignment_returnParameterCfg : returnParameterCfg.SingleAssignment := by
  intro es n hpath
  have hsingle := AbstractCfg.edgePath_of_single (e := ⟨0, 0, 1, .tru, []⟩) rfl (by decide) hpath
  rcases hsingle with ⟨rfl, rfl⟩ | ⟨rfl, rfl⟩
  · exact ⟨by simp [returnParameterCfg, AbstractCfg.transferAt, AbstractCfg.node], by
      simp [returnParameterCfg, AbstractCfg.transferAt, AbstractCfg.node, TransferEffect.Reads,
        TransferEffect.leaves, Term.leaves, TransferEffect.Assigns, Var.int]⟩
  · exact ⟨by simp [returnParameterCfg, AbstractCfg.crossingEffects, AbstractCfg.transferAt,
        AbstractCfg.node, TransferFn.identity, TransferEffect.Assigns], by
      simp [returnParameterCfg, AbstractCfg.crossingEffects, AbstractCfg.transferAt,
        AbstractCfg.node, TransferFn.identity, TransferEffect.Reads, TransferEffect.leaves,
        Term.leaves, Formula.leaves, TransferEffect.Assigns, Var.int]⟩

/-- The call with argument 5 returns 5. -/
theorem relation_of_run_returnParameterCfg :
    ∃ summary t, computeReturnSummary ⟨["%x"]⟩ ⟨"f", returnParameterCfg⟩ = some summary ∧
      summary.relation.Holds t ∧ t.lookup (.int "f$%x") = .int 5 ∧
      t.lookup (.int "f$__retval") = .int 5 := by
  let s := State.zero.set (.int "f$%x") (.int 5)
  let s' := s.set (.int "f$__retval") (.int 5)
  obtain ⟨summary, hsummary⟩ := Option.isSome_iff_exists.1
    (show (computeReturnSummary ⟨["%x"]⟩ ⟨"f", returnParameterCfg⟩).isSome by decide)
  obtain ⟨hname, -⟩ := computeReturnSummary_eq_some hsummary
  have hbasic : returnParameterCfg.Basic := by
    refine ⟨fun n ↦ ?_, by simp [returnParameterCfg]⟩
    rcases effects_returnParameterCfg n with h | h <;> rw [h]
    · simp
    · simpa using TransferEffect.Basic.assign _ _
  have havoids : returnParameterCfg.Avoids (retvalObsName "f") := by
    refine ⟨fun n ↦ ?_, by simp [returnParameterCfg], by simp [returnParameterCfg, Formula.leaves]⟩
    rcases effects_returnParameterCfg n with h | h <;> rw [h]
    · simp
    · refine List.forall_mem_singleton.2 ⟨by decide, ?_⟩
      rintro v ⟨value, hvalue⟩
      obtain ⟨rfl, -⟩ := TransferEffect.assign.inj hvalue
      decide
  have hrun : returnParameterCfg.Run .unknownCallees [⟨⟨0, 0, 1, .tru, []⟩, s, s', s'⟩] ⟨0, s⟩
      ⟨1, s'⟩ := by
    refine Path.singleton_iff.2 ⟨⟨by decide, Path.singleton_iff.2 ⟨?_, by decide, ?_⟩,
      Formula.holds_tru s', rfl⟩, rfl, rfl⟩
    · simp [Term.eval, s, Var.int]
    · show s' = s.set _ (s.lookup (.int "f$%x"))
      rw [State.lookup_set_self rfl]
  obtain ⟨t, hholds, -, -, hr, hkept⟩ := relation_of_run hsummary
    singleAssignment_returnParameterCfg hbasic havoids rfl hrun rfl
    (by rw [hname]; exact State.lookup_set_self rfl)
  rw [hname] at hr
  refine ⟨summary, t, hsummary, hholds, ?_, hr⟩
  rw [hkept (.int "f$%x")]
  · exact State.lookup_set_self rfl
  · rintro (⟨n, e, he, value, rfl⟩ | ⟨e, he, f, hf, -⟩)
    · rcases effects_returnParameterCfg n with h | h <;> rw [h] at he
      · cases he
      · obtain ⟨htarget, -⟩ := TransferEffect.assign.inj (List.mem_singleton.1 he)
        exact absurd htarget (by decide)
    · obtain rfl := List.mem_singleton.1 he
      cases hf

end Identity

end MayMust
