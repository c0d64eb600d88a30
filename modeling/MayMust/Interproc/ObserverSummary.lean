import MayMust.Analysis.AnalyzeWithTables
import MayMust.Cfg.Adapter.Instantiation

/-!
# Return summaries of procedures with loops

`infer_cyclic_observer_summary` looks for lower bounds of the return value: for every cell of a
parameter region that the procedure reads, it asks whether the return value is at least the cell,
as an assertion at the exit, and the relation of the summary is the conjunction of those that are
verified.

At the exit the assertion reads the cells as they are then, but callers read the relation in the
memory of the call, like the relations of `compute_return_summary` (`relation_of_run`). The relation
holds there for every run that does not lower a cell it may read (`observerRelation_of_run`), in
particular for every run of a procedure that does not write to its parameter regions
(`NotLowered.of_run`). A procedure that first overwrites a cell gets a summary that is wrong about
it (`not_observerRelation_of_run`).
-/

namespace MayMust

open Library

/-! ### The source -/

/-- The front end's view of a function, with its pointer parameters. -/
structure ObserverGraph extends FunctionGraph where
  pointerParamIndices : List ℕ

/-- What is collected about the indices at which a region is read. -/
structure ObserverIndices where
  /-- The constant indices, in order. -/
  indices : List Int64
  sawDynamic : Bool
  maxNonnegativeConstant : Int64

namespace ObserverIndices

/-- Nothing has been collected. -/
def empty : ObserverIndices := ⟨[], false, 0⟩

/-- Insert an index. -/
def insert (acc : ObserverIndices) (index : Int64) : ObserverIndices :=
  if index ∈ acc.indices then acc
  else { acc with indices := acc.indices.orderedInsert (· ≤ ·) index }

/-- A dynamic index has been seen. -/
def dynamic (acc : ObserverIndices) : ObserverIndices := { acc with sawDynamic := true }

/-- A constant has been seen. -/
def constant (acc : ObserverIndices) (value : Int64) : ObserverIndices :=
  if 0 ≤ value then
    { acc with maxNonnegativeConstant := max acc.maxNonnegativeConstant value }
  else acc

end ObserverIndices

/-- `const_int_value`. -/
def constIntValue : Term → Option Int64
  | .int value => some value
  | .add lhs rhs => do return (← constIntValue lhs) + (← constIntValue rhs)
  | .sub lhs rhs => do return (← constIntValue lhs) - (← constIntValue rhs)
  | .neg inner => do return -(← constIntValue inner)
  | _ => none

section Collect

variable (extRegion : String)

/-- The index of a read. -/
def collectSelectIndex (memory : Memory) (index : Term) (acc : ObserverIndices) : ObserverIndices :=
  if memory = .var extRegion then
    match constIntValue index with
    | some constant => acc.insert constant
    | none => acc.dynamic
  else acc

mutual

/-- `collect_observer_indices_memory`. -/
def collectObserverIndicesMemory : Memory → ObserverIndices → ObserverIndices
  | .var _, acc => acc
  | .store inner index value, acc =>
    collectObserverIndicesTerm value
      (collectObserverIndicesTerm index (collectObserverIndicesMemory inner acc))
termination_by structural m => m

/-- `collect_observer_indices_term`. -/
def collectObserverIndicesTerm : Term → ObserverIndices → ObserverIndices
  | .var _, acc | .real _, acc => acc
  | .int value, acc => acc.constant value
  | .boolToInt inner, acc => collectObserverIndicesFormula inner acc
  | .select memory index, acc =>
    collectObserverIndicesTerm index
      (collectSelectIndex extRegion memory index (collectObserverIndicesMemory memory acc))
  | .add lhs rhs, acc | .sub lhs rhs, acc | .mul lhs rhs, acc | .div lhs rhs, acc
  | .rem lhs rhs, acc => collectObserverIndicesTerm rhs (collectObserverIndicesTerm lhs acc)
  | .neg inner, acc => collectObserverIndicesTerm inner acc
termination_by structural t => t

/-- `collect_observer_indices_formula`. -/
def collectObserverIndicesFormula : Formula → ObserverIndices → ObserverIndices
  | .tru, acc | .fls, acc | .var _, acc => acc
  | .not inner, acc => collectObserverIndicesFormula inner acc
  | .and items, acc | .or items, acc => collectObserverIndicesList items acc
  | .implies lhs rhs, acc =>
    collectObserverIndicesFormula rhs (collectObserverIndicesFormula lhs acc)
  | .eq lhs rhs, acc | .lt lhs rhs, acc | .le lhs rhs, acc | .gt lhs rhs, acc | .ge lhs rhs, acc =>
    collectObserverIndicesTerm rhs (collectObserverIndicesTerm lhs acc)
  | .memoryEq lhs rhs, acc =>
    collectObserverIndicesMemory rhs (collectObserverIndicesMemory lhs acc)
termination_by structural φ => φ

/-- `collect_observer_indices_formula`, one formula after the other. -/
def collectObserverIndicesList : List Formula → ObserverIndices → ObserverIndices
  | [], acc => acc
  | item :: rest, acc => collectObserverIndicesList rest (collectObserverIndicesFormula item acc)
termination_by structural items => items

end

/-- `collect_observer_indices_effect`. -/
def collectObserverIndicesEffect (acc : ObserverIndices) : TransferEffect → ObserverIndices
  | .assign _ (.term value) => collectObserverIndicesTerm extRegion value acc
  | .assign _ (.predicate value) => collectObserverIndicesFormula extRegion value acc
  | .assume condition | .obligation condition => collectObserverIndicesFormula extRegion condition
    acc
  | .store _ value | .memoryStore _ _ value => collectObserverIndicesTerm extRegion value acc
  | .getElementPtr _ _ offset => collectObserverIndicesTerm extRegion offset acc
  | _ => acc

end Collect

/-- `observer_candidate_indices`. -/
def observerCandidateIndices (cfg : AbstractCfg) (function : String) (paramIndex : ℕ) :
    List Int64 :=
  let extRegion := extRegionName function paramIndex
  let acc := cfg.nodes.foldl (fun acc node ↦
    node.transfer.effects.foldl (collectObserverIndicesEffect extRegion) acc) .empty
  let acc := cfg.edges.foldl (fun acc edge ↦
    collectObserverIndicesFormula extRegion edge.guard acc) acc
  let acc :=
    if acc.sawDynamic then
      (List.range (acc.maxNonnegativeConstant.toInt.toNat + 1)).foldl
        (fun acc index ↦ acc.insert (Int64.ofNat index)) acc
    else acc
  acc.indices

/-- The return value is at least a cell of a parameter region. -/
def observerObligation (function : String) (paramIndex : ℕ) (index : Int64) : Formula :=
  .ge (.var (.int (syntheticRetvalName function)))
    (.select (.var (extRegionName function paramIndex)) (.int index))

/-- `synthetic_exit_assertion`. -/
def syntheticExitAssertion (cfg : AbstractCfg) (obligation : Formula) : Option AssertionSite :=
  cfg.exit.map fun exit ↦ ⟨0, exit, obligation, "summary exit"⟩

section Infer

variable (synthesize : Synthesizer) (oracle : Oracle) (graph : ObserverGraph)
  (procedure : AdaptedProcedure)

/-- One cell: its bound is kept if it is verified at the exit. -/
def observeCell (paramIndex : ℕ) (relations : List Formula) (index : Int64) :
    Option (List Formula) :=
  match
    syntheticExitAssertion procedure.cfg (observerObligation procedure.name paramIndex index) with
  | none => some relations
  | some site =>
    match analyzeWithTables synthesize procedure.cfg oracle site .new with
    | .error _ => none
    | .ok result =>
      if result.judgement = .verified then
        some (relations ++ [observerObligation procedure.name paramIndex index])
      else some relations

/-- The bounds that are verified. -/
def observerRelations : Option (List Formula) :=
  graph.pointerParamIndices.foldlM (fun relations paramIndex ↦
    (observerCandidateIndices procedure.cfg procedure.name paramIndex).foldlM
      (observeCell synthesize oracle procedure paramIndex) relations) []

/-- `infer_cyclic_observer_summary`. -/
def inferCyclicObserverSummary : Option ReturnSummary :=
  if procedure.cfg.topologicalOrder.isSome || graph.pointerParamIndices.isEmpty then none
  else
    match observerRelations synthesize oracle graph procedure with
    | none | some [] => none
    | some relations => some
      { function := procedure.name
        formalParameters := formalParameterNames graph.toFunctionGraph procedure.name
        retvalName := syntheticRetvalName procedure.name
        relation := Formula.andMany relations
        writeEffects := []
        ptrWrites := [] }

/-! ### What the relation says -/

/-- A cell of a parameter region that the relation may read. -/
def ObservedCell (paramIndex : ℕ) (index : Int64) : Prop :=
  paramIndex ∈ graph.pointerParamIndices ∧
    index ∈ observerCandidateIndices procedure.cfg procedure.name paramIndex

/-- What the verdicts of the inference say is right. -/
def ObserverVerdictsSound (sem : Semantics) : Prop :=
  ∀ paramIndex index site result, ObservedCell graph procedure paramIndex index →
    syntheticExitAssertion procedure.cfg (observerObligation procedure.name paramIndex index) =
      some site →
    analyzeWithTables synthesize procedure.cfg oracle site .new = .ok result →
      result.judgement = .verified → ¬ site.Violable sem procedure.cfg

/-- No cell that the relation may read is lower afterwards. -/
def NotLowered (s s' : State) : Prop :=
  ∀ paramIndex index, ObservedCell graph procedure paramIndex index →
    s.memory (extRegionName procedure.name paramIndex) index.toInt ≤
      s'.memory (extRegionName procedure.name paramIndex) index.toInt

end Infer

variable {synthesize : Synthesizer} {oracle : Oracle} {graph : ObserverGraph}
  {procedure : AdaptedProcedure} {summary : ReturnSummary} {sem : Semantics} {cs : List Crossing}
  {exit : CfgNodeId} {s m s' : State}

/-! ### What is inferred -/

/-- The relation asks for the bound. -/
def VerifiedBound (synthesize : Synthesizer) (oracle : Oracle) (graph : ObserverGraph)
    (procedure : AdaptedProcedure) (φ : Formula) : Prop :=
  ∃ paramIndex index site result, ObservedCell graph procedure paramIndex index ∧
    φ = observerObligation procedure.name paramIndex index ∧
    syntheticExitAssertion procedure.cfg φ = some site ∧
    analyzeWithTables synthesize procedure.cfg oracle site .new = .ok result ∧
    result.judgement = .verified

theorem verifiedBound_of_observeCell {paramIndex : ℕ} {index : Int64}
    {relations relations' : List Formula} (hcell : ObservedCell graph procedure paramIndex index)
    (h : observeCell synthesize oracle procedure paramIndex relations index = some relations')
    (hrelations : ∀ φ ∈ relations, VerifiedBound synthesize oracle graph procedure φ) :
    ∀ φ ∈ relations', VerifiedBound synthesize oracle graph procedure φ := by
  rw [observeCell] at h
  cases hsite : syntheticExitAssertion procedure.cfg
      (observerObligation procedure.name paramIndex index) with
  | none =>
    rw [hsite] at h
    obtain rfl := Option.some.inj h
    exact hrelations
  | some site =>
    rw [hsite] at h
    cases hresult : analyzeWithTables synthesize procedure.cfg oracle site .new with
    | error e => simp [hresult] at h
    | ok result =>
      simp only [hresult] at h
      split_ifs at h with hverified
      · obtain rfl := Option.some.inj h
        intro φ hφ
        rcases List.mem_append.1 hφ with hφ | hφ
        · exact hrelations φ hφ
        · obtain rfl := List.mem_singleton.1 hφ
          exact ⟨paramIndex, index, site, result, hcell, rfl, hsite, hresult, hverified⟩
      · obtain rfl := Option.some.inj h
        exact hrelations

/-- The relation of a summary is the conjunction of bounds that have been verified. -/
theorem inferCyclicObserverSummary_eq_some
    (h : inferCyclicObserverSummary synthesize oracle graph procedure = some summary) :
    ∃ relations, summary.relation = Formula.andMany relations ∧
      ∀ φ ∈ relations, VerifiedBound synthesize oracle graph procedure φ := by
  rw [inferCyclicObserverSummary] at h
  split_ifs at h
  cases hrelations : observerRelations synthesize oracle graph procedure with
  | none => simp [hrelations] at h
  | some relations =>
    have hverified : ∀ φ ∈ relations, VerifiedBound synthesize oracle graph procedure φ :=
      foldlM_some_invariant (P := fun relations ↦
          ∀ φ ∈ relations, VerifiedBound synthesize oracle graph procedure φ)
        (fun paramIndex hparam _ _ hfold hbefore ↦ foldlM_some_invariant
          (fun index hindex _ _ hcell ↦ verifiedBound_of_observeCell ⟨hparam, hindex⟩ hcell)
          hfold hbefore)
        hrelations (by simp)
    rw [hrelations] at h
    cases relations with
    | nil => simp at h
    | cons φ rest =>
      obtain rfl := Option.some.inj h
      exact ⟨φ :: rest, rfl, hverified⟩

/-! ### The memory of the call -/

theorem NotLowered.refl (s : State) : NotLowered graph procedure s s := fun _ _ _ ↦ le_rfl

theorem NotLowered.trans {s₁ s₂ s₃ : State} (h : NotLowered graph procedure s₁ s₂)
    (h' : NotLowered graph procedure s₂ s₃) : NotLowered graph procedure s₁ s₃ :=
  fun p i hcell ↦ (h p i hcell).trans (h' p i hcell)

/-- The effect may write to the region. -/
def TransferEffect.MayWrite (region : String) : TransferEffect → Prop
  | .memoryStore r _ _ => r = region
  | .store .. => True
  | .call _ effect | .indirectCall _ effect => effect = .havocMemory
  | .havocRegions regions => region ∈ regions
  | _ => False

theorem TransferEffect.Step.memory_eq_of_not_mayWrite {e : TransferEffect} {region : String}
    (h : e.Step sem s s') (he : ¬ e.MayWrite region) : s'.memory region = s.memory region := by
  have hkept {effect : CallMemoryEffect} (hallows : effect.Allows s s')
      (heffect : effect ≠ .havocMemory) : s'.memory region = s.memory region := by
    have hpreserves : effect = .preservesMemory := by
      cases effect with
      | preservesMemory => rfl
      | havocMemory => exact absurd rfl heffect
    rw [hallows.2 hpreserves]
  cases e with
  | assign target value =>
    cases value with
    | term value =>
      obtain ⟨-, -, rfl⟩ := h
      rw [State.memory_set]
    | predicate value =>
      obtain ⟨-, rfl⟩ := h
      rw [State.memory_set]
  | load target source | ptrToInt target source =>
    obtain ⟨x, -, rfl⟩ := h
    rw [State.memory_set]
  | memoryStore r offset value =>
    obtain rfl := h
    exact State.memory_setRegion_of_ne fun heq ↦ he heq.symm
  | store target value => exact absurd trivial he
  | call callee effect => exact hkept h.2 he
  | indirectCall calleePtr effect => exact hkept h he
  | havocRegions regions => exact h.2 region he
  | assume condition | obligation condition | typeBound condition =>
    obtain ⟨-, rfl⟩ := h
    rfl
  | alloca | getElementPtr | pointerStore | pointerLoad | pointerAlias | structFieldGep | nop
  | intToPtr | heapAlloc =>
    obtain rfl := h
    rfl

/-- Effects that do not write to the parameter regions lower no cell. -/
theorem NotLowered.of_run {es : List TransferEffect}
    (hes : ∀ e ∈ es, ∀ p ∈ graph.pointerParamIndices,
      ¬ e.MayWrite (extRegionName procedure.name p))
    (h : Effects.Run sem es s s') : NotLowered graph procedure s s' := by
  intro p i hcell
  have hmemory : s'.memory (extRegionName procedure.name p) =
      s.memory (extRegionName procedure.name p) :=
    Path.rel (R := fun s s' : State ↦ s'.memory (extRegionName procedure.name p) =
        s.memory (extRegionName procedure.name p)) (fun _ ↦ rfl)
      (fun _ _ _ h h' ↦ h'.trans h)
      (fun e he _ _ hstep ↦ hstep.memory_eq_of_not_mayWrite (hes e he p hcell.1)) h
  rw [hmemory]

/-- The bound on a cell, in the contents of one state and the scalars of another. -/
theorem holds_observerObligation_iff (s s' : State) {function : String} {p : ℕ} {i : Int64} :
    (observerObligation function p i).Holds (s.withScalars s'.scalars) ↔
      s.memory (extRegionName function p) i.toInt ≤
        (s'.lookup (.int (syntheticRetvalName function))).toInt := by
  simp only [observerObligation, Formula.Holds, Formula.eval, Term.eval, Memory.eval,
    Value.toInt, State.withScalars, State.lookup, Var.int, Value.compare, decide_eq_true_eq]

/-- A verified bound holds at the end of every run. -/
theorem holds_of_verifiedBound {φ : Formula}
    (hsound : ObserverVerdictsSound synthesize oracle graph procedure sem)
    (hφ : VerifiedBound synthesize oracle graph procedure φ)
    (hexit : procedure.cfg.exit = some exit)
    (hrun : procedure.cfg.Run sem cs ⟨procedure.cfg.entry, s⟩ ⟨exit, m⟩)
    (hreturn : (procedure.cfg.transferAt exit).Run sem m s') : φ.Holds s' := by
  obtain ⟨p, i, site, result, hcell, rfl, hsite, hresult, hverified⟩ := hφ
  have hnot := hsound p i site result hcell hsite hresult hverified
  rw [syntheticExitAssertion, hexit] at hsite
  obtain rfl := Option.some.inj hsite
  by_contra hfails
  exact hnot ⟨cs, s, m, hrun, s', hreturn, hfails⟩

/-- **The relation holds in the memory of the call, if no cell is lowered.** For every procedure
with pointer parameters for which there is a summary, assuming that the verdicts of the inference
are right: in every terminating run whose steps lower no cell that the relation may read, the
relation holds between the return value and the contents of the regions at the entry. -/
theorem observerRelation_of_run
    (h : inferCyclicObserverSummary synthesize oracle graph procedure = some summary)
    (hsound : ObserverVerdictsSound synthesize oracle graph procedure sem)
    (hexit : procedure.cfg.exit = some exit)
    (hrun : procedure.cfg.Run sem cs ⟨procedure.cfg.entry, s⟩ ⟨exit, m⟩)
    (hreturn : (procedure.cfg.transferAt exit).Run sem m s')
    (hsteps : ∀ c ∈ cs, NotLowered graph procedure c.pre c.post)
    (hlast : NotLowered graph procedure m s') :
    summary.relation.Holds (s.withScalars s'.scalars) := by
  obtain ⟨relations, hrelation, hverified⟩ := inferCyclicObserverSummary_eq_some h
  -- The cells at the exit are at least the cells at the entry.
  have hcells : NotLowered graph procedure s m :=
    Path.rel (R := fun p q : Position ↦ NotLowered graph procedure p.state q.state)
      (fun p ↦ .refl p.state) (fun _ _ _ ↦ NotLowered.trans) (fun c hc p q hcross ↦ by
        obtain ⟨-, rfl, rfl⟩ := hcross
        exact hsteps c hc) hrun
  rw [hrelation, Formula.holds_andMany]
  intro φ hφ
  have hbound := hverified φ hφ
  have hexitBound := holds_of_verifiedBound hsound hbound hexit hrun hreturn
  obtain ⟨p, i, -, -, hcell, rfl, -⟩ := hbound
  have hfinal := (holds_observerObligation_iff s' s').1 hexitBound
  exact (holds_observerObligation_iff s s').2 (((hcells.trans hlast) p i hcell).trans hfinal)

/-! ### Reading a cell after overwriting it -/

section FirstCell

/-- The first cell of the region of the parameter of `f`. -/
def firstCell : Term := .select (.var "f$__ext_0") (.int 0)

/-- The procedure `f` with a loop that does nothing. Behind it, it executes some effects and returns
the first cell of its parameter. -/
def firstCellCfg (effects : List TransferEffect) : AbstractCfg where
  nodes := [⟨0, "entry", .entry, .identity⟩, ⟨1, "header", .normal, .identity⟩,
    ⟨2, "body", .normal, .identity⟩,
    ⟨3, "exit", .exit, ⟨effects ++ [.assign (.int "f$__retval") (.term firstCell)]⟩⟩]
  edges := [⟨0, 0, 1, .tru, []⟩, ⟨1, 1, 2, .tru, []⟩, ⟨2, 2, 1, .tru, []⟩, ⟨3, 1, 3, .tru, []⟩]
  entry := 0
  concreteExits := [3]
  exit := some 3
  nextNode := 4
  nextEdge := 4
  nodes_sorted := by simp
  edges_sorted := iteratedCfg.edges_sorted
  node_lt := by simp
  edge_lt := iteratedCfg.edge_lt
  entry_mem := by simp
  source_mem := by simp
  target_mem := by simp

/-- The effect that overwrites the first cell with zero. -/
def clearFirstCell : TransferEffect := .memoryStore "f$__ext_0" (.int 0) (.int 0)

/-- The search proposes the trivial invariant. -/
def proposeTrue : Synthesizer := fun _ _ _ ↦ some .tru

/-- The violation of the bound, after the return value has been replaced. -/
def boundViolation (m : Memory) : Formula :=
  .not (.ge (.select m (.int 0)) (.select m (.int 0)))

/-- A solver that knows the queries about these procedures. -/
def firstCellOracle : Oracle :=
  .knowing [.not .tru, .fls, boundViolation (.var "f$__ext_0"),
    boundViolation (.store (.var "f$__ext_0") (.int 0) (.int 0))] [.tru]

theorem not_holds_boundViolation (m : Memory) (s : State) : ¬ (boundViolation m).Holds s := by
  simp [boundViolation, Formula.Holds, Formula.eval, Term.eval, Value.compare]

theorem infeasibleSound_firstCellOracle : firstCellOracle.InfeasibleSound := by
  refine Oracle.infeasibleSound_knowing fun φ hφ s hs ↦ ?_
  simp only [List.mem_cons, List.not_mem_nil, or_false] at hφ
  rcases hφ with rfl | rfl | rfl | rfl
  · simp at hs
  · exact Formula.not_holds_fls s hs
  · exact not_holds_boundViolation _ s hs
  · exact not_holds_boundViolation _ s hs

variable {effects : List TransferEffect}

/-- The exit of `f`: its effects, then the assignment of the return value. -/
theorem run_firstCell_exit_iff :
    ((firstCellCfg effects).transferAt 3).Run sem m s' ↔
      ∃ t, Effects.Run sem effects m t ∧
        s' = t.set (.int "f$__retval") (.int (t.memory "f$__ext_0" 0)) := by
  show Path (TransferEffect.Step sem) (effects ++ _) m s' ↔ _
  rw [Path.append_iff]
  refine exists_congr fun t ↦ and_congr_right fun _ ↦ Path.singleton_iff.trans ?_
  have hvalue : firstCell.eval t = .int (t.memory "f$__ext_0" 0) := rfl
  rw [TransferEffect.Step, hvalue]
  exact ⟨fun h ↦ h.2.2, fun h ↦ ⟨rfl, by decide, h⟩⟩

/-- At the end of the exit, the bound on the first cell always holds. -/
theorem holds_bound_of_exit (h : ((firstCellCfg effects).transferAt 3).Run sem m s') :
    (observerObligation "f" 0 0).Holds s' := by
  obtain ⟨t, -, rfl⟩ := run_firstCell_exit_iff.1 h
  let final := t.set (.int "f$__retval") (.int (t.memory "f$__ext_0" 0))
  refine (holds_observerObligation_iff final final).2 ?_
  have hname : syntheticRetvalName "f" = "f$__retval" := by decide
  have hvalue : final.lookup (.int "f$__retval") = .int (t.memory "f$__ext_0" 0) :=
    State.lookup_set_self rfl
  have hmemory : final.memory = t.memory := State.memory_set ..
  rw [hname, hvalue, hmemory]
  exact le_rfl

theorem observerVerdictsSound_firstCell
    (hindices : observerCandidateIndices (firstCellCfg effects) "f" 0 = [0]) :
    ObserverVerdictsSound synthesize oracle ⟨⟨["%a"]⟩, [0]⟩ ⟨"f", firstCellCfg effects⟩ sem := by
  rintro p i site result ⟨hp, hi⟩ hsite - - ⟨cs, s, m, -, s', hexit, hviolated⟩
  obtain rfl := List.mem_singleton.1 hp
  rw [hindices] at hi
  obtain rfl := List.mem_singleton.1 hi
  obtain rfl := Option.some.inj hsite
  exact hviolated (holds_bound_of_exit hexit)

/-- The run that does not enter the loop. -/
theorem run_firstCell (s : State) :
    (firstCellCfg effects).Run sem
      [⟨⟨0, 0, 1, .tru, []⟩, s, s, s⟩, ⟨⟨3, 1, 3, .tru, []⟩, s, s, s⟩] ⟨0, s⟩ ⟨3, s⟩ :=
  ⟨_, ⟨⟨List.mem_cons_self, rfl, Formula.holds_tru _, rfl⟩, rfl, rfl⟩,
    _, ⟨⟨by simp [firstCellCfg], rfl, Formula.holds_tru _, rfl⟩, rfl, rfl⟩, rfl⟩

/-- Every cell is 7. -/
def sevens : State := ⟨State.zero.scalars, fun _ _ ↦ 7⟩

/-- The general statement for the procedure that does not write: the result is at least the first
cell of the call. -/
theorem observerRelation_of_run_firstCell :
    ∃ summary, inferCyclicObserverSummary proposeTrue firstCellOracle ⟨⟨["%a"]⟩, [0]⟩
        ⟨"f", firstCellCfg []⟩ = some summary ∧
      summary.relation.Holds
        (sevens.withScalars (sevens.set (.int "f$__retval") (.int 7)).scalars) := by
  obtain ⟨summary, hsummary⟩ := Option.isSome_iff_exists.1
    (show (inferCyclicObserverSummary proposeTrue firstCellOracle ⟨⟨["%a"]⟩, [0]⟩
      ⟨"f", firstCellCfg []⟩).isSome by decide)
  refine ⟨summary, hsummary, observerRelation_of_run hsummary
    (observerVerdictsSound_firstCell (by decide)) rfl (@run_firstCell .unknownCallees [] sevens)
    (run_firstCell_exit_iff.2 ⟨sevens, rfl, rfl⟩) (fun c hc ↦ ?_) fun p i _ ↦ ?_⟩
  · simp only [List.mem_cons, List.not_mem_nil, or_false] at hc
    rcases hc with rfl | rfl
    · exact .refl sevens
    · exact .refl sevens
  · rw [State.memory_set]

/-- The first cell is 7 at the call. The procedure clears it and returns it: the return value is at
least what the cell is then, not what it was. -/
theorem not_observerRelation_of_run :
    ¬ ∀ (synthesize : Synthesizer) (oracle : Oracle) (graph : ObserverGraph)
      (procedure : AdaptedProcedure) (summary : ReturnSummary) (cs : List Crossing)
      (exit : CfgNodeId) (s m s' : State), oracle.InfeasibleSound →
      inferCyclicObserverSummary synthesize oracle graph procedure = some summary →
      ObserverVerdictsSound synthesize oracle graph procedure .unknownCallees →
      procedure.cfg.exit = some exit →
      procedure.cfg.Run .unknownCallees cs ⟨procedure.cfg.entry, s⟩ ⟨exit, m⟩ →
      (procedure.cfg.transferAt exit).Run .unknownCallees m s' →
        summary.relation.Holds (s.withScalars s'.scalars) := by
  intro h
  have hsummary : (inferCyclicObserverSummary proposeTrue firstCellOracle ⟨⟨["%a"]⟩, [0]⟩
      ⟨"f", firstCellCfg [clearFirstCell]⟩).map (·.relation) =
        some (observerObligation "f" 0 0) := by decide
  obtain ⟨summary, hsome, hrelation⟩ := Option.map_eq_some_iff.1 hsummary
  let cleared := sevens.setRegion "f$__ext_0" (Function.update (sevens.memory "f$__ext_0") 0 0)
  have hclear : Effects.Run .unknownCallees [clearFirstCell] sevens cleared :=
    Path.singleton_iff.2 rfl
  have hholds := h proposeTrue firstCellOracle _ _ summary _ 3 sevens sevens _
    infeasibleSound_firstCellOracle hsome (observerVerdictsSound_firstCell (by decide)) rfl
    (run_firstCell sevens) (run_firstCell_exit_iff.2 ⟨cleared, hclear, rfl⟩)
  rw [hrelation, holds_observerObligation_iff] at hholds
  have hname : syntheticRetvalName "f" = "f$__retval" := by decide
  have hcell : cleared.memory "f$__ext_0" 0 = 0 := by
    rw [State.memory_setRegion_self, Function.update_self]
  rw [hname, State.lookup_set_self rfl, hcell] at hholds
  exact absurd hholds (by decide)

end FirstCell

end MayMust
