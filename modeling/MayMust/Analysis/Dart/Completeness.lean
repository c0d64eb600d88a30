import MayMust.Analysis.Dart.Soundness

/-!
# When a bug is found

An execution along a path is a model of the path condition only if the names of the formula can hold
all the values it mentions. A definition gives its value to a name, and that name must not be in use
for another value: it must not occur in the constraints and contents built so far, and no variable
that is still read may have it as its version (`PathFresh`). The first definition of a variable
keeps the name of its initial value, so a variable that is read before it is defined is the case
that fails.

Beyond the names, the execution has to be one the walk can see: effects that the walk leaves out
changed nothing, and the site is reached for the first time, as the enumeration stops there.
-/

namespace MayMust

open Library

/-- The variables of the formula, in both positions, are in `K`. -/
def Formula.VarsIn (K : Var → Prop) (φ : Formula) : Prop :=
  (∀ v ∈ φ.atoms, K v) ∧ ∀ x ∈ φ.termLeaves, x.VarIn K

/-- The variables of the term are in `K`. -/
def Term.VarsIn (K : Var → Prop) (t : Term) : Prop := ∀ x ∈ t.leaves, x.VarIn K

section Decidable

variable (K : Var → Prop) [DecidablePred K]

instance : DecidablePred (Leaf.VarIn K) := fun x ↦
  match x with
  | .boolVar v | .termVar v => inferInstanceAs (Decidable (K v))
  | .region _ => isTrue trivial

instance (φ : Formula) : Decidable (φ.VarsIn K) := inferInstanceAs (Decidable (_ ∧ _))

instance (t : Term) : Decidable (t.VarsIn K) :=
  inferInstanceAs (Decidable (∀ x ∈ t.leaves, x.VarIn K))

end Decidable

/-- A leaf that is the variable. -/
def Leaf.IsVar (w : Var) (x : Leaf) : Prop := x = .boolVar w ∨ x = .termVar w

instance (w : Var) (x : Leaf) : Decidable (x.IsVar w) := inferInstanceAs (Decidable (_ ∨ _))

namespace PathState

variable (st : PathState) (K : Var → Prop) (versions : Var → Var)

/-- The name occurs in no constraint and in no contents. -/
def Unused (w : Var) : Prop :=
  (∀ x ∈ st.formula.leaves, ¬ x.IsVar w) ∧
    ∀ entry ∈ st.memoryState.entries, ∀ x ∈ entry.2.leaves, ¬ x.IsVar w

instance (w : Var) : Decidable (st.Unused w) := inferInstanceAs (Decidable (_ ∧ _))

/-- The effect gives its value to a name that is not in use, and reads variables of `K` only. -/
def FreshEffect (place : Place) : TransferEffect → Prop
  | .assign target value =>
    st.Unused (st.versioned place target) ∧
      (∀ v, K v → v ≠ target → versions v ≠ st.versioned place target) ∧
      match value with
      | .term t => t.VarsIn fun v ↦ K v ∧ versions v ≠ st.versioned place target
      | .predicate p => p.VarsIn fun v ↦ K v ∧ versions v ≠ st.versioned place target
  | .assume c | .obligation c | .typeBound c => c.VarsIn K
  | .memoryStore _ offset value => offset.VarsIn K ∧ value.VarsIn K
  | _ => True

end PathState

/-- Every definition on the way is fresh, and the last formula reads variables of `K` only. -/
def Fresh (order : HashOrder) (K : Var → Prop) (last : Formula) :
    List WalkItem → PathState → (Var → Var) → Prop
  | [], _, _ => last.VarsIn K
  | item :: items, st, versions =>
    st.FreshEffect K versions item.place item.effect ∧
      Fresh order K last items (applyPathEffect order item.place st item.effect)
        (item.effect.track item.place st versions)

/-- Along a path to the site every definition is fresh. -/
def PathFresh (cfg : AbstractCfg) (site : AssertionSite) (order : HashOrder) (K : Var → Prop)
    (path : List CfgEdgeId) : Prop :=
  Fresh order K ((cfg.transferAt site.node).wp (.not site.obligation))
    (pathItems cfg (fun _ ↦ 0) path) (.start .tru) id

/-- A step in which an effect that the walk leaves out changed nothing. -/
def TransferEffect.SilentStep (sem : Semantics) (e : TransferEffect) (s s' : State) : Prop :=
  e.Step sem s s' ∧ (e.Ignored ∨ e.Havocs → s' = s)

/-- The effects that the walk leaves out changed nothing while the edge was crossed. -/
structure Crossing.Silent (sem : Semantics) (cfg : AbstractCfg) (c : Crossing) : Prop where
  transfer : Path (TransferEffect.SilentStep sem) (cfg.transferAt c.edge.source).effects c.pre c.mid
  effects : Path (TransferEffect.SilentStep sem) c.edge.effects c.mid c.post

/-! ### One effect -/

section Step

variable {order : HashOrder} {st : PathState} {place : Place} {versions : Var → Var}
  {K : Var → Prop} {e : TransferEffect} {s σ σ' : State}

theorem Leaf.same_set_of_not_isVar {w : Var} {x : Value} {l : Leaf} (hl : ¬ l.IsVar w) :
    l.Same s (s.set w x) :=
  Leaf.same_set_of_ne (fun h ↦ hl (Or.inl h)) fun h ↦ hl (Or.inr h)

theorem TransferEffect.SilentStep.eq_replay {sem : Semantics} (h : e.SilentStep sem σ σ') :
    σ' = e.replay σ := by
  by_cases hi : e.Ignored
  · rw [TransferEffect.replay_eq_self_of_ignored hi]
    exact h.2 (Or.inl hi)
  by_cases hh : e.Havocs
  · have hself : e.replay σ = σ := by
      cases e with
      | havocRegions regions => rfl
      | _ => exact absurd hh (by simp [TransferEffect.Havocs])
    rw [hself]
    exact h.2 (Or.inr hh)
  · exact h.1.eq_replay hi hh

/-- Giving a value to an unused name keeps the constraints. -/
theorem PathState.Unused.holds_set {w : Var} (h : st.Unused w) (x : Value)
    (hs : st.formula.Holds s) : st.formula.Holds (s.set w x) :=
  (Formula.holds_congr (State.sameUndefined_set s w x)
    fun l hl ↦ Leaf.same_set_of_not_isVar (h.1 l hl)).1 hs

/-- Giving a value to an unused name keeps the contents of the regions. -/
theorem PathState.Unused.eval_regionAt {w : Var} (h : st.Unused w) (x : Value) (r : String) :
    (st.regionAt r).eval (s.set w x) = (st.regionAt r).eval s := by
  cases hmem : st.memoryState.lookup r with
  | none =>
    rw [regionAt_of_none hmem, Memory.eval, Memory.eval, State.memory_set]
  | some mem =>
    rw [regionAt_of_some hmem]
    have hentry : ⟨r, mem⟩ ∈ st.memoryState.entries := AList.mem_lookup_iff.1 hmem
    exact Memory.eval_congr (State.sameUndefined_set s w x).symm fun l hl ↦
      (Leaf.same_set_of_not_isVar (h.2 _ hentry l hl)).symm

/-- Giving a value to an unused name keeps what the model says of the variables that do not have
this name as their version. -/
theorem PathState.Tracks.set (h : st.Tracks versions K s σ) {w : Var} (hw : st.Unused w)
    (x : Value) : st.Tracks versions (fun v ↦ K v ∧ versions v ≠ w) (s.set w x) σ where
  undefined := (State.sameUndefined_set s w x).symm.trans h.undefined
  scalars v hv := by
    rw [State.lookup_set_of_ne hv.2, h.scalars v hv.1]
  memory r := (hw.eval_regionAt x r).trans (h.memory r)

/-- The definition of a variable under a name that is not in use. -/
theorem PathState.Tracks.defineFresh (h : st.Tracks versions K s σ) {target : Var} {x : Value}
    (hsort : x.sort = target.sort) (hw : st.Unused (st.versioned place target))
    (hother : ∀ v, K v → v ≠ target → versions v ≠ st.versioned place target) (φ : Formula) :
    ((st.versionVar place target).conjoin φ).Tracks
      (Function.update versions target (st.versioned place target)) K
      (s.set (st.versioned place target) x) (σ.set target x) where
  undefined := (State.sameUndefined_set _ _ x).symm.trans
    (h.undefined.trans (State.sameUndefined_set _ _ _))
  scalars v hv := by
    by_cases hvt : v = target
    · subst hvt
      rw [Function.update_self, State.lookup_set_self (by rw [hsort, sort_versioned]),
        State.lookup_set_self hsort]
    · rw [Function.update_of_ne hvt, State.lookup_set_of_ne (hother v hv hvt),
        State.lookup_set_of_ne hvt, h.scalars v hv]
  memory r := by
    rw [regionAt_conjoin, regionAt_versionVar, State.memory_set, hw.eval_regionAt]
    exact h.memory r

theorem Value.compare_self {x : Value} (hx : x.sort ≠ .bool) :
    Value.compare (· == ·) (fun a b ↦ @decide (a = b) (Classical.propDecidable _)) x x = true := by
  cases x <;> simp_all [Value.compare]

/-- A model of the walk that tracks an execution extends over a silent step of the execution. -/
theorem PathState.Tracks.exists_silentStep (h : st.Tracks versions K s σ)
    (hs : st.formula.Holds s) (hreach : st.ReachesEffect versions e)
    (hfresh : st.FreshEffect K versions place e)
    (hstep : e.SilentStep .wellTypedUnknownCallees σ σ') :
    ∃ s', (applyPathEffect order place st e).Tracks (e.track place st versions) K s' σ' ∧
      (applyPathEffect order place st e).formula.Holds s' := by
  have hcondition {φ : Formula} (hvars : φ.VarsIn K) (hφ : st.ReachesFormula versions φ)
      (hσ : φ.Holds σ) : (st.conjoin (substFormulaWalk order φ st.currentVersion
        st.memoryState)).formula.Holds s := by
    refine (Formula.holds_mkAnd _ _).2 ⟨hs, ?_⟩
    rw [Formula.Holds, h.eval_formula hvars.1 hvars.2 hφ]
    exact hσ
  obtain rfl := hstep.eq_replay
  cases e with
  | assign target value =>
    obtain ⟨hunused, hother, hvars⟩ := hfresh
    cases value with
    | term t =>
      obtain ⟨hsort, hbool, -⟩ := hstep.1
      refine ⟨_, h.defineFresh hsort hunused hother _, ?_⟩
      have hvalue : (substTermWalk order t st.currentVersion st.memoryState).eval
          (s.set (st.versioned place target) (t.eval σ)) = t.eval σ :=
        (h.set hunused (t.eval σ)).eval_term hvars hreach
      rw [applyPathEffect, formula_conjoin, formula_versionVar, Formula.holds_mkAnd]
      refine ⟨hunused.holds_set _ hs, ?_⟩
      rw [Formula.Holds, Formula.eval, hvalue, Term.eval,
        State.lookup_set_self (by rw [hsort, sort_versioned])]
      exact Value.compare_self (hsort ▸ hbool)
    | predicate p =>
      obtain ⟨hbool, -⟩ := hstep.1
      refine ⟨_, h.defineFresh (by rw [hbool, Value.sort_bool]) hunused hother _, ?_⟩
      have hvalue : (substFormulaWalk order p st.currentVersion st.memoryState).eval
          (s.set (st.versioned place target) (.bool (p.eval σ))) = p.eval σ :=
        (h.set hunused (.bool (p.eval σ))).eval_formula hvars.1 hvars.2 hreach
      rw [applyPathEffect, formula_conjoin, formula_versionVar, Formula.holds_mkAnd]
      refine ⟨hunused.holds_set _ hs, (Formula.holds_mkIff _ _).2 ?_⟩
      rw [Formula.holds_var, State.lookup_set_self (by rw [sort_versioned, hbool, Value.sort_bool]),
        Formula.Holds, hvalue, Value.isTrue_bool]
  | assume c => exact ⟨s, h.conjoin _, hcondition hfresh hreach hstep.1.1⟩
  | obligation c => exact ⟨s, h.conjoin _, hcondition hfresh hreach hstep.1.1⟩
  | typeBound c => exact ⟨s, h.conjoin _, hcondition hfresh hreach (hstep.1.1 trivial)⟩
  | memoryStore region offset value =>
    refine ⟨s, h.store ?_ ?_, hs⟩
    · exact congrArg Value.toInt (h.eval_term hfresh.1 hreach.1)
    · exact congrArg Value.toInt (h.eval_term hfresh.2 hreach.2)
  | _ => exact ⟨s, h, hs⟩

end Step

/-! ### A path -/

section Walk

variable {order : HashOrder} {st : PathState} {versions : Var → Var} {K : Var → Prop}
  {s σ σ' : State}

/-- A silent execution along the items is a model of the walk over them. -/
theorem exists_holds_of_fresh {last : Formula} {items : List WalkItem}
    (hfollowed : Followed order last items st versions)
    (hfresh : Fresh order K last items st versions) (h : st.Tracks versions K s σ)
    (hs : st.formula.Holds s)
    (hrun : Path (TransferEffect.SilentStep .wellTypedUnknownCallees) (items.map (·.effect)) σ σ')
    (hlast : last.Holds σ') :
    ∃ s', (walkItems order items st).formula.Holds s' ∧
      (substFormulaWalk order last (walkItems order items st).currentVersion
        (walkItems order items st).memoryState).Holds s' := by
  induction items generalizing st versions s σ with
  | nil =>
    obtain rfl : σ = σ' := hrun
    refine ⟨s, hs, ?_⟩
    rw [Formula.Holds]
    exact (h.eval_formula hfresh.1 hfresh.2 hfollowed).trans hlast
  | cons item items ih =>
    obtain ⟨hreach, hrest⟩ := hfollowed
    obtain ⟨hdefines, hfresh⟩ := hfresh
    obtain ⟨m, hstep, hrun⟩ := hrun
    obtain ⟨s', htracks, hs'⟩ := h.exists_silentStep hs hreach hdefines hstep
    exact ih hrest hfresh htracks hs' hrun

/-- A silent execution along a path, as a run over the effects of the path. -/
theorem path_silentStep_pathEffects {cfg : AbstractCfg} {sem : Semantics} {cs : List Crossing}
    {n m : CfgNodeId} (hrun : cfg.Run sem cs ⟨n, σ⟩ ⟨m, σ'⟩)
      (hsilent : ∀ c ∈ cs, c.Silent sem cfg) :
    Path (TransferEffect.SilentStep sem) (pathEffects cfg (cs.map (·.edge.id))) σ σ' := by
  induction cs generalizing n σ with
  | nil => exact congrArg Position.state hrun
  | cons c cs ih =>
    obtain ⟨q, ⟨hvalid, hp, rfl⟩, hrun⟩ := hrun
    obtain ⟨-, rfl⟩ := Position.mk.inj hp
    rw [List.forall_mem_cons] at hsilent
    have hcons : pathEffects cfg ((c :: cs).map (·.edge.id)) =
        (cfg.transferAt c.edge.source).effects ++
          .assume c.edge.guard :: (c.edge.effects ++ pathEffects cfg (cs.map (·.edge.id))) := by
      simp [pathEffects, AbstractCfg.edge_eq_ok hvalid.edge_mem]
    rw [hcons]
    have hrest : Path (TransferEffect.SilentStep sem)
        (c.edge.effects ++ pathEffects cfg (cs.map (·.edge.id))) c.mid σ' :=
      Path.append hsilent.1.effects (ih hrun hsilent.2)
    exact Path.append hsilent.1.transfer ⟨c.mid, ⟨⟨hvalid.guard, rfl⟩, fun _ ↦ rfl⟩, hrest⟩

theorem leads_of_run {cfg : AbstractCfg} {sem : Semantics} {cs : List Crossing} {p q : Position}
    (hrun : cfg.Run sem cs p q) : Path cfg.Leads (cs.map (·.edge.id)) p.node q.node := by
  induction cs generalizing p with
  | nil => exact congrArg Position.node hrun
  | cons c cs ih =>
    obtain ⟨m, ⟨hvalid, rfl, rfl⟩, hrun⟩ := hrun
    exact ⟨c.edge.target, ⟨c.edge, hvalid.edge_mem, rfl, rfl, rfl⟩, ih hrun⟩

theorem sources_of_run {cfg : AbstractCfg} {sem : Semantics} {cs : List Crossing} {p q : Position}
    (hrun : cfg.Run sem cs p q) : cfg.sources (cs.map (·.edge.id)) = cs.map (·.edge.source) := by
  induction cs generalizing p with
  | nil => rfl
  | cons c cs ih =>
    obtain ⟨m, ⟨hvalid, -, -⟩, hrun⟩ := hrun
    have hrest := ih hrun
    rw [AbstractCfg.sources] at hrest ⊢
    simp [AbstractCfg.edge_eq_ok hvalid.edge_mem, hrest]

end Walk

/-! ### The explorer -/

/-- The oracle answers the query, and it answers that it is feasible exactly if it is. -/
def Oracle.AnswersExactly (oracle : Oracle) (φ : Formula) : Prop :=
  ∃ report, oracle.feasibilityWithModel φ = .ok report ∧
    (report.feasibility = .feasible ↔ ∃ s, φ.Holds s)

section Explorer

variable {cfg : AbstractCfg} {site : AssertionSite} {oracle : Oracle} {config : DartConfig}
  {orders : List CfgEdgeId → HashOrder} {phi2 : Formula}

/-- If some path has a satisfiable query, some path is reported. -/
theorem exists_explorePaths {paths : List (List CfgEdgeId)} {path : List CfgEdgeId}
    (hexact : ∀ path ∈ paths, oracle.AnswersExactly (pathQuery cfg (orders path) phi2 path))
    (hmem : path ∈ paths) (hholds : ∃ s, (pathQuery cfg (orders path) phi2 path).Holds s) :
    ∃ reported result, explorePaths cfg site oracle orders phi2 paths = some
      (reported, result) := by
  induction paths with
  | nil => exact absurd hmem List.not_mem_nil
  | cons first paths ih =>
    rw [List.forall_mem_cons] at hexact
    obtain ⟨⟨report, hreport, hiff⟩, hexact⟩ := hexact
    rw [pathQuery] at hreport
    simp only [explorePaths, hreport]
    split
    · exact ⟨first, _, rfl⟩
    · rename_i hinfeasible
      rcases List.mem_cons.1 hmem with rfl | hmem
      · exact absurd (hiff.2 hholds) hinfeasible
      · exact ih hexact hmem

/-- With a budget for all candidates, every candidate is enumerated. -/
theorem mem_enumeratePaths {start target : CfgNodeId} {path : List CfgEdgeId}
    (hbudget : ∀ paths : List (List CfgEdgeId), paths.Nodup →
      (∀ path ∈ paths, cfg.Candidate target start config path) → paths.length ≤ config.maxPaths)
    (h : cfg.Candidate target start config path) :
    path ∈ cfg.enumeratePaths start target config := by
  have hnodup : (search cfg.outgoingEdges cfg.headOf target config.maxLoopIters config.maxDepth
      start fun _ ↦ 0).Nodup :=
    nodup_search (fun n ↦ Nat.lt_irrefl n) cfg.outgoingEdges_pairwise
  have hlength := hbudget _ hnodup fun path hpath ↦
    AbstractCfg.bounded_iff_candidate.1 (mem_search.1 hpath)
  rw [AbstractCfg.enumeratePaths, AbstractCfg.dfs_eq]
  simp only [AbstractCfg.found, List.nil_append, List.length_nil, Nat.sub_zero, List.map_id']
  rw [List.take_of_length_le hlength]
  exact mem_search.2 (AbstractCfg.bounded_iff_candidate.2 h)

/-- A budget for the paths that the search finds is one for all candidates. -/
theorem length_le_of_search {start target : CfgNodeId} {paths : List (List CfgEdgeId)}
    (hsearch : (search cfg.outgoingEdges cfg.headOf target config.maxLoopIters config.maxDepth start
      fun _ ↦ 0).length ≤ config.maxPaths)
    (hnodup : paths.Nodup) (hpaths : ∀ path ∈ paths, cfg.Candidate target start config path) :
    paths.length ≤ config.maxPaths := by
  have hsubset : paths ⊆ search cfg.outgoingEdges cfg.headOf target config.maxLoopIters
      config.maxDepth start fun _ ↦ 0 :=
    fun path hpath ↦ mem_search.2 (AbstractCfg.bounded_iff_candidate.2 (hpaths path hpath))
  exact (hnodup.subperm hsubset).length_le.trans hsearch

theorem exists_node_of_leads {path : List CfgEdgeId} {n m : CfgNodeId} (hn : n ∈ cfg.nodeIds)
    (h : Path cfg.Leads path n m) : ∃ node, cfg.node m = .ok node := by
  have hm : m ∈ cfg.nodeIds := by
    refine Path.invariant (P := (· ∈ cfg.nodeIds)) (fun id _ n m hstep _ ↦ ?_) h hn
    obtain ⟨e, he, -, -, rfl⟩ := hstep
    exact cfg.target_mem e he
  obtain ⟨node, hmem, rfl⟩ := List.mem_map.1 hm
  exact ⟨node, AbstractCfg.node_eq_ok hmem⟩

/-- **A bug within the bounds is found.** Suppose the oracle is exact on the queries and the budget
covers all candidate paths. If an execution within the bounds reaches the site, for the first time,
and violates its obligation there, while the effects the analysis leaves out change nothing, and if
along its path every read reaches the current value and every definition is fresh, then the explorer
reports a bug. -/
theorem exists_dartExplore {K : Var → Prop} {cs : List Crossing} {s₀ s s' : State}
    (hexact : ∀ path ∈ cfg.enumeratePaths cfg.entry site.node config, oracle.AnswersExactly
      (pathQuery cfg (orders path) ((cfg.transferAt site.node).wp (.not site.obligation)) path))
    (hbudget : ∀ paths : List (List CfgEdgeId), paths.Nodup →
      (∀ path ∈ paths, cfg.Candidate site.node cfg.entry config path) →
        paths.length ≤ config.maxPaths)
    (hrun : cfg.Run .wellTypedUnknownCallees cs ⟨cfg.entry, s₀⟩ ⟨site.node, s⟩)
    (hdepth : cs.length ≤ config.maxDepth)
    (hvisits : ∀ n, (cs.map (·.edge.source)).count n ≤ config.maxLoopIters)
    (hblock : Path (fun e s s' ↦ e.Step .wellTypedUnknownCallees s s' ∧
      e.Accounted (site.ReadsBelowTerm cfg) s s') (cfg.transferAt site.node).effects s s')
    (hnot : ¬ site.obligation.Holds s')
    (hfirst : site.node ∉ cs.map (·.edge.source))
    (hsilent : ∀ c ∈ cs, c.Silent .wellTypedUnknownCallees cfg)
    (hfollowed : PathFollowed cfg site (orders (cs.map (·.edge.id))) (cs.map (·.edge.id)))
    (hfresh : PathFresh cfg site (orders (cs.map (·.edge.id))) K (cs.map (·.edge.id))) :
    ∃ path result, dartExplore cfg site oracle config orders = some (path, result) := by
  have hleads : Path cfg.Leads (cs.map (·.edge.id)) cfg.entry site.node := leads_of_run hrun
  have hsources := sources_of_run hrun
  have hcandidate : cfg.Candidate site.node cfg.entry config (cs.map (·.edge.id)) :=
    ⟨hleads, hsources ▸ hfirst, by rw [List.length_map]; exact hdepth, fun n ↦ hsources ▸ hvisits n⟩
  have hwp : ((cfg.transferAt site.node).wp (.not site.obligation)).Holds s :=
    holds_wp_of_quiet (Path.mono (fun _ _ _ _ h ↦ h.1.quiet h.2) hblock)
      (fun e he v hv ↦ Or.inr ⟨e, he, hv⟩)
      ((hereditary_termReads _).not_iff _ |>.2 fun _ hv ↦ Or.inl hv)
      ((Formula.holds_not _ _).2 hnot)
  have hpath := path_silentStep_pathEffects hrun hsilent
  rw [← map_effect_pathItems fun _ ↦ 0] at hpath
  have hstart : (PathState.start .tru).Tracks id K s₀ s₀ :=
    ⟨.refl _, fun _ _ ↦ rfl, fun _ ↦ rfl⟩
  obtain ⟨model, hformula, hlast⟩ := exists_holds_of_fresh hfollowed hfresh hstart
    (Formula.holds_tru s₀) hpath hwp
  have hquery : (pathQuery cfg (orders (cs.map (·.edge.id)))
      ((cfg.transferAt site.node).wp (.not site.obligation)) (cs.map (·.edge.id))).Holds model := by
    simp only [pathQuery, computePathConditionWithState_eq, Formula.holds_mkAnd]
    exact ⟨hformula, hlast⟩
  obtain ⟨node, hnode⟩ := exists_node_of_leads cfg.entry_mem hleads
  obtain ⟨path, result, hresult⟩ := @exists_explorePaths cfg site oracle orders _ _ _ hexact
    (mem_enumeratePaths hbudget hcandidate) ⟨model, hquery⟩
  refine ⟨path, result, ?_⟩
  rw [dartExplore, hnode]
  rw [AbstractCfg.transferAt_eq hnode] at hresult
  exact hresult

end Explorer

theorem eval_add_one_zero (name : String) :
    (Term.add (.var (.int name)) (.int 1)).eval .zero = .int 1 := by
  simp [Term.eval, Value.arith, State.zero, State.lookup, Var.int]

/-- The general statement at the block that sets `x` to 0 and raises it, for the obligation
`x = 0`. -/
theorem exists_dartExplore_raised :
    ∃ path result, dartExplore raisedCfg ⟨0, 1, .eq (.var (.int "x")) (.int 0), ""⟩
      (.knowing [] [.and [.eq (.var (.int "x")) (.int 0),
        .eq (.var (.int "x$n0v1")) (.add (.var (.int "x")) (.int 1)),
        .not (.eq (.var (.int "x$n0v1")) (.int 0))]]) .default (fun _ ↦ .stored) =
          some (path, result) := by
  let x : Var := .int "x"
  let one : State := State.zero.set x (.int 1)
  let e : AbstractEdge := ⟨0, 0, 1, .tru, []⟩
  let query : Formula := .and [.eq (.var x) (.int 0),
    .eq (.var (.int "x$n0v1")) (.add (.var x) (.int 1)), .not (.eq (.var (.int "x$n0v1")) (.int 0))]
  have hzero : State.zero.set x (.int 0) = State.zero := State.set_lookup_self .zero x
  have hsum : (Term.add (.var x) (.int 1)).eval .zero = .int 1 := eval_add_one_zero "x"
  have hblock : Path (TransferEffect.SilentStep .wellTypedUnknownCallees)
      (raisedCfg.transferAt 0).effects .zero one := by
    refine ⟨.zero, ⟨⟨rfl, by decide, hzero.symm⟩, ?_⟩, one, ⟨⟨?_, by decide, ?_⟩, ?_⟩, rfl⟩
    · simp [TransferEffect.Ignored, TransferEffect.Havocs]
    · exact congrArg Value.sort hsum
    · exact congrArg (State.zero.set x) hsum.symm
    · simp [TransferEffect.Ignored, TransferEffect.Havocs]
  have hquery : ∃ s, query.Holds s := ⟨State.zero.set (.int "x$n0v1") (.int 1), by
    simp [query, x, Formula.Holds, Formula.eval, Formula.evalAll, Term.eval, Value.compare,
      Value.arith, State.zero, State.set, State.lookup, Var.int]⟩
  refine @exists_dartExplore raisedCfg ⟨0, 1, .eq (.var x) (.int 0), ""⟩
    (.knowing [] [query]) .default (fun _ ↦ .stored) (· = x) [⟨e, .zero, one, one⟩] .zero one one
    ?_ ?_ ?_ (by decide) ?_ rfl ?_ (by decide) ?_ (by decide) ?_
  · have henumerate : raisedCfg.enumeratePaths raisedCfg.entry 1 .default = [[0]] := by decide
    rw [henumerate]
    intro path hpath
    obtain rfl := List.mem_singleton.1 hpath
    have hpathQuery : pathQuery raisedCfg .stored
        ((raisedCfg.transferAt 1).wp (.not (.eq (.var x) (.int 0)))) [0] = query := by decide
    rw [hpathQuery]
    exact ⟨⟨.feasible, none⟩, by decide, by simpa using hquery⟩
  · -- The only candidate is the path of the one edge.
    exact fun paths hnodup hpaths ↦ length_le_of_search (by decide) hnodup hpaths
  · exact ⟨⟨1, one⟩, ⟨⟨by decide, Path.mono (fun _ _ _ _ h ↦ h.1) hblock, rfl, rfl⟩, rfl, rfl⟩, rfl⟩
  · intro n
    simp only [List.map_cons, List.map_nil]
    exact (List.count_le_length).trans (by decide)
  · simp [one, x, Formula.Holds, Formula.eval, Term.eval, Value.compare, State.zero, State.set,
      State.lookup, Var.int]
  · intro c hc
    obtain rfl := List.mem_singleton.1 hc
    exact ⟨hblock, rfl⟩
  · refine ⟨⟨by decide, ?_, by decide⟩, ⟨by decide, ?_, fun l hl ↦ ?_⟩, ?_, ?_⟩
    · rintro v rfl hv
      exact absurd rfl hv
    · rintro v rfl hv
      exact absurd rfl hv
    · obtain rfl : l = .termVar x := by simpa [Term.leaves] using hl
      exact ⟨rfl, by decide⟩
    · show Formula.tru.VarsIn (· = x)
      decide
    · show (Formula.not (.eq (.var x) (.int 0))).VarsIn (· = x)
      decide

/-- A block that raises its input. -/
def selfIncrementCfg : AbstractCfg where
  nodes := [⟨0, "entry", .entry, ⟨[.assign (.int "x") (.term (.add (.var (.int "x")) (.int 1)))]⟩⟩,
    ⟨1, "exit", .exit, .identity⟩]
  edges := [⟨0, 0, 1, .tru, []⟩]
  entry := 0
  concreteExits := [1]
  exit := some 1
  nextNode := 2
  nextEdge := 1
  nodes_sorted := by simp
  edges_sorted := AbstractCfg.edges_sorted_single
  node_lt := by decide
  edge_lt := AbstractCfg.edge_lt_single
  entry_mem := by simp
  source_mem := by simp
  target_mem := by simp

/-- From `x = 0` the block leads to `x = 1`, which violates the obligation `x ≠ 1`. But the
definition keeps the name of the initial value, so the constraint is `x = x + 1`, which no state
satisfies. -/
theorem not_exists_dartExplore :
    ¬ ∀ (cfg : AbstractCfg) (site : AssertionSite) (oracle : Oracle) (config : DartConfig)
      (orders : List CfgEdgeId → HashOrder) (cs : List Crossing) (s₀ s : State),
      (∀ path ∈ cfg.enumeratePaths cfg.entry site.node config, oracle.AnswersExactly
        (pathQuery cfg (orders path) ((cfg.transferAt site.node).wp (.not site.obligation)) path)) →
      (∀ paths : List (List CfgEdgeId), paths.Nodup →
        (∀ path ∈ paths, cfg.Candidate site.node cfg.entry config path) →
          paths.length ≤ config.maxPaths) →
      cfg.Run .wellTypedUnknownCallees cs ⟨cfg.entry, s₀⟩ ⟨site.node, s⟩ →
      cs.length ≤ config.maxDepth →
      (∀ n, (cs.map (·.edge.source)).count n ≤ config.maxLoopIters) →
      site.ViolatedFrom .wellTypedUnknownCallees cfg s →
      ∃ path result, dartExplore cfg site oracle config orders = some (path, result) := by
  intro h
  let x : Var := .int "x"
  let one : State := State.zero.set x (.int 1)
  let e : AbstractEdge := ⟨0, 0, 1, .tru, []⟩
  let site : AssertionSite := ⟨0, 1, .not (.eq (.var x) (.int 1)), ""⟩
  let query : Formula := .and [.eq (.var x) (.add (.var x) (.int 1)),
    .not (.not (.eq (.var x) (.int 1)))]
  have hquery : ∀ s, ¬ query.Holds s := fun s hs ↦ by
    simp [query, x, Formula.Holds, Formula.eval, Formula.evalAll, Term.eval, Value.compare,
      Value.arith, State.lookup, Var.int] at hs
  have hexplore : dartExplore selfIncrementCfg site (.knowing [query] []) .default
      (fun _ ↦ .stored) = none := by
    have hmap : (dartExplore selfIncrementCfg site (.knowing [query] []) .default
        fun _ ↦ .stored).map (·.1) = none := by decide
    exact Option.map_eq_none_iff.1 hmap
  have hsum : (Term.add (.var x) (.int 1)).eval .zero = .int 1 := eval_add_one_zero "x"
  have hblock : (selfIncrementCfg.transferAt 0).Run .wellTypedUnknownCallees .zero one := by
    refine ⟨one, ⟨?_, by decide, ?_⟩, rfl⟩
    · exact congrArg Value.sort hsum
    · exact congrArg (State.zero.set x) hsum.symm
  have hpathQuery : pathQuery selfIncrementCfg .stored
      ((selfIncrementCfg.transferAt 1).wp (.not site.obligation)) [0] = query := by
    decide
  have hexact : ∀ path ∈ selfIncrementCfg.enumeratePaths selfIncrementCfg.entry 1 .default,
      (Oracle.knowing [query] []).AnswersExactly (pathQuery selfIncrementCfg .stored
        ((selfIncrementCfg.transferAt 1).wp (.not site.obligation)) path) := by
    have henumerate : selfIncrementCfg.enumeratePaths selfIncrementCfg.entry 1 .default =
      [[0]] := by
      decide
    rw [henumerate]
    intro path hpath
    obtain rfl := List.mem_singleton.1 hpath
    rw [hpathQuery]
    exact ⟨⟨.infeasible, none⟩, by decide, by simpa using hquery⟩
  have hbudget : ∀ paths : List (List CfgEdgeId), paths.Nodup →
      (∀ path ∈ paths, selfIncrementCfg.Candidate 1 0 .default path) → paths.length ≤ 256 :=
    fun paths hnodup hpaths ↦ length_le_of_search (by decide) hnodup hpaths
  have hrun : selfIncrementCfg.Run .wellTypedUnknownCallees [⟨e, .zero, one, one⟩] ⟨0, .zero⟩
      ⟨1, one⟩ :=
    ⟨⟨1, one⟩, ⟨⟨by decide, hblock, rfl, rfl⟩, rfl, rfl⟩, rfl⟩
  have hviolated : site.ViolatedFrom .wellTypedUnknownCallees selfIncrementCfg one := by
    refine ⟨one, rfl, ?_⟩
    simp [site, one, x, Formula.Holds, Formula.eval, Term.eval, Value.compare, State.zero,
      State.set, State.lookup, Var.int]
  obtain ⟨path, result, hresult⟩ := h selfIncrementCfg site (.knowing [query] []) .default
    (fun _ ↦ .stored) [⟨e, .zero, one, one⟩] .zero one hexact hbudget hrun (by decide)
    (fun n ↦ List.count_le_length.trans (by decide)) hviolated
  rw [hexplore] at hresult
  cases hresult

end MayMust
