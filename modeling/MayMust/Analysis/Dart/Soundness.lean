import MayMust.Analysis.Dart.Explore

/-!
# When a reported path is real

Every conjunct of a path condition is a constraint on one model, and nothing in it is rewritten
later. So a model is an execution along the path as long as every formula the walk translates means
for the model what it means for the program there (`Followed`). That is all that is needed: two
definitions that share a name, or a first definition that keeps the name of the initial value,
constrain the model more than the program does and cannot make a path look real that is not.

What can go wrong is a read that misses the current value. The walk renames the integer variables
below terms and the Boolean variables at the level of the connectives, so it misses real variables
and Boolean variables below terms; it takes a name for a variable, whatever its sort; and it
substitutes the contents of the regions one after the other, so contents that mention another region
with contents of its own may be substituted into again.
-/

namespace MayMust

open Library

/-- The current versions after a definition. -/
def TransferEffect.track (place : Place) (st : PathState) (versions : Var → Var) :
    TransferEffect → Var → Var
  | .assign target _ => Function.update versions target (st.versioned place target)
  | _ => versions

/-- Everything that is read on the way, and by the last formula at its end, is read in its current
version. -/
def Followed (order : HashOrder) (last : Formula) : List WalkItem → PathState → (Var → Var) → Prop
  | [], st, versions => st.ReachesFormula versions last
  | item :: items, st, versions =>
    st.ReachesEffect versions item.effect ∧
      Followed order last items (applyPathEffect order item.place st item.effect)
        (item.effect.track item.place st versions)

instance decidableFollowed (order : HashOrder) (last : Formula) :
    ∀ items st versions, Decidable (Followed order last items st versions)
  | [], st, versions => inferInstanceAs (Decidable (st.ReachesFormula versions last))
  | item :: items, st, versions =>
    haveI := decidableFollowed order last items
      (applyPathEffect order item.place st item.effect) (item.effect.track item.place st versions)
    inferInstanceAs (Decidable (_ ∧ _))

/-! ### One effect -/

namespace PathState

variable (st : PathState) (place : Place) (target : Var)

@[simp] theorem formula_versionVar : (st.versionVar place target).formula = st.formula := by
  rw [versionVar]
  split <;> rfl

@[simp] theorem regionAt_versionVar : (st.versionVar place target).regionAt = st.regionAt := by
  rw [versionVar]
  split <;> rfl

@[simp] theorem regionAt_conjoin (φ : Formula) : (st.conjoin φ).regionAt = st.regionAt := rfl

@[simp] theorem formula_conjoin (φ : Formula) :
    (st.conjoin φ).formula = Formula.mkAnd st.formula φ := rfl

@[simp] theorem sort_versioned : (st.versioned place target).sort = target.sort := by
  rw [versioned]
  split <;> rfl

end PathState

variable {order : HashOrder} {st : PathState} {place : Place} {versions : Var → Var}
  {K : Var → Prop} {e : TransferEffect} {s σ : State}

theorem modelled_of_applyPathEffect (h : (applyPathEffect order place st e).formula.Modelled s) :
    st.formula.Modelled s := by
  cases e with
  | assign target value =>
    cases value with
    | term t =>
      simp only [applyPathEffect, PathState.formula_conjoin, PathState.formula_versionVar] at h
      exact h.of_mkAnd.1
    | predicate p =>
      simp only [applyPathEffect, PathState.formula_conjoin, PathState.formula_versionVar] at h
      exact h.of_mkAnd.1
  | assume c | obligation c | typeBound c => exact h.of_mkAnd.1
  | _ => exact h

theorem modelled_of_walkItems {items : List WalkItem}
    (h : (walkItems order items st).formula.Modelled s) : st.formula.Modelled s := by
  induction items generalizing st with
  | nil => exact h
  | cons item items ih => exact modelled_of_applyPathEffect (ih h)

/-- A constraint changes neither map. -/
theorem PathState.Tracks.conjoin (h : st.Tracks versions K s σ) (φ : Formula) :
    (st.conjoin φ).Tracks versions K s σ :=
  ⟨h.undefined, h.scalars, h.memory⟩

/-- The definition of a variable: the model gives its version the value that the program gives the
variable. -/
theorem PathState.Tracks.define (h : st.Tracks versions K s σ) {target : Var} {x : Value}
    (hx : s.lookup (st.versioned place target) = x) (φ : Formula) :
    ((st.versionVar place target).conjoin φ).Tracks
      (Function.update versions target (st.versioned place target)) K s (σ.set target x) where
  undefined := h.undefined.trans (State.sameUndefined_set _ _ _)
  scalars v hv := by
    have hsort : x.sort = target.sort := by rw [← hx, State.sort_lookup, sort_versioned]
    by_cases hvt : v = target
    · subst hvt
      rw [Function.update_self, hx, State.lookup_set_self hsort]
    · rw [Function.update_of_ne hvt, State.lookup_set_of_ne hvt, h.scalars v hv]
  memory r := by
    rw [regionAt_conjoin, regionAt_versionVar, State.memory_set]
    exact h.memory r

/-- A store extends the contents of its region. -/
theorem PathState.Tracks.store (h : st.Tracks versions K s σ) {region : String}
    {offset value : Term} {i : ℤ} {x : ℤ} (hi : (offset.eval s).toInt = i)
    (hx : (value.eval s).toInt = x) :
    ({ st with
        memoryState := st.memoryState.insert region (.store (st.regionAt region) offset value) } :
      PathState).Tracks versions K s
        (σ.setRegion region (Function.update (σ.memory region) i x)) where
  undefined := h.undefined.trans (State.sameUndefined_setRegion _ _ _)
  scalars v hv := h.scalars v hv
  memory r := by
    by_cases hr : r = region
    · subst hr
      simp only [PathState.regionAt, AList.lookup_insert, Option.getD_some, Memory.eval, hi, hx,
        State.memory_setRegion_self]
      exact congrArg (Function.update · i x) (h.memory r)
    · rw [State.memory_setRegion_of_ne hr, ← h.memory r]
      simp only [PathState.regionAt, AList.lookup_insert_ne hr]

/-- What a model of the walk says of one effect that the walk follows: the effect is enabled, well
sorted and, if it is a type-width fact, true, and the model tracks its replay. -/
theorem PathState.Tracks.replay (h : st.Tracks versions (fun _ ↦ True) s σ)
    (hreach : st.ReachesEffect versions e)
    (hmodel : (applyPathEffect order place st e).formula.Modelled s) :
    (e.SortedIn σ ∧ e.Enabled σ ∧ ∀ c, e = .typeBound c → c.Holds σ) ∧
      (applyPathEffect order place st e).Tracks (e.track place st versions) (fun _ ↦ True) s
        (e.replay σ) := by
  have hterm {t : Term} (ht : st.ReachesTerm versions t) :
      (substTermWalk order t st.currentVersion st.memoryState).eval s = t.eval σ :=
    h.eval_term (fun x _ ↦ by cases x <;> trivial) ht
  have hformula {φ : Formula} (hφ : st.ReachesFormula versions φ) :
      (substFormulaWalk order φ st.currentVersion st.memoryState).eval s = φ.eval σ :=
    h.eval_formula (fun _ _ ↦ trivial) (fun x _ ↦ by cases x <;> trivial) hφ
  have hcondition {φ : Formula} (hφ : st.ReachesFormula versions φ)
      (hm : (st.conjoin (substFormulaWalk order φ st.currentVersion
        st.memoryState)).formula.Modelled s) : φ.Holds σ := by
    rw [Formula.Holds, ← hformula hφ]
    exact (Formula.Modelled.of_mkAnd hm).2.holds
  cases e with
  | assign target value =>
    cases value with
    | term t =>
      obtain ⟨heq, hsort⟩ := Formula.eval_eq_of_holds_eq (Formula.Modelled.of_mkAnd hmodel).2.holds
      rw [hterm hreach] at heq
      have hx : s.lookup (st.versioned place target) = t.eval σ := heq
      have hvalue : (t.eval σ).sort = target.sort := by
        rw [← hx, State.sort_lookup, PathState.sort_versioned]
      have hbool : target.sort ≠ .bool := by
        rw [← hvalue, ← hx]
        exact hsort
      exact ⟨⟨⟨hvalue, hbool⟩, trivial, by simp⟩, h.define hx _⟩
    | predicate p =>
      have hiff := (Formula.Modelled.of_mkAnd hmodel).2
      have hbool : target.sort = .bool := by
        rw [← st.sort_versioned place target]
        exact hiff.sort_of_mkIff_var
      have hx : s.lookup (st.versioned place target) = .bool (p.eval σ) := by
        have hholds := (Formula.holds_mkIff _ _).1 hiff.holds
        rw [Formula.holds_var, Formula.Holds, hformula hreach] at hholds
        have hvalue : (s.lookup (st.versioned place target)).sort = .bool := by
          rw [State.sort_lookup, PathState.sort_versioned, hbool]
        cases hl : s.lookup (st.versioned place target) with
        | bool b =>
          rw [hl] at hholds
          exact congrArg Value.bool (Bool.eq_iff_iff.2 hholds)
        | int n => simp [hl] at hvalue
        | real x => simp [hl] at hvalue
      exact ⟨⟨hbool, trivial, by simp⟩, h.define hx _⟩
  | assume c | obligation c => exact ⟨⟨trivial, hcondition hreach hmodel, by simp⟩, h.conjoin _⟩
  | typeBound c =>
    refine ⟨⟨trivial, trivial, fun c' hc' ↦ ?_⟩, h.conjoin _⟩
    obtain rfl := TransferEffect.typeBound.inj hc'
    exact hcondition hreach hmodel
  | memoryStore region offset value =>
    refine ⟨⟨trivial, trivial, by simp⟩, h.store ?_ ?_⟩
    · exact congrArg Value.toInt (hterm hreach.1)
    · exact congrArg Value.toInt (hterm hreach.2)
  | _ => exact ⟨⟨trivial, trivial, by simp⟩, h⟩

/-- A step that satisfies the type-width fact it meets. -/
theorem TransferEffect.Step.wellTyped {σ' : State} (h : e.Step .unknownCallees σ σ')
    (ht : ∀ c, e = .typeBound c → c.Holds σ) : e.Step .wellTypedUnknownCallees σ σ' := by
  cases e with
  | assign target value => cases value <;> exact h
  | typeBound c => exact ⟨fun _ ↦ ht c rfl, h.2⟩
  | _ => exact h

/-! ### A path -/

/-- The start of a walk tracks every state, as itself. -/
theorem tracks_start (φ : Formula) (s : State) : (PathState.start φ).Tracks id K s s where
  undefined := .refl s
  scalars _ _ := rfl
  memory _ := rfl

/-- A model of the walk is an execution along the items, at whose end the translated last formula
means what it says. -/
theorem exists_run_of_followed {last : Formula} {items : List WalkItem}
    (hfollowed : Followed order last items st versions)
    (h : st.Tracks versions (fun _ ↦ True) s σ)
    (hmodel : (walkItems order items st).formula.Modelled s) :
    ∃ σ', Effects.Run .wellTypedUnknownCallees (items.map (·.effect)) σ σ' ∧
      ((substFormulaWalk order last (walkItems order items st).currentVersion
        (walkItems order items st).memoryState).Holds s ↔ last.Holds σ') := by
  induction items generalizing st versions σ with
  | nil =>
    refine ⟨σ, rfl, ?_⟩
    have heval : (substFormulaWalk order last st.currentVersion st.memoryState).eval s =
        last.eval σ :=
      h.eval_formula (fun _ _ ↦ trivial) (fun x _ ↦ by cases x <;> trivial) hfollowed
    exact iff_of_eq (congrArg (· = true) heval)
  | cons item items ih =>
    obtain ⟨hreach, hrest⟩ := hfollowed
    obtain ⟨⟨hsort, hen, htyped⟩, htracks⟩ := h.replay hreach (modelled_of_walkItems hmodel)
    obtain ⟨σ', hrun, hlast⟩ := ih hrest htracks hmodel
    have hstep := (TransferEffect.step_replay hsort hen).wellTyped htyped
    exact ⟨σ', ⟨item.effect.replay σ, hstep, hrun⟩, hlast⟩

/-! ### The explorer -/

/-- Along a path to the site every read of the walk reaches the current value. -/
def PathFollowed (cfg : AbstractCfg) (site : AssertionSite) (order : HashOrder)
    (path : List CfgEdgeId) : Prop :=
  Followed order ((cfg.transferAt site.node).wp (.not site.obligation))
    (pathItems cfg (fun _ ↦ 0) path) (.start .tru) id

instance (cfg : AbstractCfg) (site : AssertionSite) (order : HashOrder) (path : List CfgEdgeId) :
    Decidable (PathFollowed cfg site order path) :=
  decidableFollowed _ _ _ _ _

namespace AssertionSite

variable (site : AssertionSite) (cfg : AbstractCfg)

/-- The obligation or the block of the site reads the variable below a term. -/
def ReadsBelowTerm (v : Var) : Prop :=
  site.obligation.ReadsInTerm v ∨ ∃ e ∈ (cfg.transferAt site.node).effects, e.ReadsInTerm v

/-- The obligation or the block of the site reads the region. -/
def ReadsRegion (r : String) : Prop :=
  .region r ∈ site.obligation.leaves ∨ ∃ e ∈ (cfg.transferAt site.node).effects,
    .region r ∈ e.leaves

/-- The backward transformer is exact on the block of the site: its assignments are well sorted, it
assigns no variable by a predicate that is read below a term, it havocs no region that is read, and
every execution that violates the obligation satisfies the type-width facts in the block. -/
structure ExactBlock : Prop where
  sorted : ∀ e ∈ (cfg.transferAt site.node).effects, ∀ s, e.SortedIn s
  plain : ∀ b p, .assign b (.predicate p) ∈ (cfg.transferAt site.node).effects →
    ¬ site.ReadsBelowTerm cfg b
  untouched : ∀ regions, .havocRegions regions ∈ (cfg.transferAt site.node).effects →
    ∀ r ∈ regions, ¬ site.ReadsRegion cfg r
  bounded : ∀ cs s₀ s s', cfg.Run .wellTypedUnknownCallees cs ⟨cfg.entry, s₀⟩ ⟨site.node, s⟩ →
    (cfg.transferAt site.node).Run .unknownCallees s s' → ¬ site.obligation.Holds s' →
      (cfg.transferAt site.node).Run .wellTypedUnknownCallees s s'

variable {site cfg}

/-- On an exact block the backward formula of the site consists of states that violate it. -/
theorem ExactBlock.exists_run (h : site.ExactBlock cfg) {s : State}
    (hs : ((cfg.transferAt site.node).wp (.not site.obligation)).Holds s) :
    ∃ s', (cfg.transferAt site.node).Run .unknownCallees s s' ∧ ¬ site.obligation.Holds s' := by
  have hK : (Formula.not site.obligation).TermReads (site.ReadsBelowTerm cfg) :=
    (hereditary_termReads _).not_iff _ |>.2 fun _ hv ↦ Or.inl hv
  obtain ⟨s', hrun, hnot⟩ := exists_run_of_holds_wp (K := site.ReadsBelowTerm cfg)
    (R := site.ReadsRegion cfg) h.sorted h.plain h.untouched
    (fun e he v hv ↦ Or.inr ⟨e, he, hv⟩) (fun e he r hr ↦ Or.inr ⟨e, he, hr⟩) hK
    (fun r hr ↦ Or.inl (by simpa [Formula.leaves] using hr)) hs
  exact ⟨s', hrun, (Formula.holds_not _ _).1 hnot⟩

end AssertionSite

section Explorer

variable {cfg : AbstractCfg} {site : AssertionSite} {oracle : Oracle} {config : DartConfig}
  {orders : List CfgEdgeId → HashOrder} {phi2 : Formula} {path : List CfgEdgeId}
  {paths : List (List CfgEdgeId)} {result : AssertionResult}

/-- The query about a path. -/
def pathQuery (cfg : AbstractCfg) (order : HashOrder) (phi2 : Formula) (path : List CfgEdgeId) :
    Formula :=
  let walk := computePathConditionWithState order cfg path .tru
  Formula.mkAnd walk.formula (substFormulaWalk order phi2 walk.currentVersion walk.memoryState)

/-- A reported path is one of the enumerated paths, and the solver found its query feasible. -/
theorem explorePaths_eq_some (h : explorePaths cfg site oracle orders phi2 paths =
    some (path, result)) :
    path ∈ paths ∧
      (∃ report, oracle.feasibilityWithModel (pathQuery cfg (orders path) phi2 path) = .ok report ∧
        report.feasibility = .feasible) ∧
      Formula.mkAnd result.entrySummary.state result.assertionSummary.state =
        pathQuery cfg (orders path) phi2 path := by
  induction paths with
  | nil => exact nomatch h
  | cons path' paths ih =>
    rw [explorePaths] at h
    split at h
    · exact nomatch h
    · rename_i report hreport
      split at h
      · rename_i hfeasible
        obtain ⟨rfl, rfl⟩ := Prod.mk.inj (Option.some.inj h)
        exact ⟨List.mem_cons_self, ⟨report, hreport, hfeasible⟩, rfl⟩
      · obtain ⟨hmem, hquery⟩ := ih h
        exact ⟨List.mem_cons_of_mem _ hmem, hquery⟩

theorem dartExplore_eq_some (h : dartExplore cfg site oracle config orders = some (path, result)) :
    explorePaths cfg site oracle orders ((cfg.transferAt site.node).wp (.not site.obligation))
      (cfg.enumeratePaths cfg.entry site.node config) = some (path, result) := by
  rw [dartExplore] at h
  split at h
  · exact nomatch h
  · rename_i node hnode
    rw [AbstractCfg.transferAt_eq hnode]
    exact h

theorem leads_of_mem_enumeratePaths {start target : CfgNodeId}
    (h : path ∈ cfg.enumeratePaths start target config) : Path cfg.Leads path start target := by
  rw [AbstractCfg.enumeratePaths, AbstractCfg.dfs_eq] at h
  have hmem : path ∈ search cfg.outgoingEdges cfg.headOf target config.maxLoopIters config.maxDepth
      start fun _ ↦ 0 := by
    simpa [AbstractCfg.found] using List.mem_of_mem_take (by simpa [AbstractCfg.found] using h)
  exact (AbstractCfg.bounded_iff_candidate.1 (mem_search.1 hmem)).leads

/-- Every model of the query about a path that the walk follows is the initial state of an execution
along the path that violates the site. -/
theorem exists_run_of_pathQuery (hpath : Path cfg.Leads path cfg.entry site.node)
    {order : HashOrder} (hfollowed : PathFollowed cfg site order path)
    (hsite : site.ExactBlock cfg) {s : State}
    (h : (pathQuery cfg order ((cfg.transferAt site.node).wp (.not site.obligation)) path).Modelled
      s) :
    ∃ cs s', cfg.Run .wellTypedUnknownCallees cs ⟨cfg.entry, s⟩ ⟨site.node, s'⟩ ∧
      cs.map (·.edge.id) = path ∧ site.ViolatedFrom .wellTypedUnknownCallees cfg s' := by
  simp only [pathQuery, computePathConditionWithState_eq] at h
  obtain ⟨hformula, hlast⟩ := Formula.Modelled.of_mkAnd h
  obtain ⟨s', hrun, hiff⟩ := exists_run_of_followed hfollowed (tracks_start .tru s) hformula
  rw [map_effect_pathItems] at hrun
  obtain ⟨cs, hcs, hids⟩ := (exists_run_iff hpath).2 hrun
  obtain ⟨t, htransfer, hnot⟩ := hsite.exists_run (hiff.1 hlast.holds)
  exact ⟨cs, s', hcs, hids, t, hsite.bounded cs s s' t hcs htransfer hnot, hnot⟩

end Explorer

/-! ### A path that defines a variable twice, and one that the walk misreads -/

/-- The entry sets `x` to 0 and raises it; the second definition gets a name of its own. -/
def raisedCfg : AbstractCfg where
  nodes := [⟨0, "entry", .entry, ⟨[.assign (.int "x") (.term (.int 0)),
      .assign (.int "x") (.term (.add (.var (.int "x")) (.int 1)))]⟩⟩,
    ⟨1, "exit", .exit, .identity⟩]
  edges := [⟨0, 0, 1, .tru, []⟩]
  entry := 0
  concreteExits := [1]
  exit := some 1
  nextNode := 2
  nextEdge := 1
  nodes_sorted := by simp
  edges_sorted := AbstractCfg.edges_sorted_single
  node_lt := by decide
  edge_lt := AbstractCfg.edge_lt_single
  entry_mem := by simp
  source_mem := by simp
  target_mem := by simp

/-- A loop that runs until its flag is set, once. -/
def flagLoop : AbstractCfg where
  nodes := [⟨0, "entry", .entry, .identity⟩, ⟨1, "header", .normal, .identity⟩,
    ⟨2, "exit", .exit, .identity⟩]
  edges := [⟨0, 0, 1, .tru, [.assign (.bool "b") (.predicate .fls)]⟩,
    ⟨1, 1, 2, .var (.bool "b"), []⟩,
    ⟨2, 1, 1, .not (.var (.bool "b")), [.assign (.bool "b") (.predicate .tru)]⟩]
  entry := 0
  concreteExits := [2]
  exit := some 2
  nextNode := 3
  nextEdge := 3
  nodes_sorted := by simp
  edges_sorted := by simp
  node_lt := by simp
  edge_lt := by simp
  entry_mem := by simp
  source_mem := by simp
  target_mem := by simp

end MayMust
