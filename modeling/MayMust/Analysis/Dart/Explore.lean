import MayMust.Analysis.Backward.BugFound
import MayMust.Analysis.Dart.PathCondition
import MayMust.Formula.WellSorted

/-!
# The path explorer

`dart_explore` of the source asks the solver about one path at a time, in the order of the
enumeration: is the path condition satisfiable together with the backward formula of the site,
translated at the end of the path? Both results about it, soundness and completeness, compare the
walk over a path with executions along it. For that the walk is written as a walk over a flat list
of items, the effects and guards that the path meets (`pathItems`): the guard of an edge is an
assume like any other.
-/

namespace MayMust

open Library

/-- The loop of `dart_explore` over the enumerated paths, with the path that is reported. -/
def explorePaths (cfg : AbstractCfg) (site : AssertionSite) (oracle : Oracle)
    (orders : List CfgEdgeId → HashOrder) (phi2 : Formula) :
    List (List CfgEdgeId) → Option (List CfgEdgeId × AssertionResult)
  | [] => none
  | path :: paths =>
    let walk := computePathConditionWithState (orders path) cfg path .tru
    let phi2Subst := substFormulaWalk (orders path) phi2 walk.currentVersion walk.memoryState
    match oracle.feasibilityWithModel (Formula.mkAnd walk.formula phi2Subst) with
    | .error _ => none
    | .ok report =>
      if report.feasibility = .feasible then
        some (path,
          { siteId := site.id
            siteLabel := site.location
            judgement := .bugFound report.model
            entrySummary := ⟨cfg.entry, .tru, walk.formula⟩
            assertionSummary := ⟨site.node, .tru, phi2Subst⟩ })
      else explorePaths cfg site oracle orders phi2 paths

/-- `dart_explore`. The source only logs the path of a reported bug; here it is returned. Every path
has hash maps of its own. -/
def dartExplore (cfg : AbstractCfg) (site : AssertionSite) (oracle : Oracle) (config : DartConfig)
    (orders : List CfgEdgeId → HashOrder) : Option (List CfgEdgeId × AssertionResult) :=
  match cfg.node site.node with
  | .error _ => none
  | .ok node =>
    explorePaths cfg site oracle orders (node.transfer.wp (.not site.obligation))
      (cfg.enumeratePaths cfg.entry site.node config)

/-! ### The walk over a flat list -/

/-- An effect, or a guard as an assume, with the place it is met at. -/
structure WalkItem where
  place : Place
  effect : TransferEffect

/-- What the walk meets when it crosses an edge after the given visits. -/
def edgeItems (cfg : AbstractCfg) (counts : CfgNodeId → ℕ) (edge : AbstractEdge) : List WalkItem :=
  let counts := visit counts edge.source
  (cfg.transferAt edge.source).effects.map (⟨⟨edge.source, counts edge.source⟩, ·⟩) ++
    ⟨⟨edge.source, counts edge.source⟩, .assume edge.guard⟩ ::
      edge.effects.map (⟨⟨edge.target, counts edge.target + 1⟩, ·⟩)

/-- What the walk meets along a path. -/
def pathItems (cfg : AbstractCfg) : (CfgNodeId → ℕ) → List CfgEdgeId → List WalkItem
  | _, [] => []
  | counts, id :: path =>
    match cfg.edge id with
    | .error _ => pathItems cfg counts path
    | .ok edge => edgeItems cfg counts edge ++ pathItems cfg (visit counts edge.source) path

/-- The walk over a list of items. -/
def walkItems (order : HashOrder) (items : List WalkItem) (st : PathState) : PathState :=
  items.foldl (fun st item ↦ applyPathEffect order item.place st item.effect) st

variable {order : HashOrder} {cfg : AbstractCfg} {st : PathState} {path : List CfgEdgeId}

@[simp] theorem walkItems_cons (item : WalkItem) (items : List WalkItem) :
    walkItems order (item :: items) st =
      walkItems order items (applyPathEffect order item.place st item.effect) := rfl

theorem walkItems_append (items items' : List WalkItem) :
    walkItems order (items ++ items') st = walkItems order items' (walkItems order items st) :=
  List.foldl_append

theorem walkItems_map (place : Place) (effects : List TransferEffect) :
    walkItems order (effects.map (⟨place, ·⟩)) st =
      effects.foldl (applyPathEffect order place) st := by
  rw [walkItems, List.foldl_map]

theorem walkEdge_eq {walk : PathWalk} {id : CfgEdgeId} {edge : AbstractEdge}
    (h : cfg.edge id = .ok edge) :
    walkEdge order cfg walk id =
      ⟨walkItems order (edgeItems cfg walk.nodeVisitCount edge) walk.toPathState,
        visit walk.nodeVisitCount edge.source⟩ := by
  rw [walkEdge, h, edgeItems]
  simp only [walkItems_append, walkItems_map, walkItems_cons]
  rfl

/-- The walk along a list of edges is the walk over what it meets. -/
theorem foldl_walkEdge_eq {walk : PathWalk} :
    (path.foldl (walkEdge order cfg) walk).toPathState =
      walkItems order (pathItems cfg walk.nodeVisitCount path) walk.toPathState := by
  induction path generalizing walk with
  | nil => rfl
  | cons id path ih =>
    rw [List.foldl_cons, ih, pathItems]
    cases hedge : cfg.edge id with
    | error e =>
      rw [walkEdge, hedge]
    | ok edge =>
      rw [walkEdge_eq hedge, walkItems_append]

theorem computePathConditionWithState_eq (phi1 : Formula) :
    (computePathConditionWithState order cfg path phi1).toPathState =
      walkItems order (pathItems cfg (fun _ ↦ 0) path) (.start phi1) :=
  foldl_walkEdge_eq

/-! ### Executions along a path -/

/-- The effects that an execution along a path runs, guards as assumes. -/
def pathEffects (cfg : AbstractCfg) (path : List CfgEdgeId) : List TransferEffect :=
  path.flatMap fun id ↦
    match cfg.edge id with
    | .error _ => []
    | .ok edge => (cfg.transferAt edge.source).effects ++ .assume edge.guard :: edge.effects

theorem map_effect_pathItems (counts : CfgNodeId → ℕ) :
    (pathItems cfg counts path).map (·.effect) = pathEffects cfg path := by
  induction path generalizing counts with
  | nil => rfl
  | cons id path ih =>
    rw [pathItems, pathEffects, List.flatMap_cons]
    cases hedge : cfg.edge id with
    | error e => exact ih counts
    | ok edge =>
      have hrest := ih (visit counts edge.source)
      rw [pathEffects] at hrest
      simp [edgeItems, hrest, Function.comp_def]

/-- An execution along a path runs the effects of the path one after the other. -/
theorem exists_run_iff {sem : Semantics} {n m : CfgNodeId} {σ σ' : State}
    (hpath : Path cfg.Leads path n m) :
    (∃ cs, cfg.Run sem cs ⟨n, σ⟩ ⟨m, σ'⟩ ∧ cs.map (·.edge.id) = path) ↔
      Effects.Run sem (pathEffects cfg path) σ σ' := by
  induction path generalizing n σ with
  | nil =>
    obtain rfl : n = m := hpath
    constructor
    · rintro ⟨cs, hrun, hcs⟩
      obtain rfl := List.map_eq_nil_iff.1 hcs
      exact congrArg Position.state hrun
    · rintro rfl
      exact ⟨[], rfl, rfl⟩
  | cons id path ih =>
    obtain ⟨k, ⟨edge, hedge, rfl, rfl, rfl⟩, hpath⟩ := hpath
    have hcons : pathEffects cfg (edge.id :: path) = (cfg.transferAt edge.source).effects ++
        .assume edge.guard :: (edge.effects ++ pathEffects cfg path) := by
      simp [pathEffects, AbstractCfg.edge_eq_ok hedge]
    rw [hcons]
    constructor
    · rintro ⟨cs, hrun, hcs⟩
      obtain ⟨c, cs, rfl, hid, hcs⟩ := List.map_eq_cons_iff.1 hcs
      obtain ⟨q, ⟨hvalid, hp, rfl⟩, hrun⟩ := hrun
      have hedge' : c.edge = edge := AbstractCfg.edge_id_inj hvalid.edge_mem hedge hid
      obtain ⟨-, rfl⟩ := Position.mk.inj hp
      rw [hedge'] at hrun
      have hrest : Effects.Run sem (edge.effects ++ pathEffects cfg path) c.mid σ' :=
        Path.append (hedge' ▸ hvalid.effects) ((ih hpath).1 ⟨cs, hrun, hcs⟩)
      exact Path.append (hedge' ▸ hvalid.transfer) ⟨c.mid, ⟨hedge' ▸ hvalid.guard, rfl⟩, hrest⟩
    · intro hrun
      obtain ⟨mid, htransfer, mid', ⟨hguard, hmid⟩, hrest⟩ := Path.append_iff.1 hrun
      rw [hmid] at hrest
      obtain ⟨post, heffects, hrest⟩ := Path.append_iff.1 hrest
      obtain ⟨cs, hcs, hids⟩ := (ih hpath).2 hrest
      exact ⟨⟨edge, σ, mid, post⟩ :: cs,
        ⟨⟨edge.target, post⟩, ⟨⟨hedge, htransfer, hguard, heffects⟩, rfl, rfl⟩, hcs⟩,
        by rw [List.map_cons, hids]⟩

end MayMust
