import MayMust.Analysis.Backward.Ssa
import MayMust.Analysis.Dart.Simultaneous
import MayMust.Analysis.Dart.Soundness
import MayMust.Analysis.Loops.ExitClosure

/-!
# Paths in single-assignment form

What can go wrong on a path is a read that misses the current value of a variable or a region. On a
loop-free graph in single-assignment form nothing goes wrong: on every path every assignment is the
first one of its name and its node is visited for the first time, so every variable keeps its name,
and if no stored value reads memory, the contents of a region mention no other region. So the walk
follows every path (`pathFollowed_of_ssa`), and every path that is reported there is real.
-/

namespace MayMust

open Library

/-- A name is the name of one assigned variable, and what is stored is computed from scalars. -/
structure AbstractCfg.Walkable (cfg : AbstractCfg) : Prop where
  names : ∀ e e' v w, cfg.HasEffect e → cfg.HasEffect e' → e.Assigns v → e'.Assigns w →
    v.name = w.name → v = w
  stores : ∀ region offset value, cfg.HasEffect (.memoryStore region offset value) →
    ∀ x ∈ offset.leaves ++ value.leaves, x.RegionIn fun _ ↦ False

/-- Nothing has been renamed, and the contents of a region mention no other region. -/
structure PathState.Unversioned (st : PathState) : Prop where
  currentVersion_eq : st.currentVersion = ∅
  contents : ∀ r mem, st.memoryState.lookup r = some mem → ∀ x ∈ mem.leaves, x.RegionIn (· = r)

/-- Every name is defined once, on a first visit, and what is stored is computed from scalars. -/
structure DefinedOnce (items : List WalkItem) : Prop where
  first : ∀ item ∈ items, item.place.visitCount = 1
  names : items.Pairwise fun i j ↦
    ∀ v w, i.effect.Assigns v → j.effect.Assigns w → v.name ≠ w.name
  stores : ∀ item ∈ items, ∀ region offset value, item.effect = .memoryStore region offset value →
    ∀ x ∈ offset.leaves ++ value.leaves, x.RegionIn fun _ ↦ False

/-! ### One item -/

section Items

variable {order : HashOrder} {st : PathState} {place : Place} {e : TransferEffect}
  {items : List WalkItem} {last φ : Formula} {t : Term} {name : String}

/-- Replacing regions changes nothing that does not read memory. -/
theorem forall_leaves_substTermWalk_of_scalar {currentVersion : NameMap String}
    {memoryState : NameMap Memory} (h : ∀ x ∈ t.leaves, x.RegionIn fun _ ↦ False) :
    ∀ x ∈ (substTermWalk order t currentVersion memoryState).leaves,
      x.RegionIn fun _ ↦ False := by
  have hrenamed := @forall_leaves_substTermWalk order currentVersion _ t h
  have hempty : order.regions (∅ : NameMap Memory).entries = [] := order.regions_nil
  rw [substTermWalk, hempty, List.foldl_nil] at hrenamed
  rw [substTermWalk]
  generalize (order.versions currentVersion.entries).foldl _ t = t' at hrenamed ⊢
  induction order.regions memoryState.entries generalizing t' with
  | nil => exact hrenamed
  | cons entry entries ih =>
    refine ih _ (Term.forall_leaves_rebuild t' fun l hl ↦ ?_)
    have hl' := hrenamed l hl
    cases l with
    | boolVar v => exact List.forall_mem_singleton.2 trivial
    | termVar v => exact List.forall_mem_singleton.2 trivial
    | region r => exact hl'.elim

namespace PathState.Unversioned

theorem readsVersion (h : st.Unversioned) (sort : VarSort) (v : Var) :
    st.ReadsVersion id sort v := by
  rw [ReadsVersion, h.currentVersion_eq]
  split
  · rfl
  · rfl

theorem reachesLeaf (h : st.Unversioned) (x : Leaf) : st.ReachesLeaf id x := by
  cases x with
  | boolVar v => exact h.readsVersion .int v
  | termVar v => exact h.readsVersion .int v
  | region r => exact fun mem hmem r' hr' _ ↦ h.contents r mem hmem _ hr'

theorem reachesFormula (h : st.Unversioned) (φ : Formula) : st.ReachesFormula id φ :=
  ⟨fun v _ ↦ h.readsVersion .bool v, fun x _ ↦ h.reachesLeaf x⟩

theorem reachesEffect (h : st.Unversioned) (e : TransferEffect) : st.ReachesEffect id e := by
  cases e with
  | assign target value =>
    cases value with
    | term t => exact fun x _ ↦ h.reachesLeaf x
    | predicate p => exact h.reachesFormula p
  | assume c | obligation c | typeBound c => exact h.reachesFormula c
  | memoryStore region offset value => exact ⟨fun x _ ↦ h.reachesLeaf x, fun x _ ↦ h.reachesLeaf x⟩
  | _ => trivial

theorem leaves_regionAt (h : st.Unversioned) (r : String) :
    ∀ x ∈ (st.regionAt r).leaves, x.RegionIn (· = r) := by
  rw [regionAt]
  cases hmem : st.memoryState.lookup r with
  | none => exact List.forall_mem_singleton.2 rfl
  | some mem => exact h.contents r mem hmem

/-- A first definition keeps its name. -/
theorem versionVar (h : st.Unversioned) {target : Var} (hfirst : place.visitCount = 1)
    (hnew : target.name ∉ st.defined) : (st.versionVar place target).Unversioned := by
  have hkeeps : st.FirstDefinition place target.name := ⟨hfirst, hnew⟩
  rw [PathState.versionVar, if_pos hkeeps]
  refine ⟨?_, h.contents⟩
  show st.currentVersion.erase target.name = ∅
  rw [h.currentVersion_eq]
  rfl

/-- An item that defines a new name on a first visit renames nothing. -/
theorem applyPathEffect (h : st.Unversioned) (hfirst : place.visitCount = 1)
    (hnew : ∀ v, e.Assigns v → v.name ∉ st.defined)
    (hstore : ∀ region offset value, e = .memoryStore region offset value →
      ∀ x ∈ offset.leaves ++ value.leaves, x.RegionIn fun _ ↦ False) :
    (applyPathEffect order place st e).Unversioned := by
  cases e with
  | assign target value =>
    have hassigned := h.versionVar hfirst (hnew target ⟨value, rfl⟩)
    cases value with
    | term t => exact ⟨hassigned.currentVersion_eq, hassigned.contents⟩
    | predicate p => exact ⟨hassigned.currentVersion_eq, hassigned.contents⟩
  | assume c | obligation c | typeBound c => exact ⟨h.currentVersion_eq, h.contents⟩
  | memoryStore region offset value =>
    refine ⟨h.currentVersion_eq, fun r mem hmem ↦ ?_⟩
    replace hmem : (st.memoryState.insert region _).lookup r = some mem := hmem
    by_cases hr : r = region
    · subst hr
      rw [AList.lookup_insert] at hmem
      rw [← Option.some.inj hmem]
      have hscalar := hstore r offset value rfl
      rw [List.forall_mem_append] at hscalar
      have hnone {x : Leaf} (hx : x.RegionIn fun _ ↦ False) : x.RegionIn (· = r) := by
        cases x with
        | region r' => exact hx.elim
        | _ => trivial
      simp only [Memory.leaves, List.forall_mem_append]
      exact ⟨⟨h.leaves_regionAt r,
        fun x hx ↦ hnone (forall_leaves_substTermWalk_of_scalar hscalar.1 x hx)⟩,
        fun x hx ↦ hnone (forall_leaves_substTermWalk_of_scalar hscalar.2 x hx)⟩
    · rw [AList.lookup_insert_ne hr] at hmem
      exact h.contents r mem hmem
  | _ => exact h

end PathState.Unversioned

/-- The names that are defined after an item. -/
theorem mem_defined_applyPathEffect (hfirst : place.visitCount = 1)
    (hnew : ∀ v, e.Assigns v → v.name ∉ st.defined)
    (h : name ∈ (applyPathEffect order place st e).defined) :
    name ∈ st.defined ∨ ∃ v, e.Assigns v ∧ v.name = name := by
  have hversion {target : Var} (hassigns : e.Assigns target)
      (h : name ∈ (st.versionVar place target).defined) :
      name ∈ st.defined ∨ ∃ v, e.Assigns v ∧ v.name = name := by
    have hkeeps : st.FirstDefinition place target.name := ⟨hfirst, hnew target hassigns⟩
    rw [PathState.versionVar, if_pos hkeeps] at h
    rcases Finset.mem_insert.1 h with rfl | h
    · exact Or.inr ⟨target, hassigns, rfl⟩
    · exact Or.inl h
  cases e with
  | assign target value =>
    cases value with
    | term t => exact hversion ⟨_, rfl⟩ h
    | predicate p => exact hversion ⟨_, rfl⟩ h
  | _ => exact Or.inl h

/-- The version of a variable stays the variable itself. -/
theorem track_id (hfirst : place.visitCount = 1)
    (hnew : ∀ v, e.Assigns v → v.name ∉ st.defined) : e.track place st id = id := by
  cases e with
  | assign target value =>
    have hkeeps : st.FirstDefinition place target.name := ⟨hfirst, hnew target ⟨value, rfl⟩⟩
    rw [TransferEffect.track, PathState.versioned, if_pos hkeeps]
    exact Function.update_eq_self target id
  | _ => rfl

/-! ### A list of items -/

theorem DefinedOnce.of_cons {item : WalkItem} (h : DefinedOnce (item :: items)) :
    DefinedOnce items where
  first i hi := h.first i (List.mem_cons_of_mem _ hi)
  names := (List.pairwise_cons.1 h.names).2
  stores i hi := h.stores i (List.mem_cons_of_mem _ hi)

/-- Items that define new names, each once, are followed. -/
theorem DefinedOnce.followed (h : DefinedOnce items) (hst : st.Unversioned)
    (hnew : ∀ item ∈ items, ∀ v, item.effect.Assigns v → v.name ∉ st.defined) :
    Followed order last items st id := by
  induction items generalizing st with
  | nil => exact hst.reachesFormula last
  | cons item items ih =>
    have hitem := hnew item List.mem_cons_self
    have hfirst := h.first item List.mem_cons_self
    refine ⟨hst.reachesEffect item.effect, ?_⟩
    rw [track_id hfirst hitem]
    refine ih h.of_cons (hst.applyPathEffect hfirst hitem (h.stores item List.mem_cons_self))
      fun j hj v hv hdefined ↦ ?_
    rcases mem_defined_applyPathEffect hfirst hitem hdefined with hdefined | ⟨w, hw, hname⟩
    · exact hnew j (List.mem_cons_of_mem _ hj) v hv hdefined
    · exact (List.pairwise_cons.1 h.names).1 j hj w v hw hv hname

end Items

/-! ### The items of a path -/

section Paths

variable {cfg : AbstractCfg} {site : AssertionSite} {order : HashOrder} {config : DartConfig}
  {path : List CfgEdgeId} {n m : CfgNodeId} {counts : CfgNodeId → ℕ}

/-- The effects of a path are those of its edges. -/
theorem exists_edgePath_of_leads (h : Path cfg.Leads path n m) :
    ∃ es, cfg.EdgePath es n m ∧ pathEffects cfg path = es.flatMap cfg.crossingEffects := by
  induction path generalizing n with
  | nil => exact ⟨[], h, rfl⟩
  | cons id path ih =>
    obtain ⟨_, ⟨e, he, rfl, rfl, rfl⟩, hpath⟩ := h
    obtain ⟨es, hes, heffects⟩ := ih hpath
    refine ⟨e :: es, ⟨_, ⟨he, rfl, rfl⟩, hes⟩, ?_⟩
    rw [pathEffects, List.flatMap_cons, AbstractCfg.edge_eq_ok he, List.flatMap_cons, ← heffects]
    rfl

/-- If the nodes that have been left are below the current one, all visits to come are first visits.
-/
theorem visitCount_pathItems (rank : CfgNodeId → ℕ)
    (hrank : ∀ e ∈ cfg.edges, rank e.source < rank e.target) (h : Path cfg.Leads path n m)
    (hcounts : ∀ k, counts k ≠ 0 → rank k < rank n) :
    ∀ item ∈ pathItems cfg counts path, item.place.visitCount = 1 := by
  induction path generalizing n counts with
  | nil => exact fun _ hitem ↦ absurd hitem List.not_mem_nil
  | cons id path ih =>
    obtain ⟨_, ⟨e, he, rfl, rfl, rfl⟩, hpath⟩ := h
    have hlt := hrank e he
    have hsource : counts e.source = 0 := by
      by_contra hne
      exact (hcounts _ hne).false
    have hvisit : ∀ k, visit counts e.source k ≠ 0 → rank k < rank e.target := by
      intro k hk
      by_cases hks : k = e.source
      · exact hks ▸ hlt
      · rw [visit, Function.update_of_ne hks] at hk
        exact (hcounts k hk).trans hlt
    have htarget : visit counts e.source e.target = 0 := by
      by_contra hne
      exact (hvisit _ hne).false
    have hone : visit counts e.source e.source = 1 := by
      rw [visit, Function.update_self, hsource]
    rw [pathItems, AbstractCfg.edge_eq_ok he]
    refine List.forall_mem_append.2 ⟨fun item hitem ↦ ?_, ih hpath hvisit⟩
    rw [edgeItems] at hitem
    rw [hone, htarget] at hitem
    rcases List.mem_append.1 hitem with hitem | hitem
    · obtain ⟨f, -, rfl⟩ := List.mem_map.1 hitem
      rfl
    · rcases List.mem_cons.1 hitem with rfl | hitem
      · rfl
      · obtain ⟨f, -, rfl⟩ := List.mem_map.1 hitem
        rfl

/-- What is met on a path is an effect of the graph or a guard. -/
theorem hasEffect_of_mem_pathEffects {e : TransferEffect} (h : e ∈ pathEffects cfg path) :
    cfg.HasEffect e ∨ ∃ guard, e = .assume guard := by
  obtain ⟨id, -, h⟩ := List.mem_flatMap.1 h
  cases hedge : cfg.edge id with
  | error => simp [hedge] at h
  | ok edge =>
    simp only [hedge, List.mem_append, List.mem_cons] at h
    rcases h with h | rfl | h
    · exact Or.inl (Or.inl ⟨_, h⟩)
    · exact Or.inr ⟨_, rfl⟩
    · exact Or.inl (Or.inr ⟨edge, (AbstractCfg.mem_of_edge_eq_ok hedge).1, h⟩)

/-- On a loop-free graph in single-assignment form, every name of a path is defined once. -/
theorem definedOnce_pathItems (hssa : cfg.Ssa) (hwalkable : cfg.Walkable)
    (hacyclic : cfg.topologicalOrder.isSome) (h : Path cfg.Leads path cfg.entry m) :
    DefinedOnce (pathItems cfg (fun _ ↦ 0) path) := by
  obtain ⟨order, horder⟩ := Option.isSome_iff_exists.1 hacyclic
  rw [AbstractCfg.topologicalOrder_eq] at horder
  obtain ⟨hnodup, hnodes, hsorted⟩ := AbstractCfg.topologicalOrderExcluding_sorted horder
  have hrank (e : AbstractEdge) (he : e ∈ cfg.edges) :
      order.idxOf e.source < order.idxOf e.target :=
    hsorted.idxOf_lt hnodup (List.mem_filter.2 ⟨he, by simp⟩) ((hnodes _).2 (cfg.target_mem e he))
  have heffect {item : WalkItem} (hitem : item ∈ pathItems cfg (fun _ ↦ 0) path) :
      item.effect ∈ pathEffects cfg path := by
    rw [← map_effect_pathItems fun _ ↦ 0]
    exact List.mem_map_of_mem hitem
  have hassigned {e : TransferEffect} {v : Var} (he : e ∈ pathEffects cfg path)
      (hv : e.Assigns v) : cfg.HasEffect e := by
    refine (hasEffect_of_mem_pathEffects he).resolve_right ?_
    rintro ⟨guard, rfl⟩
    obtain ⟨value, hvalue⟩ := hv
    cases hvalue
  refine ⟨visitCount_pathItems (order.idxOf ·) hrank h (by simp), ?_,
    fun item hitem region offset value heq ↦ ?_⟩
  · obtain ⟨es, hes, heq⟩ := exists_edgePath_of_leads h
    have hlater := (List.pairwise_append.1 (hssa.path es m hes).later).1
    rw [← heq, ← map_effect_pathItems fun _ ↦ 0, List.pairwise_map] at hlater
    refine hlater.imp_of_mem fun hi hj hij v w hv hw hname ↦ ?_
    obtain rfl := hwalkable.names _ _ v w (hassigned (heffect hi) hv) (hassigned (heffect hj) hw)
      hv hw hname
    exact hij v (Or.inr hv) hw
  · refine hwalkable.stores region offset value ?_
    rw [← heq]
    refine (hasEffect_of_mem_pathEffects (heffect hitem)).resolve_right ?_
    rintro ⟨guard, hguard⟩
    rw [heq] at hguard
    cases hguard

/-- On a loop-free graph in single-assignment form that stores values computed from scalars, every
read of the walk along an enumerated path reaches the current value. -/
theorem pathFollowed_of_ssa (hssa : cfg.Ssa) (hwalkable : cfg.Walkable)
    (hacyclic : cfg.topologicalOrder.isSome)
    (h : path ∈ cfg.enumeratePaths cfg.entry site.node config) :
    PathFollowed cfg site order path :=
  (definedOnce_pathItems hssa hwalkable hacyclic (leads_of_mem_enumeratePaths h)).followed
    ⟨rfl, fun _ _ hmem ↦ by cases hmem⟩ fun _ _ _ _ ↦ Finset.notMem_empty _

/-- A query that the solver answers has been validated. -/
theorem validated_of_feasibilityWithModel {oracle : Oracle} {φ : Formula}
    {report : FeasibilityReport} (h : oracle.feasibilityWithModel φ = .ok report) :
    φ.Validated := by
  rw [Oracle.feasibilityWithModel] at h
  split at h
  · cases h
  · assumption

end Paths

/-! ### A graph with one assignment -/

/-- It is enough to look at the nodes and edges. -/
theorem AbstractCfg.forall_hasEffect {cfg : AbstractCfg} {P : TransferEffect → Prop}
    (hnode : ∀ node ∈ cfg.nodes, ∀ e ∈ node.transfer.effects, P e)
    (hedge : ∀ edge ∈ cfg.edges, ∀ e ∈ edge.effects, P e) {e : TransferEffect}
    (he : cfg.HasEffect e) : P e := by
  rcases he with ⟨n, he⟩ | ⟨edge, hmem, he⟩
  · exact AbstractCfg.forall_transferAt hnode n e he
  · exact hedge edge hmem e he

/-- A graph whose only effect assigns an integer to a variable can be walked. -/
theorem AbstractCfg.walkable_of_single {cfg : AbstractCfg} {target : Var} {n : Int64}
    (h : ∀ e, cfg.HasEffect e → e = .assign target (.term (.int n))) : cfg.Walkable where
  names e e' v w he he' hv hw _ := by
    have htarget {e : TransferEffect} {v : Var} (he : cfg.HasEffect e) (hv : e.Assigns v) :
        v = target := by
      obtain ⟨value, rfl⟩ := hv
      cases h _ he
      rfl
    rw [htarget he hv, htarget he' hw]
  stores region offset value he := by cases h _ he

end MayMust
