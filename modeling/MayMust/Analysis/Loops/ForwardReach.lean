import MayMust.Analysis.Loops.StoreFacts
import MayMust.Cfg.Execution

/-!
# Forward reach at a loop header

`forward_reach_at_header` joins walks over all paths to a header that take no back edge. Other
loops are represented by the invariants injected at their headers. `preheader_store_facts_at_header`
is a second, separately written pass that returns the remembered stores only.

The pass visits the nodes in topological order, and a visit changes the values of the visited
node only. At its end the values therefore solve the join equations of all nodes
(`ForwardState.Solves`), and an execution that takes no back edge is followed by one of the joined
walks. The formula still holds at the end of the execution if nothing recorded on the way was
overwritten (`AbstractCfg.Tracked`); the last section has an execution on which it was.
-/

namespace MayMust

open Library

/-- Invariants supplied for the headers of other loops. -/
abbrev InnerInvariants := List (CfgNodeId × Formula)

/-- The invariant in force at a header: a later entry replaces an earlier one. -/
def InnerInvariants.at? (inner : InnerInvariants) (header : CfgNodeId) : Option Formula :=
  (inner.reverse.find? (·.1 = header)).map (·.2)

theorem InnerInvariants.mem_of_at? {inner : InnerInvariants} {header : CfgNodeId} {inv : Formula}
    (h : inner.at? header = some inv) : (header, inv) ∈ inner := by
  obtain ⟨p, hp, rfl⟩ := Option.map_eq_some_iff.1 h
  have hheader : p.1 = header := by simpa using List.find?_some hp
  exact hheader ▸ List.mem_reverse.1 (List.mem_of_find?_eq_some hp)

/-! ### The pass -/

/-- The walk over a source node, up to the guard of an edge. -/
def Walk.guarded (walk : Walk) (transfer : TransferFn) (edge : AbstractEdge) : Walk :=
  let out := walk.applyEffects transfer.effects
  ⟨Formula.mkAnd out.formula edge.guard, out.facts⟩

/-- The walk over a source node, the guard and the effects of an edge. -/
def Walk.cross (walk : Walk) (transfer : TransferFn) (edge : AbstractEdge) : Walk :=
  (walk.guarded transfer edge).applyEffects edge.effects

theorem Walk.facts_cross_congr {walk walk' : Walk} {transfer : TransferFn} {edge : AbstractEdge}
    (h : walk.facts = walk'.facts) :
    (walk.cross transfer edge).facts = (walk'.cross transfer edge).facts :=
  Walk.facts_applyEffects_congr (Walk.facts_applyEffects_congr h)

theorem Walk.formula_cross_mono {walk walk' : Walk} {transfer : TransferFn} {edge : AbstractEdge}
    {s : State} (hfacts : walk.facts = walk'.facts)
    (h : walk.formula.Holds s → walk'.formula.Holds s) :
    (walk.cross transfer edge).formula.Holds s → (walk'.cross transfer edge).formula.Holds s := by
  refine Walk.formula_applyEffects_mono (Walk.facts_applyEffects_congr hfacts) ?_
  simp only [guarded, Formula.holds_mkAnd]
  exact And.imp_left (Walk.formula_applyEffects_mono hfacts h)

/-- What the pass knows about the state in which each node is entered. -/
structure ForwardState where
  reach : CfgNodeId → Formula
  inFacts : CfgNodeId → StoreFacts

namespace ForwardState

section Defs

variable (cfg : AbstractCfg) (backEdges : Finset CfgEdgeId)

/-- The entry is reachable, and headers of other loops are under their invariants. -/
def init (inner : InnerInvariants) : ForwardState where
  reach id :=
    let start : Formula := if id = cfg.entry then .tru else .fls
    match inner.at? id with
    | some inv => Formula.mkOr start inv
    | none => start
  inFacts _ := []

/-- The edge of an id and its source node, unless the pass skips the edge: it is a back edge, is
unknown, or nothing reaches its source. -/
def liveEdge (st : ForwardState) (id : CfgEdgeId) : Option (AbstractEdge × AbstractNode) :=
  if id ∈ backEdges then none
  else
    match cfg.edge id with
    | .error _ => none
    | .ok edge =>
      if st.reach edge.source = .fls then none
      else
        match cfg.node edge.source with
        | .error _ => none
        | .ok source => some (edge, source)

/-- The walk over an edge from the values of its source. -/
def walkEdge (st : ForwardState) (edge : AbstractEdge) (transfer : TransferFn) : Walk :=
  (Walk.mk (st.reach edge.source) (st.inFacts edge.source)).cross transfer edge

/-- Only facts on which all incoming walks agree are kept. -/
def joinFacts : Option StoreFacts → StoreFacts → StoreFacts
  | none, facts => facts
  | some prev, facts => prev.intersect facts

/-- The inner loop of the pass: one incoming edge of the node. -/
def visitEdge (node : CfgNodeId) (acc : ForwardState × Option StoreFacts) (id : CfgEdgeId) :
    ForwardState × Option StoreFacts :=
  match acc.1.liveEdge cfg backEdges id with
  | none => acc
  | some (edge, source) =>
    let through := acc.1.walkEdge edge source.transfer
    ({ acc.1 with
        reach := Function.update acc.1.reach node (Formula.mkOr (acc.1.reach node) through.formula)
          },
      some (joinFacts acc.2 through.facts))

/-- The outer loop of the pass: one node. -/
def visit (st : ForwardState) (node : CfgNodeId) : ForwardState :=
  let acc := (cfg.incomingEdges node).foldl (visitEdge cfg backEdges node) (st, none)
  match acc.2 with
  | none => acc.1
  | some facts => { acc.1 with inFacts := Function.update acc.1.inFacts node facts }

/-- The pass over some nodes. -/
def pass (inner : InnerInvariants) (order : List CfgNodeId) : ForwardState :=
  order.foldl (visit cfg backEdges) (init cfg inner)

end Defs

end ForwardState

section Header

variable (cfg : AbstractCfg) (header : CfgNodeId) (inner : InnerInvariants)

/-- `forward_reach_at_header`. A header that is not in the graph is taken to be reachable. -/
def forwardReachAtHeader : Formula :=
  let backEdges := cfg.detectBackEdges.toFinset
  match cfg.topologicalOrderExcluding backEdges with
  | none => .tru
  | some order =>
    let st := ForwardState.pass cfg backEdges inner order
    let headerIn :=
      if header ∈ cfg.nodeIds ∨ (inner.at? header).isSome then st.reach header else .tru
    (st.inFacts header).foldl (fun f p ↦ Formula.mkAnd f (StoreFacts.equation p)) headerIn

/-- The last loop of `preheader_store_facts_at_header`: one incoming edge of the header. -/
def ForwardState.headerFacts (backEdges : Finset CfgEdgeId) (st : ForwardState)
    (incoming : Option StoreFacts) (id : CfgEdgeId) : Option StoreFacts :=
  match st.liveEdge cfg backEdges id with
  | none => incoming
  | some (edge, source) =>
    let out := (Walk.mk (st.reach edge.source) (st.inFacts edge.source)).applyEffects
      source.transfer.effects
    some (joinFacts incoming ((Walk.mk .tru out.facts).applyEffects edge.effects).facts)

/-- `preheader_store_facts_at_header`: the pass stops in front of the header. -/
def preheaderStoreFactsAtHeader : StoreFacts :=
  let backEdges := cfg.detectBackEdges.toFinset
  match cfg.topologicalOrderExcluding backEdges with
  | none => []
  | some order =>
    let st := ForwardState.pass cfg backEdges inner (order.takeWhile (· ≠ header))
    ((cfg.incomingEdges header).foldl (st.headerFacts cfg backEdges) none).getD []

end Header

/-! ### The pass solves the join equations -/

namespace ForwardState

variable {cfg : AbstractCfg} {backEdges : Finset CfgEdgeId} {st : ForwardState}
  {acc : ForwardState × Option StoreFacts} {node m : CfgNodeId} {e : AbstractEdge}
  {ids : List CfgEdgeId} {inner : InnerInvariants}

theorem liveEdge_eq_some (he : e ∈ cfg.edges) (hback : e.id ∉ backEdges)
    (hreach : st.reach e.source ≠ .fls) :
    ∃ source, st.liveEdge cfg backEdges e.id = some (e, source) ∧
      source.transfer = cfg.transferAt e.source := by
  obtain ⟨n, hn, hid⟩ := List.mem_map.1 (cfg.source_mem e he)
  have hnode : cfg.node e.source = .ok n := hid ▸ AbstractCfg.node_eq_ok hn
  refine ⟨n, ?_, (AbstractCfg.transferAt_eq hnode).symm⟩
  rw [liveEdge]
  rw [if_neg hback, AbstractCfg.edge_eq_ok he]
  simp only [hreach, if_false, hnode]

theorem mem_of_liveEdge {id : CfgEdgeId} {source : AbstractNode}
    (h : st.liveEdge cfg backEdges id = some (e, source)) :
    e ∈ cfg.edges ∧ e.id = id ∧ id ∉ backEdges := by
  rw [liveEdge] at h
  split at h
  · simp at h
  rename_i hback
  split at h
  · simp at h
  rename_i edge hedge
  split at h
  · simp at h
  split at h
  · simp at h
  obtain ⟨rfl, -⟩ := Prod.mk.inj (Option.some.inj h)
  obtain ⟨hmem, hid⟩ := AbstractCfg.mem_of_edge_eq_ok hedge
  exact ⟨hmem, hid, hback⟩

/-- The values a visit of a node must not change: those of all other nodes. -/
def SameOff (node : CfgNodeId) (st st' : ForwardState) : Prop :=
  (∀ m, m ≠ node → st'.reach m = st.reach m) ∧ ∀ m, m ≠ node → st'.inFacts m = st.inFacts m

variable (cfg backEdges node acc) in
theorem visitEdge_sameOff (id : CfgEdgeId) :
    SameOff node acc.1 (visitEdge cfg backEdges node acc id).1 := by
  rw [visitEdge]
  split
  · exact ⟨fun _ _ ↦ rfl, fun _ _ ↦ rfl⟩
  · exact ⟨fun m hm ↦ Function.update_of_ne hm _ _, fun _ _ ↦ rfl⟩

theorem inFacts_visitEdge (id : CfgEdgeId) :
    (visitEdge cfg backEdges node acc id).1.inFacts = acc.1.inFacts := by
  rw [visitEdge]
  split <;> rfl

variable (cfg backEdges node acc ids) in
theorem foldl_visitEdge_sameOff :
    SameOff node acc.1 (ids.foldl (visitEdge cfg backEdges node) acc).1 := by
  induction ids generalizing acc with
  | nil => exact ⟨fun _ _ ↦ rfl, fun _ _ ↦ rfl⟩
  | cons id ids ih =>
    obtain ⟨hreach, hfacts⟩ := visitEdge_sameOff cfg backEdges acc node id
    obtain ⟨hreach', hfacts'⟩ := ih (visitEdge cfg backEdges node acc id)
    exact ⟨fun m hm ↦ (hreach' m hm).trans (hreach m hm),
      fun m hm ↦ (hfacts' m hm).trans (hfacts m hm)⟩

theorem inFacts_foldl_visitEdge :
    (ids.foldl (visitEdge cfg backEdges node) acc).1.inFacts = acc.1.inFacts := by
  induction ids generalizing acc with
  | nil => rfl
  | cons id ids ih => exact ih.trans (inFacts_visitEdge id)

variable (cfg backEdges st node) in
/-- A visit changes the values of the visited node only. -/
theorem visit_sameOff : SameOff node st (visit cfg backEdges st node) := by
  obtain ⟨hreach, hfacts⟩ := foldl_visitEdge_sameOff cfg backEdges (st, none) node
    (cfg.incomingEdges node)
  rw [visit]
  dsimp only
  split
  · exact ⟨hreach, hfacts⟩
  · exact ⟨hreach, fun m hm ↦ (Function.update_of_ne hm _ _).trans (hfacts m hm)⟩

theorem foldl_visit_of_notMem {nodes : List CfgNodeId} (hm : m ∉ nodes) :
    (nodes.foldl (visit cfg backEdges) st).reach m = st.reach m ∧
      (nodes.foldl (visit cfg backEdges) st).inFacts m = st.inFacts m := by
  induction nodes generalizing st with
  | nil => exact ⟨rfl, rfl⟩
  | cons n nodes ih =>
    obtain ⟨hne, hnodes⟩ := not_or.1 (mt List.mem_cons.2 hm)
    obtain ⟨hreach, hfacts⟩ := visit_sameOff cfg backEdges st n
    obtain ⟨hreach', hfacts'⟩ := @ih (visit cfg backEdges st n) hnodes
    exact ⟨hreach'.trans (hreach m hne), hfacts'.trans (hfacts m hne)⟩

theorem walkEdge_congr {st' : ForwardState} {transfer : TransferFn} (h : SameOff node st st')
    (hsource : e.source ≠ node) : st'.walkEdge e transfer = st.walkEdge e transfer := by
  unfold walkEdge
  rw [h.1 _ hsource, h.2 _ hsource]

/-- The reach formula of the visited node only grows. -/
theorem reach_foldl_visitEdge {s : State} (h : (acc.1.reach node).Holds s) :
    ((ids.foldl (visitEdge cfg backEdges node) acc).1.reach node).Holds s := by
  induction ids generalizing acc with
  | nil => exact h
  | cons id ids ih =>
    refine @ih (visitEdge cfg backEdges node acc id) ?_
    rw [visitEdge]
    split
    · exact h
    · simp only [Function.update_self]
      exact (Formula.holds_mkOr _ _).2 (Or.inl h)

/-- The facts collected so far only shrink. -/
theorem facts_foldl_visitEdge {facts : StoreFacts} (h : acc.2 = some facts) :
    ∃ facts', (ids.foldl (visitEdge cfg backEdges node) acc).2 = some facts' ∧ facts' ⊆ facts := by
  induction ids generalizing acc facts with
  | nil => exact ⟨facts, h, List.Subset.refl _⟩
  | cons id ids ih =>
    have hstep : ∃ facts', (visitEdge cfg backEdges node acc id).2 = some facts' ∧
        facts' ⊆ facts := by
      rw [visitEdge]
      split
      · exact ⟨facts, h, List.Subset.refl _⟩
      · rw [h]
        exact ⟨_, rfl, StoreFacts.intersect_subset_left⟩
    obtain ⟨facts', hfacts', hsub⟩ := hstep
    obtain ⟨facts'', hfacts'', hsub'⟩ := ih hfacts'
    exact ⟨facts'', hfacts'', List.Subset.trans hsub' hsub⟩

/-- The values of a node are the join over its incoming edges: every walk over a live edge
implies the reach formula and has the facts. -/
def Solves (cfg : AbstractCfg) (backEdges : Finset CfgEdgeId) (st : ForwardState)
    (node : CfgNodeId) : Prop :=
  ∀ e ∈ cfg.edges, e.target = node → e.id ∉ backEdges → st.reach e.source ≠ .fls →
    (∀ s, (st.walkEdge e (cfg.transferAt e.source)).formula.Holds s → (st.reach node).Holds s) ∧
      st.inFacts node ⊆ (st.walkEdge e (cfg.transferAt e.source)).facts

/-- One live edge among the visited ones contributes its walk. -/
theorem foldl_visitEdge_of_mem (he : e ∈ cfg.edges) (hback : e.id ∉ backEdges)
    (hsource : e.source ≠ node) (hreach : acc.1.reach e.source ≠ .fls) (hid : e.id ∈ ids) :
    (∀ s, (acc.1.walkEdge e (cfg.transferAt e.source)).formula.Holds s →
      ((ids.foldl (visitEdge cfg backEdges node) acc).1.reach node).Holds s) ∧
      ∃ facts, (ids.foldl (visitEdge cfg backEdges node) acc).2 = some facts ∧
        facts ⊆ (acc.1.walkEdge e (cfg.transferAt e.source)).facts := by
  induction ids generalizing acc with
  | nil => simp at hid
  | cons id ids ih =>
    have hoff := visitEdge_sameOff cfg backEdges acc node id
    by_cases hhead : e.id = id
    · subst hhead
      obtain ⟨source, hlive, htransfer⟩ := liveEdge_eq_some he hback hreach
      have hvisit : visitEdge cfg backEdges node acc e.id =
          (⟨Function.update acc.1.reach node (Formula.mkOr (acc.1.reach node)
              (acc.1.walkEdge e (cfg.transferAt e.source)).formula), acc.1.inFacts⟩,
            some (joinFacts acc.2 (acc.1.walkEdge e (cfg.transferAt e.source)).facts)) := by
        simp only [visitEdge, hlive, htransfer]
      rw [List.foldl_cons, hvisit]
      constructor
      · intro s hs
        refine reach_foldl_visitEdge ?_
        dsimp only
        rw [Function.update_self]
        exact (Formula.holds_mkOr _ _).2 (Or.inr hs)
      · obtain ⟨facts, hfacts, hsub⟩ := @facts_foldl_visitEdge cfg backEdges
          (⟨Function.update acc.1.reach node _, acc.1.inFacts⟩, some _) node ids _ rfl
        refine ⟨facts, hfacts, List.Subset.trans hsub ?_⟩
        unfold joinFacts
        split
        · exact List.Subset.refl _
        · exact StoreFacts.intersect_subset_right
    · have hmem : e.id ∈ ids := (List.mem_cons.1 hid).resolve_left hhead
      have hcongr := @walkEdge_congr _ _ _ _ (cfg.transferAt e.source) hoff hsource
      have hreach' : (visitEdge cfg backEdges node acc id).1.reach e.source ≠ .fls := by
        rw [hoff.1 _ hsource]
        exact hreach
      have htail := ih hreach' hmem
      rw [hcongr] at htail
      exact htail

/-- After the visit of a node whose predecessors are other nodes, its equation is solved. -/
theorem solves_visit
    (hsources : ∀ e ∈ cfg.edges, e.target = node → e.id ∉ backEdges → e.source ≠ node) :
    Solves cfg backEdges (visit cfg backEdges st node) node := by
  intro e he htarget hback hreach
  have hsource := hsources e he htarget hback
  have hoff := visit_sameOff cfg backEdges st node
  rw [walkEdge_congr hoff hsource]
  rw [hoff.1 _ hsource] at hreach
  have hid : e.id ∈ cfg.incomingEdges node := htarget ▸ AbstractCfg.mem_incomingEdges he
  obtain ⟨hformula, facts, hfacts, hsub⟩ :=
    @foldl_visitEdge_of_mem cfg backEdges (st, none) node e _ he hback hsource hreach hid
  have hvisit : visit cfg backEdges st node =
      { ((cfg.incomingEdges node).foldl (visitEdge cfg backEdges node) (st, none)).1 with
        inFacts := Function.update ((cfg.incomingEdges node).foldl
          (visitEdge cfg backEdges node) (st, none)).1.inFacts node facts } := by
    simp only [visit, hfacts]
  rw [hvisit]
  exact ⟨hformula, by simpa only [Function.update_self] using hsub⟩

/-- Visits of other nodes keep an equation solved. -/
theorem Solves.visit_of_ne (h : Solves cfg backEdges st m) (hm : m ≠ node)
    (hsources : ∀ e ∈ cfg.edges, e.target = m → e.id ∉ backEdges → e.source ≠ node) :
    Solves cfg backEdges (visit cfg backEdges st node) m := by
  intro e he htarget hback hreach
  have hsource := hsources e he htarget hback
  have hoff := visit_sameOff cfg backEdges st node
  rw [walkEdge_congr hoff hsource, hoff.1 _ hm, hoff.2 _ hm]
  rw [hoff.1 _ hsource] at hreach
  exact h e he htarget hback hreach

/-- A pass in topological order solves the equations of all nodes. -/
theorem solves_pass {pre post : List CfgNodeId}
    (hsorted : Sorted (cfg.edges.filter (·.id ∉ backEdges)) (·.source) (·.target) (pre ++ post))
    (hnodup : (pre ++ post).Nodup) :
    ∀ n ∈ pre, Solves cfg backEdges (pass cfg backEdges inner pre) n := by
  induction pre using List.reverseRecOn generalizing post with
  | nil => simp
  | append_singleton pre b ih =>
    rw [List.append_assoc] at hsorted hnodup
    have hbefore {n : CfgNodeId} {pre' post' : List CfgNodeId}
        (hsplit : pre ++ ([b] ++ post) = pre' ++ n :: post') :
        ∀ e ∈ cfg.edges, e.target = n → e.id ∉ backEdges → e.source ∈ pre' :=
      fun e he htarget hback ↦ hsorted pre' n post' hsplit e
        (List.mem_filter.2 ⟨he, by simpa using hback⟩) htarget
    have hb : b ∉ pre := fun hmem ↦
      (List.nodup_append.1 hnodup).2.2 b hmem b (by simp) rfl
    intro n hn
    rw [pass, List.foldl_append, List.foldl_cons, List.foldl_nil]
    rcases List.mem_append.1 hn with hn | hn
    · obtain ⟨pre₁, pre₂, rfl⟩ := List.append_of_mem hn
      refine (ih hsorted hnodup n hn).visit_of_ne (fun hnb ↦ hb (hnb ▸ hn)) ?_
      intro e he htarget hback hsource
      have hmem := @hbefore n pre₁ (pre₂ ++ ([b] ++ post)) (by simp) e he htarget hback
      exact hb (hsource ▸ List.mem_append_left _ hmem)
    · obtain rfl := List.mem_singleton.1 hn
      refine solves_visit fun e he htarget hback hsource ↦ ?_
      exact hb (hsource ▸ @hbefore n pre post rfl e he htarget hback)

/-- The pass only adds to what the reach formulas start from. -/
theorem reach_pass {order : List CfgNodeId} {s : State}
    (h : ((init cfg inner).reach node).Holds s) :
    ((pass cfg backEdges inner order).reach node).Holds s := by
  induction order using List.reverseRecOn with
  | nil => exact h
  | append_singleton pre b ih =>
    rw [pass, List.foldl_append, List.foldl_cons, List.foldl_nil]
    by_cases hb : node = b
    · subst hb
      have hgrow := @reach_foldl_visitEdge cfg backEdges (pass cfg backEdges inner pre, none) node
        (cfg.incomingEdges node) s ih
      rw [visit]
      dsimp only
      split <;> exact hgrow
    · rw [(visit_sameOff cfg backEdges _ b).1 _ hb]
      exact ih

end ForwardState

/-! ### The two passes agree on the facts -/

namespace ForwardState

variable {cfg : AbstractCfg} {backEdges : Finset CfgEdgeId} {st : ForwardState}
  {acc : ForwardState × Option StoreFacts} {node : CfgNodeId} {ids : List CfgEdgeId}

theorem liveEdge_congr {id : CfgEdgeId} {st' : ForwardState} (hoff : SameOff node st st')
    (hsource : ∀ e ∈ cfg.edges, e.id = id → id ∉ backEdges → e.source ≠ node) :
    st'.liveEdge cfg backEdges id = st.liveEdge cfg backEdges id := by
  unfold liveEdge
  by_cases hback : id ∈ backEdges
  · rw [if_pos hback, if_pos hback]
  rw [if_neg hback, if_neg hback]
  cases hedge : cfg.edge id with
  | error err => rfl
  | ok edge =>
    obtain ⟨hmem, hid⟩ := AbstractCfg.mem_of_edge_eq_ok hedge
    simp only [hoff.1 _ (hsource edge hmem hid hback)]

/-- The loop of the second pass collects what a visit of the header collects. -/
theorem foldl_headerFacts_eq (hoff : SameOff node st acc.1)
    (hsource : ∀ id ∈ ids, ∀ e ∈ cfg.edges, e.id = id → id ∉ backEdges → e.source ≠ node) :
    ids.foldl (st.headerFacts cfg backEdges) acc.2 =
      (ids.foldl (visitEdge cfg backEdges node) acc).2 := by
  induction ids generalizing acc with
  | nil => rfl
  | cons id ids ih =>
    rw [List.forall_mem_cons] at hsource
    have hstep : st.headerFacts cfg backEdges acc.2 id =
      (visitEdge cfg backEdges node acc id).2 := by
      unfold headerFacts visitEdge
      rw [liveEdge_congr hoff hsource.1]
      split
      · rfl
      rename_i edge source hlive
      obtain ⟨hmem, hid, hback⟩ := mem_of_liveEdge hlive
      have hne := hsource.1 edge hmem hid hback
      rw [walkEdge_congr hoff hne]
      have hfacts {out : Walk} {φ : Formula} :
          ((Walk.mk .tru out.facts).applyEffects edge.effects).facts =
            ((Walk.mk φ out.facts).applyEffects edge.effects).facts :=
        Walk.facts_applyEffects_congr rfl
      exact congrArg (fun facts ↦ some (joinFacts acc.2 facts)) hfacts
    have hoff' := visitEdge_sameOff cfg backEdges acc node id
    rw [List.foldl_cons, List.foldl_cons, hstep]
    exact ih ⟨fun m hm ↦ (hoff'.1 m hm).trans (hoff.1 m hm),
      fun m hm ↦ (hoff'.2 m hm).trans (hoff.2 m hm)⟩ hsource.2

/-- The facts of a visited node are those collected over its incoming edges. -/
theorem inFacts_visit (hempty : st.inFacts node = []) :
    (visit cfg backEdges st node).inFacts node =
      ((cfg.incomingEdges node).foldl (visitEdge cfg backEdges node) (st, none)).2.getD [] := by
  have hframe : ((cfg.incomingEdges node).foldl (visitEdge cfg backEdges node)
      (st, none)).1.inFacts = st.inFacts := inFacts_foldl_visitEdge
  rw [visit]
  dsimp only
  split
  · rename_i hnone
    rw [hnone, hframe, hempty, Option.getD_none]
  · rename_i facts hsome
    rw [hsome, Option.getD_some]
    exact Function.update_self ..

end ForwardState

/-- `preheader_store_facts_at_header` returns the facts the other pass keeps for the header. -/
theorem preheaderStoreFactsAtHeader_eq {cfg : AbstractCfg} {inner : InnerInvariants}
    {header : CfgNodeId} {order : List CfgNodeId}
    (horder : cfg.topologicalOrderExcluding cfg.detectBackEdges.toFinset = some order)
    (hheader : header ∈ cfg.nodeIds) :
    preheaderStoreFactsAtHeader cfg header inner =
      (ForwardState.pass cfg cfg.detectBackEdges.toFinset inner order).inFacts header := by
  obtain ⟨hnodup, hnodes, hsorted⟩ := AbstractCfg.topologicalOrderExcluding_sorted horder
  rw [preheaderStoreFactsAtHeader]
  simp only [horder]
  generalize cfg.detectBackEdges.toFinset = backEdges at *
  obtain ⟨pre, post, rfl⟩ := List.append_of_mem ((hnodes header).2 hheader)
  obtain ⟨hpre, hpost, hdisj⟩ := List.nodup_append.1 hnodup
  have hnotpre : header ∉ pre := fun h ↦ hdisj header h header List.mem_cons_self rfl
  have htake : (pre ++ header :: post).takeWhile (· ≠ header) = pre := by
    rw [List.takeWhile_append_of_pos (by
      intro n hn
      simpa using fun h : n = header ↦ hnotpre (h ▸ hn))]
    simp
  rw [htake, ForwardState.pass, ForwardState.pass, List.foldl_append, List.foldl_cons,
    (ForwardState.foldl_visit_of_notMem (List.nodup_cons.1 hpost).1).2,
    ForwardState.inFacts_visit (ForwardState.foldl_visit_of_notMem hnotpre).2]
  -- The edges into the header leave nodes before it, whose values its visit does not change.
  have hsources : ∀ id ∈ cfg.incomingEdges header, ∀ e ∈ cfg.edges, e.id = id →
      id ∉ backEdges → e.source ≠ header := by
    rintro id hid e he rfl hback hsource
    have htarget := AbstractCfg.target_eq_of_mem_incomingEdges he hid
    have hmem := hsorted pre header post rfl e (List.mem_filter.2 ⟨he, by simpa using hback⟩)
      htarget
    exact hnotpre (hsource ▸ hmem)
  exact congrArg (·.getD []) (@ForwardState.foldl_headerFacts_eq cfg backEdges _ (_, none) header _
    ⟨fun _ _ ↦ rfl, fun _ _ ↦ rfl⟩ hsources)

/-- The facts the first pass has for the header at its end. -/
def forwardFactsAtHeader (cfg : AbstractCfg) (header : CfgNodeId) (inner : InnerInvariants) :
    StoreFacts :=
  let backEdges := cfg.detectBackEdges.toFinset
  match cfg.topologicalOrderExcluding backEdges with
  | none => []
  | some order => (ForwardState.pass cfg backEdges inner order).inFacts header

/-- The reach formula of the header before facts are conjoined. -/
def headerReach (cfg : AbstractCfg) (header : CfgNodeId) (inner : InnerInvariants) : Formula :=
  let backEdges := cfg.detectBackEdges.toFinset
  match cfg.topologicalOrderExcluding backEdges with
  | none => .tru
  | some order =>
    if header ∈ cfg.nodeIds ∨ (inner.at? header).isSome then
      (ForwardState.pass cfg backEdges inner order).reach header
    else .tru

/-- **The two passes agree.** For every graph, header and list of injected invariants, the second
pass returns the facts the first one has for the header, and these are the facts the first pass
conjoins to the reach formula. -/
theorem preheaderStoreFacts_conjoined (cfg : AbstractCfg) (header : CfgNodeId)
    (inner : InnerInvariants) :
    preheaderStoreFactsAtHeader cfg header inner = forwardFactsAtHeader cfg header inner ∧
      forwardReachAtHeader cfg header inner =
        (preheaderStoreFactsAtHeader cfg header inner).foldl
          (fun f p ↦ Formula.mkAnd f (StoreFacts.equation p)) (headerReach cfg header inner) := by
  have hfacts : preheaderStoreFactsAtHeader cfg header inner =
      forwardFactsAtHeader cfg header inner := by
    rw [forwardFactsAtHeader]
    cases horder : cfg.topologicalOrderExcluding cfg.detectBackEdges.toFinset with
    | none => simp only [preheaderStoreFactsAtHeader, horder]
    | some order =>
      by_cases hheader : header ∈ cfg.nodeIds
      · exact preheaderStoreFactsAtHeader_eq horder hheader
      -- No edge leads to a header that is not in the graph, and no pass visits it.
      · obtain ⟨-, hnodes, -⟩ := AbstractCfg.topologicalOrderExcluding_sorted horder
        have hincoming : cfg.incomingEdges header = [] := by
          rw [AbstractCfg.incomingEdges, List.map_eq_nil_iff, List.filter_eq_nil_iff]
          intro e he htgt
          exact hheader (of_decide_eq_true htgt ▸ cfg.target_mem e he)
        have hskipped := @ForwardState.foldl_visit_of_notMem cfg cfg.detectBackEdges.toFinset
          (ForwardState.init cfg inner) header order fun h ↦ hheader ((hnodes header).1 h)
        simp only [preheaderStoreFactsAtHeader, horder, hincoming, List.foldl_nil, Option.getD_none]
        exact hskipped.2.symm
  refine ⟨hfacts, ?_⟩
  rw [hfacts, forwardReachAtHeader, forwardFactsAtHeader, headerReach]
  cases cfg.topologicalOrderExcluding cfg.detectBackEdges.toFinset with
  | none => rfl
  | some order => rfl

/-! ### Executions the pass follows -/

/-- The execution makes nothing false that the pass records along it, from the formula it starts
with and the facts it keeps for each node. -/
def AbstractCfg.Tracked (cfg : AbstractCfg) (sem : Semantics) (facts : CfgNodeId → StoreFacts) :
    Formula → List Crossing → Prop
  | _, [] => True
  | φ, c :: cs =>
    let start := Walk.mk φ (facts c.edge.source)
    let transfer := cfg.transferAt c.edge.source
    Effects.SparingRun sem transfer.effects start c.pre c.mid ∧
      Effects.SparingRun sem c.edge.effects (start.guarded transfer c.edge) c.mid c.post ∧
      cfg.Tracked sem facts (start.cross transfer c.edge).formula cs

section Tracked

variable {cfg : AbstractCfg} {sem : Semantics} {inner : InnerInvariants} {header : CfgNodeId}
  {cs cs' : List Crossing} {p q : Position} {φ : Formula} {facts : CfgNodeId → StoreFacts}

theorem AbstractCfg.Run.node_mem (h : cfg.Run sem cs p q) (hp : p.node ∈ cfg.nodeIds) :
    q.node ∈ cfg.nodeIds := by
  refine Path.invariant (P := fun p : Position ↦ p.node ∈ cfg.nodeIds) ?_ h hp
  rintro c - _ _ ⟨hvalid, rfl, rfl⟩ -
  exact cfg.target_mem _ hvalid.edge_mem

/-- One crossing: everything the walk over it knows holds in the state after it. -/
theorem Walk.holds_cross {c : Crossing} {start : Walk} (hvalid : c.Valid sem cfg)
    (h : start.Holds c.pre)
    (hnode : Effects.SparingRun sem (cfg.transferAt c.edge.source).effects start c.pre c.mid)
    (hedge : Effects.SparingRun sem c.edge.effects
      (start.guarded (cfg.transferAt c.edge.source) c.edge) c.mid c.post) :
    (start.cross (cfg.transferAt c.edge.source) c.edge).Holds c.post := by
  have hout := Walk.holds_applyEffects hnode h
  exact Walk.holds_applyEffects hedge
    ⟨(Formula.holds_mkAnd _ _).2 ⟨hout.formula, hvalid.guard⟩, hout.facts⟩

/-- Where the join equations are solved, a tracked execution stays in the reach formulas and in
the facts. -/
theorem ForwardState.holds_of_tracked {backEdges : Finset CfgEdgeId} {st : ForwardState}
    (hsolves : ∀ n ∈ cfg.nodeIds, st.Solves cfg backEdges n)
    (hfacts : ∀ n ∈ cfg.nodeIds, facts n = st.inFacts n) (hrun : cfg.Run sem cs p q)
    (hback : ∀ c ∈ cs, c.edge.id ∉ backEdges) (htracked : cfg.Tracked sem facts φ cs)
    (himp : ∀ s, φ.Holds s → (st.reach p.node).Holds s) (hφ : φ.Holds p.state)
    (hstart : (st.inFacts p.node).Holds p.state) :
    (st.reach q.node).Holds q.state ∧ (st.inFacts q.node).Holds q.state := by
  induction cs generalizing p φ with
  | nil =>
    obtain rfl : p = q := hrun
    exact ⟨himp _ hφ, hstart⟩
  | cons c cs ih =>
    obtain ⟨m, ⟨hvalid, rfl, rfl⟩, hrest⟩ := hrun
    obtain ⟨hnode, hedge, htracked⟩ := htracked
    rw [List.forall_mem_cons] at hback
    have hsource := cfg.source_mem _ hvalid.edge_mem
    have htarget := cfg.target_mem _ hvalid.edge_mem
    rw [hfacts _ hsource] at hnode hedge htracked
    have hwalk := Walk.holds_cross hvalid ⟨hφ, hstart⟩ hnode hedge
    have hlive : st.reach c.edge.source ≠ .fls := by
      intro hfls
      have := himp _ hφ
      simp only [hfls] at this
      exact Formula.not_holds_fls _ this
    obtain ⟨hreach, hsub⟩ := hsolves _ htarget c.edge hvalid.edge_mem rfl hback.1 hlive
    refine ih hrest hback.2 htracked (fun s hs ↦ hreach s ?_) hwalk.formula ?_
    · exact @Walk.formula_cross_mono ⟨φ, _⟩ ⟨_, _⟩ _ _ s rfl (himp s) hs
    · have hfacts := @Walk.facts_cross_congr ⟨st.reach c.edge.source, st.inFacts c.edge.source⟩
        ⟨φ, st.inFacts c.edge.source⟩ (cfg.transferAt c.edge.source) c.edge rfl
      exact hwalk.facts.mono (hfacts ▸ hsub)

/-- The formula the pass starts from at a node: nothing is known at the entry, and the injected
invariant holds at a header. -/
def StartsWith (cfg : AbstractCfg) (inner : InnerInvariants) (node : CfgNodeId) (φ : Formula) :
    Prop :=
  node = cfg.entry ∧ φ = .tru ∨ inner.at? node = some φ

theorem holds_foldl_equation {s : State} {facts : StoreFacts} :
    (facts.foldl (fun f p ↦ Formula.mkAnd f (StoreFacts.equation p)) φ).Holds s ↔
      φ.Holds s ∧ facts.Holds s := by
  induction facts generalizing φ with
  | nil => simp [StoreFacts.Holds]
  | cons p facts ih => simp [ih, StoreFacts.Holds, and_assoc]

/-- The forward reach formula holds at the end of an execution that, from a start the pass knows,
takes no back edge and is tracked. -/
theorem holds_forwardReachAtHeader (hrun : cfg.Run sem cs p q) (hp : p.node ∈ cfg.nodeIds)
    (hstarts : StartsWith cfg inner p.node φ) (hφ : φ.Holds p.state)
    (hfacts : (preheaderStoreFactsAtHeader cfg p.node inner).Holds p.state)
    (hback : ∀ c ∈ cs, c.edge.id ∉ cfg.detectBackEdges)
    (htracked : cfg.Tracked sem (preheaderStoreFactsAtHeader cfg · inner) φ cs) :
    (forwardReachAtHeader cfg q.node inner).Holds q.state := by
  have hq := hrun.node_mem hp
  rw [forwardReachAtHeader]
  simp only [hq, true_or, if_true]
  cases horder : cfg.topologicalOrderExcluding cfg.detectBackEdges.toFinset with
  | none => exact Formula.holds_tru _
  | some order =>
    obtain ⟨hnodup, hnodes, hsorted⟩ := AbstractCfg.topologicalOrderExcluding_sorted horder
    have heq := @preheaderStoreFactsAtHeader_eq cfg inner
    have hsolves := @ForwardState.solves_pass cfg _ inner order []
      (by rwa [List.append_nil]) (by rwa [List.append_nil])
    rw [holds_foldl_equation]
    refine ForwardState.holds_of_tracked (fun n hn ↦ hsolves n ((hnodes n).2 hn))
      (fun n hn ↦ heq horder hn) hrun (by simpa using hback) htracked (fun s hs ↦ ?_) hφ
      (heq horder hp ▸ hfacts)
    refine ForwardState.reach_pass ?_
    rcases hstarts with ⟨hentry, rfl⟩ | hinv
    · rw [ForwardState.init]
      simp only [hentry, if_true]
      split
      · simp
      · exact hs
    · simp only [ForwardState.init, hinv]
      exact (Formula.holds_mkOr _ _).2 (Or.inr hs)

/-- **Forward reach covers tracked executions.** Let the invariants supplied for other headers be
true. An execution that arrives at a header, and whose last part starts at the entry or at one of
these headers in a state that satisfies the stores remembered there, takes no back edge and
overwrites nothing the pass records along it, arrives in a state that satisfies the formula of
`forward_reach_at_header`. -/
theorem forwardReach_of_tracked_run {s₀ s : State}
    (hinner : ∀ pair ∈ inner, ∀ cs s₀ s, cfg.Run sem cs ⟨cfg.entry, s₀⟩ ⟨pair.1, s⟩ →
      pair.2.Holds s)
    (hfirst : cfg.Run sem cs ⟨cfg.entry, s₀⟩ p) (hlast : cfg.Run sem cs' p ⟨header, s⟩)
    (hstarts : StartsWith cfg inner p.node φ)
    (hfacts : (preheaderStoreFactsAtHeader cfg p.node inner).Holds p.state)
    (hback : ∀ c ∈ cs', c.edge.id ∉ cfg.detectBackEdges)
    (htracked : cfg.Tracked sem (preheaderStoreFactsAtHeader cfg · inner) φ cs') :
    (forwardReachAtHeader cfg header inner).Holds s := by
  have hp := hfirst.node_mem cfg.entry_mem
  refine holds_forwardReachAtHeader hlast hp hstarts ?_ hfacts hback htracked
  rcases hstarts with ⟨-, rfl⟩ | hinv
  · exact Formula.holds_tru _
  · exact hinner _ (InnerInvariants.mem_of_at? hinv) cs s₀ p.state hfirst

end Tracked

/-! ### A remembered store that goes stale -/

/-- The entry stores 0 to a cell, a first loop increments it, a second loop follows. -/
def twoLoopsCfg : AbstractCfg where
  nodes := [⟨0, "entry", .entry, ⟨[.memoryStore "i" (.int 0) (.int 0)]⟩⟩,
    ⟨1, "first", .normal, .identity⟩,
    ⟨2, "body", .normal, ⟨[.memoryStore "i" (.int 0)
      (.add (.select (.var "i") (.int 0)) (.int 1))]⟩⟩,
    ⟨3, "second", .normal, .identity⟩, ⟨4, "exit", .exit, .identity⟩]
  edges := [⟨0, 0, 1, .tru, []⟩, ⟨1, 1, 2, .tru, []⟩, ⟨2, 2, 1, .tru, []⟩, ⟨3, 1, 3, .tru, []⟩,
    ⟨4, 3, 3, .tru, []⟩, ⟨5, 3, 4, .tru, []⟩]
  entry := 0
  concreteExits := [4]
  exit := some 4
  nextNode := 5
  nextEdge := 6
  nodes_sorted := by simp
  edges_sorted := by simp
  node_lt := by simp
  edge_lt := by simp
  entry_mem := by simp
  source_mem := by simp
  target_mem := by simp

/-- The invariant `true` is injected at the first header; the store before it is still
remembered at the second. -/
theorem forwardReachAtHeader_twoLoopsCfg :
    forwardReachAtHeader twoLoopsCfg 3 [(1, .tru)] =
      .eq (.select (.var "i") (.int 0)) (.int 0) := by
  decide

/-- The execution that enters both loops without iterating the first one is tracked. -/
theorem forwardReach_of_tracked_run_twoLoopsCfg :
    (forwardReachAtHeader twoLoopsCfg 3 [(1, .tru)]).Holds
      (State.zero.setRegion "i" (Function.update (State.zero.memory "i") 0 0)) := by
  let s : State := State.zero.setRegion "i" (Function.update (State.zero.memory "i") 0 0)
  let c : Crossing := ⟨⟨0, 0, 1, .tru, []⟩, .zero, s, s⟩
  let d : Crossing := ⟨⟨3, 1, 3, .tru, []⟩, s, s, s⟩
  have hc : c.Valid .unknownCallees twoLoopsCfg :=
    ⟨by decide, Path.singleton_iff.2 rfl, Formula.holds_tru s, rfl⟩
  have hd : d.Valid .unknownCallees twoLoopsCfg := ⟨by decide, rfl, Formula.holds_tru s, rfl⟩
  have hrun : twoLoopsCfg.Run .unknownCallees [c, d] ⟨0, .zero⟩ ⟨3, s⟩ :=
    ⟨_, ⟨hc, rfl, rfl⟩, Path.singleton_iff.2 ⟨hd, rfl, rfl⟩⟩
  have hfacts : preheaderStoreFactsAtHeader twoLoopsCfg 0 [(1, .tru)] = [] := by decide
  have hstore : TransferEffect.Spares (.memoryStore "i" (.int 0) (.int 0)) ⟨.tru, []⟩ .zero s := by
    refine ⟨fun _ ↦ Formula.holds_tru s, by simp, fun _ ↦ ⟨fun k hk ↦ ?_, ?_, ?_, ?_⟩⟩
    · obtain rfl : 0 = k := Option.some.inj hk
      rfl
    · trivial
    · rfl
    · rfl
  have htracked : twoLoopsCfg.Tracked .unknownCallees
      (preheaderStoreFactsAtHeader twoLoopsCfg · [(1, .tru)]) .tru [c, d] := by
    refine ⟨?_, rfl, rfl, rfl, trivial⟩
    show Effects.SparingRun _ (twoLoopsCfg.transferAt 0).effects
      ⟨.tru, preheaderStoreFactsAtHeader twoLoopsCfg 0 [(1, .tru)]⟩ .zero s
    rw [hfacts]
    exact ⟨s, rfl, hstore, rfl⟩
  have hstart : (preheaderStoreFactsAtHeader twoLoopsCfg 0 [(1, .tru)]).Holds .zero := by
    simp [hfacts, StoreFacts.Holds]
  have hfirst : twoLoopsCfg.Run .unknownCallees [] ⟨0, .zero⟩ ⟨0, .zero⟩ := rfl
  exact forwardReach_of_tracked_run (by simp) hfirst hrun (Or.inl ⟨rfl, rfl⟩) hstart
    (by decide) htracked

/-- One iteration of the first loop is enough to leave the formula of the second header. -/
theorem not_forwardReach_of_run :
    ¬ ∀ (cfg : AbstractCfg) (header : CfgNodeId) (inner : InnerInvariants),
      (∃ e ∈ cfg.edges, e.id ∈ cfg.detectBackEdges ∧ e.target = header) →
      (∀ pair ∈ inner, pair.1 ≠ header ∧ ∀ cs s₀ s,
        cfg.Run .unknownCallees cs ⟨cfg.entry, s₀⟩ ⟨pair.1, s⟩ → pair.2.Holds s) →
      ∀ cs s₀ s, cfg.Run .unknownCallees cs ⟨cfg.entry, s₀⟩ ⟨header, s⟩ →
        (∀ c, cs.getLast? = some c → c.edge.id ∉ cfg.detectBackEdges) →
        (forwardReachAtHeader cfg header inner).Holds s := by
  intro h
  let s₁ : State := State.zero.setRegion "i" (Function.update (State.zero.memory "i") 0 0)
  let s₂ : State := s₁.setRegion "i" (Function.update (s₁.memory "i") 0 1)
  have hbody : TransferEffect.Step .unknownCallees
      (.memoryStore "i" (.int 0) (.add (.select (.var "i") (.int 0)) (.int 1))) s₁ s₂ := by
    simp [TransferEffect.Step, Term.eval, Memory.eval, Value.arith, s₂, s₁]
  have henter : Crossing.Valid .unknownCallees twoLoopsCfg
      ⟨⟨0, 0, 1, .tru, []⟩, .zero, s₁, s₁⟩ :=
    ⟨by decide, Path.singleton_iff.2 rfl, Formula.holds_tru s₁, rfl⟩
  have hiterate : Crossing.Valid .unknownCallees twoLoopsCfg ⟨⟨1, 1, 2, .tru, []⟩, s₁, s₁, s₁⟩ :=
    ⟨by decide, rfl, Formula.holds_tru s₁, rfl⟩
  have hreturn : Crossing.Valid .unknownCallees twoLoopsCfg ⟨⟨2, 2, 1, .tru, []⟩, s₁, s₂, s₂⟩ :=
    ⟨by decide, Path.singleton_iff.2 hbody, Formula.holds_tru s₂, rfl⟩
  have hleave : Crossing.Valid .unknownCallees twoLoopsCfg ⟨⟨3, 1, 3, .tru, []⟩, s₂, s₂, s₂⟩ :=
    ⟨by decide, rfl, Formula.holds_tru s₂, rfl⟩
  have hs := h twoLoopsCfg 3 [(1, .tru)] (by decide) (by simp) [_, _, _, _] .zero s₂
    ⟨_, ⟨henter, rfl, rfl⟩, _, ⟨hiterate, rfl, rfl⟩, _, ⟨hreturn, rfl, rfl⟩, _,
      ⟨hleave, rfl, rfl⟩, rfl⟩ (by rintro c ⟨⟩; decide)
  rw [forwardReachAtHeader_twoLoopsCfg] at hs
  simp [s₂, Formula.Holds, Formula.eval, Term.eval, Memory.eval, Value.compare] at hs

end MayMust
