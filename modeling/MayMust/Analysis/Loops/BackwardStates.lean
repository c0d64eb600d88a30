import MayMust.Analysis.Loops.Detection
import MayMust.Analysis.Loops.ForwardReach
import MayMust.Cfg.Faithful
import MayMust.Library.BackwardPass

/-!
# Backward states inside a loop body

`backward_states` propagates seed formulas backward through a loop body without its back edges.
Inner loops with a supplied invariant are not entered: their headers are seeded with the
invariant and the other nodes of their bodies are skipped.

The function is one pass of `Library.backwardPass` over the edges that are not skipped
(`backwardStates_eq_some`). The two rules of the library give the two directions in which the
checks use it: a property of the seeds that the transformer keeps holds of every state formula,
and the state formula of a node holds wherever an execution through the body leads to a seed.
-/

namespace MayMust

open Library

section Defs

variable (cfg : AbstractCfg)

/-- The nodes of the body of a detected loop with the given header, without the header. Of several
loops with one header the last one counts. -/
def innerBody (header : CfgNodeId) : Finset CfgNodeId :=
  match (detectLoops cfg).reverse.find? (·.header = header) with
  | some info => info.body.erase header
  | none => ∅

/-- `summarize_inner_loops`: the invariants of inner headers, and the nodes to skip. -/
def summarizeInnerLoops (restrictTo : Option (Finset CfgNodeId)) (inner : InnerInvariants) :
    (CfgNodeId → Option Formula) × Finset CfgNodeId :=
  match restrictTo with
  | none => (fun _ ↦ none, ∅)
  | some body =>
    (fun header ↦ if header ∈ body then inner.at? header else none,
      ((inner.filter (·.1 ∈ body)).map fun p ↦ innerBody cfg p.1).foldr (· ∪ ·) ∅)

/-- Add a seed to the state of its node. -/
def seedState (states : CfgNodeId → Formula) (seed : CfgNodeId × Formula) : CfgNodeId → Formula :=
  Function.update states seed.1 (Formula.mkOr (states seed.1) seed.2)

/-- The states `backward_states` starts from. -/
def initialStates (seeds : List (CfgNodeId × Formula)) (headers : CfgNodeId → Option Formula) :
    CfgNodeId → Formula :=
  fun n ↦
    let state := seeds.foldl seedState (fun _ ↦ .fls) n
    match headers n with
    | some inv => Formula.mkOr state inv
    | none => state

/-- Whether the end points of the edge are inside the restriction and not summarised. -/
def insideBody (restrictTo : Option (Finset CfgNodeId)) (summarized : Finset CfgNodeId)
    (edge : AbstractEdge) : Bool :=
  restrictTo.all (fun body ↦ decide (edge.source ∈ body ∧ edge.target ∈ body)) &&
    decide (edge.source ∉ summarized ∧ edge.target ∉ summarized)

/-- What is propagated across an edge to its source. -/
def edgePre (ignoreBodyGuards inductiveAssume : Bool) (transfer : TransferFn)
    (edge : AbstractEdge) (target : Formula) : Formula :=
  let guard := if ignoreBodyGuards then .tru else edge.guard
  let postAtSource := Formula.mkAnd guard (edge.transfer.wp target)
  if inductiveAssume then transfer.wpInductive postAtSource else transfer.wp postAtSource

variable (excluded : Finset CfgEdgeId) (restrictTo : Option (Finset CfgNodeId))
  (ignoreBodyGuards : Bool) (inner : InnerInvariants) (inductiveAssume : Bool)

/-- The inner loop of `backward_states`: one incoming edge. -/
def propagateEdge (summarized : Finset CfgNodeId) (states : CfgNodeId → Formula)
    (id : CfgEdgeId) : Option (CfgNodeId → Formula) :=
  if id ∈ excluded then some states
  else
    match cfg.edge id with
    | .error _ => none
    | .ok edge =>
      if insideBody restrictTo summarized edge then
        match cfg.node edge.source with
        | .error _ => none
        | .ok source =>
          some (Function.update states edge.source (Formula.mkOr (states edge.source)
            (edgePre ignoreBodyGuards inductiveAssume source.transfer edge (states edge.target))))
      else some states

/-- `backward_states`. -/
def backwardStates (seeds : List (CfgNodeId × Formula)) : Option (CfgNodeId → Formula) := do
  let order ← cfg.topologicalOrderExcluding excluded
  let (headers, summarized) := summarizeInnerLoops cfg restrictTo inner
  order.reverse.foldlM (fun states node ↦
    if node ∈ summarized then some states
    else (cfg.incomingEdges node).foldlM
      (propagateEdge cfg excluded restrictTo ignoreBodyGuards inductiveAssume summarized) states)
    (initialStates seeds headers)

/-- The edges a pass over the order visits and does not skip. -/
def bodyEdges (summarized : Finset CfgNodeId) (order : List CfgNodeId) : List AbstractEdge :=
  (order.reverse.flatMap fun n ↦ cfg.edges.filter (·.target = n)).filter fun e ↦
    e.id ∉ excluded ∧ insideBody restrictTo summarized e

/-- `edge_source_requirement`. -/
def edgeSourceRequirement (id : CfgEdgeId) (target : Formula) : Option Formula :=
  match cfg.edge id with
  | .error _ => none
  | .ok edge =>
    let postAtSource := Formula.mkAnd edge.guard (edge.transfer.wp target)
    match cfg.node edge.source with
    | .error _ => none
    | .ok source => some (source.transfer.wp postAtSource)

end Defs

/-! ### The function is a pass -/

section Pass

variable {cfg : AbstractCfg} {excluded : Finset CfgEdgeId} {restrictTo : Option (Finset CfgNodeId)}
  {ignoreBodyGuards inductiveAssume : Bool} {inner : InnerInvariants}
    {summarized : Finset CfgNodeId}
  {seeds : List (CfgNodeId × Formula)} {states : CfgNodeId → Formula} {e : AbstractEdge}
  {order : List CfgNodeId}

theorem AbstractCfg.node_source (he : e ∈ cfg.edges) :
    ∃ n, cfg.node e.source = .ok n ∧ cfg.transferAt e.source = n.transfer := by
  obtain ⟨n, hn, hid⟩ := List.mem_map.1 (cfg.source_mem e he)
  have hnode : cfg.node e.source = .ok n := hid ▸ AbstractCfg.node_eq_ok hn
  exact ⟨n, hnode, AbstractCfg.transferAt_eq hnode⟩

theorem edgeSourceRequirement_eq (he : e ∈ cfg.edges) (φ : Formula) :
    edgeSourceRequirement cfg e.id φ =
      some (edgePre false false (cfg.transferAt e.source) e φ) := by
  obtain ⟨n, hnode, htransfer⟩ := AbstractCfg.node_source he
  rw [edgeSourceRequirement]
  simp [AbstractCfg.edge_eq_ok he, hnode, htransfer, edgePre]

/-- Visit one edge of the body. -/
def visitBodyEdge (cfg : AbstractCfg) (ignoreBodyGuards inductiveAssume : Bool)
    (states : CfgNodeId → Formula) (e : AbstractEdge) : CfgNodeId → Formula :=
  joinEdge (·.source) (·.target) Formula.mkOr
    (fun e ↦ edgePre ignoreBodyGuards inductiveAssume (cfg.transferAt e.source) e) states e

theorem propagateEdge_eq (he : e ∈ cfg.edges) :
    propagateEdge cfg excluded restrictTo ignoreBodyGuards inductiveAssume summarized states e.id =
      some (if e.id ∉ excluded ∧ insideBody restrictTo summarized e then
        visitBodyEdge cfg ignoreBodyGuards inductiveAssume states e else states) := by
  obtain ⟨n, hnode, htransfer⟩ := AbstractCfg.node_source he
  rw [propagateEdge]
  by_cases hexcluded : e.id ∈ excluded
  · simp [hexcluded]
  · by_cases hinside : insideBody restrictTo summarized e
    · simp [hexcluded, AbstractCfg.edge_eq_ok he, hinside, hnode, visitBodyEdge, joinEdge,
        htransfer]
    · simp [hexcluded, AbstractCfg.edge_eq_ok he, hinside]

/-- A fold of steps that succeed is a fold of their results. -/
theorem foldlM_eq_some {α β : Type} {f : β → α → Option β} {g : β → α → β} {as : List α} {b : β}
    (h : ∀ a ∈ as, ∀ b, f b a = some (g b a)) : as.foldlM f b = some (as.foldl g b) := by
  induction as generalizing b with
  | nil => rfl
  | cons a as ih =>
    rw [List.forall_mem_cons] at h
    rw [List.foldlM_cons, h.1, List.foldl_cons]
    exact ih h.2

/-- The loop over the incoming edges of a node visits those that are not skipped. -/
theorem foldlM_propagateEdge (n : CfgNodeId) :
    (if n ∈ summarized then some states
      else (cfg.incomingEdges n).foldlM (propagateEdge cfg excluded restrictTo ignoreBodyGuards
        inductiveAssume summarized) states) =
      some (((cfg.edges.filter (·.target = n)).filter fun e ↦
        e.id ∉ excluded ∧ insideBody restrictTo summarized e).foldl
          (visitBodyEdge cfg ignoreBodyGuards inductiveAssume) states) := by
  by_cases hn : n ∈ summarized
  · rw [if_pos hn, List.filter_filter, List.filter_eq_nil_iff.2]
    · rfl
    · rintro e -
      simp only [insideBody, Bool.and_eq_true, decide_eq_true_eq, not_and]
      rintro ⟨-, -, -, htarget⟩ rfl
      exact htarget hn
  · rw [if_neg hn, AbstractCfg.incomingEdges, List.foldlM_map,
      foldlM_eq_some fun e he states ↦ propagateEdge_eq (List.mem_of_mem_filter he)]
    refine congrArg some ?_
    rw [@List.foldl_filter _ _ fun e ↦ decide
      (e.id ∉ excluded ∧ insideBody restrictTo summarized e)]
    simp only [decide_eq_true_eq]

/-- What a successful call computes. -/
theorem backwardStates_eq_some
    (h : backwardStates cfg excluded restrictTo ignoreBodyGuards inner inductiveAssume seeds =
      some states) :
    ∃ order, cfg.topologicalOrderExcluding excluded = some order ∧
      states = backwardPass (·.source) (·.target) Formula.mkOr
        (fun e ↦ edgePre ignoreBodyGuards inductiveAssume (cfg.transferAt e.source) e)
        (bodyEdges cfg excluded restrictTo (summarizeInnerLoops cfg restrictTo inner).2 order)
        (initialStates seeds (summarizeInnerLoops cfg restrictTo inner).1) := by
  rw [backwardStates] at h
  obtain ⟨order, horder, h⟩ := Option.bind_eq_some_iff.1 h
  refine ⟨order, horder, ?_⟩
  dsimp only at h
  rw [foldlM_eq_some fun n _ states ↦ foldlM_propagateEdge n] at h
  obtain rfl := Option.some.inj h
  unfold backwardPass bodyEdges
  rw [List.filter_flatMap, List.foldl_flatMap]
  rfl

/-! ### The two rules -/

theorem mem_bodyEdges : e ∈ bodyEdges cfg excluded restrictTo summarized order →
    e ∈ cfg.edges ∧ e.id ∉ excluded ∧ insideBody restrictTo summarized e := by
  intro h
  obtain ⟨hmem, hlive⟩ := List.mem_filter.1 h
  obtain ⟨n, -, hn⟩ := List.mem_flatMap.1 hmem
  exact ⟨List.mem_of_mem_filter hn, of_decide_eq_true hlive⟩

theorem mem_bodyEdges_of_live (horder : cfg.topologicalOrderExcluding excluded = some order)
    (he : e ∈ cfg.edges) (hexcluded : e.id ∉ excluded)
    (hinside : insideBody restrictTo summarized e) :
    e ∈ bodyEdges cfg excluded restrictTo summarized order := by
  obtain ⟨-, hnodes, -⟩ := AbstractCfg.topologicalOrderExcluding_sorted horder
  refine List.mem_filter.2 ⟨List.mem_flatMap.2 ⟨e.target, ?_, ?_⟩, ?_⟩
  · exact List.mem_reverse.2 ((hnodes _).2 (cfg.target_mem e he))
  · exact List.mem_filter.2 ⟨he, by simp⟩
  · simpa using ⟨hexcluded, hinside⟩

/-- When an edge is visited, the edges out of its target have been. -/
theorem bodyEdges_ordered (horder : cfg.topologicalOrderExcluding excluded = some order)
    {before after : List AbstractEdge}
    (hsplit : bodyEdges cfg excluded restrictTo summarized order = before ++ e :: after) :
    ∀ e' ∈ bodyEdges cfg excluded restrictTo summarized order, e'.source = e.target →
      e' ∈ before := by
  obtain ⟨hnodup, hnodes, hsorted⟩ := AbstractCfg.topologicalOrderExcluding_sorted horder
  let live (e : AbstractEdge) : Bool :=
    decide (e.id ∉ excluded ∧ insideBody restrictTo summarized e)
  have hsorted' : Sorted (cfg.edges.filter live) (·.source) (·.target) order := by
    intro pre n post horder' e' he' htarget
    obtain ⟨hmem, hlive⟩ := List.mem_filter.1 he'
    refine hsorted pre n post horder' e' (List.mem_filter.2 ⟨hmem, ?_⟩) htarget
    simpa using (of_decide_eq_true hlive).1
  have hsplit' : order.reverse.flatMap (fun n ↦ (cfg.edges.filter (·.target = n)).filter live) =
      before ++ e :: after := by
    rw [← hsplit, bodyEdges, List.filter_flatMap]
  have hincoming : ∀ e' ∈ cfg.edges.filter live, e'.target ∈ order ∧
      e' ∈ (cfg.edges.filter (·.target = e'.target)).filter live := by
    intro e' he'
    obtain ⟨hmem, hlive⟩ := List.mem_filter.1 he'
    exact ⟨(hnodes _).2 (cfg.target_mem e' hmem),
      List.mem_filter.2 ⟨List.mem_filter.2 ⟨hmem, by simp⟩, hlive⟩⟩
  obtain ⟨b, hb, hall⟩ := hsorted'.visited (fun e ↦ e) hnodup hincoming hsplit'
  have htarget : e.target = b := by simpa using (List.mem_filter.1 (List.mem_filter.1 hb).1).2
  intro e' he' hsource
  obtain ⟨hmem, hlive⟩ := mem_bodyEdges he'
  exact hall e' (List.mem_filter.2 ⟨hmem, by simpa [live] using hlive⟩) (hsource.trans htarget)

/-- A property of seeds that joins keep holds of the states the pass starts from. -/
theorem initialStates_induction {P : CfgNodeId → Formula → Prop}
    {headers : CfgNodeId → Option Formula} (hfls : ∀ n, P n .fls)
    (hjoin : ∀ n φ ψ, P n φ → P n ψ → P n (Formula.mkOr φ ψ))
    (hseeds : ∀ seed ∈ seeds, P seed.1 seed.2) (hheaders : ∀ n inv, headers n = some inv → P n inv)
    (n : CfgNodeId) : P n (initialStates seeds headers n) := by
  have hfold : ∀ states : CfgNodeId → Formula, (∀ n, P n (states n)) →
      ∀ n, P n (seeds.foldl seedState states n) := by
    intro states hstates
    induction seeds generalizing states with
    | nil => exact hstates
    | cons seed seeds ih =>
      rw [List.forall_mem_cons] at hseeds
      refine ih hseeds.2 _ fun m ↦ ?_
      by_cases hm : m = seed.1
      · subst hm
        rw [seedState, Function.update_self]
        exact hjoin _ _ _ (hstates _) hseeds.1
      · rw [seedState, Function.update_of_ne hm]
        exact hstates m
  unfold initialStates
  dsimp only
  split
  · rename_i inv hinv
    exact hjoin _ _ _ (hfold _ hfls n) (hheaders n inv hinv)
  · exact hfold _ hfls n

/-- A seed holds in the state the pass starts from. -/
theorem holds_initialStates {headers : CfgNodeId → Option Formula} {seed : CfgNodeId × Formula}
    {s : State} (hseed : seed ∈ seeds) (h : seed.2.Holds s) :
    (initialStates seeds headers seed.1).Holds s := by
  have hmono : ∀ (seeds : List (CfgNodeId × Formula)) (states : CfgNodeId → Formula),
      (states seed.1).Holds s → (seeds.foldl seedState states seed.1).Holds s := by
    intro seeds
    induction seeds with
    | nil => exact fun _ hs ↦ hs
    | cons other seeds ih =>
      intro states hs
      refine ih _ ?_
      by_cases hm : seed.1 = other.1
      · rw [seedState, hm, Function.update_self]
        exact (Formula.holds_mkOr _ _).2 (Or.inl (hm ▸ hs))
      · rwa [seedState, Function.update_of_ne hm]
  have hfold : (seeds.foldl seedState (fun _ ↦ .fls) seed.1).Holds s := by
    obtain ⟨pre, post, rfl⟩ := List.append_of_mem hseed
    rw [List.foldl_append, List.foldl_cons]
    refine hmono post _ ?_
    rw [seedState, Function.update_self]
    exact (Formula.holds_mkOr _ _).2 (Or.inr h)
  unfold initialStates
  dsimp only
  split
  · exact (Formula.holds_mkOr _ _).2 (Or.inl hfold)
  · exact hfold

theorem holds_initialStates_of_header {headers : CfgNodeId → Option Formula} {n : CfgNodeId}
    {inv : Formula} {s : State} (hheader : headers n = some inv) (h : inv.Holds s) :
    (initialStates seeds headers n).Holds s := by
  simp only [initialStates, hheader]
  exact (Formula.holds_mkOr _ _).2 (Or.inr h)

/-- **Closure.** What holds of the seeds and of the supplied invariants, and is kept by joins and
by the transformer of every visited edge, holds of every state formula. -/
theorem backwardStates_induction {P : CfgNodeId → Formula → Prop}
    (h : backwardStates cfg excluded restrictTo ignoreBodyGuards inner inductiveAssume seeds =
      some states) (hfls : ∀ n, P n .fls)
    (hjoin : ∀ n φ ψ, P n φ → P n ψ → P n (Formula.mkOr φ ψ))
    (hseeds : ∀ seed ∈ seeds, P seed.1 seed.2)
    (hheaders : ∀ n inv, (summarizeInnerLoops cfg restrictTo inner).1 n = some inv → P n inv)
    (hpre : ∀ e ∈ cfg.edges, e.id ∉ excluded →
      insideBody restrictTo (summarizeInnerLoops cfg restrictTo inner).2 e →
      ∀ φ, P e.target φ →
        P e.source (edgePre ignoreBodyGuards inductiveAssume (cfg.transferAt e.source) e φ)) :
    ∀ n, P n (states n) := by
  obtain ⟨order, -, rfl⟩ := backwardStates_eq_some h
  refine backwardPass_induction (initialStates_induction hfls hjoin hseeds hheaders) hjoin ?_
  intro e he φ hφ
  obtain ⟨hmem, hexcluded, hinside⟩ := mem_bodyEdges he
  exact hpre e hmem hexcluded hinside φ hφ

section Cover

variable {sem : Semantics} {K : Var → Prop} {cs : List Crossing} {p q : Position}

theorem termReads_edgePre (hK : cfg.TermsRead K) (he : e ∈ cfg.edges) {φ : Formula}
    (hφ : φ.TermReads K) :
    (edgePre ignoreBodyGuards false (cfg.transferAt e.source) e φ).TermReads K := by
  have hguard : (if ignoreBodyGuards then Formula.tru else e.guard).TermReads K := by
    split
    · exact (hereditary_termReads K).tru
    · exact hK.guard e he
  exact termReads_wp ((hereditary_termReads K).mkAnd hguard (termReads_wp hφ (hK.edge e he)))
    (hK.node e.source)

/-- The transformer carries a formula over a quiet crossing, with or without its guard. -/
theorem Crossing.Quiet.holds_edgePre {c : Crossing} {φ : Formula} (hquiet : c.Quiet cfg K)
    (hvalid : c.Valid sem cfg) (hK : cfg.TermsRead K) (hφ : φ.TermReads K)
    (h : φ.Holds c.post) :
    (edgePre ignoreBodyGuards false (cfg.transferAt c.edge.source) c.edge φ).Holds c.pre := by
  have hedge := hvalid.edge_mem
  have hmid : (c.edge.transfer.wp φ).Holds c.mid :=
    holds_wp_of_quiet hquiet.effects (hK.edge _ hedge) hφ h
  have hguard : (if ignoreBodyGuards then Formula.tru else c.edge.guard).Holds c.mid := by
    split
    · exact Formula.holds_tru _
    · exact hvalid.guard
  have hreads : (if ignoreBodyGuards then Formula.tru else c.edge.guard).TermReads K := by
    split
    · exact (hereditary_termReads K).tru
    · exact hK.guard _ hedge
  exact holds_wp_of_quiet hquiet.transfer (hK.node _)
    ((hereditary_termReads K).mkAnd hreads (termReads_wp hφ (hK.edge _ hedge)))
    ((Formula.holds_mkAnd _ _).2 ⟨hguard, hmid⟩)

/-- A pass over the visited edges carries what holds at the end of an execution over quiet
crossings of visited edges back to its start. -/
theorem holds_backwardPass_of_run {values : CfgNodeId → Formula}
    (horder : cfg.topologicalOrderExcluding excluded = some order) (hK : cfg.TermsRead K)
    (hvalues : ∀ n, (values n).TermReads K) (hrun : cfg.Run sem cs p q)
    (hquiet : ∀ c ∈ cs, c.Quiet cfg K)
    (hlive : ∀ c ∈ cs, c.edge.id ∉ excluded ∧ insideBody restrictTo summarized c.edge)
    (hend : (values q.node).Holds q.state) :
    (backwardPass (·.source) (·.target) Formula.mkOr
      (fun e ↦ edgePre ignoreBodyGuards false (cfg.transferAt e.source) e)
      (bodyEdges cfg excluded restrictTo summarized order) values p.node).Holds p.state := by
  have hjoin := fun φ ψ ↦ @Hereditary.mkOr _ (hereditary_termReads K) φ ψ
  refine @sat_backwardPass_of_path _ _ _ _ _ _ _ _ _ _ _ (fun s φ ↦ Formula.Holds s φ)
    (fun φ ↦ φ.TermReads K) (cs.map (·.edge)) (p.node, p.state) (q.node, q.state) hvalues
    hjoin (fun e he φ hφ ↦ termReads_edgePre hK (mem_bodyEdges he).1 hφ)
    (fun s φ ψ hφ ↦ (Formula.holds_mkOr _ _).2 (Or.inl hφ))
    (fun s φ ψ hψ ↦ (Formula.holds_mkOr _ _).2 (Or.inr hψ))
    (fun before e after hsplit ↦ bodyEdges_ordered horder hsplit) ?_ ?_ hend
  · clear hend
    induction cs generalizing p with
    | nil =>
      obtain rfl : p = q := hrun
      rfl
    | cons c cs ih =>
      obtain ⟨m, ⟨hvalid, rfl, rfl⟩, hrest⟩ := hrun
      rw [List.forall_mem_cons] at hquiet hlive
      exact ⟨(c.edge.target, c.post),
        ⟨rfl, rfl, fun φ hφ hpost ↦ hquiet.1.holds_edgePre hvalid hK hφ hpost⟩,
        ih hrest hquiet.2 hlive.2⟩
  · intro e he
    obtain ⟨c, hc, rfl⟩ := List.mem_map.1 he
    obtain ⟨-, -, -, hvalid, -⟩ := hrun.split hc
    exact mem_bodyEdges_of_live horder hvalid.edge_mem (hlive c hc).1 (hlive c hc).2

/-- **Cover.** An execution inside the body that leads, over quiet crossings of visited edges, to
a state satisfying what its end is seeded with starts in the state formula of its start. -/
theorem holds_backwardStates_of_run
    (h : backwardStates cfg excluded restrictTo ignoreBodyGuards inner false seeds = some states)
    (hK : cfg.TermsRead K) (hseeds : ∀ seed ∈ seeds, seed.2.TermReads K)
    (hinner : ∀ pair ∈ inner, pair.2.TermReads K) (hrun : cfg.Run sem cs p q)
    (hquiet : ∀ c ∈ cs, c.Quiet cfg K)
    (hlive : ∀ c ∈ cs, c.edge.id ∉ excluded ∧
      insideBody restrictTo (summarizeInnerLoops cfg restrictTo inner).2 c.edge)
    (hend : (initialStates seeds (summarizeInnerLoops cfg restrictTo inner).1 q.node).Holds
      q.state) : (states p.node).Holds p.state := by
  obtain ⟨order, horder, rfl⟩ := backwardStates_eq_some h
  have hheaders : ∀ n inv, (summarizeInnerLoops cfg restrictTo inner).1 n = some inv →
      inv.TermReads K := by
    intro n inv hinv
    unfold summarizeInnerLoops at hinv
    split at hinv
    · simp at hinv
    · dsimp only at hinv
      split at hinv
      · exact hinner _ (InnerInvariants.mem_of_at? hinv)
      · simp at hinv
  have hinitial := initialStates_induction (fun _ ↦ (hereditary_termReads K).fls)
    (fun _ φ ψ ↦ @Hereditary.mkOr _ (hereditary_termReads K) φ ψ) hseeds hheaders
  exact holds_backwardPass_of_run horder hK hinitial hrun hquiet hlive hend

end Cover

end Pass

end MayMust
