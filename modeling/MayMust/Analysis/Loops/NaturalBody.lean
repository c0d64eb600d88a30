import MayMust.Analysis.Loops.Detection
import MayMust.Cfg.BackEdges

/-!
# Bodies of natural loops

The natural loop of a back edge consists of the header and the nodes that reach the latch without
passing through the header. The backward search of `detect_loops` is a worklist: it expands every
node of the body except the header, which is in the body from the start and hence is never queued
(`mem_loopBody_iff`).

Where the latch is the header itself, the header is queued at the start. The search then runs on
from the header and collects everything that reaches it. `detectLoops_natural_iff` says that this
is the only difference from the natural loop.
-/

namespace MayMust

open Library

/-- The node reaches the latch without passing through the header. -/
def AbstractCfg.ReachesLatch (cfg : AbstractCfg) (header latch n : CfgNodeId) : Prop :=
  latch ≠ header ∧
    ∃ es,
      Path (fun e u v ↦ Library.Leads cfg.edges (·.source) (·.target) e u v ∧ u ≠ header) es n latch

/-- The loop is the natural loop of the back edge: its body is the header and the nodes that reach
the latch around it, and the exit edges are the edges that leave the body. -/
structure LoopInfo.Natural (cfg : AbstractCfg) (info : LoopInfo) (e : AbstractEdge) : Prop where
  mem_body : ∀ n, n ∈ info.body ↔ n = e.target ∨ cfg.ReachesLatch e.target e.source n
  mem_exitEdges : ∀ id, id ∈ info.exitEdges ↔
    ∃ out ∈ cfg.edges, out.id = id ∧ out.source ∈ info.body ∧ out.target ∉ info.body

variable {cfg : AbstractCfg}

/-! ### One turn of the search -/

theorem mem_foldl_queueNew {preds : List CfgNodeId} {acc : Finset CfgNodeId × List CfgNodeId}
    {n : CfgNodeId} : n ∈ (preds.foldl queueNew acc).1 ↔ n ∈ acc.1 ∨ n ∈ preds := by
  induction preds generalizing acc with
  | nil => simp
  | cons p preds ih =>
    rw [List.foldl_cons, ih, queueNew, List.mem_cons]
    split_ifs with hp
    · constructor
      · exact fun h ↦ h.imp_right Or.inr
      · rintro (h | rfl | h)
        · exact Or.inl h
        · exact Or.inl hp
        · exact Or.inr h
    · rw [Finset.mem_insert]
      tauto

theorem mem_queue_foldl_queueNew {preds : List CfgNodeId}
    {acc : Finset CfgNodeId × List CfgNodeId} {n : CfgNodeId} :
    n ∈ (preds.foldl queueNew acc).2 ↔ n ∈ acc.2 ∨ n ∈ preds ∧ n ∉ acc.1 := by
  induction preds generalizing acc with
  | nil => simp
  | cons p preds ih =>
    rw [List.foldl_cons, ih, queueNew, List.mem_cons]
    by_cases hn : n = p
    · subst hn
      split_ifs with hp
      · simp [hp]
      · simp [hp]
    · split_ifs with hp
      · simp [hn]
      · simp [hn]

/-- The number of nodes of the graph that are not in the body. -/
def outside (cfg : AbstractCfg) (body : Finset CfgNodeId) : ℕ :=
  (cfg.nodeIds.toFinset \ body).card

/-- A node that is queued is no longer outside of the body. -/
theorem outside_foldl_queueNew_le {preds : List CfgNodeId} (hpreds : ∀ p ∈ preds, p ∈ cfg.nodeIds)
    (acc : Finset CfgNodeId × List CfgNodeId) :
    outside cfg (preds.foldl queueNew acc).1 + (preds.foldl queueNew acc).2.length ≤
      outside cfg acc.1 + acc.2.length := by
  induction preds generalizing acc with
  | nil => exact le_rfl
  | cons p preds ih =>
    rw [List.forall_mem_cons] at hpreds
    refine (ih hpreds.2 (queueNew acc p)).trans ?_
    rw [queueNew]
    split_ifs with hp
    · exact le_rfl
    · have hmem : p ∈ cfg.nodeIds.toFinset \ acc.1 :=
        Finset.mem_sdiff.2 ⟨List.mem_toFinset.2 hpreds.1, hp⟩
      have hlt : outside cfg (insert p acc.1) < outside cfg acc.1 := by
        rw [outside, Finset.sdiff_insert]
        exact Finset.card_erase_lt_of_mem hmem
      show outside cfg (insert p acc.1) + (acc.2 ++ [p]).length ≤ outside cfg acc.1 + acc.2.length
      rw [List.length_append, List.length_singleton]
      omega

theorem mem_predecessors {p n : CfgNodeId} :
    p ∈ cfg.predecessors n ↔ ∃ e ∈ cfg.edges, e.source = p ∧ e.target = n := by
  rw [AbstractCfg.predecessors, List.mem_map]
  constructor
  · rintro ⟨e, he, rfl⟩
    obtain ⟨hmem, htgt⟩ := List.mem_filter.1 he
    exact ⟨e, hmem, rfl, by simpa using htgt⟩
  · rintro ⟨e, he, rfl, rfl⟩
    exact ⟨e, List.mem_filter.2 ⟨he, by simp⟩, rfl⟩

/-! ### The whole search -/

variable {body : Finset CfgNodeId} {queue : List CfgNodeId} {fuel : ℕ} {P : CfgNodeId → Prop}

/-- The search ends with a body that contains the predecessors of all nodes that are queued at
some time, here the nodes with property `P`. -/
theorem predecessors_mem_collectBody (hfuel : outside cfg body + queue.length ≤ fuel)
    (hinv : ∀ b ∈ body, P b → b ∈ queue ∨ ∀ p ∈ cfg.predecessors b, p ∈ body) :
    ∀ b ∈ collectBody cfg fuel body queue, P b →
      ∀ p ∈ cfg.predecessors b, p ∈ collectBody cfg fuel body queue := by
  induction fuel generalizing body queue with
  | zero =>
    have hnil : queue = [] := List.eq_nil_of_length_eq_zero (by omega)
    intro b hb hP
    exact (hinv b hb hP).resolve_left (by simp [hnil])
  | succ fuel ih =>
    cases queue with
    | nil =>
      intro b hb hP
      exact (hinv b hb hP).resolve_left List.not_mem_nil
    | cons node queue =>
      have hpreds : ∀ p ∈ cfg.predecessors node, p ∈ cfg.nodeIds := by
        intro p hp
        obtain ⟨e, he, rfl, -⟩ := mem_predecessors.1 hp
        exact cfg.source_mem e he
      have hle := outside_foldl_queueNew_le hpreds (body, queue)
      rw [collectBody]
      refine ih ?_ fun b hb hP ↦ ?_
      · simp only [List.length_cons] at hfuel hle
        omega
      rw [mem_queue_foldl_queueNew]
      by_cases hold : b ∈ body
      · have hgrow (h : ∀ p ∈ cfg.predecessors b, p ∈ body) : ∀ p ∈ cfg.predecessors b,
            p ∈ ((cfg.predecessors node).foldl queueNew (body, queue)).1 :=
          fun p hp ↦ mem_foldl_queueNew.2 (Or.inl (h p hp))
        rcases hinv b hold hP with hqueued | hdone
        · rcases List.mem_cons.1 hqueued with rfl | hqueued
          · exact Or.inr fun p hp ↦ mem_foldl_queueNew.2 (Or.inr hp)
          · exact Or.inl (Or.inl hqueued)
        · exact Or.inr (hgrow hdone)
      · have hnew := (mem_foldl_queueNew.1 hb).resolve_left hold
        exact Or.inl (Or.inr ⟨hnew, hold⟩)

/-- The search stays inside every set that contains the predecessors of those of its nodes that
are queued. -/
theorem forall_mem_collectBody {Q : CfgNodeId → Prop} {header : CfgNodeId} (hheader : header ∈ body)
    (hP : ∀ b, b ≠ header → P b) (hclosed : ∀ b, Q b → P b → ∀ p ∈ cfg.predecessors b, Q p)
    (hbody : ∀ b ∈ body, Q b) (hqueue : ∀ b ∈ queue, b ∈ body ∧ P b) :
    ∀ b ∈ collectBody cfg fuel body queue, Q b := by
  induction fuel generalizing body queue with
  | zero => exact hbody
  | succ fuel ih =>
    cases queue with
    | nil => exact hbody
    | cons node queue =>
      rw [List.forall_mem_cons] at hqueue
      obtain ⟨⟨hnode, hPnode⟩, hqueue⟩ := hqueue
      rw [collectBody]
      refine ih (mem_foldl_queueNew.2 (Or.inl hheader)) (fun b hb ↦ ?_) fun b hb ↦ ?_
      · rcases mem_foldl_queueNew.1 hb with hb | hb
        · exact hbody b hb
        · exact hclosed node (hbody node hnode) hPnode b hb
      · rcases mem_queue_foldl_queueNew.1 hb with hb | ⟨hb, hnew⟩
        · exact ⟨mem_foldl_queueNew.2 (Or.inl (hqueue b hb).1), (hqueue b hb).2⟩
        -- A new node is not the header, which has been in the body all along.
        · have hne : b ≠ header := fun h ↦ hnew (h ▸ hheader)
          exact ⟨mem_foldl_queueNew.2 (Or.inr hb), hP b hne⟩

/-- What the search collects: nodes that reach the latch along edges whose targets are expanded,
and only the header may not be. -/
theorem mem_loopBody_iff {e : AbstractEdge} {n : CfgNodeId} : n ∈ loopBody cfg e ↔
    n = e.target ∨ ∃ es, Path (fun e' u v ↦ Library.Leads cfg.edges (·.source) (·.target) e' u v ∧
      (v ≠ e.target ∨ e.source = e.target)) es n e.source := by
  constructor
  · intro hn
    refine forall_mem_collectBody (P := fun b ↦ b ≠ e.target ∨ e.source = e.target) (Q := fun n ↦
      n = e.target ∨ ∃ es, Path (fun e' u v ↦ Library.Leads cfg.edges (·.source) (·.target) e' u v ∧
        (v ≠ e.target ∨ e.source = e.target)) es n e.source) (by simp)
      (fun b hb ↦ Or.inl hb) ?_ ?_ ?_ n hn
    · intro b hb hexpand p hp
      obtain ⟨e', he', rfl, rfl⟩ := mem_predecessors.1 hp
      have hleads : Library.Leads cfg.edges (·.source) (·.target) e' e'.source e'.target :=
        ⟨he', rfl, rfl⟩
      have hstep := And.intro hleads hexpand
      rcases hb with hb | ⟨es, hes⟩
      · have hself : e.source = e.target := hexpand.resolve_left fun hne ↦ hne hb
        exact Or.inr ⟨[e'], e'.target, hstep, hb.trans hself.symm⟩
      · exact Or.inr ⟨e' :: es, e'.target, hstep, hes⟩
    · intro b hb
      rcases Finset.mem_insert.1 hb with rfl | hb
      · exact Or.inl rfl
      · exact Or.inr ⟨[], Finset.mem_singleton.1 hb⟩
    · intro b hb
      obtain rfl := List.mem_singleton.1 hb
      exact ⟨by simp, ne_or_eq _ _⟩
  · have hstart : ({e.target, e.source} : Finset CfgNodeId) ⊆ loopBody cfg e := subset_collectBody
    rintro (rfl | ⟨es, hes⟩)
    · exact hstart (by simp)
    have hlen : cfg.nodeIds.toFinset.card ≤ cfg.nodes.length := by
      have hcard := cfg.nodeIds.toFinset_card_le
      rwa [AbstractCfg.nodeIds, List.length_map] at hcard
    have hfuel : outside cfg {e.target, e.source} + [e.source].length ≤ cfg.nodes.length + 1 := by
      have hle : outside cfg {e.target, e.source} ≤ cfg.nodeIds.toFinset.card :=
        Finset.card_le_card Finset.sdiff_subset
      rw [List.length_singleton]
      omega
    have hclosed := predecessors_mem_collectBody (P := fun b ↦ b ≠ e.target ∨ e.source = e.target)
      hfuel fun b hb hexpand ↦ Or.inl (by
        rcases Finset.mem_insert.1 hb with rfl | hb
        · exact List.mem_singleton.2 (hexpand.resolve_left fun hne ↦ hne rfl).symm
        · exact List.mem_singleton.2 (Finset.mem_singleton.1 hb))
    -- Along the path, from the latch back.
    induction es generalizing n with
    | nil =>
      obtain rfl : n = e.source := hes
      exact hstart (by simp)
    | cons e' es ih =>
      obtain ⟨m, ⟨⟨he', rfl, rfl⟩, hexpand⟩, hrest⟩ := hes
      exact hclosed _ (ih hrest) hexpand _ (mem_predecessors.2 ⟨e', he', rfl, rfl⟩)

/-! ### The natural loop -/

/-- Around the header, it does not matter whether the sources or the targets of the edges are
tested. -/
theorem path_around_iff {header latch n : CfgNodeId} {es : List AbstractEdge}
    (hne : latch ≠ header) :
    (n ≠ header ∧ Path (fun e u v ↦ Library.Leads cfg.edges (·.source) (·.target) e u v ∧
        (v ≠ header ∨ latch = header)) es n latch) ↔
      Path (fun e u v ↦ Library.Leads cfg.edges (·.source) (·.target) e u v ∧ u ≠ header) es n
        latch := by
  induction es generalizing n with
  | nil =>
    rw [Path.nil_iff, Path.nil_iff]
    exact ⟨And.right, fun h ↦ ⟨h ▸ hne, h⟩⟩
  | cons e es ih =>
    rw [Path.cons_iff, Path.cons_iff]
    constructor
    · rintro ⟨hn, m, ⟨hlead, hm⟩, hrest⟩
      have hm : m ≠ header := hm.resolve_right hne
      exact ⟨m, ⟨hlead, hn⟩, ih.1 ⟨hm, hrest⟩⟩
    · rintro ⟨m, ⟨hlead, hn⟩, hrest⟩
      obtain ⟨hm, hrest⟩ := ih.2 hrest
      exact ⟨hn, m, ⟨hlead, Or.inl hm⟩, hrest⟩

/-- Where the latch is not the header, the search collects the natural loop. -/
theorem mem_loopBody_iff_of_ne {e : AbstractEdge} (hne : e.source ≠ e.target) {n : CfgNodeId} :
    n ∈ loopBody cfg e ↔ n = e.target ∨ cfg.ReachesLatch e.target e.source n := by
  rw [mem_loopBody_iff, AbstractCfg.ReachesLatch]
  by_cases hn : n = e.target
  · simp [hn]
  simp only [hn, false_or]
  constructor
  · rintro ⟨es, hes⟩
    exact ⟨hne, es, (path_around_iff hne).1 ⟨hn, hes⟩⟩
  · rintro ⟨-, es, hes⟩
    exact ⟨es, ((path_around_iff hne).2 hes).2⟩

/-- Where the latch is the header, the search collects everything that reaches it. -/
theorem mem_loopBody_iff_of_eq {e : AbstractEdge} (heq : e.source = e.target) {n : CfgNodeId} :
    n ∈ loopBody cfg e ↔ Reaches cfg.edges (·.source) (·.target) n e.target := by
  rw [mem_loopBody_iff, Reaches]
  constructor
  · rintro (rfl | ⟨es, hes⟩)
    · exact ⟨[], rfl⟩
    · exact ⟨es, heq ▸ hes.mono fun e' _ u v h ↦ h.1⟩
  · rintro ⟨es, hes⟩
    refine Or.inr ⟨es, ?_⟩
    rw [heq]
    exact hes.mono fun e' _ u v h ↦ ⟨h, Or.inr rfl⟩

/-- **Which detected loops are natural loops.** All whose latch is not the header, and a
self-loop if no other edge leads to its header. -/
theorem detectLoops_natural_iff {e : AbstractEdge} (he : e ∈ cfg.edges)
    (hback : e.id ∈ cfg.detectBackEdges) :
    (∀ info ∈ detectLoops cfg, info.backEdge = e.id → info.Natural cfg e) ↔
      (e.source = e.target → ∀ e' ∈ cfg.edges, e'.target = e.target → e'.source = e.target) := by
  have hbody : (∀ n, n ∈ loopBody cfg e ↔ n = e.target ∨ cfg.ReachesLatch e.target e.source n) ↔
      (e.source = e.target → ∀ e' ∈ cfg.edges, e'.target = e.target → e'.source = e.target) := by
    by_cases heq : e.source = e.target
    · have hnatural (n : CfgNodeId) :
          (n = e.target ∨ cfg.ReachesLatch e.target e.source n) ↔ n = e.target :=
        or_iff_left fun h ↦ h.1 heq
      simp only [heq, true_implies, mem_loopBody_iff_of_eq heq]
      simp only [heq] at hnatural
      simp only [hnatural]
      constructor
      · intro hreach e' he' htgt
        exact (hreach e'.source).1 ⟨[e'], e'.target, ⟨he', rfl, rfl⟩, htgt⟩
      · intro hself n
        refine ⟨?_, fun hn ↦ ⟨[], hn⟩⟩
        rintro ⟨es, hes⟩
        induction es generalizing n with
        | nil => exact hes
        | cons e' es ih =>
          obtain ⟨m, ⟨he', rfl, rfl⟩, hrest⟩ := hes
          exact hself e' he' (ih _ hrest)
    · simp only [heq, false_implies, iff_true]
      exact fun n ↦ mem_loopBody_iff_of_ne heq
  have hexits : ∀ id, id ∈ loopExitEdges cfg (loopBody cfg e) ↔ ∃ out ∈ cfg.edges, out.id = id ∧
      out.source ∈ loopBody cfg e ∧ out.target ∉ loopBody cfg e := by
    intro id
    constructor
    · intro hid
      obtain ⟨n, hn, hout⟩ := List.mem_flatMap.1 hid
      obtain ⟨out, hmem, rfl⟩ := List.mem_map.1 (List.mem_filter.1 hout).1
      have hedge := List.mem_of_mem_filter hmem
      exact ⟨out, hedge, rfl, (mem_loopExitEdges hedge).1 hid⟩
    · rintro ⟨out, hmem, rfl, hleaves⟩
      exact (mem_loopExitEdges hmem).2 hleaves
  rw [← hbody]
  constructor
  · intro hnatural
    exact (hnatural _ (mem_detectLoops.2 ⟨e, he, hback, rfl⟩) rfl).mem_body
  · intro hnatural info hinfo hid
    obtain ⟨e', he', -, rfl⟩ := mem_detectLoops.1 hinfo
    obtain rfl := AbstractCfg.edge_id_inj he' he hid
    exact ⟨hnatural, hexits⟩

/-- A header that its only node jumps back to, behind an entry block. -/
def selfLoopCfg : AbstractCfg where
  nodes := [⟨0, "entry", .entry, .identity⟩, ⟨1, "loop", .normal, .identity⟩]
  edges := [⟨0, 0, 1, .tru, []⟩, ⟨1, 1, 1, .tru, []⟩]
  entry := 0
  concreteExits := []
  exit := none
  nextNode := 2
  nextEdge := 2
  nodes_sorted := by decide
  edges_sorted := by decide
  node_lt := by decide
  edge_lt := by decide
  entry_mem := by decide
  source_mem := by decide
  target_mem := by decide

/-- The entry block is collected into the body of the self-loop. -/
theorem not_natural_selfLoopCfg :
    ∃ info ∈ detectLoops selfLoopCfg, info.backEdge = 1 ∧ 0 ∈ info.body ∧
      ¬ info.Natural selfLoopCfg ⟨1, 1, 1, .tru, []⟩ := by
  have hbody : 0 ∈ loopBody selfLoopCfg ⟨1, 1, 1, .tru, []⟩ := by decide
  refine ⟨loopOf selfLoopCfg ⟨1, 1, 1, .tru, []⟩, by decide, rfl, hbody, fun hnatural ↦ ?_⟩
  rcases (hnatural.mem_body 0).1 hbody with h | h
  · exact absurd h (by decide)
  · exact h.1 rfl

/-- The general statement for a loop that is also entered from the side. -/
theorem natural_irreducibleCfg :
    (loopOf irreducibleCfg ⟨3, 2, 1, .tru, []⟩).Natural irreducibleCfg ⟨3, 2, 1, .tru, []⟩ :=
  (detectLoops_natural_iff (e := ⟨3, 2, 1, .tru, []⟩) (by decide) (by decide)).2
    (fun heq ↦ absurd heq (by decide)) _
    (mem_detectLoops.2 ⟨⟨3, 2, 1, .tru, []⟩, by decide, by decide, rfl⟩) rfl

end MayMust
