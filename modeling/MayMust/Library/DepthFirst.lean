import Mathlib.Data.Finset.Card
import Mathlib.Data.Finset.SDiff
import MayMust.Library.TopologicalSort

/-!
# Depth-first search for back edges

A depth-first search of a finite directed multigraph that collects the edges into nodes of the
current search path. The depth of the nesting is bounded by the number of nodes not visited yet,
which `depthFirst` takes as its first argument.

The search also lists the nodes in the order they are left, the last one first. This list carries
the argument: when a node is put on it, all edges out of the node are back edges or lead to nodes
that are on it already (`DepthFirst.Inv.ordered`), so without the back edges the list is a
topological order. On the other hand every node of the current path leads to the current node,
so a back edge closes a cycle (`DepthFirst.Inv.cycle`).

Clients use `depthFirst_acyclic` and `depthFirst_backEdges_eq_nil_iff`.
-/

namespace Library

variable {ν ε : Type*} [DecidableEq ν]

/-- The state of the search. -/
structure DepthFirst (ν ε : Type*) where
  visited : Finset ν
  /-- The current search path. -/
  stack : Finset ν
  /-- The nodes that have been left, the last one first. -/
  finished : List ν
  backEdges : List ε

namespace DepthFirst

/-- Start visiting a node. -/
def enter (node : ν) (st : DepthFirst ν ε) : DepthFirst ν ε :=
  { st with visited := insert node st.visited, stack := insert node st.stack }

/-- All edges out of the node have been looked at. -/
def leave (node : ν) (st : DepthFirst ν ε) : DepthFirst ν ε :=
  { st with stack := st.stack.erase node, finished := node :: st.finished }

/-- Nothing has been visited. -/
def empty : DepthFirst ν ε := ⟨∅, ∅, [], []⟩

end DepthFirst

section Algorithm

variable (edges : List ε) (source target : ε → ν)

/-- Look at an edge out of the current node; `visit` visits a node. -/
def depthFirstEdge (visit : ν → DepthFirst ν ε → DepthFirst ν ε) (st : DepthFirst ν ε) (e : ε) :
    DepthFirst ν ε :=
  if target e ∈ st.stack then { st with backEdges := st.backEdges ++ [e] }
  else if target e ∉ st.visited then visit (target e) st
  else st

/-- Visit a node that has not been visited, to the given depth. -/
def depthFirst : ℕ → ν → DepthFirst ν ε → DepthFirst ν ε
  | 0, _, st => st
  | fuel + 1, node, st =>
    ((edges.filter fun e ↦ source e = node).foldl (depthFirstEdge target (depthFirst fuel))
      (st.enter node)).leave node

end Algorithm

section Invariant

variable {nodes : List ν} {edges : List ε} {source target : ε → ν}

/-- There is a path from one node to the other. -/
def Reaches (edges : List ε) (source target : ε → ν) (u v : ν) : Prop :=
  ∃ es, Path (Leads edges source target) es u v

omit [DecidableEq ν] in
theorem Reaches.snoc {u : ν} {e : ε} (h : Reaches edges source target u (source e))
    (he : e ∈ edges) : Reaches edges source target u (target e) := by
  obtain ⟨es, hes⟩ := h
  exact ⟨es ++ [e], hes.append ⟨_, ⟨he, rfl, rfl⟩, rfl⟩⟩

namespace DepthFirst

/-- What holds at every point of the search. -/
structure Inv (edges : List ε) (source target : ε → ν) (st : DepthFirst ν ε) : Prop where
  stack_subset : st.stack ⊆ st.visited
  mem_finished : ∀ n, n ∈ st.finished ↔ n ∈ st.visited ∧ n ∉ st.stack
  nodup : st.finished.Nodup
  /-- Edges out of a node that has been left are back edges or lead to nodes left before it. -/
  ordered : ∀ pre a post, st.finished = pre ++ a :: post →
    ∀ e ∈ edges, source e = a → e ∈ st.backEdges ∨ target e ∈ post
  /-- A back edge closes a cycle. -/
  cycle : ∀ e ∈ st.backEdges, e ∈ edges ∧ target e ∈ st.visited ∧
    Reaches edges source target (target e) (source e)

/-- What a part of the search leaves as it is. -/
structure Extends (st st' : DepthFirst ν ε) : Prop where
  stack_eq : st'.stack = st.stack
  visited_subset : st.visited ⊆ st'.visited
  backEdges_subset : ∀ e ∈ st.backEdges, e ∈ st'.backEdges

namespace Extends

variable {st st' st'' : DepthFirst ν ε}

omit [DecidableEq ν] in
theorem refl (st : DepthFirst ν ε) : st.Extends st :=
  ⟨rfl, Finset.Subset.refl _, fun _ he ↦ he⟩

omit [DecidableEq ν] in
theorem trans (h : st.Extends st') (h' : st'.Extends st'') : st.Extends st'' :=
  ⟨h'.stack_eq.trans h.stack_eq, h.visited_subset.trans h'.visited_subset,
    fun e he ↦ h'.backEdges_subset e (h.backEdges_subset e he)⟩

omit [DecidableEq ν] in
/-- Nodes that have been left stay on the list. -/
theorem mem_finished (h : st.Extends st') (hinv : st.Inv edges source target)
    (hinv' : st'.Inv edges source target) {n : ν} (hn : n ∈ st.finished) : n ∈ st'.finished := by
  obtain ⟨hvisited, hstack⟩ := (hinv.mem_finished n).1 hn
  exact (hinv'.mem_finished n).2 ⟨h.visited_subset hvisited, h.stack_eq ▸ hstack⟩

end Extends

/-- The number of nodes that have not been visited. -/
def unvisited (nodes : List ν) (st : DepthFirst ν ε) : ℕ := (nodes.toFinset \ st.visited).card

theorem Extends.unvisited_le {st st' : DepthFirst ν ε} (h : st.Extends st') (nodes : List ν) :
    st'.unvisited nodes ≤ st.unvisited nodes :=
  Finset.card_le_card (Finset.sdiff_subset_sdiff subset_rfl h.visited_subset)

theorem unvisited_enter_lt {st : DepthFirst ν ε} {node : ν} (hnode : node ∈ nodes)
    (hnew : node ∉ st.visited) : (st.enter node).unvisited nodes < st.unvisited nodes := by
  have hmem : node ∈ nodes.toFinset \ st.visited :=
    Finset.mem_sdiff.2 ⟨List.mem_toFinset.2 hnode, hnew⟩
  show (nodes.toFinset \ insert node st.visited).card < (nodes.toFinset \ st.visited).card
  rw [Finset.sdiff_insert]
  exact Finset.card_erase_lt_of_mem hmem

/-! ### The steps keep the invariant -/

theorem Inv.enter {st : DepthFirst ν ε} {node : ν} (h : st.Inv edges source target)
    (hnew : node ∉ st.visited) : (st.enter node).Inv edges source target where
  stack_subset := Finset.insert_subset_insert node h.stack_subset
  mem_finished n := by
    show n ∈ st.finished ↔ n ∈ insert node st.visited ∧ n ∉ insert node st.stack
    rw [h.mem_finished, Finset.mem_insert, Finset.mem_insert, not_or]
    constructor
    · rintro ⟨hv, hs⟩
      exact ⟨Or.inr hv, fun hn ↦ hnew (hn ▸ hv), hs⟩
    · rintro ⟨hv, hn, hs⟩
      exact ⟨hv.resolve_left hn, hs⟩
  nodup := h.nodup
  ordered := h.ordered
  cycle e he := by
    obtain ⟨hmem, hvisited, hreach⟩ := h.cycle e he
    exact ⟨hmem, Finset.mem_insert_of_mem hvisited, hreach⟩

theorem Inv.leave {st : DepthFirst ν ε} {node : ν} (h : st.Inv edges source target)
    (hnode : node ∈ st.stack)
    (hedges : ∀ e ∈ edges, source e = node → e ∈ st.backEdges ∨ target e ∈ st.finished) :
    (st.leave node).Inv edges source target where
  stack_subset := (Finset.erase_subset _ _).trans h.stack_subset
  mem_finished n := by
    show n ∈ node :: st.finished ↔ n ∈ st.visited ∧ n ∉ st.stack.erase node
    rw [List.mem_cons, h.mem_finished, Finset.mem_erase, not_and]
    constructor
    · rintro (rfl | ⟨hv, hs⟩)
      · exact ⟨h.stack_subset hnode, fun hne ↦ absurd rfl hne⟩
      · exact ⟨hv, fun _ ↦ hs⟩
    · rintro ⟨hv, hs⟩
      by_cases hn : n = node
      · exact Or.inl hn
      · exact Or.inr ⟨hv, hs hn⟩
  nodup := List.nodup_cons.2 ⟨fun hf ↦ ((h.mem_finished node).1 hf).2 hnode, h.nodup⟩
  ordered := by
    rintro (_ | ⟨b, pre⟩) a post hsplit e he hsrc
    · obtain ⟨rfl, rfl⟩ := List.cons.inj hsplit
      exact hedges e he hsrc
    · exact h.ordered pre a post (List.cons.inj hsplit).2 e he hsrc
  cycle := h.cycle

omit [DecidableEq ν] in
/-- A back edge is recorded: its target is on the current path, so it leads to its source. -/
theorem Inv.backEdge {st : DepthFirst ν ε} {e : ε} (h : st.Inv edges source target) (he : e ∈ edges)
    (hstack : target e ∈ st.stack) (hreach : ∀ n ∈ st.stack, Reaches edges source target n
      (source e)) :
    Inv edges source target { st with backEdges := st.backEdges ++ [e] } where
  stack_subset := h.stack_subset
  mem_finished := h.mem_finished
  nodup := h.nodup
  ordered pre a post hsplit e' he' hsrc :=
    (h.ordered pre a post hsplit e' he' hsrc).imp_left fun hb ↦ List.mem_append_left _ hb
  cycle e' he' := by
    rcases List.mem_append.1 he' with he' | he'
    · exact h.cycle e' he'
    · obtain rfl := List.mem_singleton.1 he'
      exact ⟨he, h.stack_subset hstack, hreach _ hstack⟩

/-- What a visit does to a state in which the node may be visited. -/
def Visits (edges : List ε) (source target : ε → ν) (st st' : DepthFirst ν ε) (node : ν) : Prop :=
  st'.Inv edges source target ∧ st.Extends st' ∧ node ∈ st'.visited

/-- The edges out of the current node, one after the other. -/
theorem foldl_depthFirstEdge {visit : ν → DepthFirst ν ε → DepthFirst ν ε} {node : ν} {bound : ℕ}
    (hvisit : ∀ n st, st.Inv edges source target → n ∈ nodes → n ∉ st.visited →
      (∀ m ∈ st.stack, Reaches edges source target m n) → st.unvisited nodes ≤ bound →
      Visits edges source target st (visit n st) n)
    (htarget : ∀ e ∈ edges, target e ∈ nodes) {es : List ε}
    (hes : ∀ e ∈ es, e ∈ edges ∧ source e = node) {st : DepthFirst ν ε}
    (hinv : st.Inv edges source target)
    (hreach : ∀ n ∈ st.stack, Reaches edges source target n node)
    (hbound : st.unvisited nodes ≤ bound) :
    (es.foldl (depthFirstEdge target visit) st).Inv edges source target ∧
      st.Extends (es.foldl (depthFirstEdge target visit) st) ∧
      ∀ e ∈ es, e ∈ (es.foldl (depthFirstEdge target visit) st).backEdges ∨
        target e ∈ (es.foldl (depthFirstEdge target visit) st).finished := by
  induction es generalizing st with
  | nil => exact ⟨hinv, Extends.refl st, fun e he ↦ absurd he List.not_mem_nil⟩
  | cons e es ih =>
    rw [List.forall_mem_cons] at hes
    obtain ⟨⟨he, hsrc⟩, hes⟩ := hes
    -- The first edge is a back edge or leads to a node that has been left by then.
    have hstep : (depthFirstEdge target visit st e).Inv edges source target ∧
        st.Extends (depthFirstEdge target visit st e) ∧
        (e ∈ (depthFirstEdge target visit st e).backEdges ∨
          target e ∈ (depthFirstEdge target visit st e).finished) := by
      rw [depthFirstEdge]
      split_ifs with hstack hvisited
      · refine ⟨hinv.backEdge he hstack (hsrc ▸ hreach), ⟨rfl, Finset.Subset.refl _, ?_⟩, ?_⟩
        · exact fun e' he' ↦ List.mem_append_left _ he'
        · exact Or.inl (List.mem_append_right _ (List.mem_singleton.2 rfl))
      · exact ⟨hinv, Extends.refl st, Or.inr ((hinv.mem_finished _).2 ⟨hvisited, hstack⟩)⟩
      · have hreach' : ∀ m ∈ st.stack, Reaches edges source target m (target e) :=
          fun m hm ↦ Reaches.snoc (hsrc ▸ hreach m hm) he
        obtain ⟨hinv', hext, hnow⟩ := hvisit _ st hinv (htarget e he) hvisited hreach' hbound
        refine ⟨hinv', hext, Or.inr ((hinv'.mem_finished _).2 ⟨hnow, ?_⟩)⟩
        rw [hext.stack_eq]
        exact hstack
    obtain ⟨hinv', hext, hdone⟩ := hstep
    have hle := hext.unvisited_le nodes
    obtain ⟨hinv'', hext', hrest⟩ := ih hes hinv' (hext.stack_eq ▸ hreach) (hle.trans hbound)
    rw [List.foldl_cons, List.forall_mem_cons]
    refine ⟨hinv'', hext.trans hext', ?_, hrest⟩
    exact hdone.imp (hext'.backEdges_subset e) (hext'.mem_finished hinv' hinv'')

end DepthFirst

open DepthFirst

/-- **A visit keeps the invariant**, given a depth of at least the number of nodes not visited
yet. -/
theorem depthFirst_visits (htarget : ∀ e ∈ edges, target e ∈ nodes) (fuel : ℕ) (node : ν)
    (st : DepthFirst ν ε) (hinv : st.Inv edges source target) (hnode : node ∈ nodes)
    (hnew : node ∉ st.visited) (hreach : ∀ n ∈ st.stack, Reaches edges source target n node)
    (hfuel : st.unvisited nodes ≤ fuel) :
    Visits edges source target st (depthFirst edges source target fuel node st) node := by
  induction fuel generalizing node st with
  | zero =>
    have hlt : (st.enter node).unvisited nodes < st.unvisited nodes :=
      unvisited_enter_lt hnode hnew
    omega
  | succ fuel ih =>
    have hlt : (st.enter node).unvisited nodes < st.unvisited nodes :=
      unvisited_enter_lt hnode hnew
    have hreach' : ∀ n ∈ (st.enter node).stack, Reaches edges source target n node := by
      intro n hn
      rcases Finset.mem_insert.1 hn with rfl | hn
      · exact ⟨[], rfl⟩
      · exact hreach n hn
    have hes : ∀ e ∈ edges.filter fun e ↦ source e = node, e ∈ edges ∧ source e = node := by
      intro e he
      simpa using List.mem_filter.1 he
    obtain ⟨hinv', hext, hdone⟩ := foldl_depthFirstEdge ih htarget hes (hinv.enter hnew) hreach'
      (by omega)
    rw [depthFirst]
    set st' := (edges.filter fun e ↦ source e = node).foldl
      (depthFirstEdge target (depthFirst edges source target fuel)) (st.enter node)
    have hstack : st'.stack = insert node st.stack := hext.stack_eq
    have hnotin : node ∉ st.stack := fun h ↦ hnew (hinv.stack_subset h)
    have hself : node ∈ st'.stack := hstack ▸ Finset.mem_insert_self node st.stack
    refine ⟨hinv'.leave hself fun e he hsrc ↦ hdone e (List.mem_filter.2 ⟨he, by simpa⟩),
      ⟨?_, ?_, hext.backEdges_subset⟩, hinv'.stack_subset hself⟩
    · show st'.stack.erase node = st.stack
      rw [hstack, Finset.erase_insert hnotin]
    · exact (Finset.subset_insert node st.visited).trans hext.visited_subset

/-- The whole search from one node. -/
theorem depthFirst_inv {entry : ν} (hentry : entry ∈ nodes)
    (htarget : ∀ e ∈ edges, target e ∈ nodes) :
    Visits edges source target empty (depthFirst edges source target nodes.length entry empty)
      entry := by
  refine depthFirst_visits htarget nodes.length entry empty ⟨?_, ?_, ?_, ?_, ?_⟩ hentry ?_ ?_ ?_
  · exact Finset.Subset.refl _
  · intro n; simp [empty]
  · exact List.nodup_nil
  · intro pre a post hsplit; simp [empty] at hsplit
  · intro e he; simp [empty] at he
  · simp [empty]
  · intro n hn; simp [empty] at hn
  · exact (Finset.card_le_card Finset.sdiff_subset).trans nodes.toFinset_card_le

/-- Everything that the start reaches is left in the end. -/
theorem mem_finished_depthFirst {entry : ν} (hentry : entry ∈ nodes)
    (htarget : ∀ e ∈ edges, target e ∈ nodes) {n : ν}
    (hn : Reaches edges source target entry n) :
    n ∈ (depthFirst edges source target nodes.length entry empty).finished := by
  obtain ⟨hinv, hext, hstart⟩ := depthFirst_inv hentry htarget
  set st := depthFirst edges source target nodes.length entry empty
  have hstack : st.stack = ∅ := hext.stack_eq
  have hfinished (n : ν) : n ∈ st.finished ↔ n ∈ st.visited := by
    rw [hinv.mem_finished, hstack]
    simp
  obtain ⟨es, hes⟩ := hn
  refine hes.invariant (P := fun n ↦ n ∈ st.finished) (fun e _ u v hlead hu ↦ ?_)
    ((hfinished _).2 hstart)
  obtain ⟨he, rfl, rfl⟩ := hlead
  obtain ⟨pre, post, hsplit⟩ := List.append_of_mem hu
  rcases hinv.ordered pre _ post hsplit e he rfl with hback | hpost
  · exact (hfinished _).2 (hinv.cycle e hback).2.1
  · rw [hsplit]
    exact List.mem_append_right _ (List.mem_cons_of_mem _ hpost)

/-- **Cutting the back edges leaves no cycle**, where the start reaches every node. -/
theorem depthFirst_acyclic {entry : ν} (hentry : entry ∈ nodes)
    (hsource : ∀ e ∈ edges, source e ∈ nodes) (htarget : ∀ e ∈ edges, target e ∈ nodes)
    (hreach : ∀ n ∈ nodes, Reaches edges source target entry n) {rest : List ε}
    (hrest : ∀ e ∈ rest, e ∈ edges ∧
      e ∉ (depthFirst edges source target nodes.length entry empty).backEdges) :
    Acyclic rest source target := by
  have hvisits : Visits edges source target empty _ entry := depthFirst_inv hentry htarget
  obtain ⟨hinv, -, -⟩ := hvisits
  have hall (n : ν) (hn : n ∈ nodes) := mem_finished_depthFirst hentry htarget (hreach n hn)
  set st := depthFirst edges source target nodes.length entry empty
  -- The positions in the list of left nodes grow along every edge that is no back edge.
  refine acyclic_of_rank st.finished.idxOf fun e he ↦ ?_
  obtain ⟨hmem, hback⟩ := hrest e he
  obtain ⟨pre, post, hsplit⟩ := List.append_of_mem (hall _ (hsource e hmem))
  have htgt : target e ∈ post := (hinv.ordered pre _ post hsplit e hmem rfl).resolve_left hback
  have hnd := hinv.nodup
  rw [hsplit, List.nodup_append, List.nodup_cons] at hnd
  have hsrc_pre : source e ∉ pre := fun h ↦ hnd.2.2 _ h _ List.mem_cons_self rfl
  have htgt_pre : target e ∉ pre := fun h ↦ hnd.2.2 _ h _ (List.mem_cons_of_mem _ htgt) rfl
  have hne : source e ≠ target e := fun h ↦ hnd.2.1.1 (h ▸ htgt)
  rw [hsplit, List.idxOf_append_of_notMem hsrc_pre, List.idxOf_append_of_notMem htgt_pre,
    List.idxOf_cons_self, List.idxOf_cons_ne _ hne]
  omega

/-- **There is a back edge exactly when there is a cycle**, where the start reaches every node. -/
theorem depthFirst_backEdges_eq_nil_iff {entry : ν} (hentry : entry ∈ nodes)
    (hsource : ∀ e ∈ edges, source e ∈ nodes) (htarget : ∀ e ∈ edges, target e ∈ nodes)
    (hreach : ∀ n ∈ nodes, Reaches edges source target entry n) :
    (depthFirst edges source target nodes.length entry empty).backEdges = [] ↔
      Acyclic edges source target := by
  constructor
  · intro hnil
    exact depthFirst_acyclic hentry hsource htarget hreach fun e he ↦ ⟨he, by simp [hnil]⟩
  · intro hacyclic
    have hvisits : Visits edges source target empty _ entry := depthFirst_inv hentry htarget
    obtain ⟨hinv, -, -⟩ := hvisits
    refine List.eq_nil_iff_forall_not_mem.2 fun e hback ↦ ?_
    obtain ⟨he, -, es, hes⟩ := hinv.cycle e hback
    -- The path from the target to the source, closed by the edge.
    have hcycle : Path (Leads edges source target) (es ++ [e]) (target e) (target e) :=
      hes.append ⟨target e, ⟨he, rfl, rfl⟩, rfl⟩
    have hnil := hacyclic (es ++ [e]) (target e) hcycle
    exact absurd hnil (by simp)

end Invariant

end Library
