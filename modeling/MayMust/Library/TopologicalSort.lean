import MayMust.Library.Path
import MayMust.Library.Split
import Mathlib.Data.Set.Finite.Lemmas
import Mathlib.Order.WellFounded
import Mathlib.Data.List.Nodup
import Mathlib.Data.List.Count
import Mathlib.Data.List.Perm.Subperm
import Mathlib.Logic.Function.Basic

/-!
# Kahn's algorithm

Topological sorting of a finite directed multigraph with in-degree counters and a stack of
nodes whose counter has reached zero. The graph is a list of nodes and a list of edges with
their end points; parallel edges and self-loops are allowed.

`kahn` answers `some order` when every node was taken off the stack. `kahn_sorted` is what
clients use: the order has every node exactly once, and the source of each edge stands before
its target (`Sorted`). The loop runs at most once per node, so it is bounded by the number of
nodes; `kahnLoop_queue_eq_nil` says that the bound never cuts it short. `exists_kahn_iff` says
when there is an answer: the edges form no cycle (`Acyclic`).
-/

namespace Library

variable {ν ε : Type*} [DecidableEq ν]

/-- The state of the sorting loop. The head of `queue` is the node taken next. -/
structure KahnState (ν : Type*) where
  indegree : ν → ℕ
  queue : List ν
  order : List ν

section Algorithm

variable (nodes : List ν) (edges : List ε) (source target : ε → ν)

/-- Count down the target of an edge whose source has been placed. -/
def kahnRelax (st : KahnState ν) (e : ε) : KahnState ν :=
  let degree := st.indegree (target e) - 1
  { st with
    indegree := Function.update st.indegree (target e) degree
    queue := if degree = 0 then target e :: st.queue else st.queue }

/-- Place the next node and count down the targets of its outgoing edges. -/
def kahnPlace (st : KahnState ν) (node : ν) (rest : List ν) : KahnState ν :=
  (edges.filter fun e ↦ source e = node).foldl (kahnRelax target)
    { st with queue := rest, order := st.order ++ [node] }

/-- Place nodes until the stack is empty, at most `fuel` times. -/
def kahnLoop : ℕ → KahnState ν → KahnState ν
  | 0, st => st
  | fuel + 1, st =>
    match st.queue with
    | [] => st
    | node :: rest => kahnLoop fuel (kahnPlace edges source target st node rest)

/-- Counters of all incoming edges; the nodes without any are on the stack, the last one on
top. -/
def kahnInit : KahnState ν where
  indegree n := edges.countP fun e ↦ target e = n
  queue := (nodes.filter fun n ↦ edges.countP (fun e ↦ target e = n) = 0).reverse
  order := []

/-- Kahn's algorithm. -/
def kahn : Option (List ν) :=
  let st := kahnLoop edges source target nodes.length (kahnInit nodes edges target)
  if st.order.length = nodes.length then some st.order else none

/-- The source of every edge into a node stands before the node. -/
def Sorted (order : List ν) : Prop :=
  ∀ pre b post, order = pre ++ b :: post → ∀ e ∈ edges, target e = b → source e ∈ pre

end Algorithm

/-! ### The loop invariant -/

/-- What holds whenever a node is about to be taken off the stack. `done` counts the edges whose
source has been placed and whose target has not been counted down yet. -/
structure KahnInv (nodes : List ν) (edges : List ε) (source target : ε → ν) (todo : List ε)
    (st : KahnState ν) : Prop where
  nodup : (st.order ++ st.queue).Nodup
  mem_nodes : ∀ n ∈ st.order ++ st.queue, n ∈ nodes
  indegree_eq : ∀ n, st.indegree n =
    edges.countP (fun e ↦ target e = n ∧ source e ∉ st.order) + todo.countP fun e ↦ target e = n
  zero_iff : ∀ n ∈ nodes, st.indegree n = 0 ↔ n ∈ st.order ++ st.queue
  sorted : Sorted edges source target st.order

section Invariant

variable {nodes : List ν} {edges : List ε} {source target : ε → ν} {st : KahnState ν}

theorem kahnInit_inv (hnodes : nodes.Nodup) :
    KahnInv nodes edges source target [] (kahnInit nodes edges target) where
  nodup := by simpa [kahnInit] using hnodes.filter _
  mem_nodes n hn := by
    simp only [kahnInit, List.nil_append, List.mem_reverse, List.mem_filter] at hn
    exact hn.1
  indegree_eq n := by simp [kahnInit]
  zero_iff n hn := by
    simp only [kahnInit, List.nil_append, List.mem_reverse, List.mem_filter, hn, true_and,
      decide_eq_true_eq]
  sorted := by
    intro pre b post h
    simp [kahnInit] at h

theorem KahnInv.relax {e : ε} {todo : List ε}
    (h : KahnInv nodes edges source target (e :: todo) st) (he : target e ∈ nodes) :
    KahnInv nodes edges source target todo (kahnRelax target st e) := by
  have hpos : 0 < st.indegree (target e) := by
    rw [h.indegree_eq, List.countP_cons_of_pos (by simp)]; omega
  have hnew : target e ∉ st.order ++ st.queue := fun hmem ↦
    absurd ((h.zero_iff _ he).2 hmem) (Nat.ne_of_gt hpos)
  have hdeg (n : ν) : (kahnRelax target st e).indegree n =
      edges.countP (fun e ↦ target e = n ∧ source e ∉ st.order) +
        todo.countP fun e ↦ target e = n := by
    have := h.indegree_eq n
    by_cases hn : n = target e
    · subst hn
      simp only [kahnRelax, Function.update_self]
      rw [List.countP_cons_of_pos (by simp)] at this
      omega
    · have hne : ¬ target e = n := fun heq ↦ hn heq.symm
      simp only [kahnRelax, Function.update_of_ne hn]
      rw [List.countP_cons_of_neg (by simpa using hne)] at this
      exact this
  have hqueue (n : ν) : n ∈ st.order ++ (kahnRelax target st e).queue ↔
      n ∈ st.order ++ st.queue ∨ n = target e ∧ st.indegree (target e) - 1 = 0 := by
    simp only [kahnRelax]
    split
    · rename_i hz
      simp only [List.mem_append, List.mem_cons, hz, and_true]
      tauto
    · rename_i hz; simp [hz]
  refine ⟨?_, fun n hn ↦ ?_, hdeg, fun n hn ↦ ?_, h.sorted⟩
  · have hnd := h.nodup
    simp only [kahnRelax]
    split
    · rw [List.nodup_append] at hnd ⊢
      simp only [List.mem_append, not_or] at hnew
      refine ⟨hnd.1, List.nodup_cons.2 ⟨hnew.2, hnd.2.1⟩, fun a ha b hb ↦ ?_⟩
      rcases List.mem_cons.1 hb with rfl | hb
      · exact fun hab ↦ hnew.1 (hab ▸ ha)
      · exact hnd.2.2 a ha b hb
    · exact hnd
  · rcases (hqueue n).1 hn with hn | ⟨rfl, -⟩
    · exact h.mem_nodes n hn
    · exact he
  · show _ ↔ n ∈ st.order ++ (kahnRelax target st e).queue
    rw [hqueue, ← h.zero_iff n hn]
    by_cases hne : n = target e
    · subst hne
      simp only [kahnRelax, Function.update_self, true_and]
      omega
    · simp [kahnRelax, hne]

theorem KahnInv.foldl_relax {todo : List ε} (htodo : ∀ e ∈ todo, target e ∈ nodes)
    (h : KahnInv nodes edges source target todo st) :
    KahnInv nodes edges source target [] (todo.foldl (kahnRelax target) st) := by
  induction todo generalizing st with
  | nil => exact h
  | cons e todo ih =>
    rw [List.forall_mem_cons] at htodo
    exact ih htodo.2 (h.relax htodo.1)

theorem KahnInv.place {node : ν} {rest : List ν} (hedges : ∀ e ∈ edges, target e ∈ nodes)
    (h : KahnInv nodes edges source target [] st) (hq : st.queue = node :: rest) :
    KahnInv nodes edges source target [] (kahnPlace edges source target st node rest) := by
  have hzero : st.indegree node = 0 := by
    refine (h.zero_iff node (h.mem_nodes node ?_)).2 ?_ <;> simp [hq]
  have hnd := h.nodup
  rw [hq] at hnd
  have hnode : node ∉ st.order := fun hmem ↦ by
    rw [List.nodup_append] at hnd
    exact hnd.2.2 node hmem node List.mem_cons_self rfl
  have hin : ∀ e ∈ edges, target e = node → source e ∈ st.order := by
    intro e he hte
    by_contra hsrc
    have hcount := h.indegree_eq node
    rw [hzero, List.countP_nil, Nat.add_zero] at hcount
    have := List.countP_eq_zero.1 hcount.symm e he
    simp [hte, hsrc] at this
  refine KahnInv.foldl_relax (fun e he ↦ hedges e (List.mem_of_mem_filter he)) ⟨?_, ?_, ?_, ?_, ?_⟩
  · simpa using hnd
  · intro n hn
    refine h.mem_nodes n ?_
    simpa [hq, or_assoc] using hn
  · intro n
    -- Edges leaving `node` move from the open count to the edges still to be counted down.
    rw [h.indegree_eq n, List.countP_filter, List.countP_nil, Nat.add_zero]
    have hsplit : ∀ es : List ε,
        es.countP (fun e ↦ target e = n ∧ source e ∉ st.order) =
          es.countP (fun e ↦ target e = n ∧ source e ∉ st.order ++ [node]) +
            es.countP (fun e ↦ decide (target e = n) && decide (source e = node)) := by
      intro es
      induction es with
      | nil => simp
      | cons e es ih =>
        simp only [List.countP_cons, ih]
        by_cases hs : source e = node <;> by_cases ht : target e = n <;>
          by_cases ho : source e ∈ st.order <;> simp_all
        all_goals omega
    exact hsplit edges
  · intro n hn
    rw [h.zero_iff n hn, hq]
    simp
  · intro pre b post hpre e he hte
    rcases List.append_eq_append_iff.1 hpre with ⟨as, rfl, hb⟩ | ⟨bs, horder, hb⟩
    · cases as with
      | nil =>
        simp only [List.nil_append, List.cons.injEq] at hb
        rw [List.append_nil]
        exact hin e he (hte.trans hb.1.symm)
      | cons a as => simp at hb
    · cases bs with
      | nil =>
        simp only [List.nil_append, List.cons.injEq] at hb
        rw [List.append_nil] at horder
        exact horder ▸ hin e he (hte.trans hb.1)
      | cons c bs =>
        simp only [List.cons_append, List.cons.injEq] at hb
        exact h.sorted pre b bs (by rw [horder, hb.1]) e he hte

theorem KahnInv.loop (hedges : ∀ e ∈ edges, target e ∈ nodes) (fuel : ℕ)
    (h : KahnInv nodes edges source target [] st) :
    KahnInv nodes edges source target [] (kahnLoop edges source target fuel st) := by
  induction fuel generalizing st with
  | zero => exact h
  | succ fuel ih =>
    rw [kahnLoop]
    split
    · exact h
    · rename_i node rest hq
      exact ih (h.place hedges hq)

theorem order_foldl_kahnRelax (todo : List ε) (st : KahnState ν) :
    (todo.foldl (kahnRelax target) st).order = st.order := by
  induction todo generalizing st with
  | nil => rfl
  | cons e todo ih => rw [List.foldl_cons, ih]; rfl

/-- The loop ends with an empty stack or has used up its bound. -/
theorem kahnLoop_queue_or_length (fuel : ℕ) (st : KahnState ν) :
    (kahnLoop edges source target fuel st).queue = [] ∨
      (kahnLoop edges source target fuel st).order.length = st.order.length + fuel := by
  induction fuel generalizing st with
  | zero => exact Or.inr rfl
  | succ fuel ih =>
    rw [kahnLoop]
    split
    · rename_i hq; exact Or.inl hq
    · rename_i node rest hq
      refine (ih _).imp_right fun h ↦ ?_
      rw [h, kahnPlace, order_foldl_kahnRelax]
      simp only [List.length_append, List.length_singleton]
      omega

/-- Bounding the loop by the number of nodes never cuts it short. -/
theorem kahnLoop_queue_eq_nil (hnodes : nodes.Nodup) (hedges : ∀ e ∈ edges, target e ∈ nodes) :
    (kahnLoop edges source target nodes.length (kahnInit nodes edges target)).queue = [] := by
  have hstart : KahnInv nodes edges source target [] (kahnInit nodes edges target) :=
    kahnInit_inv hnodes
  have hinv := hstart.loop hedges nodes.length
  refine (kahnLoop_queue_or_length nodes.length _).elim id fun hlen ↦ ?_
  have hle := (hinv.nodup.subperm hinv.mem_nodes).length_le
  rw [List.length_append, hlen] at hle
  have hinit : (kahnInit nodes edges target).order.length = 0 := rfl
  exact List.eq_nil_of_length_eq_zero (by omega)

/-- A successful sort has every node exactly once, each after the sources of its incoming
edges. -/
theorem kahn_sorted {order : List ν} (hnodes : nodes.Nodup)
    (hedges : ∀ e ∈ edges, target e ∈ nodes) (h : kahn nodes edges source target = some order) :
    order.Nodup ∧ (∀ n, n ∈ order ↔ n ∈ nodes) ∧ Sorted edges source target order := by
  have hstart : KahnInv nodes edges source target [] (kahnInit nodes edges target) :=
    kahnInit_inv hnodes
  have hinv := hstart.loop hedges nodes.length
  simp only [kahn, Option.ite_none_right_eq_some, Option.some.injEq] at h
  obtain ⟨hlen, rfl⟩ := h
  have hnd := (List.nodup_append.1 hinv.nodup).1
  have hsub : ∀ n ∈ (kahnLoop edges source target nodes.length (kahnInit nodes edges target)).order,
      n ∈ nodes := fun n hn ↦ hinv.mem_nodes n (List.mem_append_left _ hn)
  have hperm := (hnd.subperm hsub).perm_of_length_le (Nat.le_of_eq hlen.symm)
  exact ⟨hnd, fun n ↦ hperm.mem_iff, hinv.sorted⟩

end Invariant

/-! ### Positions in a sorted order -/

section Order

variable {edges : List ε} {source target : ε → ν} {order : List ν}

omit [DecidableEq ν] in
/-- In a sorted order without repetitions, the target of every edge out of a node stands after
the node. -/
theorem Sorted.target_mem (hsorted : Sorted edges source target order) (hnd : order.Nodup)
    {pre post : List ν} {b : ν} (horder : order = pre ++ b :: post) {e : ε} (he : e ∈ edges)
    (hsrc : source e = b) (htgt : target e ∈ order) : target e ∈ post := by
  obtain ⟨pre', post', hsplit⟩ := List.append_of_mem htgt
  have hmem : source e ∈ pre' := hsorted pre' _ post' hsplit e he rfl
  obtain ⟨p, q, rfl⟩ := List.append_of_mem hmem
  -- `b` splits the order in only one way.
  have heq : pre ++ b :: post = p ++ b :: (q ++ target e :: post') := by
    rw [← horder, hsplit, hsrc]; simp
  rw [horder, List.nodup_append, List.nodup_cons] at hnd
  have hpre : b ∉ pre := fun hb ↦ hnd.2.2 b hb b List.mem_cons_self rfl
  obtain ⟨-, -, rfl⟩ := (List.append_cons_inj_of_notMem hpre hnd.2.1.1).1 heq
  simp

omit [DecidableEq ν] in
/-- Visit the nodes from last to first and at each node the edges into it. When an edge is about
to be visited, every edge out of its target has been. -/
theorem Sorted.visited {κ : Type*} {incoming : ν → List κ} (id : ε → κ)
    (hsorted : Sorted edges source target order) (hnd : order.Nodup)
    (hmem : ∀ e ∈ edges, target e ∈ order ∧ id e ∈ incoming (target e)) {pre post : List κ} {a : κ}
    (hsplit : order.reverse.flatMap incoming = pre ++ a :: post) :
    ∃ b, a ∈ incoming b ∧ ∀ e ∈ edges, source e = b → id e ∈ pre := by
  obtain ⟨later, b, earlier, as, bs, hrev, hb, rfl, -⟩ := flatMap_eq_append_cons hsplit
  refine ⟨b, by simp [hb], fun e he hsrc ↦ List.mem_append_left _ ?_⟩
  have horder : order = earlier.reverse ++ b :: later.reverse := by
    rw [← List.reverse_reverse order, hrev]; simp
  have htgt := hsorted.target_mem hnd horder he hsrc (hmem e he).1
  exact List.mem_flatMap.2 ⟨target e, List.mem_reverse.1 htgt, (hmem e he).2⟩

end Order

/-! ### Cycles -/

section Cycles

variable {nodes : List ν} {edges : List ε} {source target : ε → ν} {order : List ν}

/-- The edge is one of the edges and leads from one node to the other. -/
def Leads (edges : List ε) (source target : ε → ν) (e : ε) (u v : ν) : Prop :=
  e ∈ edges ∧ source e = u ∧ target e = v

/-- No path of at least one edge comes back to where it started. -/
def Acyclic (edges : List ε) (source target : ε → ν) : Prop :=
  ∀ es v, Path (Leads edges source target) es v v → es = []

omit [DecidableEq ν] in
theorem Acyclic.mono {edges' : List ε} (hsub : ∀ e ∈ edges', e ∈ edges)
    (h : Acyclic edges source target) : Acyclic edges' source target := by
  intro es v hpath
  exact h es v (hpath.mono fun e _ s t hlead ↦ ⟨hsub e hlead.1, hlead.2⟩)

omit [DecidableEq ν] in
/-- A number for every node that grows along every edge excludes cycles. -/
theorem acyclic_of_rank (rank : ν → ℕ) (hrank : ∀ e ∈ edges, rank (source e) < rank (target e)) :
    Acyclic edges source target := by
  intro es v hpath
  cases es with
  | nil => rfl
  | cons e es =>
    obtain ⟨m, ⟨he, rfl, rfl⟩, hrest⟩ := hpath
    have hle : rank (target e) ≤ rank (source e) :=
      Path.rel (R := fun u w ↦ rank u ≤ rank w) (fun _ ↦ le_rfl) (fun _ _ _ ↦ le_trans)
        (fun e' _ u w hlead ↦ by
          have hlt := hrank e' hlead.1
          rw [hlead.2.1, hlead.2.2] at hlt
          exact hlt.le) hrest
    have hlt := hrank e he
    omega

/-- In a sorted order the positions grow along every edge. -/
theorem Sorted.idxOf_lt (hsorted : Sorted edges source target order) (hnd : order.Nodup) {e : ε}
    (he : e ∈ edges) (hmem : target e ∈ order) :
    order.idxOf (source e) < order.idxOf (target e) := by
  obtain ⟨pre, post, rfl⟩ := List.append_of_mem hmem
  have hsrc : source e ∈ pre := hsorted pre _ post rfl e he rfl
  have hpre : target e ∉ pre := fun ht ↦ by
    rw [List.nodup_append] at hnd
    exact hnd.2.2 _ ht _ List.mem_cons_self rfl
  rw [List.idxOf_append_of_mem hsrc, List.idxOf_append_of_notMem hpre]
  have hlt : pre.idxOf (source e) < pre.length := List.idxOf_lt_length_of_mem hsrc
  omega

omit [DecidableEq ν] in
/-- Without cycles, some node of every non-empty part of a finite graph has no predecessor in
that part. -/
theorem Acyclic.exists_source (hacyclic : Acyclic edges source target) {P : ν → Prop}
    (hP : ∀ n, P n → n ∈ nodes) (hne : ∃ n, P n) :
    ∃ n, P n ∧ ∀ e ∈ edges, target e = n → ¬ P (source e) := by
  let before (u v : {n // n ∈ nodes}) : Prop :=
    ∃ es, es ≠ [] ∧ Path (Leads edges source target) es u.1 v.1
  have htrans : IsTrans {n // n ∈ nodes} before := ⟨by
    rintro u v w ⟨es, hes, huv⟩ ⟨es', -, hvw⟩
    exact ⟨es ++ es', by simp [hes], huv.append hvw⟩⟩
  have hirrefl : Std.Irrefl before := ⟨fun u ⟨es, hes, hpath⟩ ↦ hes (hacyclic es u hpath)⟩
  have hfinite : Finite {n // n ∈ nodes} := (List.finite_toSet nodes).to_subtype
  have hwf : WellFounded before := Finite.wellFounded_of_trans_of_irrefl before
  obtain ⟨n, hn⟩ := hne
  obtain ⟨m, hm, hmin⟩ := hwf.has_min {n | P n.1} ⟨⟨n, hP n hn⟩, hn⟩
  refine ⟨m.1, hm, fun e he htgt hsrc ↦ ?_⟩
  exact hmin ⟨source e, hP _ hsrc⟩ hsrc ⟨[e], by simp, _, ⟨he, rfl, htgt⟩, rfl⟩

/-- **Kahn's algorithm finds an order exactly when there is no cycle.** -/
theorem exists_kahn_iff (hnodes : nodes.Nodup) (hsource : ∀ e ∈ edges, source e ∈ nodes)
    (htarget : ∀ e ∈ edges, target e ∈ nodes) :
    (∃ order, kahn nodes edges source target = some order) ↔ Acyclic edges source target := by
  constructor
  · rintro ⟨order, horder⟩
    obtain ⟨hnd, hmem, hsorted⟩ := kahn_sorted hnodes htarget horder
    exact acyclic_of_rank order.idxOf fun e he ↦
      hsorted.idxOf_lt hnd he ((hmem _).2 (htarget e he))
  · intro hacyclic
    have hstart : KahnInv nodes edges source target [] (kahnInit nodes edges target) :=
      kahnInit_inv hnodes
    have hinv := hstart.loop htarget nodes.length
    have hqueue : (kahnLoop edges source target nodes.length
        (kahnInit nodes edges target)).queue = [] := kahnLoop_queue_eq_nil hnodes htarget
    set st := kahnLoop edges source target nodes.length (kahnInit nodes edges target) with hst
    -- A node that was never placed has an edge from another such node.
    have hpred (n : ν) (hn : n ∈ nodes) (hleft : n ∉ st.order) :
        ∃ e ∈ edges, target e = n ∧ source e ∉ st.order := by
      have hzero := hinv.zero_iff n hn
      rw [hqueue, List.append_nil] at hzero
      have hpos : 0 < st.indegree n := Nat.pos_of_ne_zero fun h ↦ hleft (hzero.1 h)
      rw [hinv.indegree_eq, List.countP_nil, Nat.add_zero, List.countP_pos_iff] at hpos
      obtain ⟨e, he, hopen⟩ := hpos
      exact ⟨e, he, by simpa using hopen⟩
    have hall : ∀ n ∈ nodes, n ∈ st.order := by
      by_contra hleft
      push Not at hleft
      obtain ⟨n, ⟨hn, hleft⟩, hmin⟩ :=
        hacyclic.exists_source (P := fun n ↦ n ∈ nodes ∧ n ∉ st.order) (fun n hn ↦ hn.1) hleft
      obtain ⟨e, he, htgt, hsrc⟩ := hpred n hn hleft
      exact hmin e he htgt ⟨hsource e he, hsrc⟩
    have hlen : nodes.length ≤ st.order.length := (hnodes.subperm hall).length_le
    have hnd := hinv.nodup
    rw [hqueue, List.append_nil] at hnd
    have hsub : ∀ n ∈ st.order, n ∈ nodes := fun n hn ↦
      hinv.mem_nodes n (List.mem_append_left _ hn)
    have hle : st.order.length ≤ nodes.length := (hnd.subperm hsub).length_le
    exact ⟨st.order, by rw [kahn, ← hst]; exact if_pos (le_antisymm hle hlen)⟩

end Cycles

end Library
