import Mathlib.Tactic.SplitIfs
import MayMust.Cfg.Adapter.Stripping

/-!
# What anchoring preserves

A stripped call is executed where it stands, but it is checked at its anchor. The two differ in
which constraints an execution has met: assumptions, guards, and instructions whose transfer
function assumes something. The lowered path checks the call after the constraints of the nodes up
to the anchor, wherever these stood.

`anchoredRight_iff` says that this is the only way in which anchoring goes wrong.
-/

namespace MayMust

open Library

/-! ### Neighbours and anchors -/

section Positions

variable {items : List PathItem} {j k n a : ℕ} {x : PathItem}

/-- Nothing between two positions moves an execution. -/
def NoMoveBetween (items : List PathItem) (i k : ℕ) : Prop :=
  ∀ j x, i < j → j < k → items[j]? = some x → x.isMove = false

theorem instructionNode_eq_some_iff :
    instructionNode items j = some n ↔ n = j ∧ (visibleAt items n).isSome := by
  rw [instructionNode, Option.map_eq_some_iff]
  constructor
  · rintro ⟨transfer, htransfer, rfl⟩
    exact ⟨rfl, by rw [htransfer]; rfl⟩
  · rintro ⟨rfl, hvisible⟩
    obtain ⟨transfer, htransfer⟩ := Option.isSome_iff_exists.1 hvisible
    exact ⟨transfer, htransfer, rfl⟩

theorem previousVisibleInstruction_spec (h : previousVisibleInstruction items k = some n) :
    n < k ∧ NoMoveBetween items n k := by
  induction k with
  | zero => cases h
  | succ k ih =>
    rw [previousVisibleInstruction] at h
    have hlast (hmove : ∀ x, items[k]? = some x → x.isMove = false)
        (h : previousVisibleInstruction items k = some n) : n < k + 1 ∧
          NoMoveBetween items n (k + 1) := by
      obtain ⟨hlt, hnone⟩ := ih h
      refine ⟨by omega, fun j x hnj hjk hx ↦ ?_⟩
      rcases Nat.lt_succ_iff_lt_or_eq.1 hjk with hjk | rfl
      · exact hnone j x hnj hjk hx
      · exact hmove x hx
    split at h
    · obtain rfl := Option.some.inj h
      exact ⟨by omega, fun j x hnj hjk ↦ by omega⟩
    · cases h
    · rename_i hvisible henter
      refine hlast (fun x hx ↦ ?_) h
      cases x with
      | visible displayName transfer => exact absurd hx (hvisible displayName transfer)
      | enter guard effects => exact absurd hx (henter guard effects)
      | _ => rfl

theorem firstVisibleInstruction_spec {rest : List PathItem}
    (hrest : ∀ i, rest[i]? = items[k + i]?) (h : firstVisibleInstruction rest k = some n) :
    k ≤ n ∧ ∀ j x, k ≤ j → j < n → items[j]? = some x → x.isMove = false := by
  induction rest generalizing k with
  | nil => cases h
  | cons y rest ih =>
    have hhead : items[k]? = some y := (hrest 0).symm
    have htail : ∀ i, rest[i]? = items[k + 1 + i]? := by
      intro i
      have heq := hrest (i + 1)
      rwa [List.getElem?_cons_succ, show k + (i + 1) = k + 1 + i by omega] at heq
    have hskip (hy : y.isMove = false) (h : firstVisibleInstruction rest (k + 1) = some n) :
        k ≤ n ∧ ∀ j x, k ≤ j → j < n → items[j]? = some x → x.isMove = false := by
      obtain ⟨hle, hnone⟩ := ih htail h
      refine ⟨by omega, fun j x hkj hjn hx ↦ ?_⟩
      rcases Nat.eq_or_lt_of_le hkj with rfl | hkj
      · obtain rfl := Option.some.inj (hx.symm.trans hhead)
        exact hy
      · exact hnone j x hkj hjn hx
    cases y with
    | visible displayName transfer =>
      obtain rfl := Option.some.inj h
      exact ⟨le_rfl, fun j x hkj hjn ↦ by omega⟩
    | enter guard effects => cases h
    | _ => exact hskip rfl h

theorem nextVisibleInstruction_spec (h : nextVisibleInstruction items k = some n) :
    k < n ∧ NoMoveBetween items k n := by
  have hdrop : ∀ i, (items.drop (k + 1))[i]? = items[k + 1 + i]? := fun i ↦ List.getElem?_drop
  obtain ⟨hle, hnone⟩ := firstVisibleInstruction_spec hdrop h
  exact ⟨hle, fun j x hkj ↦ hnone j x hkj⟩

/-- The neighbours of a call. -/
inductive Neighbour (items : List PathItem) (k n : ℕ) : Prop
  | predecessor (lt : n < k) (between : NoMoveBetween items n k)
  | successor (lt : k < n) (between : NoMoveBetween items k n)

theorem eq_of_bind_instructionNode {found : Option ℕ}
    (h : found.bind (instructionNode items) = some n) :
    found = some n ∧ (visibleAt items n).isSome := by
  obtain ⟨i, hi, hnode⟩ := Option.bind_eq_some_iff.1 h
  obtain ⟨rfl, hvisible⟩ := instructionNode_eq_some_iff.1 hnode
  exact ⟨hi, hvisible⟩

theorem neighbour_of_choice
    (h : ((previousVisibleInstruction items k).bind (instructionNode items)).or
      ((nextVisibleInstruction items k).bind (instructionNode items)) = some n) :
    (visibleAt items n).isSome ∧ Neighbour items k n := by
  rw [Option.or_eq_some_iff] at h
  rcases h with h | ⟨-, h⟩
  · obtain ⟨hfound, hvisible⟩ := eq_of_bind_instructionNode h
    obtain ⟨hlt, hnone⟩ := previousVisibleInstruction_spec hfound
    exact ⟨hvisible, .predecessor hlt hnone⟩
  · obtain ⟨hfound, hvisible⟩ := eq_of_bind_instructionNode h
    obtain ⟨hlt, hnone⟩ := nextVisibleInstruction_spec hfound
    exact ⟨hvisible, .successor hlt hnone⟩

/-- The call an assumption site is recorded for. -/
theorem assumeSiteAt_spec {site : AssumeSite} (h : assumeSiteAt items k = some site) :
    (items[k]? = some (.mayAssume site.assumedValue) ∧ site.isTypeBound = false ∨
        items[k]? = some (.mayTypeBound site.assumedValue) ∧ site.isTypeBound = true) ∧
      chooseAssumeNode items site =
        ((previousVisibleInstruction items k).bind (instructionNode items)).or
          ((nextVisibleInstruction items k).bind (instructionNode items)) := by
  rw [assumeSiteAt] at h
  split at h
  · rename_i operand hitem
    obtain rfl := Option.some.inj h
    exact ⟨.inl ⟨hitem, rfl⟩, rfl⟩
  · rename_i operand hitem
    obtain rfl := Option.some.inj h
    exact ⟨.inr ⟨hitem, rfl⟩, rfl⟩
  · cases h

theorem assertSiteAt_spec {site : AssertSite} (h : assertSiteAt items k = some site) :
    (items[k]? = some (.mayAssert site.assertedValue) ∧ site.isUnconditionalFail = false ∨
        (∃ displayName, items[k]? = some (.unconditionalFail displayName)) ∧
          site.isUnconditionalFail = true ∧ site.assertedValue.definer = none) ∧
      chooseAssertNode items site = (site.assertedValue.definer.bind (instructionNode items)).or
        (((previousVisibleInstruction items k).bind (instructionNode items)).or
          ((nextVisibleInstruction items k).bind (instructionNode items))) := by
  rw [assertSiteAt] at h
  split at h
  · rename_i operand hitem
    obtain rfl := Option.some.inj h
    exact ⟨.inl ⟨hitem, rfl⟩, rfl⟩
  · rename_i displayName hitem
    obtain rfl := Option.some.inj h
    exact ⟨.inr ⟨⟨displayName, hitem⟩, rfl, rfl⟩, rfl⟩
  · cases h

theorem chooseAssumeNode_spec {site : AssumeSite} (hsite : assumeSiteAt items k = some site)
    (h : chooseAssumeNode items site = some n) :
    (visibleAt items n).isSome ∧ Neighbour items k n := by
  rw [(assumeSiteAt_spec hsite).2] at h
  exact neighbour_of_choice h

theorem chooseAssertNode_spec {site : AssertSite} (hsite : assertSiteAt items k = some site)
    (h : chooseAssertNode items site = some n) :
    (visibleAt items n).isSome ∧ (site.assertedValue.definer = some n ∨ Neighbour items k n) := by
  rw [(assertSiteAt_spec hsite).2, Option.or_eq_some_iff] at h
  rcases h with h | ⟨-, h⟩
  · obtain ⟨hfound, hvisible⟩ := eq_of_bind_instructionNode h
    exact ⟨hvisible, .inl hfound⟩
  · obtain ⟨hvisible, hneighbour⟩ := neighbour_of_choice h
    exact ⟨hvisible, .inr hneighbour⟩

/-- A call stands before what follows the node it is anchored at. -/
theorem lt_of_neighbour (h : Neighbour items k n) (hk : ∀ x, items[k]? = some x → x.isMove = false)
    (hnj : n < j) (hx : items[j]? = some x) (hmove : x.isMove = true) : k < j := by
  cases h with
  | predecessor lt between =>
    rcases Nat.lt_trichotomy k j with hlt | rfl | hlt
    · exact hlt
    · rw [hk x hx] at hmove
      cases hmove
    · rw [between j x hnj hlt hx] at hmove
      cases hmove
  | successor lt between => exact lt.trans hnj

end Positions

/-! ### Executions of the lowered path -/

/-- What the lowered path executes for a position: an instruction is followed by the calls that are
anchored at it. -/
def loweredAt (items : List PathItem) (position : ℕ) : List PathItem :=
  match items[position]? with
  | some (.visible displayName transfer) =>
    .visible displayName transfer :: (anchoredAt items position).filterMap (items[·]?)
  | some (.enter guard effects) => [.enter guard effects]
  | _ => []

/-- What the lowered path executes up to a position. -/
def loweredBefore (items : List PathItem) (position : ℕ) : List PathItem :=
  (List.range position).flatMap (loweredAt items)

section Lowered

variable {items : List PathItem} {j k n a v : ℕ} {x : PathItem} {transfer : TransferFn}
  {s t : State}

theorem mem_anchoredAt : k ∈ anchoredAt items n ↔
    ∃ site, assumeSiteAt items k = some site ∧ chooseAssumeNode items site = some n := by
  rw [anchoredAt]
  simp only [List.mem_filter, List.mem_range, decide_eq_true_eq, Option.bind_eq_some_iff]
  refine and_iff_right_of_imp ?_
  rintro ⟨site, hsite, -⟩
  rcases (assumeSiteAt_spec hsite).1 with ⟨hitem, -⟩ | ⟨hitem, -⟩
  · exact (List.getElem?_eq_some_iff.1 hitem).1
  · exact (List.getElem?_eq_some_iff.1 hitem).1

/-- The pushed effects are those of the anchored calls. -/
theorem pushedEffects_eq (items : List PathItem) (n : CfgNodeId) :
    pushedEffects items n =
      ((anchoredAt items n).filterMap (items[·]?)).flatMap PathItem.effects := by
  rw [pushedEffects]
  have hcalls : ∀ k ∈ anchoredAt items n, ∃ site x, assumeSiteAt items k = some site ∧
      items[k]? = some x ∧ x.effects = [site.effect] := by
    intro k hk
    obtain ⟨site, hsite, -⟩ := mem_anchoredAt.1 hk
    rcases (assumeSiteAt_spec hsite).1 with ⟨hitem, htype⟩ | ⟨hitem, htype⟩
    · exact ⟨site, _, hsite, hitem, by rw [AssumeSite.effect, htype]; rfl⟩
    · exact ⟨site, _, hsite, hitem, by rw [AssumeSite.effect, htype]; rfl⟩
  generalize anchoredAt items n = calls at hcalls
  induction calls with
  | nil => rfl
  | cons k calls ih =>
    rw [List.forall_mem_cons] at hcalls
    obtain ⟨⟨site, x, hsite, hitem, heffects⟩, hcalls⟩ := hcalls
    rw [List.filterMap_cons_some (by rw [hsite]; rfl), List.filterMap_cons_some hitem,
      List.flatMap_cons, heffects, ih hcalls]
    rfl

theorem loweredAt_visible (h : visibleAt items v = some transfer) :
    ∃ displayName, items[v]? = some (.visible displayName transfer) ∧ loweredAt items v =
      .visible displayName transfer :: (anchoredAt items v).filterMap (items[·]?) := by
  obtain ⟨displayName, hitem⟩ := visibleAt_eq_some_iff.1 h
  exact ⟨displayName, hitem, by rw [loweredAt, hitem]⟩

theorem loweredAt_eq_nil (h : ∀ x, items[j]? = some x → x.isMove = false) :
    loweredAt items j = [] := by
  rw [loweredAt]
  split
  · rename_i displayName transfer hitem
    cases h _ hitem
  · rename_i guard effects hitem
    cases h _ hitem
  · rfl

theorem run_loweredAt (h : visibleAt items v = some transfer) :
    Path PathItem.Step (loweredAt items v) s t ↔
      Effects.Run .unknownCallees (transfer.effects ++ pushedEffects items v) s t := by
  obtain ⟨displayName, -, hlowered⟩ := loweredAt_visible h
  rw [hlowered, pushedEffects_eq]
  have hflat : (PathItem.visible displayName transfer ::
      (anchoredAt items v).filterMap (items[·]?)).flatMap PathItem.effects =
        transfer.effects ++ ((anchoredAt items v).filterMap (items[·]?)).flatMap PathItem.effects :=
          rfl
  rw [← hflat]
  exact Path.flatMap_iff.symm

end Lowered

namespace BlockPath

variable {path : BlockPath} {v a next : ℕ} {transfer : TransferFn} {s t : State}

/-- Positions split at a position in between. -/
theorem range'_split {i m n : ℕ} (hi : i ≤ m) (hm : m ≤ n) :
    List.range' i (n - i) = List.range' i (m - i) ++ List.range' m (n - m) := by
  have happend := List.range'_append_1 (s := i) (m := m - i) (n := n - m)
  rwa [show i + (m - i) = m by omega, show m - i + (n - m) = n - i by omega, eq_comm] at happend

/-- Behind an instruction and the edge that leaves it, nothing is executed up to the next node. -/
theorem loweredAt_of_between (hnext : nextNode path.items v = some next) {i : ℕ} (hvi : v < i)
    (hi : i < next) (hedge : i = v + 1 → ∀ g es, path.items[i]? ≠ some (.enter g es)) :
    loweredAt path.items i = [] := by
  have hbetween := (nextNode_spec hnext).2.2
  refine loweredAt_eq_nil fun x hx ↦ ?_
  cases x with
  | visible displayName transfer =>
    have hvisible := visibleAt_eq_some_iff.2 ⟨displayName, hx⟩
    rw [hbetween i hvi hi] at hvisible
    cases hvisible
  | enter guard effects =>
    obtain ⟨i', rfl, hvisible⟩ := path.enter_after i guard effects hx
    rcases Nat.eq_or_lt_of_le (Nat.lt_succ_iff.1 hvi) with rfl | hlt
    · exact absurd hx (hedge rfl guard effects)
    · rw [hbetween i' hlt (by omega)] at hvisible
      cases hvisible
  | _ => rfl

/-- One crossing executes the node and enters the next block. -/
theorem path_segment_iff (hv : visibleAt path.items v = some transfer)
    (hnext : nextNode path.items v = some next) :
    Path PathItem.Step ((List.range' v (next - v)).flatMap (loweredAt path.items)) s t ↔
      ∃ m, Effects.Run .unknownCallees (transfer.effects ++ pushedEffects path.items v) s m ∧
        (edgeOf path.items v).1.Holds m ∧
          Effects.Run .unknownCallees (edgeOf path.items v).2 m t := by
  obtain ⟨hlt, hvisible, -⟩ := nextNode_spec hnext
  have hrest (m : State) :
      Path PathItem.Step ((List.range' (v + 1) (next - v - 1)).flatMap (loweredAt path.items)) m t ↔
        (edgeOf path.items v).1.Holds m ∧
          Effects.Run .unknownCallees (edgeOf path.items v).2 m t := by
    by_cases henter : ∃ g es, path.items[v + 1]? = some (.enter g es)
    · obtain ⟨g, es, henter⟩ := henter
      have hne : next ≠ v + 1 := by
        rintro rfl
        obtain ⟨transfer', htransfer'⟩ := Option.isSome_iff_exists.1 hvisible
        obtain ⟨displayName, hitem⟩ := visibleAt_eq_some_iff.1 htransfer'
        cases henter.symm.trans hitem
      have hlowered : loweredAt path.items (v + 1) = [.enter g es] := by rw [loweredAt, henter]
      have hedge : edgeOf path.items v = (g, es) := by rw [edgeOf, henter]
      have hnil : (List.range' (v + 2) (next - v - 2)).flatMap (loweredAt path.items) = [] := by
        refine List.flatMap_eq_nil_iff.2 fun i hi ↦ ?_
        rw [List.mem_range'_1] at hi
        exact loweredAt_of_between hnext (by omega) (by omega) (by omega)
      rw [show next - v - 1 = next - v - 2 + 1 by omega, List.range'_succ, List.flatMap_cons,
        hlowered, hedge, hnil]
      show Path PathItem.Step [.enter g es] m t ↔ _
      rw [Path.singleton_iff]
      constructor
      · rintro ⟨m', ⟨hg, rfl⟩, hrun⟩
        exact ⟨hg, hrun⟩
      · rintro ⟨hg, hrun⟩
        exact ⟨m, ⟨hg, rfl⟩, hrun⟩
    · push Not at henter
      have hedge : edgeOf path.items v = (.tru, []) := by
        rw [edgeOf]
        split
        · rename_i g es hitem
          exact absurd hitem (henter g es)
        · rfl
      have hnil : (List.range' (v + 1) (next - v - 1)).flatMap (loweredAt path.items) = [] := by
        refine List.flatMap_eq_nil_iff.2 fun i hi ↦ ?_
        rw [List.mem_range'_1] at hi
        refine loweredAt_of_between hnext (by omega) (by omega) ?_
        rintro rfl
        exact henter
      rw [hnil, hedge]
      exact ⟨fun h ↦ ⟨Formula.holds_tru m, h⟩, And.right⟩
  rw [show next - v = next - v - 1 + 1 by omega, List.range'_succ, List.flatMap_cons,
    Path.append_iff]
  simp only [run_loweredAt hv, hrest]

/-- The executions of the lowered path from one node to another. -/
theorem run_cfg_iff (hv : (visibleAt path.items v).isSome) (ha : (visibleAt path.items a).isSome) :
    (∃ cs, path.cfg.Run .unknownCallees cs ⟨v, s⟩ ⟨a, t⟩) ↔
      v ≤ a ∧ Path PathItem.Step ((List.range' v (a - v)).flatMap (loweredAt path.items)) s t := by
  constructor
  · rintro ⟨cs, hrun⟩
    induction cs generalizing v s with
    | nil =>
      cases hrun
      simp
    | cons c cs ih =>
      obtain ⟨⟨n, m⟩, ⟨hvalid, hsource, htarget⟩, hrun⟩ := hrun
      cases hsource
      cases htarget
      obtain ⟨hsource, hnext, hedge⟩ := mem_pathEdges.1 hvalid.edge_mem
      obtain ⟨transfer, htransfer⟩ := Option.isSome_iff_exists.1 hsource
      obtain ⟨hlt, htarget, -⟩ := nextNode_spec hnext
      obtain ⟨hle, hpath⟩ := ih htarget hrun
      have hseg : Path PathItem.Step
          ((List.range' c.edge.source (c.edge.target - c.edge.source)).flatMap
            (loweredAt path.items)) c.pre c.post := by
        rw [path_segment_iff htransfer hnext]
        have hnode := hvalid.transfer
        have hguard := hvalid.guard
        have heffects := hvalid.effects
        rw [transferAt_cfg path htransfer] at hnode
        rw [hedge] at hguard heffects
        exact ⟨c.mid, hnode, hguard, heffects⟩
      refine ⟨hlt.le.trans hle, ?_⟩
      rw [range'_split hlt.le hle, List.flatMap_append]
      exact Path.append hseg hpath
  · rintro ⟨hle, hpath⟩
    induction hd : a - v using Nat.strong_induction_on generalizing v s with
    | _ d ih =>
      subst hd
      rcases Nat.eq_or_lt_of_le hle with rfl | hlt
      · rw [Nat.sub_self] at hpath
        exact ⟨[], congrArg (Position.mk v) hpath⟩
      · obtain ⟨next, hnext, hnexta⟩ := exists_nextNode hlt ha
        obtain ⟨hvnext, hvisible, -⟩ := nextNode_spec hnext
        obtain ⟨transfer, htransfer⟩ := Option.isSome_iff_exists.1 hv
        rw [range'_split hvnext.le hnexta, List.flatMap_append, Path.append_iff] at hpath
        obtain ⟨m, hseg, hpath⟩ := hpath
        obtain ⟨mid, hnode, hguard, heffects⟩ := (path_segment_iff htransfer hnext).1 hseg
        obtain ⟨cs, hrun⟩ := ih (a - next) (by omega) hvisible hnexta hpath rfl
        let e : AbstractEdge :=
          ⟨v, v, next, (edgeOf path.items v).1, (edgeOf path.items v).2⟩
        have he : e ∈ path.cfg.edges := mem_pathEdges.2 ⟨hv, hnext, rfl⟩
        refine ⟨⟨e, s, mid, m⟩ :: cs, ⟨next, m⟩, ⟨⟨he, ?_, hguard, heffects⟩, rfl, rfl⟩, hrun⟩
        show (path.cfg.transferAt v).Run .unknownCallees s mid
        rw [transferAt_cfg path htransfer]
        exact hnode

/-- The executions of the lowered path from its entry. -/
theorem run_entry_iff (ha : (visibleAt path.items a).isSome) :
    (∃ cs, path.cfg.Run .unknownCallees cs ⟨path.cfg.entry, s⟩ ⟨a, t⟩) ↔
      Path PathItem.Step (loweredBefore path.items a) s t := by
  have hentry : (visibleAt path.items path.cfg.entry).isSome := Nat.find_spec path.nonempty
  have hle : path.cfg.entry ≤ a := Nat.find_min' path.nonempty ha
  have hfirst : ∀ i, i < path.cfg.entry → ¬ (visibleAt path.items i).isSome :=
    fun i hi ↦ Nat.find_min path.nonempty hi
  have hnil : (List.range path.cfg.entry).flatMap (loweredAt path.items) = [] := by
    refine List.flatMap_eq_nil_iff.2 fun i hi ↦ loweredAt_eq_nil fun x hx ↦ ?_
    rw [List.mem_range] at hi
    cases x with
    | visible displayName transfer =>
      have hvisible := visibleAt_eq_some_iff.2 ⟨displayName, hx⟩
      exact absurd (Option.isSome_iff_exists.2 ⟨transfer, hvisible⟩) (hfirst i hi)
    | enter guard effects =>
      obtain ⟨i', rfl, hvisible⟩ := path.enter_after i guard effects hx
      exact absurd hvisible (hfirst i' (Nat.lt_of_succ_lt hi))
    | _ => rfl
  have hsplit := range'_split (Nat.zero_le path.cfg.entry) hle
  rw [Nat.sub_zero, Nat.sub_zero, ← List.range_eq_range', ← List.range_eq_range'] at hsplit
  rw [run_cfg_iff hentry ha, and_iff_right hle, loweredBefore, hsplit, List.flatMap_append, hnil,
    List.nil_append]

end BlockPath

/-! ### What has been met -/

/-- The lowered path meets the item at a position on the way through a node: it stands there or
before, or it is anchored there or before. -/
def MetUpTo (items : List PathItem) (node position : ℕ) : Prop :=
  (∃ x, items[position]? = some x ∧ x.isMove = true ∧ position ≤ node) ∨
    ∃ site n, assumeSiteAt items position = some site ∧ chooseAssumeNode items site = some n ∧
      n ≤ node

theorem metUpTo_iff_of_isMove {items : List PathItem} {a j : ℕ} {x : PathItem}
    (hx : items[j]? = some x) (hmove : x.isMove = true) : MetUpTo items a j ↔ j ≤ a := by
  refine ⟨?_, fun h ↦ .inl ⟨x, hx, hmove, h⟩⟩
  rintro (⟨-, -, -, h⟩ | ⟨site, n, hsite, -⟩)
  · exact h
  · rcases (assumeSiteAt_spec hsite).1 with ⟨hitem, -⟩ | ⟨hitem, -⟩ <;>
      rw [hx, Option.some.injEq] at hitem <;> rw [hitem] at hmove <;> cases hmove

/-- The assumptions at the given positions hold. -/
def AssumptionsHold (items : List PathItem) (S : ℕ → Prop) (s : State) : Prop :=
  ∀ p operand, items[p]? = some (.mayAssume operand) → S p → operand.condition.Holds s

section Lists

variable {items : List PathItem} {j k n a p : ℕ} {x y : PathItem} {s t : State} {v : Var}

theorem filter_isMove_loweredAt (items : List PathItem) (j : ℕ) :
    (loweredAt items j).filter (·.isMove) = items[j]?.toList.filter (·.isMove) := by
  have hcalls : ((anchoredAt items j).filterMap (items[·]?)).filter (·.isMove) = [] := by
    rw [List.filter_eq_nil_iff]
    intro x hx
    obtain ⟨k, hk, hitem⟩ := List.mem_filterMap.1 hx
    obtain ⟨site, hsite, -⟩ := mem_anchoredAt.1 hk
    rcases (assumeSiteAt_spec hsite).1 with ⟨hitem', -⟩ | ⟨hitem', -⟩ <;>
      rw [hitem', Option.some.injEq] at hitem <;> simp [← hitem, PathItem.isMove]
  rw [loweredAt]
  split
  · rename_i displayName transfer hitem
    rw [hitem, List.filter_cons_of_pos rfl, hcalls]
    rfl
  · rename_i guard effects hitem
    rw [hitem]
    rfl
  · rename_i hvisible henter
    rcases hitem : items[j]? with _ | x
    · rfl
    · cases x with
      | visible displayName transfer => exact absurd hitem (hvisible displayName transfer)
      | enter guard effects => exact absurd hitem (henter guard effects)
      | _ => rfl

/-- The lowered path moves as the original one does. -/
theorem filter_isMove_loweredBefore (items : List PathItem) (n : ℕ) :
    (loweredBefore items n).filter (·.isMove) = (items.take n).filter (·.isMove) := by
  induction n with
  | zero => rfl
  | succ n ih =>
    rw [loweredBefore, List.range_succ, List.flatMap_append, List.filter_append,
      List.take_add_one, List.filter_append, ← ih, List.flatMap_singleton, filter_isMove_loweredAt]
    rfl

theorem isMove_of_mem_anchoredAt (hp : p ∈ anchoredAt items a) (hitem : items[p]? = some x) :
    x.isMove = false := by
  obtain ⟨site, hsite, -⟩ := mem_anchoredAt.1 hp
  rcases (assumeSiteAt_spec hsite).1 with ⟨hitem', -⟩ | ⟨hitem', -⟩ <;>
    rw [hitem', Option.some.injEq] at hitem <;> rw [← hitem] <;> rfl

/-- What stands at a position of the lowered path. -/
theorem mem_loweredAt (h : x ∈ loweredAt items j) :
    items[j]? = some x ∧ x.isMove = true ∨
      x.isMove = false ∧ ∃ p ∈ anchoredAt items j, items[p]? = some x := by
  rw [loweredAt] at h
  split at h
  · rename_i displayName transfer hitem
    rcases List.mem_cons.1 h with rfl | h
    · exact .inl ⟨hitem, rfl⟩
    · obtain ⟨p, hp, hitem⟩ := List.mem_filterMap.1 h
      exact .inr ⟨isMove_of_mem_anchoredAt hp hitem, p, hp, hitem⟩
  · rename_i guard effects hitem
    obtain rfl := List.mem_singleton.1 h
    exact .inl ⟨hitem, rfl⟩
  · cases h

theorem mem_loweredBefore_of_anchoredAt (hp : p ∈ anchoredAt items a) (hitem : items[p]? = some x)
    (ha : a < n) : x ∈ loweredBefore items n := by
  obtain ⟨site, hsite, hnode⟩ := mem_anchoredAt.1 hp
  obtain ⟨hvisible, -⟩ := chooseAssumeNode_spec hsite hnode
  obtain ⟨transfer, htransfer⟩ := Option.isSome_iff_exists.1 hvisible
  obtain ⟨displayName, -, hlowered⟩ := loweredAt_visible htransfer
  refine List.mem_flatMap.2 ⟨a, List.mem_range.2 ha, ?_⟩
  rw [hlowered]
  exact List.mem_cons_of_mem _ (List.mem_filterMap.2 ⟨p, hp, hitem⟩)

/-- An anchored call stands before what follows its node. -/
theorem lt_of_mem_anchoredAt (hp : p ∈ anchoredAt items a) (haj : a < j)
    (hy : items[j]? = some y) (hmove : y.isMove = true) : p < j := by
  obtain ⟨site, hsite, hnode⟩ := mem_anchoredAt.1 hp
  refine lt_of_neighbour (chooseAssumeNode_spec hsite hnode).2 (fun x' hx' ↦ ?_) haj hy hmove
  exact isMove_of_mem_anchoredAt hp hx'

theorem step_of_not_isMove (h : x.isMove = false) : x.Step s t ↔ x.test.Holds s ∧ s = t := by
  cases x with
  | visible displayName transfer => cases h
  | enter guard effects => cases h
  | mayAssume operand =>
    constructor
    · rintro ⟨m, ⟨hcondition, rfl⟩, rfl⟩
      exact ⟨hcondition, rfl⟩
    · rintro ⟨hcondition, rfl⟩
      exact ⟨s, ⟨hcondition, rfl⟩, rfl⟩
  | mayTypeBound operand =>
    constructor
    · rintro ⟨m, ⟨-, rfl⟩, rfl⟩
      exact ⟨Formula.holds_tru _, rfl⟩
    · rintro ⟨-, rfl⟩
      exact ⟨s, ⟨False.elim, rfl⟩, rfl⟩
  | _ => exact ⟨fun h ↦ ⟨Formula.holds_tru _, h⟩, And.right⟩

/-- Another value of a scalar that no item mentions makes no difference. -/
theorem path_set {L : List PathItem} {z : Value} (hL : ∀ x ∈ L, ¬ x.Mentions v)
    (h : Path PathItem.Step L s t) : Path PathItem.Step L (s.set v z) (t.set v z) := by
  induction L generalizing s with
  | nil => exact congrArg (·.set v z) h
  | cons x L ih =>
    obtain ⟨m, hstep, hpath⟩ := h
    rw [List.forall_mem_cons] at hL
    refine ⟨m.set v z, Effects.Run.set hstep fun e he hv ↦ hL.1 (.inl ⟨e, he, hv⟩), ih hL.2 hpath⟩

/-- A constant or a Boolean variable looks at one variable only. -/
theorem holds_iff_of_form {φ : Formula}
    (hform : φ = .tru ∨ φ = .fls ∨ ∃ name, φ = .var (.bool name))
    (h : ∀ v, φ = .var v → t.lookup v = s.lookup v) : φ.Holds s ↔ φ.Holds t := by
  rcases hform with rfl | rfl | ⟨name, rfl⟩
  · exact Iff.rfl
  · exact Iff.rfl
  · rw [Formula.holds_var, Formula.holds_var, h _ rfl]

theorem propositional_of_form {φ : Formula}
    (hform : φ = .tru ∨ φ = .fls ∨ ∃ name, φ = .var (.bool name)) : φ.Propositional := by
  rcases hform with rfl | rfl | ⟨name, rfl⟩
  · exact (hereditary_readsWithin _ _).tru
  · exact (hereditary_readsWithin _ _).fls
  · refine ⟨fun v hv ↦ ?_, fun l hl ↦ ?_⟩
    · simp [Formula.ReadsInTerm, Formula.termLeaves] at hv
    · rw [Formula.leaves, List.mem_singleton] at hl
      rw [hl]
      trivial

end Lists

/-- The condition a call checks. -/
def PathItem.checked : PathItem → Option Formula
  | .mayAssert operand => some operand.condition
  | .unconditionalFail _ => some .fls
  | _ => none

namespace BlockPath

variable {path : BlockPath} {i j k n a p : ℕ} {x y : PathItem} {s t : State} {φ : Formula} {v : Var}

theorem ssa_at (path : BlockPath) (hij : i < j) (hx : path.items[i]? = some x)
    (hy : path.items[j]? = some y) (hv : x.Mentions v) : ¬ y.Writes v := by
  obtain ⟨hi, rfl⟩ := List.getElem?_eq_some_iff.1 hx
  obtain ⟨hj, rfl⟩ := List.getElem?_eq_some_iff.1 hy
  exact List.pairwise_iff_getElem.1 path.ssa i j hi hj hij v hv

theorem lookup_eq_of_step (h : y.Step s t) (hv : ¬ y.Writes v) : t.lookup v = s.lookup v :=
  Effects.Run.lookup_eq_of_not_writes h fun e he hw ↦ hv ⟨e, he, hw⟩

/-- What a call tests is not changed by what comes later. -/
theorem holds_operand_iff (path : BlockPath) {operand : CallOperand} (hij : i < j)
    (hx : path.items[i]? = some x) (hoperand : x.operand? = some operand)
    (hy : path.items[j]? = some y) (hstep : y.Step s t) :
    operand.condition.Holds s ↔ operand.condition.Holds t := by
  have hmem : x ∈ path.items := List.mem_of_getElem? hx
  refine holds_iff_of_form (path.condition_form x hmem operand hoperand) fun v hv ↦ ?_
  exact lookup_eq_of_step hstep (path.ssa_at hij hx hy (.inr ⟨operand, hoperand, hv⟩))

theorem holds_test_iff (path : BlockPath) (hij : i < j) (hx : path.items[i]? = some x)
    (hy : path.items[j]? = some y) (hstep : y.Step s t) : x.test.Holds s ↔ x.test.Holds t := by
  cases x with
  | mayAssume operand => exact path.holds_operand_iff hij hx rfl hy hstep
  | _ => exact Iff.rfl

/-- If the first item is a call and the second is none, the first stands before the second. -/
def CallBefore (path : BlockPath) (x y : PathItem) : Prop :=
  x.isMove = false → y.isMove = true →
    ∃ i j : ℕ, i < j ∧ path.items[i]? = some x ∧ path.items[j]? = some y

/-- The tests of a list of items can be made at its end. -/
theorem path_iff_gather {L : List PathItem} (hL : L.Pairwise path.CallBefore) :
    Path PathItem.Step L s t ↔
      Path PathItem.Step (L.filter (·.isMove)) s t ∧ ∀ x ∈ L, x.isMove = false →
        x.test.Holds t := by
  have htest : ∀ x ∈ L, x.isMove = false → ∀ s t, x.Step s t ↔ x.test.Holds s ∧ s = t :=
    fun x _ hx s t ↦ step_of_not_isMove hx
  refine Path.gather htest (hL.imp ?_)
  intro x y hxy hx hy s t hstep
  obtain ⟨i, j, hij, hxi, hyj⟩ := hxy hx hy
  exact path.holds_test_iff hij hxi hyj hstep

theorem pairwise_take (path : BlockPath) (k : ℕ) :
    (path.items.take k).Pairwise path.CallBefore := by
  refine List.Pairwise.sublist (List.take_sublist k _) ?_
  refine List.pairwise_iff_getElem.2 fun i j hi hj hij _ _ ↦ ?_
  exact ⟨i, j, hij, List.getElem?_eq_getElem hi, List.getElem?_eq_getElem hj⟩

theorem pairwise_loweredBefore (path : BlockPath) (n : ℕ) :
    (loweredBefore path.items n).Pairwise path.CallBefore := by
  refine List.pairwise_flatMap.2 ⟨fun j _ ↦ ?_, List.pairwise_lt_range.imp ?_⟩
  · -- Within a position the instruction comes first.
    rw [loweredAt]
    split
    · refine List.pairwise_cons.2 ⟨fun y _ hx ↦ Bool.noConfusion hx, ?_⟩
      refine List.pairwise_of_forall_mem_list fun x _ y hy _ hmove ↦ ?_
      obtain ⟨p, hp, hitem⟩ := List.mem_filterMap.1 hy
      rw [isMove_of_mem_anchoredAt hp hitem] at hmove
      cases hmove
    · exact List.pairwise_singleton _ _
    · exact List.Pairwise.nil
  · intro i j hij x hx y hy hxmove hymove
    rcases mem_loweredAt hx with ⟨-, hmove⟩ | ⟨-, p, hp, hitem⟩
    · rw [hxmove] at hmove
      cases hmove
    rcases mem_loweredAt hy with ⟨hyj, -⟩ | ⟨hmove, -⟩
    · exact ⟨p, j, lt_of_mem_anchoredAt hp hij hyj hymove, hitem, hyj⟩
    · rw [hymove] at hmove
      cases hmove

/-- The original path, with the assumptions made at the end. -/
theorem path_take_iff : Path PathItem.Step (path.items.take k) s t ↔
    Path PathItem.Step ((path.items.take k).filter (·.isMove)) s t ∧
      AssumptionsHold path.items (· < k) t := by
  rw [path_iff_gather (path.pairwise_take k)]
  refine and_congr_right fun _ ↦ ⟨fun h p operand hp hpk ↦ ?_, fun h x hx hmove ↦ ?_⟩
  · have hmem : PathItem.mayAssume operand ∈ path.items.take k :=
      List.mem_of_getElem? (by rw [List.getElem?_take_of_lt hpk]; exact hp)
    exact h _ hmem rfl
  · obtain ⟨p, hp⟩ := List.mem_iff_getElem?.1 hx
    rw [List.getElem?_take] at hp
    split_ifs at hp with hpk
    cases x with
    | mayAssume operand => exact h p operand hp hpk
    | _ => exact Formula.holds_tru t

/-- The lowered path, with the assumptions made at the end. -/
theorem path_loweredBefore_iff : Path PathItem.Step (loweredBefore path.items (a + 1)) s t ↔
    Path PathItem.Step ((path.items.take (a + 1)).filter (·.isMove)) s t ∧
      AssumptionsHold path.items (MetUpTo path.items a) t := by
  rw [path_iff_gather (path.pairwise_loweredBefore _), filter_isMove_loweredBefore]
  refine and_congr_right fun _ ↦ ⟨fun h p operand hp hmet ↦ ?_, fun h x hx hmove ↦ ?_⟩
  · rcases hmet with ⟨x, hx, hmove, -⟩ | ⟨site, n, hsite, hnode, hna⟩
    · rw [hp, Option.some.injEq] at hx
      rw [← hx] at hmove
      cases hmove
    · have hmem := mem_loweredBefore_of_anchoredAt (mem_anchoredAt.2 ⟨site, hsite, hnode⟩) hp
        (Nat.lt_succ_of_le hna)
      exact h _ hmem rfl
  · cases x with
    | mayAssume operand =>
      obtain ⟨m, hm, hx⟩ := List.mem_flatMap.1 hx
      rcases mem_loweredAt hx with ⟨-, hmove⟩ | ⟨-, p, hp, hitem⟩
      · cases hmove
      · obtain ⟨site, hsite, hnode⟩ := mem_anchoredAt.1 hp
        have hma : m < a + 1 := List.mem_range.1 hm
        exact h p operand hitem (.inr ⟨site, m, hsite, hnode, Nat.le_of_lt_succ hma⟩)
    | _ => exact Formula.holds_tru t

/-- A path that moves on through instructions without assumptions can do so, and what they leave
alone holds afterwards if it held before. -/
theorem exists_path_moves_iff {m n : ℕ} {P : State → Prop} (hmn : m ≤ n)
    (hfree : ∀ j x, m ≤ j → j < n → path.items[j]? = some x → x.isMove = true → ¬ x.Constrains)
    (hP : ∀ j x, m ≤ j → j < n → path.items[j]? = some x → x.isMove = true →
      ∀ s t, x.Step s t → (P s ↔ P t)) :
    (∃ s t, Path PathItem.Step ((path.items.take m).filter (·.isMove)) s t ∧ P t) ↔
      ∃ s t, Path PathItem.Step ((path.items.take n).filter (·.isMove)) s t ∧ P t := by
  have hsplit : (path.items.take n).filter (·.isMove) =
      (path.items.take m).filter (·.isMove) ++
        ((path.items.take n).drop m).filter (·.isMove) := by
    have happend := List.take_append_drop m (path.items.take n)
    rw [List.take_take, Nat.min_eq_left hmn] at happend
    rw [← List.filter_append, happend]
  have hbetween : ∀ x ∈ ((path.items.take n).drop m).filter (·.isMove),
      x.isMove = true ∧ ∃ j, m ≤ j ∧ j < n ∧ path.items[j]? = some x := by
    intro x hx
    obtain ⟨hx, hmove⟩ := List.mem_filter.1 hx
    obtain ⟨i, hi⟩ := List.mem_iff_getElem?.1 hx
    rw [List.getElem?_drop, List.getElem?_take] at hi
    split_ifs at hi with hlt
    exact ⟨hmove, m + i, Nat.le_add_right m i, hlt, hi⟩
  have htotal (s : State) : ∃ t, Path PathItem.Step
      (((path.items.take n).drop m).filter (·.isMove)) s t := by
    refine Path.exists_of_total (fun x hx s ↦ ?_) s
    obtain ⟨hmove, j, hmj, hjn, hitem⟩ := hbetween x hx
    have hnot := hfree j x hmj hjn hitem hmove
    cases x with
    | visible displayName transfer =>
      have hform := path.transfer_form _ (List.mem_of_getElem? hitem) displayName transfer rfl
      exact hform.exists_run (fun e he hc ↦ hnot ⟨e, he, hc⟩) s
    | enter guard effects => exact absurd trivial hnot
    | _ => cases hmove
  have hkeeps {s t : State} (h : Path PathItem.Step
      (((path.items.take n).drop m).filter (·.isMove)) s t) : P s ↔ P t := by
    refine Path.rel (R := fun s t ↦ (P s ↔ P t)) (fun _ ↦ Iff.rfl) (fun _ _ _ ↦ Iff.trans)
      (fun x hx s t hstep ↦ ?_) h
    obtain ⟨hmove, j, hmj, hjn, hitem⟩ := hbetween x hx
    exact hP j x hmj hjn hitem hmove s t hstep
  rw [hsplit]
  simp only [Path.append_iff]
  constructor
  · rintro ⟨s, t, hpath, ht⟩
    obtain ⟨u, hrest⟩ := htotal t
    exact ⟨s, u, ⟨t, hpath, hrest⟩, (hkeeps hrest).1 ht⟩
  · rintro ⟨s, u, ⟨t, hpath, hrest⟩, hu⟩
    exact ⟨s, t, hpath, (hkeeps hrest).2 hu⟩

/-! ### The checks -/

/-- Some execution of the original path reaches the call with its condition false, or the error
call. -/
def Fails (path : BlockPath) (k : ℕ) : Prop :=
  ∃ x φ, path.items[k]? = some x ∧ x.checked = some φ ∧
    ∃ s t, Path PathItem.Step (path.items.take k) s t ∧ ¬ φ.Holds t

/-- Some execution of the lowered path reaches the anchor in a state that satisfies the anchor's
transformer of the negated obligation. -/
def LoweredFails (path : BlockPath) (site : AssertionSite) : Prop :=
  ∃ cs s₀ s, path.cfg.Run .unknownCallees cs ⟨path.cfg.entry, s₀⟩ ⟨site.node, s⟩ ∧
    ((path.cfg.transferAt site.node).wp (.not site.obligation)).Holds s

/-- The check of a call is moved to its anchor without harm: it fails there if and only if it fails
at the call, and no assumption that comes after the call is met on the way. -/
def AnchoredRight (path : BlockPath) (k : ℕ) : Prop :=
  ∀ site index lowered, assertSiteAt path.items k = some site →
    lowerAssertion path.items site index = some lowered →
      (path.Fails k ↔ path.LoweredFails lowered) ∧
        ∀ j operand, path.items[j]? = some (.mayAssume operand) →
          MetUpTo path.items lowered.node j → j < k

/-- What can stop an execution comes before the call exactly if the lowered path meets it up to the
anchor. -/
def SameConstraints (path : BlockPath) (k : ℕ) : Prop :=
  ∀ site node, assertSiteAt path.items k = some site →
    chooseAssertNode path.items site = some node →
      ∀ j x, path.items[j]? = some x → x.Constrains → (j < k ↔ MetUpTo path.items node j)

theorem lowerAssertion_spec {site : AssertSite} {index : ℕ} {lowered : AssertionSite}
    (hsite : assertSiteAt path.items k = some site)
    (h : lowerAssertion path.items site index = some lowered) :
    chooseAssertNode path.items site = some lowered.node ∧
      ∃ x, path.items[k]? = some x ∧ x.checked = some lowered.obligation ∧ x.isMove = false := by
  rw [lowerAssertion] at h
  obtain ⟨node, hnode, h⟩ := Option.bind_eq_some_iff.1 h
  obtain rfl := Option.some.inj h
  refine ⟨hnode, ?_⟩
  rcases (assertSiteAt_spec hsite).1 with ⟨hitem, hfail⟩ | ⟨⟨displayName, hitem⟩, hfail, -⟩
  · exact ⟨_, hitem, by simp only [hfail]; rfl, rfl⟩
  · exact ⟨_, hitem, by simp only [hfail]; rfl, rfl⟩

/-- An obligation is a constant or a Boolean variable, and a variable is that of the call. -/
theorem checked_spec (path : BlockPath) (hx : path.items[k]? = some x) (h : x.checked = some φ) :
    (φ = .tru ∨ φ = .fls ∨ ∃ name, φ = .var (.bool name)) ∧
      ∀ v, φ = .var v → ∃ operand, x = .mayAssert operand ∧ operand.condition = .var v := by
  cases x with
  | mayAssert operand =>
    obtain rfl := Option.some.inj h
    exact ⟨path.condition_form _ (List.mem_of_getElem? hx) operand rfl,
      fun v hv ↦ ⟨operand, rfl, hv⟩⟩
  | unconditionalFail displayName =>
    obtain rfl := Option.some.inj h
    exact ⟨.inr (.inl rfl), fun v hv ↦ by cases hv⟩
  | _ => cases h

/-- The pushed effects are assumptions and type bounds about Boolean variables. -/
theorem propositional_of_mem_pushed {e : TransferEffect} (he : e ∈ pushedEffects path.items n) :
    ∃ φ : Formula, φ.Propositional ∧ (e = .assume φ ∨ e = .typeBound φ) := by
  obtain ⟨p, hp, he⟩ := List.mem_filterMap.1 he
  obtain ⟨call, hcall, -⟩ := mem_anchoredAt.1 hp
  rw [hcall] at he
  obtain rfl := Option.some.inj he
  rcases (assumeSiteAt_spec hcall).1 with ⟨hitem, htype⟩ | ⟨hitem, htype⟩
  · have hform := path.condition_form _ (List.mem_of_getElem? hitem) _ rfl
    exact ⟨_, propositional_of_form hform, .inl (by rw [AssumeSite.effect, htype]; rfl)⟩
  · have hform := path.condition_form _ (List.mem_of_getElem? hitem) _ rfl
    exact ⟨_, propositional_of_form hform, .inr (by rw [AssumeSite.effect, htype]; rfl)⟩

theorem holds_wp_pushed_iff (hφ : φ.Propositional) :
    (TransferFn.wp ⟨pushedEffects path.items n⟩ φ).Holds s ↔
      ∃ t, Effects.Run .unknownCallees (pushedEffects path.items n) s t ∧ φ.Holds t := by
  rw [hφ.holds_wp_iff]
  · intro e he
    obtain ⟨φ, -, rfl | rfl⟩ := propositional_of_mem_pushed he <;> exact ⟨id, id⟩
  · intro e he s
    obtain ⟨φ, -, rfl | rfl⟩ := propositional_of_mem_pushed he <;> trivial
  · intro b p hb
    obtain ⟨φ, -, h | h⟩ := propositional_of_mem_pushed hb <;> cases h

theorem propositional_wp_pushed (hφ : φ.Propositional) :
    (TransferFn.wp ⟨pushedEffects path.items n⟩ φ).Propositional := by
  refine Formula.ReadsWithin.wp hφ fun e he ↦ ?_
  obtain ⟨φ, hφ, rfl | rfl⟩ := propositional_of_mem_pushed he
  · exact ⟨hφ.terms, hφ.regions⟩
  · exact ⟨fun v hv ↦ by simp [TransferEffect.ReadsInTerm, TransferEffect.termLeaves] at hv,
      fun l hl ↦ by cases hl⟩

/-- The lowered path fails where it runs through the anchor and then violates the obligation. -/
theorem loweredFails_iff {site : AssertionSite} (hvisible : (visibleAt path.items site.node).isSome)
    (hform : site.obligation = .tru ∨ site.obligation = .fls ∨
      ∃ name, site.obligation = .var (.bool name)) :
    path.LoweredFails site ↔ ∃ s t,
      Path PathItem.Step (loweredBefore path.items (site.node + 1)) s t ∧
        ¬ site.obligation.Holds t := by
  obtain ⟨transfer, htransfer⟩ := Option.isSome_iff_exists.1 hvisible
  obtain ⟨displayName, hitem⟩ := visibleAt_eq_some_iff.1 htransfer
  have hinstruction := path.transfer_form _ (List.mem_of_getElem? hitem) displayName transfer rfl
  let ψ := TransferFn.wp ⟨pushedEffects path.items site.node⟩ (.not site.obligation)
  have hnot : (Formula.not site.obligation).Propositional :=
    ((hereditary_readsWithin _ _).not_iff _).2 (propositional_of_form hform)
  have hψ (s : State) : ψ.Holds s ↔ ∃ t, Effects.Run .unknownCallees
      (pushedEffects path.items site.node) s t ∧ ¬ site.obligation.Holds t := by
    rw [holds_wp_pushed_iff hnot]
    simp only [Formula.holds_not]
  have hψ' : ψ.Propositional := propositional_wp_pushed hnot
  have hwp : (path.cfg.transferAt site.node).wp (.not site.obligation) = transfer.wp ψ := by
    rw [transferAt_cfg path htransfer, TransferFn.wp_eq_foldr, List.foldr_append,
      ← TransferFn.wp_eq_foldr ⟨pushedEffects path.items site.node⟩,
        ← TransferFn.wp_eq_foldr transfer]
  have hsplit (s t : State) :
      Path PathItem.Step (loweredBefore path.items (site.node + 1)) s t ↔
        ∃ m, Path PathItem.Step (loweredBefore path.items site.node) s m ∧
          ∃ u, transfer.Run .unknownCallees m u ∧
            Effects.Run .unknownCallees (pushedEffects path.items site.node) u t := by
    rw [loweredBefore, List.range_succ, List.flatMap_append, List.flatMap_singleton,
      Path.append_iff]
    refine exists_congr fun m ↦ and_congr_right fun _ ↦ ?_
    rw [run_loweredAt htransfer]
    exact Path.append_iff
  have hreach : path.LoweredFails site ↔ ∃ s m,
      Path PathItem.Step (loweredBefore path.items site.node) s m ∧ (transfer.wp ψ).Holds m := by
    rw [LoweredFails]
    rw [hwp]
    simp only [← run_entry_iff hvisible]
    constructor
    · rintro ⟨cs, s, m, hrun, hm⟩
      exact ⟨s, m, ⟨cs, hrun⟩, hm⟩
    · rintro ⟨s, m, ⟨cs, hrun⟩, hm⟩
      exact ⟨cs, s, m, hrun, hm⟩
  rw [hreach]
  simp only [hsplit]
  constructor
  · rintro ⟨s, m, hpath, hm⟩
    obtain ⟨u, hrun, hu⟩ := hinstruction.exists_run_of_holds_wp hψ' hm
    obtain ⟨t, hpushed, ht⟩ := (hψ u).1 hu
    exact ⟨s, t, ⟨m, hpath, u, hrun, hpushed⟩, ht⟩
  · rintro ⟨s, t, ⟨m, hpath, u, hrun, hpushed⟩, ht⟩
    rcases hinstruction.exists_set_holds_wp hψ' hrun ((hψ u).2 ⟨t, hpushed, ht⟩) with
      hm | ⟨v, z, hwrites, hm⟩
    · exact ⟨s, m, hpath, hm⟩
    · -- The scalar that the anchor brings in is not mentioned before the anchor.
      refine ⟨s.set v z, m.set v z, path_set (fun x hx hv ↦ ?_) hpath, hm⟩
      obtain ⟨j, hj, hx⟩ := List.mem_flatMap.1 hx
      rw [List.mem_range] at hj
      rcases mem_loweredAt hx with ⟨hxj, -⟩ | ⟨-, p, hp, hxp⟩
      · exact path.ssa_at hj hxj hitem hv hwrites
      · exact path.ssa_at (lt_of_mem_anchoredAt hp hj hitem rfl) hxp hitem hv hwrites

theorem fails_iff (hx : path.items[k]? = some x) (hφ : x.checked = some φ) :
    path.Fails k ↔ ∃ s t, Path PathItem.Step (path.items.take k) s t ∧ ¬ φ.Holds t := by
  constructor
  · rintro ⟨y, ψ, hy, hψ, h⟩
    obtain rfl := Option.some.inj (hx.symm.trans hy)
    obtain rfl := Option.some.inj (hφ.symm.trans hψ)
    exact h
  · exact fun h ↦ ⟨x, φ, hx, hφ, h⟩

/-- Instructions between the call and its anchor do not change what the call checks. -/
theorem holds_checked_iff {site : AssertSite} (hsite : assertSiteAt path.items k = some site)
    (hnode : chooseAssertNode path.items site = some a) (hx : path.items[k]? = some x)
    (hφ : x.checked = some φ) (hy : path.items[j]? = some y) (hmove : y.isMove = true)
    (hj : k ≤ j ∨ a < j ∧ j < k) (hstep : y.Step s t) : φ.Holds s ↔ φ.Holds t := by
  obtain ⟨hform, hvar⟩ := path.checked_spec hx hφ
  refine holds_iff_of_form hform fun v hv ↦ lookup_eq_of_step hstep ?_
  obtain ⟨operand, rfl, hcondition⟩ := hvar v hv
  rcases hj with hkj | ⟨haj, hjk⟩
  · rcases Nat.eq_or_lt_of_le hkj with rfl | hlt
    · obtain rfl := Option.some.inj (hx.symm.trans hy)
      cases hmove
    · exact path.ssa_at hlt hx hy (.inr ⟨operand, rfl, hcondition⟩)
  · rcases (chooseAssertNode_spec hsite hnode).2 with hdefiner | hneighbour
    · -- The anchor defines the asserted value.
      rcases (assertSiteAt_spec hsite).1 with ⟨hitem, -⟩ | ⟨⟨displayName, hitem⟩, -⟩
      · obtain rfl := PathItem.mayAssert.inj (Option.some.inj (hx.symm.trans hitem))
        exact path.definer_last k _ _ a v hitem rfl hdefiner hcondition j y haj hy
      · cases hx.symm.trans hitem
    · cases hneighbour with
      | predecessor lt between =>
        rw [between j y haj hjk hy] at hmove
        cases hmove
      | successor lt between => omega

/-- Where the same constraints are met, anchoring is right. -/
theorem anchoredRight_of_sameConstraints (h : path.SameConstraints k) : path.AnchoredRight k := by
  intro site index lowered hsite hlowered
  obtain ⟨hnode, x, hx, hφ, hxmove⟩ := lowerAssertion_spec hsite hlowered
  have hconstraints := h site lowered.node hsite hnode
  refine ⟨?_, fun j operand hj hmet ↦ (hconstraints j _ hj trivial).2 hmet⟩
  have hvisible := (chooseAssertNode_spec hsite hnode).1
  have hassumptions (t : State) : AssumptionsHold path.items (MetUpTo path.items lowered.node) t ↔
      AssumptionsHold path.items (· < k) t :=
    forall_congr' fun p ↦ forall_congr' fun operand ↦ forall_congr' fun hp ↦
      imp_congr_left (hconstraints p _ hp trivial).symm
  rw [fails_iff hx hφ, loweredFails_iff hvisible (path.checked_spec hx hφ).1]
  simp only [path_take_iff, path_loweredBefore_iff, hassumptions, and_assoc]
  -- An assumption that has been met is kept by the moves between the call and its anchor.
  have hkeeps {j : ℕ} {y : PathItem} (hy : path.items[j]? = some y) (hmove : y.isMove = true)
      (hj : k ≤ j ∨ lowered.node < j ∧ j < k) {s t : State} (hstep : y.Step s t) :
      AssumptionsHold path.items (· < k) s ∧ ¬ lowered.obligation.Holds s ↔
        AssumptionsHold path.items (· < k) t ∧ ¬ lowered.obligation.Holds t := by
    refine and_congr (forall_congr' fun p ↦ forall_congr' fun operand ↦ forall_congr' fun hp ↦
      forall_congr' fun hpk ↦ path.holds_operand_iff ?_ hp rfl hy hstep) (not_congr ?_)
    · rcases hj with hkj | ⟨haj, -⟩
      · exact Nat.lt_of_lt_of_le hpk hkj
      · rcases (hconstraints p _ hp trivial).1 hpk with ⟨z, hz, hzmove, -⟩ |
          ⟨call, n, hcall, hn, hna⟩
        · rw [hp, Option.some.injEq] at hz
          rw [← hz] at hzmove
          cases hzmove
        · exact lt_of_mem_anchoredAt (mem_anchoredAt.2 ⟨call, hcall, hn⟩)
            (hna.trans_lt haj) hy hmove
    · exact holds_checked_iff hsite hnode hx hφ hy hmove hj hstep
  rcases Nat.lt_or_ge lowered.node k with hlt | hge
  · refine (exists_path_moves_iff hlt (fun j y haj hjk hy hmove hconstrains ↦ ?_)
      fun j y haj hjk hy hmove s t ↦ hkeeps hy hmove (.inr ⟨haj, hjk⟩)).symm
    have hmet := (hconstraints j y hy hconstrains).1 hjk
    rw [metUpTo_iff_of_isMove hy hmove] at hmet
    exact absurd hmet (Nat.not_le_of_lt haj)
  · refine exists_path_moves_iff (Nat.le_succ_of_le hge) (fun j y hkj hja hy hmove hconstrains ↦ ?_)
      fun j y hkj hja hy hmove s t ↦ hkeeps hy hmove (.inl hkj)
    have hmet := (metUpTo_iff_of_isMove hy hmove).2 (Nat.le_of_lt_succ hja)
    exact absurd ((hconstraints j y hy hconstrains).2 hmet) (Nat.not_lt_of_le hkj)

end BlockPath

/-! ### Shapes -/

/-- What anchoring looks at: the kinds of the items and where asserted values are defined. -/
inductive ItemShape
  | visible (constrains : Bool)
  | mayAssert (definer : Option ℕ)
  | unconditionalFail
  | mayAssume
  | mayTypeBound
  | noise
  | enter
  deriving DecidableEq

/-- The shape of an item. -/
def PathItem.shape : PathItem → ItemShape
  | .visible _ transfer => .visible (decide (∃ e ∈ transfer.effects, e.Constrains))
  | .mayAssert operand => .mayAssert operand.definer
  | .unconditionalFail _ => .unconditionalFail
  | .mayAssume _ => .mayAssume
  | .mayTypeBound _ => .mayTypeBound
  | .noise => .noise
  | .enter .. => .enter

section Shapes

variable {items items' : List PathItem} {j k n a : ℕ} {x y : PathItem}

theorem shape_at (h : items.map PathItem.shape = items'.map PathItem.shape) (j : ℕ) :
    items[j]?.map PathItem.shape = items'[j]?.map PathItem.shape := by
  rw [← List.getElem?_map, ← List.getElem?_map, h]

theorem exists_of_shape (h : items.map PathItem.shape = items'.map PathItem.shape)
    (hx : items[j]? = some x) : ∃ y, items'[j]? = some y ∧ x.shape = y.shape := by
  have hshape := shape_at h j
  rw [hx, Option.map_some, eq_comm, Option.map_eq_some_iff] at hshape
  obtain ⟨y, hy, hxy⟩ := hshape
  exact ⟨y, hy, hxy.symm⟩

theorem isSome_visibleAt_congr (h : items.map PathItem.shape = items'.map PathItem.shape)
    (hvisible : (visibleAt items j).isSome) : (visibleAt items' j).isSome := by
  obtain ⟨transfer, htransfer⟩ := Option.isSome_iff_exists.1 hvisible
  obtain ⟨displayName, hitem⟩ := visibleAt_eq_some_iff.1 htransfer
  obtain ⟨y, hy, hshape⟩ := exists_of_shape h hitem
  cases y with
  | visible displayName' transfer' =>
    exact Option.isSome_iff_exists.2 ⟨transfer', visibleAt_eq_some_iff.2 ⟨displayName', hy⟩⟩
  | _ => cases hshape

theorem instructionNode_congr (h : items.map PathItem.shape = items'.map PathItem.shape) (j : ℕ) :
    instructionNode items j = instructionNode items' j := by
  refine Option.ext fun n ↦ ?_
  rw [instructionNode_eq_some_iff, instructionNode_eq_some_iff]
  exact and_congr_right fun _ ↦ ⟨isSome_visibleAt_congr h, isSome_visibleAt_congr h.symm⟩

theorem previousVisibleInstruction_congr (h : items.map PathItem.shape = items'.map PathItem.shape)
    (k : ℕ) : previousVisibleInstruction items k = previousVisibleInstruction items' k := by
  induction k with
  | zero => rfl
  | succ k ih =>
    have hshape := shape_at h k
    rw [previousVisibleInstruction, previousVisibleInstruction]
    generalize items[k]? = x at hshape
    generalize items'[k]? = y at hshape
    rcases x with _ | (_ | _ | _ | _ | _ | _ | _) <;>
      rcases y with _ | (_ | _ | _ | _ | _ | _ | _) <;> first | exact ih | rfl | cases hshape

theorem firstVisibleInstruction_congr (h : items.map PathItem.shape = items'.map PathItem.shape)
    (k : ℕ) : firstVisibleInstruction items k = firstVisibleInstruction items' k := by
  induction items generalizing items' k with
  | nil =>
    obtain rfl := List.map_eq_nil_iff.1 h.symm
    rfl
  | cons x items ih =>
    obtain ⟨y, items', rfl, hxy, h⟩ := List.map_eq_cons_iff.1 h.symm
    have ih := ih h.symm (k + 1)
    cases x <;> cases y <;> first | exact ih | rfl | cases hxy

theorem nextVisibleInstruction_congr (h : items.map PathItem.shape = items'.map PathItem.shape)
    (k : ℕ) : nextVisibleInstruction items k = nextVisibleInstruction items' k :=
  firstVisibleInstruction_congr (by rw [List.map_drop, List.map_drop, h]) _

theorem chooseAssertNode_congr (h : items.map PathItem.shape = items'.map PathItem.shape)
    {site : AssertSite} (hsite : assertSiteAt items k = some site) :
    ∃ site', assertSiteAt items' k = some site' ∧
      chooseAssertNode items' site' = chooseAssertNode items site := by
  suffices hdefiner : ∃ site', assertSiteAt items' k = some site' ∧
      site'.assertedValue.definer = site.assertedValue.definer by
    obtain ⟨site', hsite', hdefiner⟩ := hdefiner
    refine ⟨site', hsite', ?_⟩
    have hnode := funext (instructionNode_congr h)
    rw [(assertSiteAt_spec hsite).2, (assertSiteAt_spec hsite').2, hdefiner, hnode,
      previousVisibleInstruction_congr h, nextVisibleInstruction_congr h]
  rcases (assertSiteAt_spec hsite).1 with ⟨hitem, -⟩ | ⟨⟨displayName, hitem⟩, -, hnone⟩
  · obtain ⟨y, hy, hshape⟩ := exists_of_shape h hitem
    cases y with
    | mayAssert operand =>
      refine ⟨⟨operand, _, _, false⟩, by rw [assertSiteAt, hy], ?_⟩
      exact (ItemShape.mayAssert.inj hshape).symm
    | _ => cases hshape
  · obtain ⟨y, hy, hshape⟩ := exists_of_shape h hitem
    cases y with
    | unconditionalFail displayName' =>
      exact ⟨⟨⟨displayName', .fls, none⟩, _, _, true⟩, by rw [assertSiteAt, hy], hnone.symm⟩
    | _ => cases hshape

theorem chooseAssumeNode_congr (h : items.map PathItem.shape = items'.map PathItem.shape)
    {site : AssumeSite} (hsite : assumeSiteAt items k = some site) :
    ∃ site', assumeSiteAt items' k = some site' ∧
      chooseAssumeNode items' site' = chooseAssumeNode items site := by
  suffices hsome : ∃ site', assumeSiteAt items' k = some site' by
    obtain ⟨site', hsite'⟩ := hsome
    refine ⟨site', hsite', ?_⟩
    have hnode := funext (instructionNode_congr h)
    rw [(assumeSiteAt_spec hsite).2, (assumeSiteAt_spec hsite').2, hnode,
      previousVisibleInstruction_congr h, nextVisibleInstruction_congr h]
  rcases (assumeSiteAt_spec hsite).1 with ⟨hitem, -⟩ | ⟨hitem, -⟩
  · obtain ⟨y, hy, hshape⟩ := exists_of_shape h hitem
    cases y with
    | mayAssume operand => exact ⟨⟨operand, _, _, false⟩, by rw [assumeSiteAt, hy]⟩
    | _ => cases hshape
  · obtain ⟨y, hy, hshape⟩ := exists_of_shape h hitem
    cases y with
    | mayTypeBound operand => exact ⟨⟨operand, _, _, true⟩, by rw [assumeSiteAt, hy]⟩
    | _ => cases hshape

theorem isMove_congr (h : x.shape = y.shape) : x.isMove = y.isMove := by
  cases x <;> cases y <;> first | rfl | cases h

theorem metUpTo_congr (h : items.map PathItem.shape = items'.map PathItem.shape)
    (hmet : MetUpTo items a j) : MetUpTo items' a j := by
  rcases hmet with ⟨x, hx, hmove, hja⟩ | ⟨site, n, hsite, hnode, hna⟩
  · obtain ⟨y, hy, hshape⟩ := exists_of_shape h hx
    exact .inl ⟨y, hy, (isMove_congr hshape).symm.trans hmove, hja⟩
  · obtain ⟨site', hsite', hnode'⟩ := chooseAssumeNode_congr h hsite
    exact .inr ⟨site', n, hsite', hnode'.trans hnode, hna⟩

theorem constrains_congr (h : x.shape = y.shape) (hx : x.Constrains) : y.Constrains := by
  cases x with
  | visible displayName transfer =>
    cases y with
    | visible displayName' transfer' =>
      exact (decide_eq_decide.1 (ItemShape.visible.inj h)).1 hx
    | _ => cases h
  | mayAssume operand =>
    cases y with
    | mayAssume operand' => trivial
    | _ => cases h
  | enter guard effects =>
    cases y with
    | enter guard' effects' => trivial
    | _ => cases h
  | _ => exact hx.elim

end Shapes

namespace BlockPath

/-- The paths have the same kinds of items, and values defined at the same places. -/
def SameShape (path path' : BlockPath) : Prop :=
  path.items.map PathItem.shape = path'.items.map PathItem.shape

theorem SameConstraints.congr {path path' : BlockPath} {k : ℕ} (hshape : path.SameShape path')
    (h : path.SameConstraints k) : path'.SameConstraints k := by
  intro site' node hsite' hnode' j y hy hconstrains
  obtain ⟨site, hsite, hnode⟩ := chooseAssertNode_congr hshape.symm hsite'
  obtain ⟨x, hx, hxy⟩ := exists_of_shape hshape.symm hy
  rw [h site node hsite (hnode.trans hnode') j x hx (constrains_congr hxy hconstrains)]
  exact ⟨metUpTo_congr hshape, metUpTo_congr hshape.symm⟩

/-! ### A path with one closed constraint -/

/-- The formula of a constraint that is closed at one position and open elsewhere. -/
def gate (closed position : ℕ) : Formula := if position = closed then .fls else .tru

/-- The item of the same shape that does nothing but stop executions if it stands at the closed
position. -/
def gateItem (closed position : ℕ) : PathItem → PathItem
  | .visible displayName transfer =>
    .visible displayName
      ⟨if ∃ e ∈ transfer.effects, e.Constrains then [.assume (gate closed position)] else []⟩
  | .mayAssert operand => .mayAssert { operand with condition := .var (.bool "") }
  | .mayAssume operand => .mayAssume { operand with condition := gate closed position }
  | .mayTypeBound operand => .mayTypeBound { operand with condition := .tru }
  | .enter _ _ => .enter (gate closed position) []
  | x => x

variable {closed i j k a : ℕ} {x y : PathItem} {s t : State}

theorem shape_gateItem (closed j : ℕ) (x : PathItem) : (gateItem closed j x).shape = x.shape := by
  cases x with
  | visible displayName transfer =>
    show ItemShape.visible (decide (∃ e ∈ (if ∃ e ∈ transfer.effects, e.Constrains then
      [TransferEffect.assume (gate closed j)] else []), e.Constrains)) = .visible _
    split_ifs with h
    · have hassume : ∃ e ∈ [TransferEffect.assume (gate closed j)], e.Constrains :=
        ⟨_, List.mem_singleton.2 rfl, trivial⟩
      rw [decide_eq_true hassume, decide_eq_true h]
    · simp [h]
  | _ => rfl

theorem step_gateItem : (gateItem closed j x).Step s t ↔ s = t ∧ (x.Constrains → j ≠ closed) := by
  have hassume : Effects.Run .unknownCallees [.assume (gate closed j)] s t ↔ s = t ∧
    j ≠ closed := by
    rw [gate]
    constructor
    · rintro ⟨m, ⟨hgate, rfl⟩, rfl⟩
      split_ifs at hgate with hj
      · cases hgate
      · exact ⟨rfl, hj⟩
    · rintro ⟨rfl, hj⟩
      exact ⟨s, ⟨by rw [if_neg hj]; rfl, rfl⟩, rfl⟩
  cases x with
  | visible displayName transfer =>
    have hstep : (gateItem closed j (.visible displayName transfer)).Step s t ↔
        Effects.Run .unknownCallees (if ∃ e ∈ transfer.effects, e.Constrains then
          [.assume (gate closed j)] else []) s t := Iff.rfl
    rw [hstep]
    split_ifs with h
    · rw [hassume]
      exact and_congr_right fun _ ↦ ⟨fun hj _ ↦ hj, fun hj ↦ hj h⟩
    · exact ⟨fun heq ↦ ⟨heq, fun hconstrains ↦ absurd hconstrains h⟩, And.left⟩
  | mayAssume operand =>
    exact hassume.trans (and_congr_right fun _ ↦ ⟨fun hj _ ↦ hj, fun hj ↦ hj trivial⟩)
  | enter guard effects =>
    exact hassume.trans (and_congr_right fun _ ↦ ⟨fun hj _ ↦ hj, fun hj ↦ hj trivial⟩)
  | mayTypeBound operand =>
    constructor
    · rintro ⟨m, ⟨-, rfl⟩, rfl⟩
      exact ⟨rfl, fun h ↦ h.elim⟩
    · rintro ⟨rfl, -⟩
      exact ⟨s, ⟨False.elim, rfl⟩, rfl⟩
  | _ => exact ⟨fun heq ↦ ⟨heq, fun h ↦ h.elim⟩, And.left⟩

theorem not_writes_gateItem (v : Var) : ¬ (gateItem closed j x).Writes v := by
  rintro ⟨e, he, hwrites⟩
  cases x with
  | visible displayName transfer =>
    have he' : e ∈ if ∃ e ∈ transfer.effects, e.Constrains then
      [TransferEffect.assume (gate closed j)] else [] := he
    split_ifs at he'
    · obtain rfl := List.mem_singleton.1 he'
      exact hwrites
    · cases he'
  | mayAssume operand | mayTypeBound operand | enter guard effects =>
    obtain rfl := List.mem_singleton.1 he
    exact hwrites
  | _ => cases he

/-- The items of a path with one gate closed. -/
def gateItems (path : BlockPath) (closed : ℕ) : List PathItem := path.items.mapIdx (gateItem closed)

theorem getElem?_gateItems (path : BlockPath) :
    (path.gateItems closed)[j]? = path.items[j]?.map (gateItem closed j) := by
  rw [gateItems, List.getElem?_mapIdx]

theorem shape_gateItems (path : BlockPath) (closed : ℕ) :
    path.items.map PathItem.shape = (path.gateItems closed).map PathItem.shape := by
  refine List.ext_getElem? fun j ↦ ?_
  rw [List.getElem?_map, List.getElem?_map, getElem?_gateItems, Option.map_map]
  exact congrArg (Option.map · path.items[j]?) (funext fun x ↦ (shape_gateItem closed j x).symm)

/-- An item of the path with one gate closed. -/
theorem exists_of_gateItems {path : BlockPath} (h : (path.gateItems closed)[j]? = some y) :
    ∃ x, path.items[j]? = some x ∧ y = gateItem closed j x := by
  rw [getElem?_gateItems, Option.map_eq_some_iff] at h
  obtain ⟨x, hx, rfl⟩ := h
  exact ⟨x, hx, rfl⟩

/-- The path with one gate closed and all others open. -/
def gated (path : BlockPath) (closed : ℕ) : BlockPath where
  items := path.gateItems closed
  condition_form := by
    intro y hy operand hoperand
    obtain ⟨j, hj⟩ := List.mem_iff_getElem?.1 hy
    obtain ⟨x, -, rfl⟩ := exists_of_gateItems hj
    have hgate : gate closed j = .tru ∨ gate closed j = .fls := by
      rw [gate]
      split_ifs
      · exact .inr rfl
      · exact .inl rfl
    cases x with
    | mayAssert o =>
      obtain rfl := Option.some.inj hoperand
      exact .inr (.inr ⟨"", rfl⟩)
    | mayAssume o =>
      obtain rfl := Option.some.inj hoperand
      exact hgate.imp_right .inl
    | mayTypeBound o =>
      obtain rfl := Option.some.inj hoperand
      exact .inl rfl
    | _ => cases hoperand
  transfer_form := by
    intro y hy displayName transfer hvisible
    obtain ⟨j, hj⟩ := List.mem_iff_getElem?.1 hy
    obtain ⟨x, -, rfl⟩ := exists_of_gateItems hj
    cases x with
    | visible name t =>
      obtain ⟨-, rfl⟩ := PathItem.visible.inj hvisible
      split_ifs
      · refine .known (fun e he ↦ ?_) (fun e he s ↦ ?_) fun b p hb ↦ ?_
        · obtain rfl := List.mem_singleton.1 he
          exact ⟨id, id⟩
        · obtain rfl := List.mem_singleton.1 he
          trivial
        · cases List.mem_singleton.1 hb
      · exact .known (by simp) (by simp) (by simp)
    | _ => cases hvisible
  enter_after := by
    intro j guard effects hj
    obtain ⟨x, hx, heq⟩ := exists_of_gateItems hj
    cases x with
    | enter g es =>
      obtain ⟨i, rfl, hvisible⟩ := path.enter_after j g es hx
      exact ⟨i, rfl, isSome_visibleAt_congr (path.shape_gateItems closed) hvisible⟩
    | _ => cases heq
  nonempty := by
    obtain ⟨j, hj⟩ := path.nonempty
    exact ⟨j, isSome_visibleAt_congr (path.shape_gateItems closed) hj⟩
  definer_lt := by
    intro k y operand d hk hoperand hdefiner
    obtain ⟨x, hx, rfl⟩ := exists_of_gateItems hk
    have hdefined {o : CallOperand} (ho : x.operand? = some o) (hd : o.definer = some d) :
        d < k ∧ (visibleAt (path.gateItems closed) d).isSome := by
      obtain ⟨hlt, hvisible⟩ := path.definer_lt k x o d hx ho hd
      exact ⟨hlt, isSome_visibleAt_congr (path.shape_gateItems closed) hvisible⟩
    cases x with
    | mayAssert o | mayAssume o | mayTypeBound o =>
      obtain rfl := Option.some.inj hoperand
      exact hdefined rfl hdefiner
    | _ => cases hoperand
  definer_last := by
    intro k x operand d v hk hoperand hdefiner hcondition j y hdj hj
    obtain ⟨x, -, rfl⟩ := exists_of_gateItems hj
    exact not_writes_gateItem v
  ssa := by
    refine List.pairwise_iff_getElem.2 fun i j hi hj hij v _ ↦ ?_
    obtain ⟨x, -, hx⟩ := exists_of_gateItems (List.getElem?_eq_getElem hj)
    rw [hx]
    exact not_writes_gateItem v

/-- An open item can be passed. -/
theorem path_of_open {L : List PathItem} (h : ∀ x ∈ L, ∀ s, x.Step s s) (s : State) :
    Path PathItem.Step L s s := by
  induction L with
  | nil => rfl
  | cons x L ih =>
    rw [List.forall_mem_cons] at h
    exact ⟨s, h.1 s, ih h.2⟩

/-- A closed item stops every path. -/
theorem not_path_of_closed {L : List PathItem} (hx : x ∈ L) (hclosed : ∀ s t, ¬ x.Step s t) :
    ¬ Path PathItem.Step L s t := by
  intro h
  obtain ⟨L₁, L₂, rfl⟩ := List.append_of_mem hx
  obtain ⟨m, -, m', hstep, -⟩ := Path.append_iff.1 h
  exact hclosed m m' hstep

/-- A constraint that is met up to a node is in the lowered path. -/
theorem mem_loweredBefore_of_metUpTo {items : List PathItem} {node : ℕ}
    (hx : items[j]? = some x) (hmet : MetUpTo items node j) :
    x ∈ loweredBefore items (node + 1) := by
  rcases hmet with ⟨y, hy, hmove, hle⟩ | ⟨call, n, hcall, hcallnode, hle⟩
  · obtain rfl := Option.some.inj (hx.symm.trans hy)
    have hmem : x ∈ (items.take (node + 1)).filter (·.isMove) := by
      refine List.mem_filter.2 ⟨List.mem_of_getElem? (i := j) ?_, hmove⟩
      rw [List.getElem?_take_of_lt (Nat.lt_succ_of_le hle)]
      exact hx
    rw [← filter_isMove_loweredBefore] at hmem
    exact List.mem_of_mem_filter hmem
  · exact mem_loweredBefore_of_anchoredAt (mem_anchoredAt.2 ⟨call, hcall, hcallnode⟩) hx
      (Nat.lt_succ_of_le hle)

/-- An item beside the closed gate can be passed. -/
theorem step_gateItems {path : BlockPath} (hy : (path.gateItems closed)[j]? = some y)
    (hj : j ≠ closed) (s : State) : y.Step s s := by
  obtain ⟨x, -, rfl⟩ := exists_of_gateItems hy
  exact step_gateItem.2 ⟨rfl, fun _ ↦ hj⟩

/-- The path runs as far as the closed gate. -/
theorem path_take_gateItems {path : BlockPath} (h : k ≤ closed) (s : State) :
    Path PathItem.Step ((path.gateItems closed).take k) s s := by
  refine path_of_open (fun y hy s ↦ ?_) s
  obtain ⟨p, hp⟩ := List.mem_iff_getElem?.1 hy
  rw [List.getElem?_take] at hp
  split_ifs at hp with hpk
  exact step_gateItems hp (by omega) s

/-- The lowered path runs if the closed gate is not met. -/
theorem path_loweredBefore_gateItems {path : BlockPath} {node : ℕ}
    (h : ¬ MetUpTo (path.gateItems closed) node closed) (s : State) :
    Path PathItem.Step (loweredBefore (path.gateItems closed) (node + 1)) s s := by
  refine path_of_open (fun y hy s ↦ ?_) s
  obtain ⟨m, hm, hy⟩ := List.mem_flatMap.1 hy
  have hmn : m ≤ node := Nat.le_of_lt_succ (List.mem_range.1 hm)
  rcases mem_loweredAt hy with ⟨hym, hmove⟩ | ⟨-, p, hp, hyp⟩
  · refine step_gateItems hym ?_ s
    rintro rfl
    exact h (.inl ⟨y, hym, hmove, hmn⟩)
  · refine step_gateItems hyp ?_ s
    rintro rfl
    obtain ⟨call, hcall, hcallnode⟩ := mem_anchoredAt.1 hp
    exact h (.inr ⟨call, m, hcall, hcallnode, hmn⟩)

/-- The obligation of a call is false in the state in which every variable is. -/
theorem not_holds_zero_of_gateItems {path : BlockPath}
    (hy : (path.gateItems closed)[j]? = some y) (hφ : y.checked = some φ) : ¬ φ.Holds .zero := by
  obtain ⟨x, -, rfl⟩ := exists_of_gateItems hy
  cases x with
  | mayAssert operand | unconditionalFail displayName =>
    rw [← Option.some.inj hφ]
    exact Bool.noConfusion
  | _ => cases hφ

/-- If all paths of a shape are anchored right, the constraints of the shape are the same. -/
theorem sameConstraints_of_anchoredRight {path : BlockPath}
    (h : ∀ path', path.SameShape path' → path'.AnchoredRight k) : path.SameConstraints k := by
  intro site node hsite hnode c z hz hconstrains
  have hshape := path.shape_gateItems c
  obtain ⟨site', hsite', hnode'⟩ := chooseAssertNode_congr hshape hsite
  obtain ⟨lowered, hlowered, rfl⟩ : ∃ lowered,
      lowerAssertion (path.gated c).items site' 0 = some lowered ∧ lowered.node = node := by
    refine ⟨⟨1, node, if site'.isUnconditionalFail then .fls else site'.assertedValue.condition,
      assertionLocation (path.gated c).items site'⟩, ?_, rfl⟩
    show (chooseAssertNode (path.gateItems c) site').bind _ = _
    rw [hnode', hnode]
    rfl
  obtain ⟨hiff, -⟩ := h (path.gated c) hshape site' 0 _ hsite' hlowered
  have hspec := @lowerAssertion_spec (path.gated c)
  obtain ⟨-, x, hx, hφ, -⟩ := hspec hsite' hlowered
  have hvisible := (chooseAssertNode_spec hsite' (hnode'.trans hnode)).1
  rw [fails_iff hx hφ, loweredFails_iff hvisible ((path.gated c).checked_spec hx hφ).1] at hiff
  have hviolated : ¬ lowered.obligation.Holds .zero := not_holds_zero_of_gateItems hx hφ
  have hclosed : ∀ s t, ¬ (gateItem c c z).Step s t :=
    fun s t hstep ↦ (step_gateItem.1 hstep).2 hconstrains rfl
  have hc : (path.gateItems c)[c]? = some (gateItem c c z) := by
    rw [getElem?_gateItems, hz]
    rfl
  constructor
  · intro hck
    by_contra hnot
    -- The lowered path runs, and the path itself stops at the gate.
    have hrun := path_loweredBefore_gateItems (mt (metUpTo_congr hshape.symm) hnot) .zero
    obtain ⟨s, t, hpath, -⟩ := hiff.2 ⟨.zero, .zero, hrun, hviolated⟩
    have hmem : gateItem c c z ∈ (path.gateItems c).take k :=
      List.mem_of_getElem? (by rw [List.getElem?_take_of_lt hck]; exact hc)
    exact not_path_of_closed hmem hclosed hpath
  · intro hmet
    by_contra hnot
    -- The path runs, and the lowered one stops at the gate.
    have hrun := @path_take_gateItems c k path (Nat.le_of_not_lt hnot) .zero
    obtain ⟨s, t, hpath, -⟩ := hiff.1 ⟨.zero, .zero, hrun, hviolated⟩
    have hmem := mem_loweredBefore_of_metUpTo hc (metUpTo_congr hshape hmet)
    exact not_path_of_closed hmem hclosed hpath

/-- All paths of a shape check the call at its anchor as they check it where it stands, exactly if
what can stop an execution comes before the call when and only when the lowered path meets it up to
the anchor. -/
theorem anchoredRight_iff (path : BlockPath) (k : ℕ) :
    (∀ path', path.SameShape path' → path'.AnchoredRight k) ↔ path.SameConstraints k :=
  ⟨sameConstraints_of_anchoredRight, fun h _ hshape ↦
    anchoredRight_of_sameConstraints (h.congr hshape)⟩

end BlockPath

/-! ### Two blocks whose failures are lost -/

section Lost

/-- An error call that is followed by `unreachable`. -/
def errorBlock : BlockPath where
  items := [.unconditionalFail "call void @reach_error()", .visible "unreachable" ⟨[.assume .fls]⟩]
  condition_form := by
    intro x hx operand hoperand
    rcases List.mem_pair.1 hx with rfl | rfl <;> cases hoperand
  transfer_form := by
    intro x hx displayName transfer hvisible
    rcases List.mem_pair.1 hx with rfl | rfl
    · cases hvisible
    · cases hvisible
      refine .known (fun e he ↦ ?_) (fun e he s ↦ ?_) fun b p hb ↦ ?_
      · obtain rfl := List.mem_singleton.1 he
        exact ⟨id, id⟩
      · obtain rfl := List.mem_singleton.1 he
        trivial
      · cases List.mem_singleton.1 hb
  enter_after := by
    intro j guard effects hj
    rcases List.mem_pair.1 (List.mem_of_getElem? hj) with h | h <;> cases h
  nonempty := ⟨1, rfl⟩
  definer_lt := by
    intro k x operand d hk hoperand
    rcases List.mem_pair.1 (List.mem_of_getElem? hk) with rfl | rfl <;> cases hoperand
  definer_last := by
    intro k x operand d v hk hoperand
    rcases List.mem_pair.1 (List.mem_of_getElem? hk) with rfl | rfl <;> cases hoperand
  ssa := by
    refine List.pairwise_pair.2 fun v _ ⟨e, he, hwrites⟩ ↦ ?_
    obtain rfl := List.mem_singleton.1 he
    exact hwrites

/-- The operand of the calls of the next block: `x < 10`, computed by the first instruction. -/
def belowTen : CallOperand := ⟨"%c", .var (.bool "f$%c"), some 0⟩

/-- `may_assert(x < 10); may_assume(x < 10)`. -/
def assertThenAssumeItems : List PathItem := [
  .visible "%c" ⟨[.assign (.bool "f$%c") (.predicate (.lt (.var (.int "f$%x")) (.int 10)))]⟩,
  .mayAssert belowTen, .mayAssume belowTen, .visible "ret void" ⟨[]⟩]

/-- Only the first instruction writes. -/
theorem not_writes_assertThenAssumeItems {j : ℕ} {y : PathItem} (hj : 0 < j)
    (hy : assertThenAssumeItems[j]? = some y) (v : Var) : ¬ y.Writes v := by
  rintro ⟨e, he, hwrites⟩
  rcases j with _ | _ | _ | _ | j
  · omega
  · cases hy
    cases he
  · cases hy
    obtain rfl := List.mem_singleton.1 he
    exact hwrites
  · cases hy
    cases he
  · cases hy

/-- The block of these items. -/
def assertThenAssumeBlock : BlockPath where
  items := assertThenAssumeItems
  condition_form := by
    intro x hx operand hoperand
    have hform : belowTen.condition = .var (.bool "f$%c") := rfl
    simp only [assertThenAssumeItems, List.mem_cons, List.not_mem_nil, or_false] at hx
    rcases hx with rfl | rfl | rfl | rfl <;> cases hoperand
    · exact .inr (.inr ⟨_, hform⟩)
    · exact .inr (.inr ⟨_, hform⟩)
  transfer_form := by
    intro x hx displayName transfer hvisible
    simp only [assertThenAssumeItems, List.mem_cons, List.not_mem_nil, or_false] at hx
    rcases hx with rfl | rfl | rfl | rfl <;> cases hvisible
    · refine .known (fun e he ↦ ?_) (fun e he s ↦ ?_) fun b p hb e he hread ↦ ?_
      · obtain rfl := List.mem_singleton.1 he
        exact ⟨id, id⟩
      · obtain rfl := List.mem_singleton.1 he
        rfl
      · obtain rfl := List.mem_singleton.1 he
        cases List.mem_singleton.1 hb
        simp [TransferEffect.ReadsInTerm, TransferEffect.termLeaves, Formula.termLeaves,
          Term.leaves, Var.bool, Var.int] at hread
    · exact .known (by simp) (by simp) (by simp)
  enter_after := by
    intro j guard effects hj
    have hmem := List.mem_of_getElem? hj
    simp [assertThenAssumeItems] at hmem
  nonempty := ⟨0, rfl⟩
  definer_lt := by
    intro k x operand d hk hoperand hdefiner
    rcases k with _ | _ | _ | _ | k <;> cases hk <;> cases hoperand <;> cases hdefiner
    · exact ⟨by omega, rfl⟩
    · exact ⟨by omega, rfl⟩
  definer_last := by
    intro k x operand d v hk hoperand hdefiner hcondition j y hdj hj
    exact not_writes_assertThenAssumeItems (Nat.zero_lt_of_lt hdj) hj v
  ssa := by
    refine List.pairwise_iff_getElem.2 fun i j hi hj hij v _ ↦ ?_
    exact not_writes_assertThenAssumeItems (Nat.zero_lt_of_lt hij) (List.getElem?_eq_getElem hj) v

/-- The error call is reached, but its anchor has no execution. The assertion fails, but its anchor
assumes that it holds. -/
theorem not_anchoredRight_errorBlock :
    ¬ errorBlock.AnchoredRight 0 ∧ ¬ assertThenAssumeBlock.AnchoredRight 1 := by
  refine ⟨fun h ↦ ?_, fun h ↦ ?_⟩
  · let lowered : AssertionSite := ⟨1, 1, .fls, "before unreachable"⟩
    have hsite : assertSiteAt errorBlock.items 0 =
        some ⟨⟨"call void @reach_error()", .fls, none⟩, none, some 1, true⟩ := rfl
    obtain ⟨hiff, -⟩ := h _ 0 lowered hsite rfl
    have hfails : errorBlock.Fails 0 :=
      ⟨_, .fls, rfl, rfl, .zero, .zero, rfl, Bool.noConfusion⟩
    have hlowered := hiff.1 hfails
    rw [BlockPath.loweredFails_iff rfl (.inr (.inl rfl))] at hlowered
    obtain ⟨s, t, hpath, -⟩ := hlowered
    refine BlockPath.not_path_of_closed (x := .visible "unreachable" ⟨[.assume .fls]⟩) ?_ ?_ hpath
    · exact List.mem_singleton.2 rfl
    · rintro s t ⟨m, ⟨hfalse, -⟩, -⟩
      cases hfalse
  · let lowered : AssertionSite := ⟨1, 0, .var (.bool "f$%c"), "after %c"⟩
    have hsite : assertSiteAt assertThenAssumeBlock.items 1 =
        some ⟨belowTen, some 0, some 3, false⟩ := rfl
    obtain ⟨-, hlate⟩ := h _ 0 lowered hsite rfl
    have hmet : MetUpTo assertThenAssumeBlock.items lowered.node 2 :=
      .inr ⟨⟨belowTen, some 0, some 3, false⟩, 0, rfl, rfl, le_rfl⟩
    exact absurd (hlate 2 belowTen rfl hmet) (by omega)

end Lost

end MayMust
