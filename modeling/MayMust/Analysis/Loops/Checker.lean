import MayMust.Analysis.Loops.BackwardStates
import MayMust.Smt.Oracle

/-!
# The loop invariant checker

`check_loop_invariant_verbose` accepts a candidate after three checks: it holds where the loop is
entered (against the forward reach formula), one iteration keeps it (against backward states from
the latch), and it excludes the violations behind each exit edge (against backward states from the
exit). `accepted_iff` says what acceptance means; each check is then compared with executions.

* Initiation is as good as the forward reach formula.
* The backward states are disjunctions over the paths through the body. An accepted candidate is
  kept by an iteration on which, at every node, only the edge taken is enabled, which enters no
  summarised inner loop and ends with the loop's own back edge (`Iteration`). Two back edges to one
  header are two loops for the checker, and neither check sees the other's iterations.
* For exit closure the disjunction is the right way round: a traversal whose inner loops are
  summarised by true invariants cannot end in a postcondition (`Traversal`).
-/

namespace MayMust

open Library

/-- Detailed outcome of a check. -/
inductive InvariantCheckResult
  | accepted
  | initiationFailed (witness : Option SmtModel)
  | inductivenessFailed (witness : Option SmtModel)
  | exitClosureFailed (exitEdge : CfgEdgeId) (witness : Option SmtModel)
  deriving DecidableEq

section Defs

variable (info : LoopInfo) (cfg : AbstractCfg) (candidate : Formula) (oracle : Oracle)
  (postconditions : CfgNodeId → Option Formula) (inner : InnerInvariants)

/-- `normalize_candidate`: the candidate before the header node's own effects. -/
def normalizeCandidate (cfg : AbstractCfg) (header : CfgNodeId) (candidate : Formula) : Formula :=
  match cfg.node header with
  | .ok node => node.transfer.wp candidate
  | .error _ => candidate

/-- The initiation check and the guard against candidates that exclude every entry; `none` if both
pass. -/
def checkInitiation (reachH : Formula) : Option InvariantCheckResult :=
  match oracle.feasibilityWithModel (Formula.mkAnd reachH (.not candidate)) with
  | .error _ => some (.initiationFailed none)
  | .ok report =>
    match report.feasibility with
    | .feasible => some (.initiationFailed report.model)
    | .unknown => some (.initiationFailed none)
    | .infeasible =>
      match oracle.feasibilityWithModel (Formula.mkAnd reachH candidate) with
      | .error _ => some (.initiationFailed none)
      | .ok report =>
        if report.feasibility = .feasible then none else some (.initiationFailed none)

/-- Whether the states inside the body have an entry for the header. -/
def headerKnown : Bool :=
  decide (info.header ∈ cfg.nodeIds ∨ info.header = info.latch) ||
    ((summarizeInnerLoops cfg (some info.body) inner).1 info.header).isSome

/-- The states at the header from which the body can be run to the latch. -/
def continuationGuard : Formula :=
  match backwardStates cfg cfg.detectBackEdges.toFinset (some info.body) false inner false
    [(info.latch, .tru)] with
  | some states => if headerKnown info cfg inner then states info.header else .tru
  | none => .tru

/-- The inductiveness check; `none` if it passes. -/
def checkInductiveness : Option InvariantCheckResult :=
  match edgeSourceRequirement cfg info.backEdge candidate with
  | none => some (.inductivenessFailed none)
  | some requirement =>
    match backwardStates cfg cfg.detectBackEdges.toFinset (some info.body) false inner true
      [(info.latch, requirement)] with
    | none => some (.inductivenessFailed none)
    | some states =>
      match oracle.impliesWithModel
        (Formula.mkAnd candidate (continuationGuard info cfg inner)) (states info.header) with
      | .ok (.valid, _) => none
      | .ok (.invalid, model) => some (.inductivenessFailed model)
      | .ok (.unknown, _) => some (.inductivenessFailed none)
      | .error _ => some (.inductivenessFailed none)

/-- The exit closure check of one exit edge; `none` if it passes. -/
def checkExit (id : CfgEdgeId) : Option InvariantCheckResult :=
  match cfg.edge id with
  | .error _ => none
  | .ok edge =>
    match postconditions edge.target with
    | none => none
    | some postcondition =>
      if postcondition = .fls then none
      else
        match edgeSourceRequirement cfg id postcondition with
        | none => some (.exitClosureFailed id none)
        | some requirement =>
          match backwardStates cfg cfg.detectBackEdges.toFinset (some info.body) true inner false
            [(edge.source, requirement)] with
          | none => some (.exitClosureFailed id none)
          | some states =>
            match oracle.feasibilityWithModel (Formula.mkAnd candidate (states info.header)) with
            | .error _ => some (.exitClosureFailed id none)
            | .ok report =>
              if report.feasibility = .infeasible then none
              else some (.exitClosureFailed id report.model)

/-- `check_loop_invariant_verbose`. -/
def checkLoopInvariantVerbose : InvariantCheckResult :=
  let candidate := normalizeCandidate cfg info.header candidate
  if (oracle.isContradiction candidate).toOption.getD false then .initiationFailed none
  else
    match checkInitiation candidate oracle (forwardReachAtHeader cfg info.header inner) with
    | some failure => failure
    | none =>
      match checkInductiveness info cfg candidate oracle inner with
      | some failure => failure
      | none =>
        (info.exitEdges.findSome? (checkExit info cfg candidate oracle postconditions inner)).getD
          .accepted

end Defs

/-! ### What acceptance means -/

section Accepted

variable {info : LoopInfo} {cfg : AbstractCfg} {candidate : Formula} {oracle : Oracle}
  {postconditions : CfgNodeId → Option Formula} {inner : InnerInvariants}

theorem checkInitiation_ne_accepted {reachH : Formula} :
    checkInitiation candidate oracle reachH ≠ some .accepted := by
  rw [checkInitiation]
  split
  · simp
  split
  · simp
  · simp
  split
  · simp
  split <;> simp

theorem checkInductiveness_ne_accepted :
    checkInductiveness info cfg candidate oracle inner ≠ some .accepted := by
  rw [checkInductiveness]
  split
  · simp
  split
  · simp
  split <;> simp

theorem checkExit_ne_accepted (id : CfgEdgeId) :
    checkExit info cfg candidate oracle postconditions inner id ≠ some .accepted := by
  rw [checkExit]
  split
  · simp
  split
  · simp
  split_ifs
  · simp
  split
  · simp
  split
  · simp
  split
  · simp
  split_ifs <;> simp

/-- A candidate is accepted if and only if it is not refuted outright and all checks pass. -/
theorem accepted_iff :
    checkLoopInvariantVerbose info cfg candidate oracle postconditions inner = .accepted ↔
      (oracle.isContradiction (normalizeCandidate cfg info.header candidate)).toOption.getD false =
        false ∧
      checkInitiation (normalizeCandidate cfg info.header candidate) oracle
        (forwardReachAtHeader cfg info.header inner) = none ∧
      checkInductiveness info cfg (normalizeCandidate cfg info.header candidate) oracle inner =
        none ∧
      ∀ id ∈ info.exitEdges, checkExit info cfg (normalizeCandidate cfg info.header candidate)
        oracle postconditions inner id = none := by
  unfold checkLoopInvariantVerbose
  dsimp only
  split
  · rename_i hcontradiction
    simp [hcontradiction]
  rename_i hcontradiction
  have hfalse := Bool.eq_false_iff.2 hcontradiction
  split
  · rename_i failure hfailure
    refine iff_of_false (fun h ↦ checkInitiation_ne_accepted (h ▸ hfailure)) ?_
    rw [hfailure]
    simp
  rename_i hinitiation
  split
  · rename_i failure hfailure
    refine iff_of_false (fun h ↦ checkInductiveness_ne_accepted (h ▸ hfailure)) ?_
    rw [hfailure]
    simp
  rename_i hinductive
  simp only [hfalse, hinitiation, hinductive, true_and]
  rw [← List.findSome?_eq_none_iff]
  cases hexit : info.exitEdges.findSome?
      (checkExit info cfg (normalizeCandidate cfg info.header candidate) oracle postconditions
        inner) with
  | none => simp
  | some failure =>
    obtain ⟨id, -, hid⟩ := List.exists_of_findSome?_eq_some hexit
    exact iff_of_false (fun h ↦ checkExit_ne_accepted id (hid.trans (congrArg some h))) (by simp)

theorem holds_of_checkInitiation (hsound : oracle.InfeasibleSound) {reachH : Formula}
    (h : checkInitiation candidate oracle reachH = none) {s : State} (hs : reachH.Holds s) :
    candidate.Holds s := by
  rw [checkInitiation] at h
  split at h
  · simp at h
  rename_i report hreport
  split at h
  · simp at h
  · simp at h
  rename_i hinfeasible
  by_contra hcandidate
  exact hsound _ _ hreport hinfeasible s (by simp [hs, hcandidate])

theorem exists_of_checkInductiveness (hsound : oracle.InfeasibleSound)
    (h : checkInductiveness info cfg candidate oracle inner = none) :
    ∃ requirement states, edgeSourceRequirement cfg info.backEdge candidate = some requirement ∧
      backwardStates cfg cfg.detectBackEdges.toFinset (some info.body) false inner true
        [(info.latch, requirement)] = some states ∧
      ∀ s, candidate.Holds s → (continuationGuard info cfg inner).Holds s →
        (states info.header).Holds s := by
  rw [checkInductiveness] at h
  split at h
  · simp at h
  rename_i requirement hrequirement
  split at h
  · simp at h
  rename_i states hstates
  split at h
  · rename_i model hvalid
    refine ⟨requirement, states, hrequirement, hstates, fun s hs hcontinue ↦ ?_⟩
    have himplies : oracle.implies (Formula.mkAnd candidate (continuationGuard info cfg inner))
        (states info.header) = .ok .valid := by
      rw [Oracle.implies, hvalid]
      rfl
    exact Oracle.holds_of_implies hsound himplies ((Formula.holds_mkAnd _ _).2 ⟨hs, hcontinue⟩)
  all_goals simp at h

theorem exists_of_checkExit (hsound : oracle.InfeasibleSound) {e : AbstractEdge}
    (he : e ∈ cfg.edges) {postcondition : Formula}
    (hpost : postconditions e.target = some postcondition) (hne : postcondition ≠ .fls)
    (h : checkExit info cfg candidate oracle postconditions inner e.id = none) :
    ∃ states, backwardStates cfg cfg.detectBackEdges.toFinset (some info.body) true inner false
        [(e.source, edgePre false false (cfg.transferAt e.source) e postcondition)] = some states ∧
      ∀ s, candidate.Holds s → ¬ (states info.header).Holds s := by
  rw [checkExit] at h
  simp only [AbstractCfg.edge_eq_ok he, hpost, if_neg hne, edgeSourceRequirement_eq he] at h
  split at h
  · simp at h
  rename_i states hstates
  refine ⟨states, hstates, fun s hs hheader ↦ ?_⟩
  split at h
  · simp at h
  rename_i report hreport
  split_ifs at h with hinfeasible
  · exact hsound _ _ hreport hinfeasible s ((Formula.holds_mkAnd _ _).2 ⟨hs, hheader⟩)

end Accepted

/-! ### Iterations the inductiveness check covers -/

/-- The edge is one the backward states of the loop follow: the back edge of the loop, or an edge
inside its body that is no back edge. -/
def LoopInfo.Follows (info : LoopInfo) (cfg : AbstractCfg) (e : AbstractEdge) : Prop :=
  e.id = info.backEdge ∨
    e.id ∉ cfg.detectBackEdges ∧ e.source ∈ info.body ∧ e.target ∈ info.body

/-- A crossing that the transformer computes exactly, with no other edge of the loop enabled beside
its own, out of a node for which no invariant is supplied. -/
structure Crossing.Decided (info : LoopInfo) (cfg : AbstractCfg) (K : Var → Prop)
    (R : String → Prop) (inner : InnerInvariants) (c : Crossing) : Prop where
  faithful : c.Faithful cfg K R
  chosen : ∀ e ∈ cfg.edges, e.source = c.edge.source → e ≠ c.edge → info.Follows cfg e →
    ¬ e.guard.Holds c.mid
  unsupplied : (summarizeInnerLoops cfg (some info.body) inner).1 c.edge.source = none

/-- An execution through the body, from a node of it, that ends with the loop's back edge. -/
structure Iteration (info : LoopInfo) (cfg : AbstractCfg) (sem : Semantics) (K : Var → Prop)
    (R : String → Prop) (inner : InnerInvariants) (cs : List Crossing) (last : Crossing)
    (p q : Position) : Prop where
  run : cfg.Run sem (cs ++ [last]) p q
  inside : ∀ c ∈ cs, c.edge.id ∉ cfg.detectBackEdges.toFinset ∧
    insideBody (some info.body) (summarizeInnerLoops cfg (some info.body) inner).2 c.edge
  returns : last.edge.id = info.backEdge
  decided : ∀ c ∈ cs ++ [last], c.Decided info cfg K R inner

section Inductive

variable {info : LoopInfo} {cfg : AbstractCfg} {candidate I : Formula} {oracle : Oracle}
  {postconditions : CfgNodeId → Option Formula} {inner : InnerInvariants} {sem : Semantics}
  {K : Var → Prop} {R : String → Prop} {cs : List Crossing} {c last : Crossing} {p q : Position}
  {s s' : State} {e : AbstractEdge} {φ : Formula}

theorem Iteration.of_cons (h : Iteration info cfg sem K R inner (c :: cs) last p q) :
    c.Valid sem cfg ∧ p = ⟨c.edge.source, c.pre⟩ ∧
      Iteration info cfg sem K R inner cs last ⟨c.edge.target, c.post⟩ q := by
  obtain ⟨m, ⟨hvalid, hp, rfl⟩, hrest⟩ := h.run
  exact ⟨hvalid, hp, ⟨hrest, fun d hd ↦ h.inside d (List.mem_cons_of_mem c hd), h.returns,
    fun d hd ↦ h.decided d (List.mem_cons_of_mem c hd)⟩⟩

/-- Over a decided crossing, the transformer of an edge of the loop out of the same node holds
before only if it is the edge taken, and then what it transforms holds after. -/
theorem Crossing.Decided.holds_of_edgePre (h : c.Decided info cfg K R inner)
    (hreads : cfg.ReadsWithin K R) (he : e ∈ cfg.edges)
    (hsource : e.source = c.edge.source) (hfollows : info.Follows cfg e) {inductiveAssume : Bool}
    (hφ : φ.ReadsWithin K R)
    (hpre : (edgePre false inductiveAssume (cfg.transferAt e.source) e φ).Holds c.pre) :
    e = c.edge ∧ φ.Holds c.post := by
  have hpost : (Formula.mkAnd e.guard (e.transfer.wp φ)).ReadsWithin K R :=
    (hereditary_readsWithin K R).mkAnd (hreads.guard e he) (hφ.wp (hreads.edge e he))
  rw [hsource] at hpre
  have hmid : (Formula.mkAnd e.guard (e.transfer.wp φ)).Holds c.mid := by
    cases inductiveAssume with
    | true => exact holds_of_holds_wpInductive h.faithful.transfer (hreads.node _) hpost hpre
    | false => exact holds_of_holds_wp h.faithful.transfer (hreads.node _) hpost hpre
  obtain ⟨hguard, hwp⟩ := (Formula.holds_mkAnd _ _).1 hmid
  by_cases hedge : e = c.edge
  · subst hedge
    exact ⟨rfl, holds_of_holds_wp h.faithful.effects (hreads.edge _ he) hφ hwp⟩
  · exact absurd hguard (h.chosen e he hsource hedge hfollows)

theorem ReadsWithin.edgePre {inductiveAssume : Bool} (hreads : cfg.ReadsWithin K R)
    (he : e ∈ cfg.edges) (hφ : φ.ReadsWithin K R) :
    (MayMust.edgePre false inductiveAssume (cfg.transferAt e.source) e φ).ReadsWithin K R := by
  have hpost : (Formula.mkAnd e.guard (e.transfer.wp φ)).ReadsWithin K R :=
    (hereditary_readsWithin K R).mkAnd (hreads.guard e he) (hφ.wp (hreads.edge e he))
  cases inductiveAssume with
  | true => exact hpost.wpInductive (hreads.node _)
  | false => exact hpost.wp (hreads.node _)

/-- A formula that reads what the graph reads, and that holds at the start of an iteration only if
the invariant holds at its end. -/
structure Ensures (info : LoopInfo) (cfg : AbstractCfg) (sem : Semantics) (K : Var → Prop)
    (R : String → Prop) (inner : InnerInvariants) (I : Formula) (n : CfgNodeId) (φ : Formula) :
    Prop where
  reads : φ.ReadsWithin K R
  holds : ∀ cs last s q, Iteration info cfg sem K R inner cs last ⟨n, s⟩ q → φ.Holds s →
    I.Holds q.state

/-- The first crossing of an iteration: the last one, or one after which the iteration goes on. -/
theorem Iteration.exists_first {n : CfgNodeId}
    (h : Iteration info cfg sem K R inner cs last ⟨n, s⟩ q) :
    ∃ c ∈ cs ++ [last], c.edge.source = n ∧ c.pre = s ∧
      (c = last ∧ q = ⟨last.edge.target, last.post⟩ ∨
        c.edge.id ∉ cfg.detectBackEdges.toFinset ∧ ∃ rest,
          Iteration info cfg sem K R inner rest last ⟨c.edge.target, c.post⟩ q) := by
  cases cs with
  | nil =>
    obtain ⟨m, ⟨-, hp, rfl⟩, rfl⟩ := h.run
    obtain ⟨rfl, rfl⟩ := Position.mk.inj hp
    exact ⟨last, List.mem_cons_self, rfl, rfl, Or.inl ⟨rfl, rfl⟩⟩
  | cons c rest =>
    obtain ⟨-, hp, hrest⟩ := h.of_cons
    obtain ⟨rfl, rfl⟩ := Position.mk.inj hp
    exact ⟨c, List.mem_cons_self, rfl, rfl,
      Or.inr ⟨(h.inside c List.mem_cons_self).1, rest, hrest⟩⟩

/-- Of the edges out of the latch, an iteration can only take the back edge. -/
theorem Ensures.backEdge {b : AbstractEdge} (hb : b ∈ cfg.edges)
    (hback : b.id ∈ cfg.detectBackEdges) (hreads : cfg.ReadsWithin K R) (hI : I.ReadsWithin K R) :
    Ensures (loopOf cfg b) cfg sem K R inner I b.source
      (MayMust.edgePre false false (cfg.transferAt b.source) b I) := by
  refine ⟨ReadsWithin.edgePre hreads hb hI, fun cs last s q hiter hs ↦ ?_⟩
  obtain ⟨c, hc, hsource, rfl, hends⟩ := hiter.exists_first
  obtain ⟨hedge, hpost⟩ := (hiter.decided c hc).holds_of_edgePre hreads hb hsource.symm
    (Or.inl rfl) hI hs
  rcases hends with ⟨rfl, rfl⟩ | ⟨hlive, -⟩
  · exact hpost
  · rw [← hedge] at hlive
    exact absurd (List.mem_toFinset.2 hback) hlive

/-- No iteration starts at a node with a supplied invariant. -/
theorem Ensures.supplied {n : CfgNodeId} {inv : Formula} (hinv : inv.ReadsWithin K R)
    (hsupplied : (summarizeInnerLoops cfg (some info.body) inner).1 n = some inv) :
    Ensures info cfg sem K R inner I n inv := by
  refine ⟨hinv, fun cs last s q hiter _ ↦ ?_⟩
  obtain ⟨c, hc, hsource, -, -⟩ := hiter.exists_first
  have hnone := (hiter.decided c hc).unsupplied
  rw [hsource, hsupplied] at hnone
  cases hnone

/-- An edge inside the body passes on what ensures the invariant. -/
theorem Ensures.edgePre {b : AbstractEdge} (hback : b.id ∈ cfg.detectBackEdges)
    (hreads : cfg.ReadsWithin K R) (he : e ∈ cfg.edges)
    (hexcluded : e.id ∉ cfg.detectBackEdges.toFinset)
    (hbody : e.source ∈ (loopOf cfg b).body ∧ e.target ∈ (loopOf cfg b).body)
    (hφ : Ensures (loopOf cfg b) cfg sem K R inner I e.target φ) :
    Ensures (loopOf cfg b) cfg sem K R inner I e.source
      (MayMust.edgePre false true (cfg.transferAt e.source) e φ) := by
  refine ⟨ReadsWithin.edgePre hreads he hφ.reads, fun cs last s q hiter hs ↦ ?_⟩
  have hfollows : (loopOf cfg b).Follows cfg e :=
    Or.inr ⟨fun hmem ↦ hexcluded (List.mem_toFinset.2 hmem), hbody⟩
  obtain ⟨c, hc, hsource, rfl, hends⟩ := hiter.exists_first
  obtain ⟨rfl, hpost⟩ := (hiter.decided c hc).holds_of_edgePre hreads he hsource.symm hfollows
    hφ.reads hs
  rcases hends with ⟨rfl, -⟩ | ⟨-, rest, hrest⟩
  · rw [hiter.returns] at hexcluded
    exact absurd (List.mem_toFinset.2 hback) hexcluded
  · exact hφ.holds rest last c.post q hrest hpost

/-- **The backward states of the inductiveness check ensure the invariant.** -/
theorem ensures_backwardStates (hinfo : info ∈ detectLoops cfg) (hreads : cfg.ReadsWithin K R)
    (hI : I.ReadsWithin K R) (hinner : ∀ pair ∈ inner, pair.2.ReadsWithin K R)
    {requirement : Formula} {states : CfgNodeId → Formula}
    (hrequirement : edgeSourceRequirement cfg info.backEdge I = some requirement)
    (hstates : backwardStates cfg cfg.detectBackEdges.toFinset (some info.body) false inner true
      [(info.latch, requirement)] = some states) (n : CfgNodeId) :
    Ensures info cfg sem K R inner I n (states n) := by
  obtain ⟨b, hb, hback, rfl⟩ := mem_detectLoops.1 hinfo
  have hrequirement' : requirement = edgePre false false (cfg.transferAt b.source) b I :=
    Option.some.inj (hrequirement.symm.trans (edgeSourceRequirement_eq hb I))
  have hhereditary := hereditary_readsWithin K R
  refine backwardStates_induction (P := fun n φ ↦ Ensures (loopOf cfg b) cfg sem K R inner I n φ)
    hstates (fun n ↦ ⟨hhereditary.fls, fun _ _ s _ _ hs ↦ absurd hs (Formula.not_holds_fls s)⟩)
    (fun n φ ψ hφ hψ ↦ ⟨hhereditary.mkOr hφ.reads hψ.reads, fun cs last s q hiter hs ↦ ?_⟩)
    (fun seed hseed ↦ ?_) (fun n inv hinv ↦ .supplied ?_ hinv)
    (fun e he hexcluded hinside φ hφ ↦ .edgePre hback hreads he hexcluded ?_ hφ) n
  · exact ((Formula.holds_mkOr _ _).1 hs).elim (hφ.holds cs last s q hiter)
      (hψ.holds cs last s q hiter)
  · obtain rfl := List.mem_singleton.1 hseed
    rw [hrequirement']
    exact .backEdge hb hback hreads hI
  · rw [summarizeInnerLoops] at hinv
    dsimp only at hinv
    split_ifs at hinv
    exact hinner _ (InnerInvariants.mem_of_at? hinv)
  · have hbody := (Bool.and_eq_true _ _).mp hinside
    simpa using hbody.1

/-- An iteration starts in the continuation guard. -/
theorem Iteration.holds_continuationGuard (hinfo : info ∈ detectLoops cfg)
    (hreads : cfg.ReadsWithin K R) (hinner : ∀ pair ∈ inner, pair.2.ReadsWithin K R)
    (h : Iteration info cfg sem K R inner cs last ⟨info.header, s⟩ q) :
    (continuationGuard info cfg inner).Holds s := by
  obtain ⟨b, hb, -, rfl⟩ := mem_detectLoops.1 hinfo
  obtain ⟨m, hrun, hlast⟩ := Path.append_iff.1 h.run
  obtain ⟨hvalid, rfl, -⟩ := Path.singleton_iff.1 hlast
  have hlatch : last.edge = b := AbstractCfg.edge_id_inj hvalid.edge_mem hb h.returns
  rw [continuationGuard]
  split
  · rename_i states hstates
    split_ifs
    · refine holds_backwardStates_of_run (p := ⟨_, s⟩) hstates hreads.termsRead
        (fun seed hseed ↦ ?_)
        (fun pair hpair ↦ (hinner pair hpair).terms) hrun (fun c hc ↦ ?_) h.inside ?_
      · obtain rfl := List.mem_singleton.1 hseed
        exact (hereditary_termReads K).tru
      · exact (h.decided c (List.mem_append_left _ hc)).faithful.quiet
      · have hseed : ((loopOf cfg b).latch, Formula.tru) ∈ [((loopOf cfg b).latch, Formula.tru)] :=
          List.mem_cons_self
        rw [hlatch]
        exact holds_initialStates hseed (Formula.holds_tru _)
    · exact Formula.holds_tru s
  · exact Formula.holds_tru s

theorem readsWithin_normalizeCandidate (hreads : cfg.ReadsWithin K R)
    (hcandidate : candidate.ReadsWithin K R) (header : CfgNodeId) :
    (normalizeCandidate cfg header candidate).ReadsWithin K R := by
  rw [normalizeCandidate]
  split
  · rename_i node hnode
    rw [← AbstractCfg.transferAt_eq hnode]
    exact hcandidate.wp (hreads.node header)
  · exact hcandidate

/-- An iteration the check covers keeps an accepted candidate. -/
theorem Iteration.holds_of_accepted (hsound : oracle.InfeasibleSound)
    (hinfo : info ∈ detectLoops cfg) (hreads : cfg.ReadsWithin K R)
    (hcandidate : candidate.ReadsWithin K R) (hinner : ∀ pair ∈ inner, pair.2.ReadsWithin K R)
    (haccepted : checkLoopInvariantVerbose info cfg candidate oracle postconditions inner =
      .accepted)
    (h : Iteration info cfg sem K R inner cs last ⟨info.header, s⟩ q)
    (hs : (normalizeCandidate cfg info.header candidate).Holds s) :
    (normalizeCandidate cfg info.header candidate).Holds q.state := by
  obtain ⟨-, -, hinductive, -⟩ := accepted_iff.1 haccepted
  obtain ⟨requirement, states, hrequirement, hstates, himplies⟩ :=
    exists_of_checkInductiveness hsound hinductive
  have hheader : (states info.header).Holds s :=
    himplies s hs (h.holds_continuationGuard hinfo hreads hinner)
  exact (ensures_backwardStates hinfo hreads (readsWithin_normalizeCandidate hreads hcandidate _)
    hinner hrequirement hstates info.header).holds cs last s q h hheader

/-- Executions that arrive at the header as the checks have it: they enter the loop on a tracked
path without back edges, from the entry or from a header with a supplied invariant, and then
iterate. -/
inductive LoopArrival (info : LoopInfo) (cfg : AbstractCfg) (sem : Semantics) (K : Var → Prop)
    (R : String → Prop) (inner : InnerInvariants) (p : Position) : List Crossing → State → Prop
  | enter {cs cs' : List Crossing} {m : Position} {s : State} {φ : Formula}
      (hfirst : cfg.Run sem cs p m) (hlast : cfg.Run sem cs' m ⟨info.header, s⟩)
      (hstarts : StartsWith cfg inner m.node φ)
      (hfacts : (preheaderStoreFactsAtHeader cfg m.node inner).Holds m.state)
      (hback : ∀ c ∈ cs', c.edge.id ∉ cfg.detectBackEdges)
      (htracked : cfg.Tracked sem (preheaderStoreFactsAtHeader cfg · inner) φ cs') :
      LoopArrival info cfg sem K R inner p (cs ++ cs') s
  | iterate {cs cs' : List Crossing} {last : Crossing} {s s' : State}
      (harrival : LoopArrival info cfg sem K R inner p cs s)
      (hiteration : Iteration info cfg sem K R inner cs' last ⟨info.header, s⟩ ⟨info.header, s'⟩) :
      LoopArrival info cfg sem K R inner p (cs ++ (cs' ++ [last])) s'

/-- The arrivals are executions. -/
theorem LoopArrival.run (h : LoopArrival info cfg sem K R inner p cs s) :
    cfg.Run sem cs p ⟨info.header, s⟩ := by
  induction h with
  | enter hfirst hlast => exact Path.append hfirst hlast
  | iterate _ hiteration ih => exact Path.append ih hiteration.run

/-- **An accepted candidate holds at the arrivals the checks cover.** Let the oracle be sound and
the supplied invariants true. Along every execution that enters the loop as the forward pass has it
and iterates through its own back edge, with one enabled edge at each node of the body, the
normalised candidate holds at every arrival at the header. -/
theorem invariant_of_accepted (hsound : oracle.InfeasibleSound) (hinfo : info ∈ detectLoops cfg)
    (hreads : cfg.ReadsWithin K R) (hcandidate : candidate.ReadsWithin K R)
    (hinner : ∀ pair ∈ inner, pair.2.ReadsWithin K R)
    (htrue : ∀ pair ∈ inner, ∀ cs s₀ s, cfg.Run sem cs ⟨cfg.entry, s₀⟩ ⟨pair.1, s⟩ →
      pair.2.Holds s)
    (haccepted : checkLoopInvariantVerbose info cfg candidate oracle postconditions inner =
      .accepted)
    {s₀ : State} (harrival : LoopArrival info cfg sem K R inner ⟨cfg.entry, s₀⟩ cs s) :
    (normalizeCandidate cfg info.header candidate).Holds s := by
  induction harrival with
  | enter hfirst hlast hstarts hfacts hback htracked =>
    obtain ⟨-, hinitiation, -⟩ := accepted_iff.1 haccepted
    refine holds_of_checkInitiation hsound hinitiation ?_
    refine holds_forwardReachAtHeader hlast (hfirst.node_mem cfg.entry_mem) hstarts ?_ hfacts hback
      htracked
    rcases hstarts with ⟨-, rfl⟩ | hinv
    · exact Formula.holds_tru _
    · exact htrue _ (InnerInvariants.mem_of_at? hinv) _ s₀ _ hfirst
  | iterate _ hiteration ih =>
    exact hiteration.holds_of_accepted hsound hinfo hreads hcandidate hinner haccepted ih

end Inductive

/-! ### Two loops with one header -/

section TwoLatches

/-- After the entry has set `x` to 0, a header with two branches that return to it; the second one
sets `x` to 1. -/
def twoLatchesCfg : AbstractCfg where
  nodes := [⟨0, "entry", .entry, ⟨[.assign (.int "x") (.term (.int 0))]⟩⟩,
    ⟨1, "header", .normal, .identity⟩, ⟨2, "first", .normal, .identity⟩,
    ⟨3, "second", .normal, ⟨[.assign (.int "x") (.term (.int 1))]⟩⟩]
  edges := [⟨0, 0, 1, .tru, []⟩, ⟨1, 1, 2, .tru, []⟩, ⟨2, 2, 1, .tru, []⟩, ⟨3, 1, 3, .tru, []⟩,
    ⟨4, 3, 1, .tru, []⟩]
  entry := 0
  concreteExits := []
  exit := none
  nextNode := 4
  nextEdge := 5
  nodes_sorted := by simp
  edges_sorted := by simp
  node_lt := by simp
  edge_lt := by simp
  entry_mem := by simp
  source_mem := by simp
  target_mem := by simp

/-- The loop of the first branch. -/
def firstLoop : LoopInfo := loopOf twoLatchesCfg ⟨2, 2, 1, .tru, []⟩

/-- The candidate invariant: `x` is 0. -/
def xIsZero : Formula := .eq (.var (.int "x")) (.int 0)

/-- A solver that knows that `x` can be 0, but not while it is not. -/
def zeroOracle : Oracle := .knowing [.and [xIsZero, .not xIsZero]] [xIsZero]

theorem infeasibleSound_zeroOracle : zeroOracle.InfeasibleSound := by
  refine Oracle.infeasibleSound_knowing fun φ hφ s hs ↦ ?_
  obtain rfl := List.mem_singleton.1 hφ
  simp at hs

theorem holds_xIsZero_iff {s : State} : xIsZero.Holds s ↔ s.lookup (.int "x") = .int 0 := by
  cases hx : s.lookup (.int "x") with
  | int n => simp [xIsZero, Formula.Holds, Formula.eval, Term.eval, hx, Value.compare]
  | bool b => simp [xIsZero, Formula.Holds, Formula.eval, Term.eval, hx, Value.compare]
  | real x => simp [xIsZero, Formula.Holds, Formula.eval, Term.eval, hx, Value.compare]

theorem firstLoop_mem : firstLoop ∈ detectLoops twoLatchesCfg := by decide

theorem accepted_firstLoop :
    checkLoopInvariantVerbose firstLoop twoLatchesCfg xIsZero zeroOracle (fun _ ↦ none) [] =
      .accepted := by
  decide

/-- The entry of the loop: `x` has been set to 0. -/
def enterTwoLatches : Crossing :=
  ⟨⟨0, 0, 1, .tru, []⟩, .zero, State.zero.set (.int "x") (.int 0), State.zero.set (.int "x")
    (.int 0)⟩

theorem enterTwoLatches_run : twoLatchesCfg.Run .unknownCallees [enterTwoLatches]
    ⟨0, .zero⟩ ⟨1, State.zero.set (.int "x") (.int 0)⟩ := by
  refine Path.singleton_iff.2 ⟨⟨by decide, Path.singleton_iff.2 ⟨?_, by decide, ?_⟩,
    Formula.holds_tru _, rfl⟩, rfl, rfl⟩
  · simp [Term.eval, Var.int]
  · simp [Term.eval, enterTwoLatches]

/-- The general statement for one iteration through the first branch. -/
theorem invariant_of_accepted_firstLoop :
    (normalizeCandidate twoLatchesCfg 1 xIsZero).Holds (State.zero.set (.int "x") (.int 0)) := by
  let s := State.zero.set (.int "x") (.int 0)
  have hfacts : preheaderStoreFactsAtHeader twoLatchesCfg 0 [] = [] := by decide
  have hspares : TransferEffect.Spares (.assign (.int "x") (.term (.int 0))) ⟨.tru, []⟩ .zero s :=
    ⟨fun _ ↦ Formula.holds_tru s, by simp, trivial, by simp [resolveSelectInTerm, Term.eval]⟩
  have htracked : twoLatchesCfg.Tracked .unknownCallees
      (preheaderStoreFactsAtHeader twoLatchesCfg · []) .tru [enterTwoLatches] := by
    refine ⟨?_, rfl, trivial⟩
    show Effects.SparingRun _ (twoLatchesCfg.transferAt 0).effects
      ⟨.tru, preheaderStoreFactsAtHeader twoLatchesCfg 0 []⟩ .zero s
    rw [hfacts]
    refine ⟨s, ⟨?_, by decide, ?_⟩, hspares, rfl⟩
    · simp [Term.eval, Var.int]
    · simp [Term.eval, s]
  have hstart : (preheaderStoreFactsAtHeader twoLatchesCfg 0 []).Holds .zero := by
    simp [hfacts, StoreFacts.Holds]
  have hdecided {c : Crossing} (hc : c ∈ [(⟨⟨1, 1, 2, .tru, []⟩, s, s, s⟩ : Crossing),
      ⟨⟨2, 2, 1, .tru, []⟩, s, s, s⟩]) :
      c.Decided firstLoop twoLatchesCfg (fun _ ↦ True) (fun _ ↦ True) [] := by
    have hfollows : ∀ e ∈ twoLatchesCfg.edges, e.id = firstLoop.backEdge ∨
        (e.id ∉ twoLatchesCfg.detectBackEdges ∧ e.source ∈ firstLoop.body ∧
          e.target ∈ firstLoop.body) → e = ⟨1, 1, 2, .tru, []⟩ ∨ e = ⟨2, 2, 1, .tru, []⟩ ∨
            e.source = 0 := by decide
    have hnone : ∀ n, (summarizeInnerLoops twoLatchesCfg (some firstLoop.body) []).1 n = none := by
      intro n
      simp [summarizeInnerLoops, InnerInvariants.at?]
    rcases List.mem_pair.1 hc with rfl | rfl
    · refine ⟨⟨rfl, rfl⟩, fun e he hsource hne hfollow ↦ ?_, hnone _⟩
      rcases hfollows e he hfollow with rfl | rfl | hzero
      · exact absurd rfl hne
      · cases hsource
      · rw [hzero] at hsource
        cases hsource
    · refine ⟨⟨rfl, rfl⟩, fun e he hsource hne hfollow ↦ ?_, hnone _⟩
      rcases hfollows e he hfollow with rfl | rfl | hzero
      · cases hsource
      · exact absurd rfl hne
      · rw [hzero] at hsource
        cases hsource
  have hiteration : Iteration firstLoop twoLatchesCfg .unknownCallees (fun _ ↦ True) (fun _ ↦ True)
      [] [⟨⟨1, 1, 2, .tru, []⟩, s, s, s⟩] ⟨⟨2, 2, 1, .tru, []⟩, s, s, s⟩ ⟨1, s⟩ ⟨1, s⟩ := by
    refine ⟨⟨_, ⟨⟨by decide, rfl, Formula.holds_tru s, rfl⟩, rfl, rfl⟩, _, ⟨⟨by decide, rfl,
      Formula.holds_tru s, rfl⟩, rfl, rfl⟩, rfl⟩, fun c hc ↦ ?_, by decide,
      fun c hc ↦ hdecided hc⟩
    obtain rfl := List.mem_singleton.1 hc
    decide
  have hentry : twoLatchesCfg.Run .unknownCallees [] ⟨twoLatchesCfg.entry, .zero⟩ ⟨0, .zero⟩ := rfl
  exact invariant_of_accepted infeasibleSound_zeroOracle firstLoop_mem
    twoLatchesCfg.readsWithin_true xIsZero.readsWithin_true (by simp) (by simp) accepted_firstLoop
    (.iterate (.enter hentry enterTwoLatches_run (Or.inl ⟨rfl, rfl⟩) hstart (by decide)
      htracked) hiteration)

/-- The candidate is accepted for the loop of the first branch, and false after an iteration
through the second one. -/
theorem not_invariant_of_accepted :
    ¬ ∀ (info : LoopInfo) (cfg : AbstractCfg) (candidate : Formula) (oracle : Oracle)
      (postconditions : CfgNodeId → Option Formula) (inner : InnerInvariants),
      oracle.InfeasibleSound → info ∈ detectLoops cfg →
      (∀ pair ∈ inner, ∀ cs s₀ s, cfg.Run .unknownCallees cs ⟨cfg.entry, s₀⟩ ⟨pair.1, s⟩ →
        pair.2.Holds s) →
      checkLoopInvariantVerbose info cfg candidate oracle postconditions inner = .accepted →
      ∀ cs s₀ s, cfg.Run .unknownCallees cs ⟨cfg.entry, s₀⟩ ⟨info.header, s⟩ →
        (normalizeCandidate cfg info.header candidate).Holds s := by
  intro h
  let s := State.zero.set (.int "x") (.int 0)
  let s' := s.set (.int "x") (.int 1)
  have hsecond : twoLatchesCfg.Run .unknownCallees
      [⟨⟨3, 1, 3, .tru, []⟩, s, s, s⟩, ⟨⟨4, 3, 1, .tru, []⟩, s, s', s'⟩] ⟨1, s⟩ ⟨1, s'⟩ := by
    refine ⟨_, ⟨⟨by decide, rfl, Formula.holds_tru s, rfl⟩, rfl, rfl⟩, _, ⟨⟨by decide,
      Path.singleton_iff.2 ⟨?_, by decide, ?_⟩, Formula.holds_tru s', rfl⟩, rfl, rfl⟩, rfl⟩
    · simp [Term.eval, Var.int]
    · simp [Term.eval, s']
  have hs := h firstLoop twoLatchesCfg xIsZero zeroOracle _ [] infeasibleSound_zeroOracle
    firstLoop_mem (by simp) accepted_firstLoop _ .zero s' (Path.append enterTwoLatches_run hsecond)
  have hnormal : normalizeCandidate twoLatchesCfg firstLoop.header xIsZero = xIsZero := by
    decide
  rw [hnormal, holds_xIsZero_iff, State.lookup_set_self rfl] at hs
  cases hs

end TwoLatches

end MayMust
