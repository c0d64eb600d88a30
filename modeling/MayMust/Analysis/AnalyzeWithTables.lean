import MayMust.Analysis.Loops.Preliminary

/-!
# The analysis of graphs with loops

`analyze_with_tables` asks for an invariant of each loop, innermost first, has the checker accept
it, and then analyses the graph without its back edges, with the invariants injected at the headers.

What is behind a loop is covered by the checker: the exit closure refutes the violations that an
execution can reach from an exit without taking another back edge. What is inside a loop is covered
by the final analysis alone, and that only follows executions without back edges. So a verdict
`Verified` is right about an execution that takes no back edge, or that leaves the loop of its last
back edge before it reaches the site (`obligation_of_verified`); a site inside a loop can be
violated in the second iteration (`not_obligation_of_verified`).
-/

namespace MayMust

open Library

/-! ### The source -/

/-- The search for an invariant of a loop, given the postconditions and the invariants of the loops
before it. -/
abbrev Synthesizer :=
  LoopInfo → (CfgNodeId → Option Formula) → InnerInvariants → Option Formula

section Defs

variable (synthesize : Synthesizer) (cfg : AbstractCfg) (oracle : Oracle)
  (postconditions : CfgNodeId → Option Formula)

/-- `synthesize_with_cegis`, with the search left open: a candidate that the checker accepts is
returned in its normal form. -/
def acceptedInvariant (inner : InnerInvariants) (info : LoopInfo) : Option Formula :=
  match synthesize info postconditions inner with
  | some candidate =>
    if checkLoopInvariantVerbose info cfg candidate oracle postconditions inner = .accepted then
      some (normalizeCandidate cfg info.header candidate)
    else none
  | none => none

/-- `VerifiedLoopInvariant::as_pair`. -/
def VerifiedLoopInvariant.asPair (v : VerifiedLoopInvariant) : CfgNodeId × Formula :=
  (v.header, v.formula)

/-- The loop of `synthesize_loop_invariants`. -/
def synthesizeFrom (accepted : List VerifiedLoopInvariant) :
    List LoopInfo → Except BackwardError (List VerifiedLoopInvariant)
  | [] => .ok accepted
  | info :: loops =>
    match acceptedInvariant synthesize cfg oracle postconditions (accepted.map (·.asPair)) info with
    | some formula => synthesizeFrom (accepted ++ [⟨info.header, formula⟩]) loops
    | none => .error .cyclicCfgUnsupported

/-- `synthesize_loop_invariants`. -/
def synthesizeLoopInvariants : Except BackwardError (List VerifiedLoopInvariant) :=
  synthesizeFrom synthesize cfg oracle postconditions [] (sortInnermostFirst (detectLoops cfg))

/-- The map of the preliminary states. -/
def postconditionsOf (states : CfgNodeId → Formula) (n : CfgNodeId) : Option Formula :=
  if n ∈ cfg.nodeIds then some (states n) else none

/-- The invariants of the loops of a graph. -/
def loopInvariants (site : AssertionSite) : Except BackwardError (List VerifiedLoopInvariant) := do
  let states ← computePreliminaryBackwardStates cfg site cfg.detectBackEdges.toFinset
  synthesizeLoopInvariants synthesize cfg oracle (postconditionsOf cfg states)

/-- `analyze_with_tables`. -/
def analyzeWithTables (site : AssertionSite) (tables : ContextualSummaryTable) :
    Except BackwardError AssertionResult := do
  if cfg.topologicalOrder.isSome then runBackward cfg site oracle ∅ [] tables
  else
    let invariants ← loopInvariants synthesize cfg oracle site
    if invariants.isEmpty then throw .cyclicCfgUnsupported
    else runBackward cfg site oracle cfg.detectBackEdges.toFinset invariants tables

end Defs

/-! ### The invariants -/

section Synthesis

variable {synthesize : Synthesizer} {cfg : AbstractCfg} {oracle : Oracle}
  {postconditions : CfgNodeId → Option Formula} {accepted invariants : List VerifiedLoopInvariant}
  {loops : List LoopInfo}

theorem acceptedInvariant_eq_some {inner : InnerInvariants} {info : LoopInfo} {formula : Formula}
    (h : acceptedInvariant synthesize cfg oracle postconditions inner info = some formula) :
    ∃ candidate,
      checkLoopInvariantVerbose info cfg candidate oracle postconditions inner = .accepted ∧
      formula = normalizeCandidate cfg info.header candidate := by
  rw [acceptedInvariant] at h
  cases hcandidate : synthesize info postconditions inner with
  | none => simp [hcandidate] at h
  | some candidate =>
    simp only [hcandidate] at h
    split_ifs at h with hok
    exact ⟨candidate, hok, (Option.some.inj h).symm⟩

/-- The loop got an invariant: the normal form of a candidate that was accepted with invariants of
the result supplied. -/
def Supplied (cfg : AbstractCfg) (oracle : Oracle) (postconditions : CfgNodeId → Option Formula)
    (invariants : List VerifiedLoopInvariant) (info : LoopInfo) : Prop :=
  ∃ candidate inner,
    checkLoopInvariantVerbose info cfg candidate oracle postconditions inner = .accepted ∧
    ⟨info.header, normalizeCandidate cfg info.header candidate⟩ ∈ invariants ∧
    ∀ pair ∈ inner, ∃ v ∈ invariants, pair = v.asPair

/-- Every loop gets an invariant, and the invariants are those of loops. -/
theorem synthesizeFrom_eq_ok
    (h : synthesizeFrom synthesize cfg oracle postconditions accepted loops = .ok invariants) :
    accepted ⊆ invariants ∧
      (∀ v ∈ invariants, v ∈ accepted ∨ ∃ info ∈ loops, v.header = info.header) ∧
      ∀ info ∈ loops, Supplied cfg oracle postconditions invariants info := by
  induction loops generalizing accepted with
  | nil =>
    obtain rfl := Except.ok.inj h
    exact ⟨List.Subset.refl accepted, fun v hv ↦ Or.inl hv, by simp⟩
  | cons info loops ih =>
    rw [synthesizeFrom] at h
    cases hformula : acceptedInvariant synthesize cfg oracle postconditions
        (accepted.map (·.asPair)) info with
    | none => simp [hformula] at h
    | some formula =>
      simp only [hformula] at h
      obtain ⟨hsub, hheaders, hloops⟩ := ih h
      have haccepted : accepted ⊆ invariants :=
        List.Subset.trans (List.subset_append_left accepted _) hsub
      obtain ⟨candidate, hok, rfl⟩ := acceptedInvariant_eq_some hformula
      refine ⟨haccepted, fun v hv ↦ ?_, List.forall_mem_cons.2 ⟨?_, hloops⟩⟩
      · rcases hheaders v hv with hv | ⟨loop, hloop, heq⟩
        · rcases List.mem_append.1 hv with hv | hv
          · exact Or.inl hv
          · obtain rfl := List.mem_singleton.1 hv
            exact Or.inr ⟨info, List.mem_cons_self, rfl⟩
        · exact Or.inr ⟨loop, List.mem_cons_of_mem info hloop, heq⟩
      refine ⟨candidate, _, hok, hsub (by simp), fun pair hpair ↦ ?_⟩
      obtain ⟨v, hv, rfl⟩ := List.mem_map.1 hpair
      exact ⟨v, haccepted hv, rfl⟩

/-- What is true of the invariants and kept by conjunction is true of the formulas that are injected
at the headers. -/
theorem conjunctLoopInvariants_induction {P : CfgNodeId → Formula → Prop}
    (hand : ∀ n φ ψ, P n φ → P n ψ → P n (Formula.mkAnd φ ψ))
    (h : ∀ v ∈ invariants, P v.header v.formula) :
    ∀ pair ∈ conjunctLoopInvariants invariants, P pair.1 pair.2 := by
  have hinsert (n : CfgNodeId) (φ : Formula) (hφ : P n φ) (combined : List (CfgNodeId × Formula))
      (hcombined : ∀ pair ∈ combined, P pair.1 pair.2) :
      ∀ pair ∈ conjunctLoopInvariant n φ combined, P pair.1 pair.2 := by
    induction combined with
    | nil => simpa [conjunctLoopInvariant] using hφ
    | cons pair combined ih =>
      obtain ⟨m, ψ⟩ := pair
      rw [List.forall_mem_cons] at hcombined
      rw [conjunctLoopInvariant]
      split_ifs with heq hlt
      · subst heq
        exact List.forall_mem_cons.2 ⟨hand n ψ φ hcombined.1 hφ, hcombined.2⟩
      · exact List.forall_mem_cons.2 ⟨hφ, List.forall_mem_cons.2 hcombined⟩
      · exact List.forall_mem_cons.2 ⟨hcombined.1, ih hcombined.2⟩
  rw [conjunctLoopInvariants]
  refine List.foldlRecOn (motive := fun combined ↦ ∀ pair ∈ combined, P pair.1 pair.2) _ _ ?_
    fun combined hcombined v hv ↦ hinsert v.header v.formula (h v hv) combined hcombined
  exact fun pair hpair ↦ absurd hpair List.not_mem_nil

end Synthesis

/-! ### The executions a verdict covers -/

section Covered

variable {synthesize : Synthesizer} {cfg : AbstractCfg} {oracle : Oracle} {site : AssertionSite}
  {invariants : List VerifiedLoopInvariant} {result : AssertionResult} {sem : Semantics}
  {cs mid : List Crossing} {p q : Position} {s₀ s s' : State}

/-- No back edge is taken. -/
def Straight (cfg : AbstractCfg) (cs : List Crossing) : Prop :=
  ∀ c ∈ cs, c.edge.id ∉ cfg.detectBackEdges

/-- The headers of all loops, with nothing said about them. -/
def loopHeaders (cfg : AbstractCfg) : InnerInvariants :=
  (detectLoops cfg).map fun info ↦ (info.header, .tru)

/-- After its last back edge, the execution leaves the loop of this edge. Until then it enters the
bodies of other loops through their headers. -/
structure LeavesLastLoop (cfg : AbstractCfg) (cs pre mid post : List Crossing)
    (back exit : Crossing) : Prop where
  split : cs = pre ++ back :: (mid ++ exit :: post)
  returns : back.edge.id ∈ cfg.detectBackEdges
  straight : Straight cfg (mid ++ exit :: post)
  inside : ∀ c ∈ mid, c.edge.target ∈ (loopOf cfg back.edge).body
  leaves : exit.edge.target ∉ (loopOf cfg back.edge).body
  enters : EntersByHeader (loopOf cfg back.edge) cfg (loopHeaders cfg) (mid ++ [exit])

/-- The execution takes no back edge, and keeps what the forward pass remembers; or it leaves the
loop of its last back edge. -/
inductive CoveredRun (cfg : AbstractCfg) (invariants : List VerifiedLoopInvariant)
    (cs : List Crossing) : Prop
  | straight (hstraight : Straight cfg cs) (hund : Undisturbed cs)
      (hentry : ∀ v ∈ invariants, v.header = cfg.entry → ∀ c ∈ cs, c.Keeps v.formula)
  | leaves (pre mid post : List Crossing) (back exit : Crossing)
      (hleaves : LeavesLastLoop cfg cs pre mid post back exit)

/-- The invariants hold wherever the execution arrives at their headers. -/
def HoldAtHeaders (cfg : AbstractCfg) (sem : Semantics) (invariants : List VerifiedLoopInvariant)
    (cs : List Crossing) (p : Position) : Prop :=
  ∀ cs₁ cs₂ r, cs = cs₁ ++ cs₂ → cfg.Run sem cs₁ p r → ∀ v ∈ invariants, v.header = r.node →
    v.formula.Holds r.state

/-- It is enough to look at the crossings. -/
theorem holdAtHeaders_of_crossings
    (hstart : ∀ v ∈ invariants, v.header = p.node → v.formula.Holds p.state)
    (h : ∀ c ∈ cs, ∀ v ∈ invariants, v.header = c.edge.target → v.formula.Holds c.post) :
    HoldAtHeaders cfg sem invariants cs p := by
  rintro cs₁ cs₂ r rfl hrun
  refine Path.invariant
    (P := fun r : Position ↦ ∀ v ∈ invariants, v.header = r.node → v.formula.Holds r.state)
    (fun c hc p q hcross _ ↦ ?_) hrun hstart
  obtain ⟨-, -, rfl⟩ := hcross
  exact h c (List.mem_append_left cs₂ hc)

theorem analyzeWithTables_eq_ok (hcyclic : cfg.topologicalOrder = none)
    (h : analyzeWithTables synthesize cfg oracle site .new = .ok result) :
    ∃ invariants, loopInvariants synthesize cfg oracle site = .ok invariants ∧
      runBackward cfg site oracle cfg.detectBackEdges.toFinset invariants .new = .ok result := by
  rw [analyzeWithTables] at h
  rw [hcyclic] at h
  simp only [Option.isSome_none, Bool.false_eq_true, if_false, bind_eq_ok] at h
  obtain ⟨invariants, hinvariants, h⟩ := h
  split at h
  · cases h
  · exact ⟨invariants, hinvariants, h⟩

/-- Inside a set of nodes, crossings start where the ones before them end. -/
theorem AbstractCfg.Run.source_mem {body : Finset CfgNodeId} (hrun : cfg.Run sem mid p q)
    (hp : p.node ∈ body) (htarget : ∀ c ∈ mid, c.edge.target ∈ body) :
    (∀ c ∈ mid, c.edge.source ∈ body) ∧ q.node ∈ body := by
  induction mid generalizing p with
  | nil =>
    obtain rfl : p = q := hrun
    exact ⟨by simp, hp⟩
  | cons c mid ih =>
    obtain ⟨m, ⟨-, rfl, rfl⟩, hrun⟩ := hrun
    rw [List.forall_mem_cons] at htarget
    obtain ⟨hsources, hq⟩ := ih hrun htarget.1 htarget.2
    exact ⟨List.forall_mem_cons.2 ⟨hp, hsources⟩, hq⟩

/-- The part of the execution from its last back edge to the exit traverses the loop. -/
theorem LeavesLastLoop.traversal {pre post : List Crossing} {back exit : Crossing}
    (h : LeavesLastLoop cfg cs pre mid post back exit)
    (hrun : cfg.Run sem (mid ++ [exit]) ⟨back.edge.target, back.post⟩ q) :
    Traversal (loopOf cfg back.edge) cfg sem mid exit ⟨back.edge.target, back.post⟩ q := by
  obtain ⟨m, hmid, hexit⟩ := Path.append_iff.1 hrun
  obtain ⟨hvalid, rfl, -⟩ := Path.singleton_iff.1 hexit
  obtain ⟨hsources, hsource⟩ := AbstractCfg.Run.source_mem hmid header_mem_body h.inside
  refine ⟨hrun, rfl, fun c hc ↦ ⟨hsources c hc, h.inside c hc⟩, fun c hc heq ↦ ?_, ?_⟩
  · refine h.straight c (List.mem_append_left _ hc) ?_
    rw [heq]
    exact h.returns
  · exact (mem_loopExitEdges hvalid.edge_mem).2 ⟨hsource, h.leaves⟩

/-- The headers of the supplied invariants are headers of loops. -/
theorem EntersByHeader.of_loopHeaders {info : LoopInfo} {inner : InnerInvariants}
    (h : EntersByHeader info cfg (loopHeaders cfg) cs)
    (hinner : ∀ pair ∈ inner, ∃ loop ∈ detectLoops cfg, pair.1 = loop.header) :
    EntersByHeader info cfg inner cs := by
  intro cs₁ c cs₂ hsplit pair hpair hbody hin
  obtain ⟨loop, hloop, heq⟩ := hinner pair hpair
  rw [heq] at hbody hin ⊢
  exact h cs₁ c cs₂ hsplit (loop.header, .tru) (List.mem_map_of_mem hloop) hbody hin

/-- What is known about the invariants of a graph. -/
theorem loopInvariants_eq_ok (h : loopInvariants synthesize cfg oracle site = .ok invariants) :
    ∃ states, computePreliminaryBackwardStates cfg site cfg.detectBackEdges.toFinset = .ok states ∧
      (∀ v ∈ invariants, ∃ loop ∈ detectLoops cfg, v.header = loop.header) ∧
      ∀ info ∈ detectLoops cfg, Supplied cfg oracle (postconditionsOf cfg states) invariants
        info := by
  rw [loopInvariants] at h
  obtain ⟨states, hstates, h⟩ := bind_eq_ok.1 h
  obtain ⟨-, hheaders, hsupplied⟩ := synthesizeFrom_eq_ok h
  refine ⟨states, hstates, fun v hv ↦ ?_, fun info hinfo ↦
    hsupplied info (mem_sortInnermostFirst.2 hinfo)⟩
  obtain ⟨loop, hloop, heq⟩ := (hheaders v hv).resolve_left List.not_mem_nil
  exact ⟨loop, mem_sortInnermostFirst.1 hloop, heq⟩

/-- The final analysis finds the violations that executions without back edges reach. -/
theorem obligation_of_straight (hsound : oracle.InfeasibleSound)
    (h : runBackward cfg site oracle cfg.detectBackEdges.toFinset invariants .new = .ok result)
    (hverified : result.judgement = .verified)
    (hrun : cfg.Run sem cs ⟨cfg.entry, s₀⟩ ⟨site.node, s⟩) (hstraight : Straight cfg cs)
    (hund : Undisturbed cs)
    (hentry : ∀ v ∈ invariants, v.header = cfg.entry →
      v.formula.Holds s₀ ∧ ∀ c ∈ cs, c.Keeps v.formula)
    (hquiet : ∀ c ∈ cs, c.Quiet cfg fun _ ↦ True)
    (hsite : Path (TransferEffect.Quiet fun _ ↦ True) (cfg.transferAt site.node).effects s s') :
    site.obligation.Holds s' := by
  by_contra hviolated
  obtain ⟨engine, hengine, hjudgement, -, -⟩ := runBackward_eq_ok h
  obtain ⟨report, hreport, hinfeasible⟩ := (judgement_eq_ok hjudgement).1 hverified
  refine hsound _ report hreport hinfeasible s₀ ?_
  refine holds_combined_of_run hsound hengine hrun hquiet cfg.readsWithin_true.termsRead
    ⟨hsite, hviolated⟩ site.obligation.readsWithin_true.terms
    (fun c hc ↦ mt List.mem_toFinset.1 (hstraight c hc)) (fun inv hinv ↦ ?_) hund
  -- what is injected at the entry is a conjunction of invariants of the entry
  have hinduction := @conjunctLoopInvariants_induction invariants
    (fun n φ ↦ n = cfg.entry → φ.Holds s₀ ∧ ∀ c ∈ cs, c.Keeps φ) (fun n φ ψ hφ hψ hn ↦ ?_) hentry
  · exact hinduction _ hinv rfl
  · obtain ⟨hφ₀, hφ⟩ := hφ hn
    obtain ⟨hψ₀, hψ⟩ := hψ hn
    refine ⟨(Formula.holds_mkAnd _ _).2 ⟨hφ₀, hψ₀⟩, fun c hc hpre ↦ ?_⟩
    obtain ⟨hpreφ, hpreψ⟩ := (Formula.holds_mkAnd _ _).1 hpre
    exact (Formula.holds_mkAnd _ _).2 ⟨hφ c hc hpreφ, hψ c hc hpreψ⟩

/-- The checker refutes the violations behind the exit of a loop whose invariant is true. -/
theorem obligation_of_leaves (hsound : oracle.InfeasibleSound)
    (hinvariants : loopInvariants synthesize cfg oracle site = .ok invariants)
    (hrun : cfg.Run sem cs p ⟨site.node, s⟩) {pre post : List Crossing} {back exit : Crossing}
    (hleaves : LeavesLastLoop cfg cs pre mid post back exit)
    (hheaders : HoldAtHeaders cfg sem invariants cs p)
    (hquiet : ∀ c ∈ cs, c.Quiet cfg fun _ ↦ True)
    (hsite : Path (TransferEffect.Quiet fun _ ↦ True) (cfg.transferAt site.node).effects s s') :
    site.obligation.Holds s' := by
  by_contra hviolated
  obtain ⟨states, hstates, hloops, hsupplied⟩ := loopInvariants_eq_ok hinvariants
  obtain rfl := hleaves.split
  obtain ⟨m, hpre, m', ⟨hback, rfl, rfl⟩, hrest⟩ := Path.append_iff.1 hrun
  have hassoc : mid ++ exit :: post = (mid ++ [exit]) ++ post := by simp
  rw [hassoc] at hrest
  obtain ⟨q, htraverse, hlast⟩ := Path.append_iff.1 hrest
  obtain ⟨e, -, hexit⟩ := Path.append_iff.1 htraverse
  obtain ⟨hvalid, -, rfl⟩ := Path.singleton_iff.1 hexit
  have hinfo : loopOf cfg back.edge ∈ detectLoops cfg :=
    mem_detectLoops.2 ⟨back.edge, hback.edge_mem, hleaves.returns, rfl⟩
  obtain ⟨candidate, inner, haccepted, hmem, hinner⟩ := hsupplied _ hinfo
  -- the header is reached by the last back edge, so the invariant holds there
  have hheader : (normalizeCandidate cfg (loopOf cfg back.edge).header candidate).Holds back.post :=
    hheaders (pre ++ [back]) (mid ++ exit :: post) ⟨back.edge.target, back.post⟩ (by simp)
      (Path.append hpre (Path.singleton_iff.2 ⟨hback, rfl, rfl⟩)) _ hmem rfl
  have htrue : VisitsTrue inner (mid ++ [exit]) := by
    intro c hc pair hpair heq
    obtain ⟨v, hv, rfl⟩ := hinner pair hpair
    obtain ⟨cs₁, cs₂, hsplit, -, hto, -⟩ := AbstractCfg.Run.split htraverse hc
    refine hheaders (pre ++ back :: cs₁) (c :: cs₂ ++ post) ⟨c.edge.source, c.pre⟩ ?_ ?_ v hv heq
    · rw [hassoc, hsplit]
      simp
    · exact Path.append hpre ⟨_, ⟨hback, rfl, rfl⟩, hto⟩
  have henters : EntersByHeader (loopOf cfg back.edge) cfg inner (mid ++ [exit]) := by
    refine hleaves.enters.of_loopHeaders fun pair hpair ↦ ?_
    obtain ⟨v, hv, rfl⟩ := hinner pair hpair
    exact hloops v hv
  have hsupply : IteratesSupplied cfg inner mid := by
    intro cs₁ c cs₂ hsplit hmem
    exact absurd hmem (hleaves.straight c (by simp [hsplit]))
  have hpost : postconditionsOf cfg states exit.edge.target = some (states exit.edge.target) :=
    if_pos (cfg.target_mem exit.edge hvalid.edge_mem)
  refine (hleaves.traversal htraverse).not_holds_postcondition hsound haccepted
    (fun c hc ↦ hquiet c ?_) hsupply henters htrue hheader hpost ?_
  · rw [hassoc]
    simp only [List.mem_append, List.mem_cons] at hc ⊢
    tauto
  · refine preliminaryState_of_quietRun hstates cfg.readsWithin_true.termsRead
      site.obligation.readsWithin_true.terms hlast (fun c hc ↦ ?_) (fun c hc ↦ ?_) hsite hviolated
    · exact hleaves.straight c (by simp [hc])
    · exact hquiet c (by simp [hc])

/-- **A verified site is safe on covered executions.** If the analysis of a graph with loops
answers `Verified`, the obligation holds at the end of every execution to the site along which
the invariants are true, and which takes no back edge or leaves the loop of its last back edge. -/
theorem obligation_of_verified (hsound : oracle.InfeasibleSound)
    (hcyclic : cfg.topologicalOrder = none)
    (h : analyzeWithTables synthesize cfg oracle site .new = .ok result)
    (hverified : result.judgement = .verified)
    (hinvariants : loopInvariants synthesize cfg oracle site = .ok invariants)
    (hrun : cfg.Run sem cs ⟨cfg.entry, s₀⟩ ⟨site.node, s⟩)
    (hheaders : HoldAtHeaders cfg sem invariants cs ⟨cfg.entry, s₀⟩)
    (hcovered : CoveredRun cfg invariants cs) (hquiet : ∀ c ∈ cs, c.Quiet cfg fun _ ↦ True)
    (hsite : Path (TransferEffect.Quiet fun _ ↦ True) (cfg.transferAt site.node).effects s s') :
    site.obligation.Holds s' := by
  obtain ⟨invariants', hinvariants', hbackward⟩ := analyzeWithTables_eq_ok hcyclic h
  obtain rfl : invariants = invariants' := Except.ok.inj (hinvariants.symm.trans hinvariants')
  cases hcovered with
  | straight hstraight hund hentry =>
    refine obligation_of_straight hsound hbackward hverified hrun hstraight hund
      (fun v hv heq ↦ ⟨?_, hentry v hv heq⟩) hquiet hsite
    exact hheaders [] cs ⟨cfg.entry, s₀⟩ rfl rfl v hv heq
  | leaves pre mid post back exit hleaves =>
    exact obligation_of_leaves hsound hinvariants hrun hleaves hheaders hquiet hsite

end Covered

/-! ### A site inside a loop -/

section Inside

/-- `x` is 0 when the loop is entered, and 1 after each iteration. -/
def iteratedCfg : AbstractCfg where
  nodes := [⟨0, "entry", .entry, ⟨[.assign (.int "x") (.term (.int 0))]⟩⟩,
    ⟨1, "header", .normal, .identity⟩,
    ⟨2, "body", .normal, ⟨[.assign (.int "x") (.term (.int 1))]⟩⟩, ⟨3, "exit", .exit, .identity⟩]
  edges := [⟨0, 0, 1, .tru, []⟩, ⟨1, 1, 2, .tru, []⟩, ⟨2, 2, 1, .tru, []⟩, ⟨3, 1, 3, .tru, []⟩]
  entry := 0
  concreteExits := [3]
  exit := some 3
  nextNode := 4
  nextEdge := 4
  nodes_sorted := by simp
  edges_sorted := by simp
  node_lt := by simp
  edge_lt := by simp
  entry_mem := by simp
  source_mem := by simp
  target_mem := by simp

/-- The invariant that is found: `x` is not negative. -/
def xNonnegative : Formula := .ge (.var (.int "x")) (.int 0)

/-- The search proposes it for every loop. -/
def proposeNonnegative : Synthesizer := fun _ _ _ ↦ some xNonnegative

/-- A solver that knows the queries about these formulas. -/
def nonnegativeOracle : Oracle :=
  .knowing [.and [xIsZero, .not xNonnegative], .and [xNonnegative, .not (.ge (.int 1) (.int 0))],
    .and [xNonnegative, .not xNonnegative], .not (.ge (.int 0) (.int 0)),
      .not (.eq (.int 0) (.int 0)),
    .fls]
    [.and [xIsZero, xNonnegative]]

theorem holds_xNonnegative_iff {s : State} {n : ℤ} (h : s.lookup (.int "x") = .int n) :
    xNonnegative.Holds s ↔ 0 ≤ n := by
  simp [xNonnegative, Formula.Holds, Formula.eval, Term.eval, h, Value.compare]

theorem infeasibleSound_nonnegativeOracle : nonnegativeOracle.InfeasibleSound := by
  refine Oracle.infeasibleSound_knowing fun φ hφ s hs ↦ ?_
  simp only [List.mem_cons, List.not_mem_nil, or_false] at hφ
  rcases hφ with rfl | rfl | rfl | rfl | rfl | rfl
  · obtain ⟨hzero, hnegative⟩ : xIsZero.Holds s ∧ ¬ xNonnegative.Holds s := by simpa using hs
    exact hnegative ((holds_xNonnegative_iff (holds_xIsZero_iff.1 hzero)).2 le_rfl)
  · simp [Formula.Holds, Formula.eval, Formula.evalAll, Term.eval, Value.compare] at hs
  · simp at hs
  · simp [Formula.Holds, Formula.eval, Term.eval, Value.compare] at hs
  · simp [Formula.Holds, Formula.eval, Term.eval, Value.compare] at hs
  · exact Formula.not_holds_fls s hs

/-- The verdict, if the analysis succeeds. -/
def verdict (synthesize : Synthesizer) (cfg : AbstractCfg) (oracle : Oracle)
    (site : AssertionSite) :
    Option Judgement :=
  match analyzeWithTables synthesize cfg oracle site .new with
  | .ok result => some result.judgement
  | .error _ => none

theorem exists_of_verdict {synthesize : Synthesizer} {cfg : AbstractCfg} {oracle : Oracle}
    {site : AssertionSite} {j : Judgement} (h : verdict synthesize cfg oracle site = some j) :
    ∃ result, analyzeWithTables synthesize cfg oracle site .new = .ok result ∧
      result.judgement = j := by
  rw [verdict] at h
  split at h
  · rename_i result hresult
    exact ⟨result, hresult, Option.some.inj h⟩
  · cases h

/-- The states of an execution: `x` is 0, and then 1. -/
def zeroState : State := State.zero.set (.int "x") (.int 0)

/-- One iteration later. -/
def oneState : State := zeroState.set (.int "x") (.int 1)

/-- The execution enters the loop, iterates it once and arrives at the header again. -/
def iterateOnce : List Crossing :=
  [⟨⟨0, 0, 1, .tru, []⟩, .zero, zeroState, zeroState⟩,
    ⟨⟨1, 1, 2, .tru, []⟩, zeroState, zeroState, zeroState⟩,
    ⟨⟨2, 2, 1, .tru, []⟩, zeroState, oneState, oneState⟩]

theorem run_iterateOnce :
    iteratedCfg.Run .unknownCallees iterateOnce ⟨iteratedCfg.entry, .zero⟩ ⟨1, oneState⟩ := by
  have hassign (s : State) (n : Int64) : TransferFn.Run .unknownCallees
      ⟨[.assign (.int "x") (.term (.int n))]⟩ s (s.set (.int "x") (.int n.toInt)) := by
    refine Path.singleton_iff.2 ⟨?_, by decide, ?_⟩
    · simp [Term.eval, Var.int]
    · simp [Term.eval]
  exact ⟨_, ⟨⟨by decide, hassign .zero 0, Formula.holds_tru _, rfl⟩, rfl, rfl⟩,
    _, ⟨⟨by decide, rfl, Formula.holds_tru _, rfl⟩, rfl, rfl⟩,
    _, ⟨⟨by decide, hassign zeroState 1, Formula.holds_tru _, rfl⟩, rfl, rfl⟩, rfl⟩

/-- A site at the header that asks `x` to be 0 is verified, but the second arrival violates it. -/
theorem not_obligation_of_verified :
    ¬ ∀ (synthesize : Synthesizer) (cfg : AbstractCfg) (oracle : Oracle) (site : AssertionSite)
      (result : AssertionResult), oracle.InfeasibleSound → cfg.topologicalOrder = none →
      analyzeWithTables synthesize cfg oracle site .new = .ok result →
      result.judgement = .verified → ¬ site.Violable .unknownCallees cfg := by
  intro h
  have hverdict : verdict proposeNonnegative iteratedCfg nonnegativeOracle
      ⟨0, 1, xIsZero, "header"⟩ = some .verified := by decide
  obtain ⟨result, hresult, hverified⟩ := exists_of_verdict hverdict
  refine h _ _ _ _ result infeasibleSound_nonnegativeOracle (by decide) hresult hverified
    ⟨iterateOnce, .zero, oneState, run_iterateOnce, oneState, rfl, ?_⟩
  show ¬ xIsZero.Holds oneState
  rw [holds_xIsZero_iff, oneState, State.lookup_set_self rfl]
  simp

theorem scalar_iteratedCfg : iteratedCfg.Scalar where
  node := AbstractCfg.forall_transferAt fun node hnode e he ↦ by
    have hcases : ∀ node ∈ iteratedCfg.nodes, ∀ e ∈ node.transfer.effects,
        e = .assign (.int "x") (.term (.int 0)) ∨ e = .assign (.int "x") (.term (.int 1)) := by
      decide
    rcases hcases node hnode e he with rfl | rfl
    · exact .assign _ _
    · exact .assign _ _
  edge e he f hf := by
    have hnil : ∀ e ∈ iteratedCfg.edges, e.effects = [] := by decide
    rw [hnil e he] at hf
    cases hf

/-- Behind the loop, the verdict is right about the execution that iterates once. -/
theorem obligation_of_verified_iteratedCfg : xNonnegative.Holds oneState := by
  have hverdict : verdict proposeNonnegative iteratedCfg nonnegativeOracle
      ⟨0, 3, xNonnegative, "exit"⟩ = some .verified := by decide
  obtain ⟨result, hresult, hverified⟩ := exists_of_verdict hverdict
  have hinvariants : loopInvariants proposeNonnegative iteratedCfg nonnegativeOracle
      ⟨0, 3, xNonnegative, "exit"⟩ = .ok [⟨1, xNonnegative⟩] := by decide
  let exit : Crossing := ⟨⟨3, 1, 3, .tru, []⟩, oneState, oneState, oneState⟩
  have hrun : iteratedCfg.Run .unknownCallees (iterateOnce ++ [exit]) ⟨iteratedCfg.entry, .zero⟩
      ⟨3, oneState⟩ :=
    Path.append run_iterateOnce
      (Path.singleton_iff.2 ⟨⟨by decide, rfl, Formula.holds_tru _, rfl⟩, rfl, rfl⟩)
  have hzero : xNonnegative.Holds zeroState :=
    (holds_xNonnegative_iff (State.lookup_set_self rfl)).2 le_rfl
  have hone : xNonnegative.Holds oneState :=
    (holds_xNonnegative_iff (State.lookup_set_self rfl)).2 zero_le_one
  have hheaders : HoldAtHeaders iteratedCfg .unknownCallees [⟨1, xNonnegative⟩]
      (iterateOnce ++ [exit]) ⟨iteratedCfg.entry, .zero⟩ := by
    refine holdAtHeaders_of_crossings (fun v hv heq ↦ ?_) fun c hc v hv heq ↦ ?_
    · obtain rfl := List.mem_singleton.1 hv
      exact absurd heq (by decide)
    · obtain rfl := List.mem_singleton.1 hv
      have hpost : c.post = zeroState ∨ c.post = oneState := by
        simp only [iterateOnce, exit, List.cons_append, List.nil_append, List.mem_cons,
          List.not_mem_nil, or_false] at hc
        rcases hc with rfl | rfl | rfl | rfl <;> simp
      rcases hpost with hpost | hpost
      · exact hpost ▸ hzero
      · exact hpost ▸ hone
  have hleaves : LeavesLastLoop iteratedCfg (iterateOnce ++ [exit]) (iterateOnce.take 2) [] []
      ⟨⟨2, 2, 1, .tru, []⟩, zeroState, oneState, oneState⟩ exit := by
    refine ⟨rfl, by decide, fun c hc ↦ ?_, by simp, by decide,
      fun cs₁ c cs₂ hsplit pair hpair _ hin ↦ ?_⟩
    · obtain rfl := List.mem_singleton.1 hc
      decide
    · have hc : c ∈ [exit] := by
        rw [List.nil_append] at hsplit
        simp [hsplit]
      obtain rfl := List.mem_singleton.1 hc
      have hbody : ∀ pair ∈ loopHeaders iteratedCfg, 1 ∉ innerBody iteratedCfg pair.1 := by decide
      exact absurd hin (hbody pair hpair)
  refine obligation_of_verified infeasibleSound_nonnegativeOracle (by decide) hresult hverified
    hinvariants hrun hheaders (.leaves _ _ _ _ _ hleaves) (fun c hc ↦ ?_) rfl
  obtain ⟨-, -, -, hvalid, -⟩ := AbstractCfg.Run.split hrun hc
  exact scalar_iteratedCfg.quiet hvalid

end Inside

end MayMust
