import MayMust.Analysis.Backward.BugFound
import MayMust.Analysis.Backward.Callees
import MayMust.Analysis.Invariants.Synthesis

/-!
# Verified graphs with loops

The invariants of a graph are found loop by loop, and the search for one loop is given those found
before it. So the invariants of all loops are true along an execution that arrives at each header as
the checks of its loop have it (`RegularRun`): by induction on the loops, and for each loop on the
arrivals. Nothing has to be assumed about the invariants, since whatever the search can return reads
only what the graph and the site speak of.

A verdict `Verified` is then right about the regular executions that take no back edge, or that
leave the loop of their last back edge before they reach the site (`obligation_of_regular`).
-/

namespace MayMust

open Library

/-! ### What the analysis speaks of -/

section Reads

variable {cfg : AbstractCfg} {site : AssertionSite} {K : Var → Prop} {R : String → Prop}

/-- The graph and the obligation read only variables in `K` below terms, and only regions in `R`, to
which all stores go. -/
structure AbstractCfg.SpeaksWithin (cfg : AbstractCfg) (site : AssertionSite) (K : Var → Prop)
    (R : String → Prop) : Prop where
  graph : cfg.ReadsWithin K R
  obligation : site.obligation.ReadsWithin K R
  ints : ∀ v : Var, v.sort = .int → K v
  stores : ∀ region offset value, cfg.HasEffect (.memoryStore region offset value) → R region

/-- Nothing is excluded. -/
theorem AbstractCfg.speaksWithin_true (cfg : AbstractCfg) (site : AssertionSite) :
    cfg.SpeaksWithin site (fun _ ↦ True) fun _ ↦ True :=
  ⟨cfg.readsWithin_true, site.obligation.readsWithin_true, fun _ _ ↦ trivial,
    fun _ _ _ _ ↦ trivial⟩

/-- The facts are about regions in `R`. -/
def StoreFacts.RegionsIn (R : String → Prop) (facts : StoreFacts) : Prop := ∀ p ∈ facts, R p.1.1

theorem StoreFacts.RegionsIn.mono {facts facts' : StoreFacts} (h : facts.RegionsIn R)
    (hsub : facts' ⊆ facts) : facts'.RegionsIn R := fun p hp ↦ h p (hsub hp)

theorem Walk.regionsIn_applyEffects {es : List TransferEffect} {walk : Walk}
    (hes : ∀ region offset value, .memoryStore region offset value ∈ es → R region)
    (h : walk.facts.RegionsIn R) : (walk.applyEffects es).facts.RegionsIn R := by
  refine List.foldlRecOn (motive := fun walk : Walk ↦ walk.facts.RegionsIn R) es _ h ?_
  intro walk hwalk e he p hp
  rcases Walk.mem_facts_applyEffect hp with hp | ⟨region, offset, value, k, rfl, -, rfl⟩
  · exact hwalk p hp
  · exact hes region offset value he

namespace ForwardState

variable {backEdges : Finset CfgEdgeId} {st : ForwardState} {id : CfgEdgeId} {e : AbstractEdge}
  {source : AbstractNode} {node : CfgNodeId}

/-- The facts of all nodes are about regions in `R`. -/
def RegionsIn (R : String → Prop) (st : ForwardState) : Prop := ∀ n, (st.inFacts n).RegionsIn R

theorem transfer_of_liveEdge (h : st.liveEdge cfg backEdges id = some (e, source)) :
    source.transfer = cfg.transferAt e.source := by
  rw [liveEdge] at h
  split at h
  · cases h
  split at h
  · cases h
  split at h
  · cases h
  split at h
  · cases h
  rename_i node hnode
  obtain ⟨rfl, rfl⟩ := Prod.mk.inj (Option.some.inj h)
  exact (AbstractCfg.transferAt_eq hnode).symm

/-- A walk over a live edge adds facts about what its effects store to. -/
theorem RegionsIn.walk (h : st.RegionsIn R) (hcfg : cfg.SpeaksWithin site K R)
    (hlive : st.liveEdge cfg backEdges id = some (e, source)) (φ : Formula) :
    ((Walk.mk φ (st.inFacts e.source)).applyEffects source.transfer.effects).facts.RegionsIn R ∧
      ∀ walk : Walk, walk.facts.RegionsIn R → (walk.applyEffects e.effects).facts.RegionsIn R := by
  obtain ⟨he, -, -⟩ := mem_of_liveEdge hlive
  rw [transfer_of_liveEdge hlive]
  refine ⟨Walk.regionsIn_applyEffects (fun region offset value hmem ↦ ?_) (h e.source),
    fun walk hwalk ↦ Walk.regionsIn_applyEffects (fun region offset value hmem ↦ ?_) hwalk⟩
  · exact hcfg.stores region offset value (Or.inl ⟨e.source, hmem⟩)
  · exact hcfg.stores region offset value (Or.inr ⟨e, he, hmem⟩)

theorem regionsIn_joinFacts {prev : Option StoreFacts} {facts : StoreFacts}
    (h : facts.RegionsIn R) : (joinFacts prev facts).RegionsIn R := by
  cases prev with
  | none => exact h
  | some prev => exact h.mono StoreFacts.intersect_subset_right

/-- One incoming edge adds nothing to the facts of the nodes, and keeps the collected ones within
`R`. -/
theorem RegionsIn.visitEdge {acc : ForwardState × Option StoreFacts} (h : acc.1.RegionsIn R)
    (hacc : ∀ facts, acc.2 = some facts → facts.RegionsIn R) (hcfg : cfg.SpeaksWithin site K R) :
    (ForwardState.visitEdge cfg backEdges node acc id).1.RegionsIn R ∧
      ∀ facts, (ForwardState.visitEdge cfg backEdges node acc id).2 = some facts →
        facts.RegionsIn R := by
  refine ⟨fun n ↦ ?_, fun facts hsome ↦ ?_⟩
  · rw [inFacts_visitEdge]
    exact h n
  · rw [ForwardState.visitEdge] at hsome
    split at hsome
    · exact hacc facts hsome
    · rename_i e source hlive
      obtain rfl := Option.some.inj hsome
      obtain ⟨hsource, hedge⟩ := h.walk hcfg hlive (acc.1.reach e.source)
      exact regionsIn_joinFacts (hedge _ hsource)

theorem RegionsIn.visit (h : st.RegionsIn R) (hcfg : cfg.SpeaksWithin site K R) :
    (ForwardState.visit cfg backEdges st node).RegionsIn R := by
  obtain ⟨hst, hfacts⟩ := List.foldlRecOn
    (motive := fun acc : ForwardState × Option StoreFacts ↦
      acc.1.RegionsIn R ∧ ∀ facts, acc.2 = some facts → facts.RegionsIn R)
    (cfg.incomingEdges node) (ForwardState.visitEdge cfg backEdges node)
    (b := (st, none)) ⟨h, fun facts hnone ↦ absurd hnone.symm (Option.some_ne_none facts)⟩
    fun acc hacc id _ ↦ hacc.1.visitEdge hacc.2 hcfg
  rw [ForwardState.visit]
  dsimp only
  split
  · exact hst
  · rename_i facts hsome
    intro n
    by_cases hn : n = node
    · subst hn
      simpa only [Function.update_self] using hfacts facts hsome
    · simpa only [Function.update_of_ne hn] using hst n

theorem regionsIn_pass (hcfg : cfg.SpeaksWithin site K R) (inner : InnerInvariants)
    (order : List CfgNodeId) : (pass cfg backEdges inner order).RegionsIn R := by
  refine List.foldlRecOn (motive := fun st : ForwardState ↦ st.RegionsIn R) order _ ?_
    fun st hst node _ ↦ hst.visit hcfg
  exact fun n p hp ↦ absurd hp List.not_mem_nil

end ForwardState

/-- What is remembered at a header is about what the graph stores to. -/
theorem AbstractCfg.SpeaksWithin.regionsIn_preheaderStoreFacts (hcfg : cfg.SpeaksWithin site K R)
    {header : CfgNodeId} (hheader : header ∈ cfg.nodeIds) (inner : InnerInvariants) :
    (preheaderStoreFactsAtHeader cfg header inner).RegionsIn R := by
  cases horder : cfg.topologicalOrderExcluding cfg.detectBackEdges.toFinset with
  | none =>
    rw [preheaderStoreFactsAtHeader]
    simp only [horder]
    exact fun p hp ↦ absurd hp List.not_mem_nil
  | some order =>
    rw [preheaderStoreFactsAtHeader_eq horder hheader]
    exact ForwardState.regionsIn_pass hcfg inner order header

/-- The states in front of the loops are about what the graph and the site speak of. -/
theorem AbstractCfg.SpeaksWithin.readsWithin_preliminaryStates {excluded : Finset CfgEdgeId}
    {states : CfgNodeId → Formula} (hcfg : cfg.SpeaksWithin site K R)
    (h : computePreliminaryBackwardStates cfg site excluded = .ok states) (n : CfgNodeId) :
    (states n).ReadsWithin K R := by
  have hhereditary := hereditary_readsWithin K R
  obtain ⟨order, engine, -, hcalls, hstates⟩ :=
    computePreliminaryBackwardStates_eq_ok .new (.knowing [] []) h
  rw [hstates]
  refine Path.invariant
    (P := fun engine : RuleEngine ↦ ∀ n, (engine.stateAt n).ReadsWithin K R) ?_ hcalls ?_ n
  · intro call hcall engine engine' hstep hengine m
    obtain ⟨id, -, rfl⟩ := List.mem_map.1 hcall
    rcases RuleEngine.notmayPre_eq_ok hstep with ⟨-, rfl⟩ | ⟨-, e, he, -, rfl⟩
    · exact hengine m
    · rw [RuleEngine.stateAt_joinStateAt]
      split_ifs
      · refine hhereditary.mkOr (hengine _) (Formula.ReadsWithin.wp ?_ (hcfg.graph.node e.source))
        exact hhereditary.mkAnd (hcfg.graph.guard e he)
          ((hengine e.target).wp (hcfg.graph.edge e he))
      · exact hengine m
  · intro m
    rw [RuleEngine.stateAt_setStateAt]
    split_ifs
    · exact ((hhereditary.not_iff _).2 hcfg.obligation).wp (hcfg.graph.node site.node)
    · have hinit : (RuleEngine.initExcluding cfg excluded).stateAt m = .fls :=
        RuleEngine.stateAt_init m
      exact hinit ▸ hhereditary.fls

/-- The search for an invariant of a loop stays within what the graph and the site speak of. -/
theorem AbstractCfg.SpeaksWithin.within {states : CfgNodeId → Formula}
    {excluded : Finset CfgEdgeId} {info : LoopInfo} (hcfg : cfg.SpeaksWithin site K R)
    (h : computePreliminaryBackwardStates cfg site excluded = .ok states)
    (hinfo : info ∈ detectLoops cfg) (inner : InnerInvariants) :
    info.Within cfg (postconditionsOf cfg states) inner K R where
  graph := hcfg.graph
  postcondition n φ hφ := by
    rw [postconditionsOf] at hφ
    split_ifs at hφ
    exact Option.some.inj hφ ▸ hcfg.readsWithin_preliminaryStates h n
  ints := hcfg.ints
  facts p hp := by
    obtain ⟨b, hb, -, rfl⟩ := mem_detectLoops.1 hinfo
    exact hcfg.regionsIn_preheaderStoreFacts (cfg.target_mem b hb) inner p (List.mem_of_mem_filter hp)

end Reads

/-! ### The invariants of the loops -/

section Invariants

variable {synthesize : Synthesizer} {cfg : AbstractCfg} {oracle : Oracle}
  {postconditions : CfgNodeId → Option Formula} {accepted invariants : List VerifiedLoopInvariant}
  {loops : List LoopInfo}

/-- The search as the analysis calls it. -/
def cegisSynthesizer (oracle : Oracle) (budget : ℕ) (cfg : AbstractCfg) : Synthesizer :=
  fun info postconditions inner ↦ cegisCandidate info cfg oracle postconditions inner budget

/-- The invariants supplied to the search for the `k`-th loop. -/
def suppliedTo (invariants : List VerifiedLoopInvariant) (k : ℕ) : InnerInvariants :=
  (invariants.take k).map (·.asPair)

theorem exists_of_mem_suppliedTo {pair : CfgNodeId × Formula} {k : ℕ}
    (h : pair ∈ suppliedTo invariants k) :
    ∃ j < k, ∃ v, invariants[j]? = some v ∧ pair = v.asPair := by
  obtain ⟨v, hv, rfl⟩ := List.mem_map.1 h
  obtain ⟨j, hj, rfl⟩ := List.mem_iff_getElem.1 hv
  rw [List.length_take, lt_min_iff] at hj
  exact ⟨j, hj.1, _, by rw [List.getElem_take, List.getElem?_eq_getElem hj.2], rfl⟩

/-- Each loop has its invariant, which was found with those of the loops before it supplied. -/
theorem getElem?_of_synthesizeFrom
    (h : synthesizeFrom synthesize cfg oracle postconditions accepted loops = .ok invariants) :
    accepted <+: invariants ∧ invariants.length = accepted.length + loops.length ∧
      ∀ k info, loops[k]? = some info → ∃ formula,
        invariants[accepted.length + k]? = some ⟨info.header, formula⟩ ∧
          acceptedInvariant synthesize cfg oracle postconditions
            (suppliedTo invariants (accepted.length + k)) info = some formula := by
  induction loops generalizing accepted with
  | nil =>
    obtain rfl := Except.ok.inj h
    exact ⟨List.prefix_rfl, rfl, fun k info hk ↦ by simp at hk⟩
  | cons loop loops ih =>
    rw [synthesizeFrom] at h
    cases hformula : acceptedInvariant synthesize cfg oracle postconditions
        (accepted.map (·.asPair)) loop with
    | none => simp [hformula] at h
    | some formula =>
      simp only [hformula] at h
      obtain ⟨hpre, hlength, hloops⟩ := ih h
      have haccepted := (List.prefix_append accepted [⟨loop.header, formula⟩]).trans hpre
      rw [List.length_append, List.length_singleton] at hlength hloops
      refine ⟨haccepted, by rw [hlength, List.length_cons]; omega, fun k info hk ↦ ?_⟩
      cases k with
      | zero =>
        obtain rfl := Option.some.inj hk
        refine ⟨formula, ?_, ?_⟩
        · obtain ⟨rest, rfl⟩ := hpre
          simp
        · rw [suppliedTo, Nat.add_zero, ← List.prefix_iff_eq_take.1 haccepted, hformula]
      | succ k =>
        obtain ⟨formula', hget, hfound⟩ := hloops k info (by simpa using hk)
        rw [Nat.add_assoc, Nat.add_comm 1 k] at hget hfound
        exact ⟨formula', hget, hfound⟩

end Invariants

/-! ### Regular executions -/

section Regular

variable {cfg : AbstractCfg} {site : AssertionSite} {oracle : Oracle} {K : Var → Prop}
  {R : String → Prop} {sem : Semantics} {invariants : List VerifiedLoopInvariant} {budget : ℕ}
  {cs : List Crossing} {s₀ s s' : State} {tables : ContextualSummaryTable}
  {result : AssertionResult}

/-- Wherever the execution arrives at the header of a loop, it does so as the checks of the loop
have it, with the invariants of the loops before it supplied. -/
def RegularRun (cfg : AbstractCfg) (sem : Semantics) (K : Var → Prop) (R : String → Prop)
    (invariants : List VerifiedLoopInvariant) (p : Position) (cs : List Crossing) : Prop :=
  ∀ k info, (sortInnermostFirst (detectLoops cfg))[k]? = some info → ∀ cs₁ s, cs₁ <+: cs →
    cfg.Run sem cs₁ p ⟨info.header, s⟩ →
      LoopArrival info cfg sem K R (suppliedTo invariants k) p cs₁ s

/-- Along a regular execution, the invariants are true. -/
theorem RegularRun.holds (hsound : oracle.InfeasibleSound) (hcfg : cfg.SpeaksWithin site K R)
    (hinvariants : loopInvariants (cegisSynthesizer oracle budget cfg) cfg oracle site =
      .ok invariants)
    (hregular : RegularRun cfg sem K R invariants ⟨cfg.entry, s₀⟩ cs) (k : ℕ)
    (v : VerifiedLoopInvariant) (hv : invariants[k]? = some v) :
    v.formula.ReadsWithin K R ∧ ∀ cs₁ s, cs₁ <+: cs →
      cfg.Run sem cs₁ ⟨cfg.entry, s₀⟩ ⟨v.header, s⟩ → v.formula.Holds s := by
  obtain ⟨states, hstates, hfrom⟩ := bind_eq_ok.1 hinvariants
  obtain ⟨-, hlength, hloops⟩ := getElem?_of_synthesizeFrom hfrom
  induction k using Nat.strong_induction_on generalizing v with
  | _ k ih =>
    have hk : k < (sortInnermostFirst (detectLoops cfg)).length := by
      have hlt := (List.getElem?_eq_some_iff.1 hv).1
      simpa [hlength] using hlt
    have hinfo := List.getElem?_eq_getElem hk
    generalize (sortInnermostFirst (detectLoops cfg))[k] = info at hinfo
    have hmem : info ∈ detectLoops cfg :=
      mem_sortInnermostFirst.1 (List.mem_of_getElem? hinfo)
    obtain ⟨formula, hget, hfound⟩ := hloops k info hinfo
    rw [List.length_nil, Nat.zero_add] at hget hfound
    obtain rfl := Option.some.inj (hv.symm.trans hget)
    have hsynthesized := acceptedInvariant_cegisCandidate budget ▸ hfound
    have hwithin := hcfg.within hstates hmem (suppliedTo invariants k)
    refine ⟨readsWithin_of_synthesizeWithCegis hwithin hmem hsynthesized,
      fun cs₁ s hpre hrun ↦ ?_⟩
    refine (hregular k info hinfo cs₁ s hpre hrun).holds_of_synthesized hsound hmem hwithin
      (fun pair hpair ↦ ?_) hsynthesized fun pair hpair cs₂ s₂ hpre₂ hrun₂ ↦ ?_
    · obtain ⟨j, hj, w, hw, rfl⟩ := exists_of_mem_suppliedTo hpair
      exact (ih j hj w hw).1
    · obtain ⟨j, hj, w, hw, rfl⟩ := exists_of_mem_suppliedTo hpair
      exact (ih j hj w hw).2 cs₂ s₂ (hpre₂.trans hpre) hrun₂

theorem RegularRun.holdAtHeaders (hsound : oracle.InfeasibleSound)
    (hcfg : cfg.SpeaksWithin site K R)
    (hinvariants : loopInvariants (cegisSynthesizer oracle budget cfg) cfg oracle site =
      .ok invariants)
    (hregular : RegularRun cfg sem K R invariants ⟨cfg.entry, s₀⟩ cs) :
    HoldAtHeaders cfg sem invariants cs ⟨cfg.entry, s₀⟩ := by
  rintro cs₁ cs₂ ⟨n, s⟩ rfl hrun v hv rfl
  obtain ⟨k, hk⟩ := List.mem_iff_getElem?.1 hv
  exact (hregular.holds hsound hcfg hinvariants k v hk).2 cs₁ s (List.prefix_append cs₁ cs₂) hrun

/-- **A verified site behind loops is safe.** Let the analysis of a graph with loops, with the search
for invariants it uses, answer `Verified`, and let there be no summaries for what the graph calls.
Then the invariants it found are true along every regular execution to the site, and the obligation
holds at its end if it takes no back edge or leaves the loop of its last one. -/
theorem obligation_of_regular (hsound : oracle.InfeasibleSound)
    (hcfg : cfg.SpeaksWithin site K R) (hcyclic : cfg.topologicalOrder = none)
    (htables : tables.AgreeOn cfg .new)
    (h : analyzeWithTables (cegisSynthesizer oracle budget cfg) cfg oracle site tables = .ok result)
    (hverified : result.judgement = .verified) :
    ∃ invariants, loopInvariants (cegisSynthesizer oracle budget cfg) cfg oracle site =
        .ok invariants ∧
      ∀ cs s₀ s, cfg.Run sem cs ⟨cfg.entry, s₀⟩ ⟨site.node, s⟩ →
        RegularRun cfg sem K R invariants ⟨cfg.entry, s₀⟩ cs →
          HoldAtHeaders cfg sem invariants cs ⟨cfg.entry, s₀⟩ ∧
            ∀ s', CoveredRun cfg invariants cs → (∀ c ∈ cs, c.Quiet cfg fun _ ↦ True) →
              Path (TransferEffect.Quiet fun _ ↦ True) (cfg.transferAt site.node).effects s s' →
                site.obligation.Holds s' := by
  rw [analyzeWithTables_congr htables] at h
  obtain ⟨invariants, hinvariants, hbackward⟩ := analyzeWithTables_eq_ok hcyclic h
  refine ⟨invariants, hinvariants, fun cs s₀ s hrun hregular ↦ ?_⟩
  have hheaders := hregular.holdAtHeaders hsound hcfg hinvariants
  refine ⟨hheaders, fun s' hcovered hquiet hsite ↦ ?_⟩
  cases hcovered with
  | straight hstraight hund hentry =>
    refine obligation_of_straight hsound hbackward hverified hrun hstraight hund
      (fun v hv heq ↦ ⟨?_, hentry v hv heq⟩) hquiet hsite
    exact hheaders [] cs ⟨cfg.entry, s₀⟩ rfl rfl v hv heq
  | leaves pre mid post back exit hleaves =>
    exact obligation_of_leaves hsound hinvariants hrun hleaves hheaders hquiet hsite

end Regular

/-! ### The loop that sets `x` to 1 -/

section Iterated

/-- The site behind the loop. -/
def behindLoop : AssertionSite := ⟨0, 3, xNonnegative, "exit"⟩

/-- The execution leaves the loop after one iteration. -/
def iterateAndLeave : List Crossing :=
  iterateOnce ++ [⟨⟨3, 1, 3, .tru, []⟩, oneState, oneState, oneState⟩]

theorem run_iterateAndLeave : iteratedCfg.Run .unknownCallees iterateAndLeave
    ⟨iteratedCfg.entry, .zero⟩ ⟨behindLoop.node, oneState⟩ :=
  Path.append run_iterateOnce
    (Path.singleton_iff.2 ⟨⟨by decide, rfl, Formula.holds_tru _, rfl⟩, rfl, rfl⟩)

/-- A run ends where its last crossing does. -/
theorem AbstractCfg.Run.end_eq {cfg : AbstractCfg} {sem : Semantics} {cs : List Crossing}
    {c : Crossing} {p q : Position} (h : cfg.Run sem cs p q) (hc : cs.getLast? = some c) :
    q = ⟨c.edge.target, c.post⟩ := by
  obtain ⟨cs', rfl⟩ := List.getLast?_eq_some_iff.1 hc
  obtain ⟨m, -, hlast⟩ := Path.append_iff.1 h
  exact (Path.singleton_iff.1 hlast).2.2

theorem regularRun_iterateAndLeave (invariants : List VerifiedLoopInvariant) :
    RegularRun iteratedCfg .unknownCallees (fun _ ↦ True) (fun _ ↦ True) invariants
      ⟨iteratedCfg.entry, .zero⟩ iterateAndLeave := by
  have hloops : sortInnermostFirst (detectLoops iteratedCfg) = [iteratedLoop] := by decide
  intro k info hinfo cs s hpre hrun
  rw [hloops] at hinfo
  obtain ⟨rfl, rfl⟩ : k = 0 ∧ info = iteratedLoop := by
    cases k with
    | zero => exact ⟨rfl, (Option.some.inj hinfo).symm⟩
    | succ k => cases hinfo
  have hcs : cs ∈ iterateAndLeave.inits := (List.mem_inits _ _).2 hpre
  simp only [iterateAndLeave, iterateOnce, List.cons_append, List.nil_append, List.inits,
    List.map_cons, List.map_nil, List.mem_cons, List.not_mem_nil, or_false] at hcs
  rcases hcs with rfl | rfl | rfl | rfl | rfl
  · cases hrun
  · obtain ⟨-, rfl⟩ := Position.mk.inj (hrun.end_eq rfl)
    exact arrival_enter
  · cases (Position.mk.inj (hrun.end_eq rfl)).1
  · obtain ⟨-, rfl⟩ := Position.mk.inj (hrun.end_eq rfl)
    exact arrival_iterate
  · cases (Position.mk.inj (hrun.end_eq rfl)).1

theorem leavesLastLoop_iterateAndLeave : LeavesLastLoop iteratedCfg iterateAndLeave
    (iterateOnce.take 2) [] [] ⟨⟨2, 2, 1, .tru, []⟩, zeroState, oneState, oneState⟩
    ⟨⟨3, 1, 3, .tru, []⟩, oneState, oneState, oneState⟩ := by
  refine ⟨rfl, by decide, fun c hc ↦ ?_, by simp, by decide,
    fun cs₁ c cs₂ hsplit pair hpair _ hin ↦ ?_⟩
  · obtain rfl := List.mem_singleton.1 hc
    decide
  · obtain ⟨-, hsplit⟩ := List.append_eq_singleton_iff.1 hsplit.symm |>.resolve_right (by simp)
    obtain ⟨rfl, -⟩ := List.cons.inj hsplit
    have hbody : ∀ pair ∈ loopHeaders iteratedCfg, 1 ∉ innerBody iteratedCfg pair.1 := by decide
    exact absurd hin (hbody pair hpair)

/-- The general statement at the execution that iterates once. -/
theorem obligation_of_regular_iteratedCfg : xNonnegative.Holds oneState := by
  have hverdict : verdict (cegisSynthesizer nonnegativeOracle 50 iteratedCfg) iteratedCfg
      nonnegativeOracle behindLoop = some .verified := by decide
  obtain ⟨result, hresult, hverified⟩ := exists_of_verdict hverdict
  obtain ⟨invariants, -, hcovered⟩ := obligation_of_regular infeasibleSound_nonnegativeOracle
    (iteratedCfg.speaksWithin_true behindLoop) (by decide) ⟨fun _ _ _ ↦ rfl, fun _ _ _ ↦ rfl⟩ hresult
    hverified
  refine (hcovered _ _ _ run_iterateAndLeave (regularRun_iterateAndLeave invariants)).2 oneState
    (.leaves _ _ _ _ _ leavesLastLoop_iterateAndLeave) (fun c hc ↦ ?_) rfl
  obtain ⟨-, -, -, hvalid, -⟩ := run_iterateAndLeave.split hc
  exact scalar_iteratedCfg.quiet hvalid

end Iterated

end MayMust
