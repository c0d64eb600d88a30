import MayMust.Analysis.Backward.RunBackward
import MayMust.Cfg.Faithful

/-!
# When `BugFound` is a bug

The verdict is a satisfying state of the entry formulas. It stands for a violating execution as
long as the backward transformer is exact, so that a state which satisfies the formula computed
for `φ` really has a successor in `φ`. Four things make it inexact: assignments of the wrong
sort have no execution, a predicate assignment is not substituted below terms, `HavocRegions`
forgets conjuncts that no choice of contents may satisfy, and type-width facts are ignored.
`AbstractCfg.Precise` excludes them, and then every state formula the engine ever stores consists
of states from which the site can be violated (`RuleEngine.Witnessed`), whatever is pruned.
-/

namespace MayMust

open Library

/-! ### Exactness of the transformer -/

section Exact

variable {e : TransferEffect} {es : List TransferEffect} {φ : Formula} {s : State}

/-- The replay of an enabled effect is a step. -/
theorem TransferEffect.step_replay (hsort : e.SortedIn s) (hen : e.Enabled s) :
    e.Step .unknownCallees s (e.replay s) := by
  cases e with
  | assign target value =>
    cases value with
    | term value => exact ⟨hsort.1, hsort.2, rfl⟩
    | predicate value => exact ⟨hsort, rfl⟩
  | load target source => exact ⟨s.lookup target, by simp, (s.set_lookup_self target).symm⟩
  | ptrToInt target source => exact ⟨s.lookup target, by simp, (s.set_lookup_self target).symm⟩
  | store target value => exact Or.inl rfl
  | assume condition => exact ⟨hen, rfl⟩
  | obligation condition => exact ⟨hen, rfl⟩
  | typeBound condition => exact ⟨False.elim, rfl⟩
  | call callee effect => exact ⟨trivial, rfl, fun _ ↦ rfl⟩
  | indirectCall callee effect => exact ⟨rfl, fun _ ↦ rfl⟩
  | havocRegions regions => exact ⟨rfl, fun _ _ ↦ rfl⟩
  | _ => rfl

/-- Where the effect is exact for `φ`, a state in the computed formula has a successor in `φ`. -/
theorem exists_step_of_holds_wpOne (hsort : e.SortedIn s) (hplain : e.PlainFor φ)
    (huntouched : ∀ regions, e = .havocRegions regions → ∀ r ∈ regions, .region r ∉ φ.leaves)
    (h : (wpOne e φ).Holds s) : ∃ s', e.Step .unknownCallees s s' ∧ φ.Holds s' := by
  by_cases hh : e.Havocs
  · cases e with
    | havocRegions regions =>
      rw [wpOne, foldl_havocRegionInFormula_eq (huntouched regions rfl)] at h
      exact ⟨s, ⟨rfl, fun _ _ ↦ rfl⟩, h⟩
    | _ => exact absurd hh (by simp [TransferEffect.Havocs])
  · obtain ⟨hen, hφ⟩ := (holds_wpOne_iff hh hsort hplain).1 h
    exact ⟨e.replay s, TransferEffect.step_replay hsort hen, hφ⟩

/-- The same for a list of effects, where `K` and `R` are the variables and the regions that the
effects and the postcondition may read. -/
theorem exists_run_of_holds_wp {K : Var → Prop} {R : String → Prop}
    (hsort : ∀ e ∈ es, ∀ s, e.SortedIn s)
    (hplain : ∀ b p, .assign b (.predicate p) ∈ es → ¬ K b)
    (huntouched : ∀ regions, .havocRegions regions ∈ es → ∀ r ∈ regions, ¬ R r)
    (hK : ∀ e ∈ es, ∀ v, e.ReadsInTerm v → K v) (hR : ∀ e ∈ es, ∀ r, .region r ∈ e.leaves → R r)
    (hφK : φ.TermReads K) (hφR : ∀ r, .region r ∈ φ.leaves → R r)
    (h : (TransferFn.wp ⟨es⟩ φ).Holds s) :
    ∃ s', Effects.Run .unknownCallees es s s' ∧ φ.Holds s' := by
  induction es generalizing s with
  | nil => exact ⟨s, rfl, h⟩
  | cons e es ih =>
    rw [List.forall_mem_cons] at hsort hK hR
    rw [TransferFn.wp_cons] at h
    have hpostK : (TransferFn.wp ⟨es⟩ φ).TermReads K := termReads_wp hφK hK.2
    have hpostR : ∀ x ∈ (TransferFn.wp ⟨es⟩ φ).leaves, ∀ r, x = .region r → R r :=
      forall_leaves_wp (fun x hx r hr ↦ hφR r (hr ▸ hx)) fun e he x hx r hr ↦ hR.2 e he r (hr ▸ hx)
    obtain ⟨m, hstep, hm⟩ := exists_step_of_holds_wpOne (hsort.1 s)
      (fun b p he hread ↦ hplain b p (he ▸ List.mem_cons_self) (hpostK b hread))
      (fun regions he r hr hread ↦
        huntouched regions (he ▸ List.mem_cons_self) r hr (hpostR _ hread r rfl)) h
    obtain ⟨s', hrun, hs'⟩ := ih hsort.2 (fun b p hp ↦ hplain b p (List.mem_cons_of_mem e hp))
      (fun regions hr ↦ huntouched regions (List.mem_cons_of_mem e hr)) hK.2 hR.2 hm
    exact ⟨s', ⟨m, hstep, hrun⟩, hs'⟩

end Exact

/-! ### Precise graphs -/

namespace AbstractCfg

variable (cfg : AbstractCfg) (site : AssertionSite)

/-- The effect occurs in a node or on an edge. -/
def HasEffect (e : TransferEffect) : Prop :=
  (∃ n, e ∈ (cfg.transferAt n).effects) ∨ ∃ edge ∈ cfg.edges, e ∈ edge.effects

/-- The obligation, a guard or an effect reads the variable below a term. -/
def ReadsBelowTerm (v : Var) : Prop :=
  site.obligation.ReadsInTerm v ∨ (∃ e, cfg.HasEffect e ∧ e.ReadsInTerm v) ∨
    ∃ edge ∈ cfg.edges, edge.guard.ReadsInTerm v

/-- The obligation, a guard or an effect reads the region. -/
def ReadsRegion (r : String) : Prop :=
  .region r ∈ site.obligation.leaves ∨ (∃ e, cfg.HasEffect e ∧ .region r ∈ e.leaves) ∨
    ∃ edge ∈ cfg.edges, .region r ∈ edge.guard.leaves

/-- The backward transformer is exact on the graph: assignments are well sorted, no variable
assigned by a predicate is read below a term, no havocked region is read, and every execution
satisfies the type-width facts it meets. -/
structure Precise : Prop where
  sorted : ∀ e, cfg.HasEffect e → ∀ s, e.SortedIn s
  plain : ∀ b p, cfg.HasEffect (.assign b (.predicate p)) → ¬ cfg.ReadsBelowTerm site b
  untouched : ∀ regions, cfg.HasEffect (.havocRegions regions) → ∀ r ∈ regions,
    ¬ cfg.ReadsRegion site r
  bounded : ∀ cs s₀ p s, cfg.Run .unknownCallees cs ⟨cfg.entry, s₀⟩ p →
    (cfg.transferAt p.node).Run .unknownCallees p.state s →
      cfg.Run .wellTypedUnknownCallees cs ⟨cfg.entry, s₀⟩ p ∧
        (cfg.transferAt p.node).Run .wellTypedUnknownCallees p.state s

/-- The formula reads no more than the graph does. -/
structure Admits (φ : Formula) : Prop where
  terms : φ.TermReads (cfg.ReadsBelowTerm site)
  regions : ∀ r, .region r ∈ φ.leaves → cfg.ReadsRegion site r

variable {cfg site} {e : AbstractEdge} {es : List TransferEffect} {φ ψ : Formula} {s : State}

theorem admits_fls : cfg.Admits site .fls :=
  ⟨(hereditary_termReads _).fls, by simp [Formula.leaves]⟩

theorem admits_iff : cfg.Admits site φ ↔
    φ.TermReads (cfg.ReadsBelowTerm site) ∧
      ∀ x ∈ φ.leaves, ∀ r, x = .region r → cfg.ReadsRegion site r :=
  ⟨fun h ↦ ⟨h.terms, fun _ hx r hr ↦ h.regions r (hr ▸ hx)⟩,
    fun h ↦ ⟨h.1, fun r hr ↦ h.2 _ hr r rfl⟩⟩

theorem Admits.mkAnd (hφ : cfg.Admits site φ) (hψ : cfg.Admits site ψ) :
    cfg.Admits site (Formula.mkAnd φ ψ) := by
  rw [admits_iff] at hφ hψ ⊢
  exact ⟨(hereditary_termReads _).mkAnd hφ.1 hψ.1, (hereditary_leaves _).mkAnd hφ.2 hψ.2⟩

theorem Admits.mkOr (hφ : cfg.Admits site φ) (hψ : cfg.Admits site ψ) :
    cfg.Admits site (Formula.mkOr φ ψ) := by
  rw [admits_iff] at hφ hψ ⊢
  exact ⟨(hereditary_termReads _).mkOr hφ.1 hψ.1, (hereditary_leaves _).mkOr hφ.2 hψ.2⟩

theorem admits_guard (he : e ∈ cfg.edges) : cfg.Admits site e.guard :=
  ⟨fun _ hv ↦ Or.inr (Or.inr ⟨e, he, hv⟩), fun _ hr ↦ Or.inr (Or.inr ⟨e, he, hr⟩)⟩

theorem admits_not_obligation : cfg.Admits site (.not site.obligation) where
  terms := (hereditary_termReads _).not_iff _ |>.2 fun _ hv ↦ Or.inl hv
  regions r hr := Or.inl (by simpa [Formula.leaves] using hr)

theorem Admits.wp (hφ : cfg.Admits site φ) (hes : ∀ e ∈ es, cfg.HasEffect e) :
    cfg.Admits site (TransferFn.wp ⟨es⟩ φ) := by
  rw [admits_iff] at hφ ⊢
  refine ⟨termReads_wp hφ.1 fun e he v hv ↦ Or.inr (Or.inl ⟨e, hes e he, hv⟩),
    forall_leaves_wp hφ.2 ?_⟩
  rintro e he _ hx r rfl
  exact Or.inr (Or.inl ⟨e, hes e he, hx⟩)

theorem Admits.predecessorState (he : e ∈ cfg.edges) (hφ : cfg.Admits site φ) :
    cfg.Admits site (RuleEngine.predecessorState cfg e φ) := by
  have hedge := hφ.wp fun f hf ↦ Or.inr ⟨e, he, hf⟩
  exact ((admits_guard he).mkAnd hedge).wp fun f hf ↦ Or.inl ⟨e.source, hf⟩

/-- On a precise graph a state in the computed formula can run to a state in the postcondition. -/
theorem Precise.exists_run (hcfg : cfg.Precise site) (hes : ∀ e ∈ es, cfg.HasEffect e)
    (hφ : cfg.Admits site φ) (h : (TransferFn.wp ⟨es⟩ φ).Holds s) :
    ∃ s', Effects.Run .unknownCallees es s s' ∧ φ.Holds s' :=
  exists_run_of_holds_wp (fun e he ↦ hcfg.sorted e (hes e he))
    (fun b p hp ↦ hcfg.plain b p (hes _ hp)) (fun regions hr ↦ hcfg.untouched regions (hes _ hr))
    (fun e he _ hv ↦ Or.inr (Or.inl ⟨e, hes e he, hv⟩))
    (fun e he _ hr ↦ Or.inr (Or.inl ⟨e, hes e he, hr⟩)) hφ.terms hφ.regions h

end AbstractCfg

/-! ### State formulas consist of violating states -/

/-- The site can be violated by an execution that continues from the position. -/
def AssertionSite.ViolableFrom (site : AssertionSite) (sem : Semantics) (cfg : AbstractCfg)
    (p : Position) : Prop :=
  ∃ cs s, cfg.Run sem cs p ⟨site.node, s⟩ ∧ site.ViolatedFrom sem cfg s

/-- Every state formula of the engine consists of states from which the site can be violated. -/
structure RuleEngine.Witnessed (cfg : AbstractCfg) (site : AssertionSite) (engine : RuleEngine) :
    Prop where
  admits : ∀ n, cfg.Admits site (engine.stateAt n)
  violable : ∀ n s, (engine.stateAt n).Holds s → site.ViolableFrom .unknownCallees cfg ⟨n, s⟩

namespace RuleEngine

variable {cfg : AbstractCfg} {site : AssertionSite} {tables : ContextualSummaryTable}
  {oracle : Oracle} {excluded : Finset CfgEdgeId} {invariants : List VerifiedLoopInvariant}
  {engine engine' : RuleEngine} {e : AbstractEdge} {φ : Formula}

/-- What the backward rule propagates consists of violating states if what it starts from does. -/
theorem violableFrom_of_predecessorState (hcfg : cfg.Precise site) (he : e ∈ cfg.edges)
    (hφ : cfg.Admits site φ)
    (hviolable : ∀ s, φ.Holds s → site.ViolableFrom .unknownCallees cfg ⟨e.target, s⟩)
    {s : State} (h : (predecessorState cfg e φ).Holds s) :
    site.ViolableFrom .unknownCallees cfg ⟨e.source, s⟩ := by
  have hedge := hφ.wp fun f hf ↦ Or.inr ⟨e, he, hf⟩
  obtain ⟨m, htransfer, hm⟩ := hcfg.exists_run (fun f hf ↦ Or.inl ⟨e.source, hf⟩)
    ((AbstractCfg.admits_guard he).mkAnd hedge) h
  obtain ⟨hguard, hpre⟩ := (Formula.holds_mkAnd _ _).1 hm
  obtain ⟨t, heffects, ht⟩ := hcfg.exists_run (fun f hf ↦ Or.inr ⟨e, he, hf⟩) hφ hpre
  obtain ⟨cs, s', hrun, hviolated⟩ := hviolable t ht
  exact ⟨⟨e, s, m, t⟩ :: cs, s',
    ⟨⟨e.target, t⟩, ⟨⟨he, htransfer, hguard, heffects⟩, rfl, rfl⟩, hrun⟩,
    hviolated⟩

theorem Witnessed.congr (h : Witnessed cfg site engine)
    (hstate : ∀ n, engine'.stateAt n = engine.stateAt n) : Witnessed cfg site engine' where
  admits n := hstate n ▸ h.admits n
  violable n s hs := h.violable n s (hstate n ▸ hs)

theorem Witnessed.notmayPre (hcfg : cfg.Precise site) (h : Witnessed cfg site engine)
    {id : CfgEdgeId} (hcall : engine.notmayPre cfg id = .ok engine') :
    Witnessed cfg site engine' := by
  rcases notmayPre_eq_ok hcall with ⟨-, rfl⟩ | ⟨-, e, he, -, rfl⟩
  · exact h
  refine ⟨fun n ↦ ?_, fun n s hs ↦ ?_⟩ <;> rw [stateAt_joinStateAt] at *
  · split
    · exact (h.admits _).mkOr ((h.admits _).predecessorState he)
    · exact h.admits n
  · split at hs
    · rename_i hn
      subst hn
      rcases (Formula.holds_mkOr _ _).1 hs with hs | hs
      · exact h.violable _ s hs
      · exact violableFrom_of_predecessorState hcfg he (h.admits _) (h.violable _) hs
    · exact h.violable n s hs

theorem Witnessed.pruned (h : Witnessed cfg site engine) :
    Witnessed cfg site (engine.pruned e) := by
  refine ⟨fun n ↦ ?_, fun n s hs ↦ ?_⟩ <;> rw [stateAt_pruned] at *
  · split
    · exact AbstractCfg.admits_fls
    · exact h.admits n
  · split at hs
    · exact absurd hs (Formula.not_holds_fls s)
    · exact h.violable n s hs

/-- No rule stores a state from which the site cannot be violated. -/
theorem Witnessed.apply (hcfg : cfg.Precise site) (h : Witnessed cfg site engine) {call : RuleCall}
    (hcall : engine.apply cfg tables oracle call = .ok engine') : Witnessed cfg site engine' := by
  cases call with
  | forwardMayPost id =>
    rcases forwardMayPost_eq_ok hcall with ⟨-, rfl⟩ | ⟨-, e, -, -, rfl⟩
    · exact h
    · exact h.congr fun n ↦ stateAt_joinReachAt _ _ _
  | forwardMayUsesummary id => exact h.congr (forwardMayUsesummary_eq_ok hcall).2.2
  | notmayPre id => exact h.notmayPre hcfg hcall
  | notmayPreUsesummary id =>
    rcases notmayPreUsesummary_eq_ok hcall with rfl | ⟨e, -, -, -, rfl⟩
    · exact h
    · exact h.pruned
  | notmayPrePruned id =>
    obtain ⟨mid, hpre, e, -, -, rfl | ⟨-, rfl⟩⟩ := notmayPrePruned_eq_ok hcall
    · exact h.notmayPre hcfg hpre
    · exact (h.notmayPre hcfg hpre).pruned

/-- The engine the fixpoint starts from knows only violating states of the site. -/
theorem witnessed_of_prepared (hcfg : cfg.Precise site)
    (h : Prepared cfg site excluded invariants engine) : Witnessed cfg site engine := by
  refine ⟨fun n ↦ ?_, fun n s hs ↦ ?_⟩ <;> rw [h.state_eq] at *
  · split
    · exact AbstractCfg.admits_not_obligation.wp fun f hf ↦ Or.inl ⟨site.node, hf⟩
    · exact AbstractCfg.admits_fls
  · split at hs
    · rename_i hn
      subst hn
      obtain ⟨s', hrun, hnot⟩ := hcfg.exists_run (fun f hf ↦ Or.inl ⟨site.node, hf⟩)
        AbstractCfg.admits_not_obligation hs
      exact ⟨[], s, rfl, s', hrun, (Formula.holds_not _ _).1 hnot⟩
    · exact absurd hs (Formula.not_holds_fls s)

/-- When the fixpoint ends, every state formula consists of violating states. -/
theorem witnessed_fixpointEngine (hcfg : cfg.Precise site)
    (h : fixpointEngine cfg site oracle excluded invariants tables = .ok engine) :
    Witnessed cfg site engine := by
  obtain ⟨order, engine₀, k, -, hprepared, hcalls⟩ := fixpointEngine_eq_ok h
  exact Path.invariant (fun _ _ _ _ hcall hw ↦ Witnessed.apply hcfg hw hcall) hcalls
    (witnessed_of_prepared hcfg hprepared)

end RuleEngine

theorem AbstractCfg.hasEffect_block {transfer : TransferFn} {e : TransferEffect} :
    (AbstractCfg.block transfer).HasEffect e ↔ e ∈ transfer.effects := by
  constructor
  · rintro (⟨n, hn⟩ | ⟨edge, hedge, -⟩)
    · by_cases h : n = 0
      · subst h
        simpa using hn
      · rw [AbstractCfg.transferAt_block_of_ne h] at hn
        exact absurd hn List.not_mem_nil
    · exact absurd hedge List.not_mem_nil
  · exact fun h ↦ Or.inl ⟨0, by simpa using h⟩

theorem AbstractCfg.run_block {transfer : TransferFn} {sem : Semantics} {cs : List Crossing}
    {p q : Position} (h : (AbstractCfg.block transfer).Run sem cs p q) : cs = [] ∧ p = q := by
  cases cs with
  | nil => exact ⟨rfl, h⟩
  | cons c cs =>
    obtain ⟨-, ⟨hvalid, -⟩, -⟩ := h
    exact absurd hvalid.edge_mem List.not_mem_nil

end MayMust
