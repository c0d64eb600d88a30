import MayMust.Cfg.Execution

/-!
# Crossings the backward transformer computes

A crossing is *quiet* if the transformer accounts for its steps, so that it never loses the state
before the crossing. It is *faithful* if, moreover, the transformer forgets nothing the formula
reads: then the computed formula holds before the crossing exactly if the postcondition holds
after it. Both are relative to what the formulas of the graph read: the variables `K` below terms
and the regions `R`.
-/

namespace MayMust

open Library

/-- Terms of the graph's effects and guards read only variables in `K`. -/
structure AbstractCfg.TermsRead (cfg : AbstractCfg) (K : Var → Prop) : Prop where
  node : ∀ n, ∀ e ∈ (cfg.transferAt n).effects, ∀ v, e.ReadsInTerm v → K v
  edge : ∀ e ∈ cfg.edges, ∀ f ∈ e.effects, ∀ v, f.ReadsInTerm v → K v
  guard : ∀ e ∈ cfg.edges, e.guard.TermReads K

/-- A crossing whose steps the backward transformer accounts for. -/
structure Crossing.Quiet (cfg : AbstractCfg) (K : Var → Prop) (c : Crossing) : Prop where
  transfer : Path (TransferEffect.Quiet K) (cfg.transferAt c.edge.source).effects c.pre c.mid
  effects : Path (TransferEffect.Quiet K) c.edge.effects c.mid c.post

/-- A crossing of a run splits it. -/
theorem AbstractCfg.Run.split {cfg : AbstractCfg} {sem : Semantics} {c : Crossing}
    {cs : List Crossing} {p q : Position} (h : cfg.Run sem cs p q) (hc : c ∈ cs) :
    ∃ cs₁ cs₂, cs = cs₁ ++ c :: cs₂ ∧ c.Valid sem cfg ∧
      cfg.Run sem cs₁ p ⟨c.edge.source, c.pre⟩ ∧ cfg.Run sem cs₂ ⟨c.edge.target, c.post⟩ q := by
  obtain ⟨cs₁, cs₂, rfl⟩ := List.append_of_mem hc
  obtain ⟨m, hfirst, m', ⟨hvalid, rfl, rfl⟩, hlast⟩ := Path.append_iff.1 h
  exact ⟨cs₁, cs₂, rfl, hvalid, hfirst, hlast⟩

/-! ### What formulas read -/

/-- The leaf is a variable or a region in `R`. -/
def Leaf.RegionIn (R : String → Prop) : Leaf → Prop
  | .region r => R r
  | .boolVar _ | .termVar _ => True

/-- Terms of the formula read only variables in `K`, and the formula reads only regions in `R`. -/
structure Formula.ReadsWithin (K : Var → Prop) (R : String → Prop) (φ : Formula) : Prop where
  terms : φ.TermReads K
  regions : ∀ x ∈ φ.leaves, x.RegionIn R

/-- The effect puts only such reads into a formula. -/
structure TransferEffect.ReadsWithin (K : Var → Prop) (R : String → Prop) (e : TransferEffect) :
    Prop where
  terms : ∀ v, e.ReadsInTerm v → K v
  regions : ∀ x ∈ e.leaves, x.RegionIn R

/-- The effects and the guards of the graph read only such variables and regions. -/
structure AbstractCfg.ReadsWithin (cfg : AbstractCfg) (K : Var → Prop) (R : String → Prop) :
    Prop where
  node : ∀ n, ∀ e ∈ (cfg.transferAt n).effects, e.ReadsWithin K R
  edge : ∀ e ∈ cfg.edges, ∀ f ∈ e.effects, f.ReadsWithin K R
  guard : ∀ e ∈ cfg.edges, e.guard.ReadsWithin K R

section Reads

variable {K : Var → Prop} {R : String → Prop} {φ : Formula} {e : TransferEffect}
  {es : List TransferEffect}

/-- Everything is read within the sets that exclude nothing. -/
theorem Formula.readsWithin_true (φ : Formula) : φ.ReadsWithin (fun _ ↦ True) (fun _ ↦ True) where
  terms _ _ := trivial
  regions x _ := by cases x <;> trivial

theorem AbstractCfg.readsWithin_true (cfg : AbstractCfg) :
    cfg.ReadsWithin (fun _ ↦ True) (fun _ ↦ True) where
  node _ _ _ := ⟨fun _ _ ↦ trivial, fun x _ ↦ by cases x <;> trivial⟩
  edge _ _ _ _ := ⟨fun _ _ ↦ trivial, fun x _ ↦ by cases x <;> trivial⟩
  guard e _ := e.guard.readsWithin_true

theorem AbstractCfg.ReadsWithin.termsRead {cfg : AbstractCfg} (h : cfg.ReadsWithin K R) :
    cfg.TermsRead K where
  node n e he := (h.node n e he).terms
  edge e he f hf := (h.edge e he f hf).terms
  guard e he := (h.guard e he).terms

theorem Formula.readsWithin_iff : φ.ReadsWithin K R ↔ φ.TermReads K ∧ ∀ x ∈ φ.leaves,
    x.RegionIn R :=
  ⟨fun h ↦ ⟨h.terms, h.regions⟩, fun h ↦ ⟨h.1, h.2⟩⟩

/-- Simplification does not make formulas read more. -/
theorem hereditary_readsWithin (K : Var → Prop) (R : String → Prop) :
    Hereditary (Formula.ReadsWithin K R) := by
  have hterms := hereditary_termReads K
  have hregions := hereditary_leaves (Leaf.RegionIn R)
  refine ⟨⟨hterms.tru, hregions.tru⟩, ⟨hterms.fls, hregions.fls⟩, fun φ ↦ ?_, fun items ↦ ?_,
    fun items ↦ ?_, fun φ ψ ↦ ?_⟩
  · rw [Formula.readsWithin_iff, Formula.readsWithin_iff, hterms.not_iff, hregions.not_iff]
  · simp only [Formula.readsWithin_iff, hterms.and_iff, hregions.and_iff]
    exact ⟨fun h φ hφ ↦ ⟨h.1 φ hφ, h.2 φ hφ⟩,
      fun h ↦ ⟨fun φ hφ ↦ (h φ hφ).1, fun φ hφ ↦ (h φ hφ).2⟩⟩
  · simp only [Formula.readsWithin_iff, hterms.or_iff, hregions.or_iff]
    exact ⟨fun h φ hφ ↦ ⟨h.1 φ hφ, h.2 φ hφ⟩,
      fun h ↦ ⟨fun φ hφ ↦ (h φ hφ).1, fun φ hφ ↦ (h φ hφ).2⟩⟩
  · rw [Formula.readsWithin_iff, Formula.readsWithin_iff, Formula.readsWithin_iff,
      hterms.implies_iff,
      hregions.implies_iff]
    tauto

/-- The computed formula reads what the postcondition and the effects read. -/
theorem Formula.ReadsWithin.wp (h : φ.ReadsWithin K R) (hes : ∀ e ∈ es, e.ReadsWithin K R) :
    (TransferFn.wp ⟨es⟩ φ).ReadsWithin K R where
  terms := termReads_wp h.terms fun e he ↦ (hes e he).terms
  regions := forall_leaves_wp h.regions fun e he ↦ (hes e he).regions

theorem Formula.ReadsWithin.wpOne (h : φ.ReadsWithin K R) (he : e.ReadsWithin K R) :
    (MayMust.wpOne e φ).ReadsWithin K R := by
  have hwp : (TransferFn.wp ⟨[e]⟩ φ).ReadsWithin K R := h.wp (by simpa using he)
  simpa using hwp

/-- The condition an assume contributes reads what the effect reads. -/
theorem readsWithin_of_assume {c : Formula} (h : (TransferEffect.assume c).ReadsWithin K R) :
    c.ReadsWithin K R where
  terms := h.terms
  regions := h.regions

theorem Formula.ReadsWithin.wpOneInductive (h : φ.ReadsWithin K R) (he : e.ReadsWithin K R) :
    (MayMust.wpOneInductive e φ).ReadsWithin K R := by
  cases e with
  | assume c => exact (hereditary_readsWithin K R).mkImplies (readsWithin_of_assume he) h
  | _ => exact h.wpOne he

theorem Formula.ReadsWithin.wpInductive (h : φ.ReadsWithin K R)
    (hes : ∀ e ∈ es, e.ReadsWithin K R) :
    (TransferFn.wpInductive ⟨es⟩ φ).ReadsWithin K R := by
  rw [TransferFn.wpInductive_eq_foldr]
  induction es with
  | nil => exact h
  | cons e es ih =>
    rw [List.forall_mem_cons] at hes
    exact (ih hes.2).wpOneInductive hes.1

end Reads

/-! ### Faithful steps -/

theorem foldl_havocRegionInFormula_eq {φ : Formula} {regions : List String}
    (h : ∀ r ∈ regions, .region r ∉ φ.leaves) :
    regions.foldl (fun result region ↦ havocRegionInFormula region result) φ = φ := by
  induction regions with
  | nil => rfl
  | cons r rest ih =>
    rw [List.forall_mem_cons] at h
    have hr : havocRegionInFormula r φ = φ := by
      simp [havocRegionInFormula, formulaMentionsRegion, h.1]
    rw [List.foldl_cons, hr, ih h.2]

/-- A quiet step of an effect that forgets no region in `R`. -/
structure TransferEffect.Faithful (K : Var → Prop) (R : String → Prop) (e : TransferEffect)
    (s s' : State) : Prop where
  quiet : e.Quiet K s s'
  remembers : ∀ regions, e = .havocRegions regions → ∀ r ∈ regions, ¬ R r

/-- A crossing that the transformer computes exactly. -/
structure Crossing.Faithful (cfg : AbstractCfg) (K : Var → Prop) (R : String → Prop)
    (c : Crossing) : Prop where
  transfer : Path (TransferEffect.Faithful K R) (cfg.transferAt c.edge.source).effects c.pre c.mid
  effects : Path (TransferEffect.Faithful K R) c.edge.effects c.mid c.post

section Faithful

variable {K : Var → Prop} {R : String → Prop} {φ : Formula} {e : TransferEffect}
  {es : List TransferEffect} {s s' : State}

theorem Crossing.Faithful.quiet {cfg : AbstractCfg} {c : Crossing} (h : c.Faithful cfg K R) :
    c.Quiet cfg K where
  transfer := Path.mono (fun _ _ _ _ hstep ↦ hstep.quiet) h.transfer
  effects := Path.mono (fun _ _ _ _ hstep ↦ hstep.quiet) h.effects

theorem TransferEffect.Quiet.enabled (h : e.Quiet K s s') : e.Enabled s := by
  obtain ⟨-, hignored | hstep⟩ := h
  · cases e with
    | assume | obligation => exact absurd hignored (by simp [TransferEffect.Ignored])
    | _ => trivial
  · exact hstep.enabled

/-- Over a faithful step the postcondition holds after the step if the computed formula holds
before it. -/
theorem TransferEffect.Faithful.holds_of_wpOne (h : e.Faithful K R s s') (hφ : φ.ReadsWithin K R)
    (hwp : (wpOne e φ).Holds s) : φ.Holds s' := by
  by_cases hhavocs : e.Havocs
  · cases e with
    | havocRegions regions =>
      obtain ⟨-, hstep⟩ := h.quiet
      obtain ⟨hscalars, hmemory⟩ := hstep.resolve_left (by simp [TransferEffect.Ignored])
      have hfree : ∀ r ∈ regions, Leaf.region r ∉ φ.leaves :=
        fun r hr hmem ↦ h.remembers regions rfl r hr (hφ.regions _ hmem)
      rw [wpOne, foldl_havocRegionInFormula_eq hfree] at hwp
      unfold Formula.Holds at hwp ⊢
      rw [← hwp]
      refine Formula.eval_congr (State.SameUndefined.of_scalars_eq hscalars).symm fun x hx ↦ ?_
      cases x with
      | boolVar v => simp [Leaf.Same, State.lookup, hscalars]
      | termVar v => simp [Leaf.Same, State.lookup, hscalars]
      | region r => exact hmemory r fun hr ↦ hfree r hr hx
    | _ => exact absurd hhavocs (by simp [TransferEffect.Havocs])
  obtain ⟨haccounted, hignored | hstep⟩ := h.quiet
  · obtain rfl := haccounted.eq_of_ignored hignored
    cases e with
    | load | ptrToInt | store | call | indirectCall => exact hwp
    | _ => exact absurd hignored (by simp [TransferEffect.Ignored])
  by_cases hplain : e.PlainFor φ
  · have hreplay := ((holds_wpOne_iff hhavocs hstep.sortedIn hplain).1 hwp).2
    by_cases hignored : e.Ignored
    · rw [haccounted.eq_of_ignored hignored]
      rwa [TransferEffect.replay_eq_self_of_ignored hignored] at hreplay
    · rwa [hstep.eq_replay hignored hhavocs]
  -- A term reads the assigned Boolean variable, so the assignment changed nothing.
  simp only [TransferEffect.PlainFor, not_forall, not_not] at hplain
  obtain ⟨b, p, rfl, hread⟩ := hplain
  obtain rfl : s' = s := haccounted (hφ.terms b hread)
  have hb : s'.lookup b = .bool (p.eval s') := by
    have hself := hstep.2
    conv_lhs => rw [hself]
    exact State.lookup_set_self (by simp [hstep.1])
  exact (congrArg (· = true) (eval_substituteBoolVarInFormula_of_eq hb φ)).mp hwp

theorem TransferEffect.Faithful.holds_of_wpOneInductive (h : e.Faithful K R s s')
    (hφ : φ.ReadsWithin K R) (hwp : (wpOneInductive e φ).Holds s) : φ.Holds s' := by
  cases e with
  | assume c =>
    obtain ⟨-, hstep⟩ := h.quiet
    obtain ⟨hc, rfl⟩ := hstep.resolve_left (by simp [TransferEffect.Ignored])
    exact (Formula.holds_mkImplies _ _).1 hwp hc
  | _ => exact h.holds_of_wpOne hφ hwp

/-- Along faithful steps the postcondition holds at the end if the computed formula holds at the
start. -/
theorem holds_of_holds_wp (hrun : Path (TransferEffect.Faithful K R) es s s')
    (hes : ∀ e ∈ es, e.ReadsWithin K R) (hφ : φ.ReadsWithin K R)
      (h : (TransferFn.wp ⟨es⟩ φ).Holds s) :
    φ.Holds s' := by
  induction es generalizing s with
  | nil => exact hrun ▸ h
  | cons e es ih =>
    obtain ⟨m, hstep, hrun⟩ := hrun
    rw [List.forall_mem_cons] at hes
    rw [TransferFn.wp_cons] at h
    exact ih hrun hes.2 (hstep.holds_of_wpOne (hφ.wp hes.2) h)

theorem holds_of_holds_wpInductive (hrun : Path (TransferEffect.Faithful K R) es s s')
    (hes : ∀ e ∈ es, e.ReadsWithin K R) (hφ : φ.ReadsWithin K R)
    (h : (TransferFn.wpInductive ⟨es⟩ φ).Holds s) : φ.Holds s' := by
  induction es generalizing s with
  | nil => exact hrun ▸ h
  | cons e es ih =>
    obtain ⟨m, hstep, hrun⟩ := hrun
    rw [List.forall_mem_cons] at hes
    rw [TransferFn.wpInductive_cons] at h
    exact ih hrun hes.2 (hstep.holds_of_wpOneInductive (hφ.wpInductive hes.2) h)

end Faithful

end MayMust
