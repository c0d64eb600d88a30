import MayMust.Analysis.Backward.Coverage

/-!
# Verified verdicts on graphs in single-assignment form

In general a reach formula may exclude states that are really reached, because guards are kept
across assignments. In single-assignment form it may not. Let an execution end with the scalars
`σ`, and put `σ` in the place of the scalars of every state on the way. A variable is read only
after its assignment and assigned only once, so every step is still a step, every assignment now
changes nothing, and the guards, which read scalars only, have one truth value along the whole
execution. The new execution is therefore quiet and undisturbed, and the fixpoint covers it.
-/

namespace MayMust

open Library

/-! ### Single-assignment form -/

/-- The effects the result is about. -/
inductive TransferEffect.Basic : TransferEffect → Prop
  | assign (target : Var) (value : AssignValue) : Basic (.assign target value)
  | memoryStore (region : String) (offset value : Term) : Basic (.memoryStore region offset value)
  | assume (condition : Formula) : Basic (.assume condition)
  | obligation (condition : Formula) : Basic (.obligation condition)
  | typeBound (condition : Formula) : Basic (.typeBound condition)
  | nop : Basic .nop

/-- The effect assigns the scalar. -/
def TransferEffect.Assigns (e : TransferEffect) (v : Var) : Prop := ∃ value, e = .assign v value

/-- The effect reads the scalar. -/
def TransferEffect.Reads (e : TransferEffect) (v : Var) : Prop :=
  .boolVar v ∈ e.leaves ∨ .termVar v ∈ e.leaves

/-- No scalar is assigned twice, and none is assigned by an effect that reads it or comes after
one that does. -/
structure SsaEffects (es : List TransferEffect) : Prop where
  later : es.Pairwise fun e e' ↦ ∀ v, e.Reads v ∨ e.Assigns v → ¬ e'.Assigns v
  own : ∀ e ∈ es, ∀ v, e.Reads v → ¬ e.Assigns v

/-- What is executed when an edge is crossed, the guard included. -/
def AbstractCfg.crossingEffects (cfg : AbstractCfg) (e : AbstractEdge) : List TransferEffect :=
  (cfg.transferAt e.source).effects ++ .assume e.guard :: e.effects

/-- On every path from the entry each scalar is assigned at most once and not read before, and
guards read scalars only. -/
structure AbstractCfg.Ssa (cfg : AbstractCfg) : Prop where
  path : ∀ es n, cfg.EdgePath es cfg.entry n →
    SsaEffects (es.flatMap cfg.crossingEffects ++ (cfg.transferAt n).effects)
  guard : ∀ e ∈ cfg.edges, ∀ r, .region r ∉ e.guard.leaves

/-- All effects of the graph are basic. -/
structure AbstractCfg.Basic (cfg : AbstractCfg) : Prop where
  node : ∀ n, ∀ e ∈ (cfg.transferAt n).effects, e.Basic
  edge : ∀ e ∈ cfg.edges, ∀ f ∈ e.effects, f.Basic

/-! ### Putting the final scalars in the place of the scalars -/

/-- The state with other scalars. -/
def State.withScalars (s : State) (σ : Scalars) : State := { s with scalars := σ }

section Merge

variable {cfg : AbstractCfg} {e : TransferEffect} {es rest : List TransferEffect}
  {m n s : State} {σ : Scalars} {v : Var}

@[simp] theorem State.memory_withScalars : (s.withScalars σ).memory = s.memory := rfl

@[simp] theorem State.withScalars_self : s.withScalars s.scalars = s := rfl

theorem State.lookup_withScalars : (m.withScalars s.scalars).lookup v = s.lookup v := rfl

theorem SsaEffects.of_append (es : List TransferEffect) (h : SsaEffects (es ++ rest)) :
    SsaEffects rest :=
  ⟨(List.pairwise_append.1 h.later).2.1, fun e he ↦ h.own e (List.mem_append_right _ he)⟩

theorem AbstractCfg.Basic.crossingEffects (h : cfg.Basic) {e : AbstractEdge} (he : e ∈ cfg.edges) :
    ∀ f ∈ cfg.crossingEffects e, f.Basic := by
  intro f hf
  rcases List.mem_append.1 hf with hf | hf
  · exact h.node _ f hf
  · rcases List.mem_cons.1 hf with rfl | hf
    · exact .assume _
    · exact h.edge e he f hf

/-- A basic effect changes no scalar but the one it assigns. -/
theorem TransferEffect.Basic.lookup_eq (hbasic : e.Basic) (h : e.Step .unknownCallees m n)
    (hv : ¬ e.Assigns v) : n.lookup v = m.lookup v := by
  cases hbasic with
  | assign target value =>
    have hne : v ≠ target := by rintro rfl; exact hv ⟨value, rfl⟩
    cases value with
    | term value => rw [h.2.2, State.lookup_set_of_ne hne]
    | predicate value => rw [h.2, State.lookup_set_of_ne hne]
  | memoryStore region offset value =>
    have hn : n = _ := h
    rw [hn, State.lookup_setRegion]
  | assume | obligation | typeBound => rw [h.2]
  | nop => exact congrArg (·.lookup v) h

theorem Effects.Run.lookup_eq (hbasic : ∀ e ∈ es, e.Basic)
    (h : Effects.Run .unknownCallees es m s) (hv : ∀ e ∈ es, ¬ e.Assigns v) :
    s.lookup v = m.lookup v :=
  Path.invariant (P := fun n : State ↦ n.lookup v = m.lookup v)
    (fun e he _ _ hstep hn ↦ ((hbasic e he).lookup_eq hstep (hv e he)).trans hn) h rfl

/-- A basic step is still a step when scalars that agree with the pre-state on what is read and
with the post-state on what is assigned take the place of both, and it then leaves the scalars
alone. -/
theorem TransferEffect.Basic.merge (hbasic : e.Basic) (h : e.Step .unknownCallees m n)
    (hu : m.SameUndefined s) (hreads : ∀ v, e.Reads v → s.lookup v = m.lookup v)
    (hassigns : ∀ v, e.Assigns v → s.lookup v = n.lookup v) :
    e.Quiet (fun _ ↦ True) (m.withScalars s.scalars) (n.withScalars s.scalars) := by
  have hu' : m.SameUndefined (m.withScalars s.scalars) := hu
  have hsame : ∀ x ∈ e.leaves, x.Same m (m.withScalars s.scalars) := by
    intro x hx
    cases x with
    | boolVar v => exact (hreads v (Or.inl hx)).symm
    | termVar v => exact (hreads v (Or.inr hx)).symm
    | region r => rfl
  cases hbasic with
  | assign target value =>
    have htarget : ∀ x : Value, x.sort = target.sort → n = m.set target x →
        n.withScalars s.scalars = m.withScalars s.scalars ∧
          (m.withScalars s.scalars).set target x = m.withScalars s.scalars := by
      rintro x hx rfl
      have hlookup : (m.withScalars s.scalars).lookup target = x := by
        rw [State.lookup_withScalars, hassigns target ⟨value, rfl⟩, State.lookup_set_self hx]
      refine ⟨?_, by rw [← hlookup, State.set_lookup_self]⟩
      rw [State.withScalars, State.withScalars, State.memory_set]
    cases value with
    | term value =>
      obtain ⟨hsort, hbool, hn⟩ := h
      obtain ⟨heq, hset⟩ := htarget _ hsort hn
      rw [heq]
      have heval := Term.eval_congr hu' hsame
      exact ⟨trivial, Or.inr ⟨heval ▸ hsort, hbool, by rw [← heval, hset]⟩⟩
    | predicate value =>
      obtain ⟨hsort, hn⟩ := h
      obtain ⟨heq, hset⟩ := htarget (.bool _) hsort.symm hn
      rw [heq]
      have heval := Formula.eval_congr hu' hsame
      exact ⟨fun _ ↦ rfl, Or.inr ⟨hsort, by rw [← heval, hset]⟩⟩
  | memoryStore region offset value =>
    obtain rfl : n = _ := h
    simp only [TransferEffect.leaves, List.forall_mem_append] at hsame
    refine ⟨trivial, Or.inr ?_⟩
    show State.withScalars _ _ = _
    rw [← Term.eval_congr hu' hsame.1, ← Term.eval_congr hu' hsame.2]
    rfl
  | assume condition =>
    obtain ⟨hholds, rfl⟩ := h
    exact ⟨trivial, Or.inr ⟨(Formula.eval_congr hu' hsame).symm.trans hholds, rfl⟩⟩
  | obligation condition =>
    obtain ⟨hholds, rfl⟩ := h
    exact ⟨trivial, Or.inr ⟨(Formula.eval_congr hu' hsame).symm.trans hholds, rfl⟩⟩
  | typeBound condition =>
    obtain ⟨-, rfl⟩ := h
    exact ⟨trivial, Or.inr ⟨False.elim, rfl⟩⟩
  | nop =>
    obtain rfl : n = m := h
    exact ⟨trivial, Or.inr rfl⟩

/-- The same for the first part of an effect list in single-assignment form, with the scalars at
the end of the list. -/
theorem SsaEffects.merge (hssa : SsaEffects (es ++ rest)) (hbasic : ∀ e ∈ es ++ rest, e.Basic)
    (h : Effects.Run .unknownCallees es m n) (hrest : Effects.Run .unknownCallees rest n s) :
    Path (TransferEffect.Quiet fun _ ↦ True) es (m.withScalars s.scalars)
      (n.withScalars s.scalars) := by
  induction es generalizing m with
  | nil => exact congrArg (·.withScalars s.scalars) h
  | cons e es ih =>
    obtain ⟨m', hstep, h⟩ := h
    rw [List.cons_append, List.forall_mem_cons] at hbasic
    obtain ⟨hlater, -⟩ := List.pairwise_cons.1 hssa.later
    have htail : Effects.Run .unknownCallees (es ++ rest) m' s := Path.append h hrest
    have hkept {v : Var} (hv : e.Reads v ∨ e.Assigns v) : s.lookup v = m'.lookup v :=
      htail.lookup_eq hbasic.2 fun e' he' ↦ hlater e' he' v hv
    refine ⟨_, hbasic.1.merge hstep (hstep.sameUndefined.trans htail.sameUndefined) (fun v hv ↦ ?_)
      fun v hv ↦ hkept (Or.inr hv), ih (hssa.of_append [e]) hbasic.2 h⟩
    exact (hkept (Or.inl hv)).trans (hbasic.1.lookup_eq hstep (hssa.own e (by simp) v hv))

end Merge

/-! ### Executions -/

/-- The crossing with other scalars. -/
def Crossing.withScalars (c : Crossing) (σ : Scalars) : Crossing :=
  ⟨c.edge, c.pre.withScalars σ, c.mid.withScalars σ, c.post.withScalars σ⟩

section Execution

variable {cfg : AbstractCfg} {site : AssertionSite} {oracle : Oracle} {c : Crossing}
  {cs : List Crossing} {p q : Position} {rest : List TransferEffect} {s : State} {σ : Scalars}

theorem Crossing.Valid.run (h : c.Valid .unknownCallees cfg) :
    Effects.Run .unknownCallees (cfg.crossingEffects c.edge) c.pre c.post :=
  Path.append h.transfer ⟨c.mid, ⟨h.guard, rfl⟩, h.effects⟩

theorem AbstractCfg.Run.effects (h : cfg.Run .unknownCallees cs p q) :
    Effects.Run .unknownCallees ((cs.map (·.edge)).flatMap cfg.crossingEffects) p.state
      q.state := by
  induction cs generalizing p with
  | nil => exact congrArg Position.state h
  | cons c cs ih =>
    obtain ⟨m, ⟨hvalid, rfl, rfl⟩, h⟩ := h
    exact Path.append hvalid.run (ih h)

/-- A quiet path whose effects are all basic is a run. -/
theorem Effects.Run.of_quiet {es : List TransferEffect} {K : Var → Prop} {m n : State}
    (hbasic : ∀ e ∈ es, e.Basic) (h : Path (TransferEffect.Quiet K) es m n) :
    Effects.Run .unknownCallees es m n := by
  refine Path.mono (fun e he m n hquiet ↦ ?_) h
  rcases hquiet.2 with hignored | hstep
  · cases hbasic e he <;> exact absurd hignored (by simp [TransferEffect.Ignored])
  · exact hstep

/-- With the final scalars, a crossing is still one of the graph and is quiet. -/
theorem Crossing.Valid.withScalars (h : c.Valid .unknownCallees cfg) (hcfg : cfg.Basic)
    (hssa : SsaEffects (cfg.crossingEffects c.edge ++ rest)) (hbasic : ∀ e ∈ rest, e.Basic)
    (hrest : Effects.Run .unknownCallees rest c.post s) :
    (c.withScalars s.scalars).Valid .unknownCallees cfg ∧
      (c.withScalars s.scalars).Quiet cfg fun _ ↦ True := by
  have hedge := hcfg.edge _ h.edge_mem
  have hguard : TransferEffect.Step .unknownCallees (.assume c.edge.guard) c.mid c.mid :=
    ⟨h.guard, rfl⟩
  have hpost : Effects.Run .unknownCallees (c.edge.effects ++ rest) c.mid s :=
    Path.append h.effects hrest
  rw [AbstractCfg.crossingEffects, List.append_assoc, List.cons_append] at hssa
  have hall : ∀ f ∈ c.edge.effects ++ rest, f.Basic := List.forall_mem_append.2 ⟨hedge, hbasic⟩
  have hall' : ∀ f ∈ TransferEffect.assume c.edge.guard :: (c.edge.effects ++ rest), f.Basic :=
    List.forall_mem_cons.2 ⟨.assume _, hall⟩
  have htransfer := hssa.merge (List.forall_mem_append.2 ⟨hcfg.node _, hall'⟩) h.transfer
    ⟨c.mid, hguard, hpost⟩
  have hssaGuard : SsaEffects ([.assume c.edge.guard] ++ (c.edge.effects ++ rest)) :=
    hssa.of_append _
  have hmid := hssaGuard.merge hall' (Path.singleton_iff.2 hguard) hpost
  have heffects := (hssaGuard.of_append _).merge hall h.effects hrest
  obtain ⟨-, hignored | hstep⟩ := Path.singleton_iff.1 hmid
  · exact absurd hignored (by simp [TransferEffect.Ignored])
  exact ⟨⟨h.edge_mem, .of_quiet (hcfg.node _) htransfer, hstep.1, .of_quiet hedge heffects⟩,
    htransfer, heffects⟩

/-- With the final scalars, an execution is still one of the graph and all its steps are quiet. -/
theorem AbstractCfg.Run.withScalars (h : cfg.Run .unknownCallees cs p q) (hcfg : cfg.Basic)
    (hssa : SsaEffects ((cs.map (·.edge)).flatMap cfg.crossingEffects ++ rest))
    (hbasic : ∀ e ∈ rest, e.Basic) (hrest : Effects.Run .unknownCallees rest q.state s) :
    cfg.Run .unknownCallees (cs.map (·.withScalars s.scalars))
        ⟨p.node, p.state.withScalars s.scalars⟩ ⟨q.node, q.state.withScalars s.scalars⟩ ∧
      ∀ c ∈ cs.map (·.withScalars s.scalars), c.Quiet cfg fun _ ↦ True := by
  induction cs generalizing p with
  | nil =>
    obtain rfl : p = q := h
    exact ⟨rfl, by simp⟩
  | cons c cs ih =>
    obtain ⟨m, ⟨hvalid, rfl, rfl⟩, htail⟩ := h
    replace htail : cfg.Run .unknownCallees cs ⟨c.edge.target, c.post⟩ q := htail
    rw [List.map_cons, List.flatMap_cons, List.append_assoc] at hssa
    have hall : ∀ e ∈ (cs.map (·.edge)).flatMap cfg.crossingEffects ++ rest, e.Basic := by
      refine List.forall_mem_append.2 ⟨fun f hf ↦ ?_, hbasic⟩
      simp only [List.mem_flatMap, List.mem_map] at hf
      obtain ⟨_, ⟨c', hc', rfl⟩, hf⟩ := hf
      obtain ⟨-, -, -, hvalid', -⟩ := htail.split hc'
      exact hcfg.crossingEffects hvalid'.edge_mem f hf
    obtain ⟨hvalid', hquiet⟩ := hvalid.withScalars hcfg hssa hall (Path.append htail.effects hrest)
    obtain ⟨hrun, hquiets⟩ := ih htail (hssa.of_append _)
    exact ⟨⟨_, ⟨hvalid', rfl, rfl⟩, hrun⟩, List.forall_mem_cons.2 ⟨hquiet, hquiets⟩⟩

/-- Where all states have the same scalars, guards that read only scalars keep their truth
values. -/
theorem undisturbed_withScalars (hguard : ∀ c ∈ cs, ∀ r, .region r ∉ c.edge.guard.leaves) :
    Undisturbed (cs.map (·.withScalars σ)) := by
  have hsame {φ : Formula} (hφ : ∀ r, .region r ∉ φ.leaves) (m n : State) :
      φ.Holds (m.withScalars σ) → φ.Holds (n.withScalars σ) := by
    intro h
    have hu : (n.withScalars σ).SameUndefined (m.withScalars σ) := ⟨rfl, rfl, rfl⟩
    refine (Formula.eval_congr hu fun x hx ↦ ?_).trans h
    cases x with
    | boolVar v => rfl
    | termVar v => rfl
    | region r => exact absurd hx (hφ r)
  refine ⟨fun c hc ↦ ?_, ?_⟩
  · obtain ⟨c, hc', rfl⟩ := List.mem_map.1 hc
    exact hsame (hguard c hc') _ _
  · rw [List.pairwise_map]
    exact List.pairwise_of_forall_mem_list fun c hc c' _ ↦ hsame (hguard c hc) _ _

end Execution

/-- **Verified verdicts are right in single-assignment form.** If the backward analysis of a graph
in single-assignment form with basic effects answers `Verified`, no execution from the entry
violates the site. -/
theorem not_violable_of_verified_ssa {cfg : AbstractCfg} {site : AssertionSite} {oracle : Oracle}
    {result : AssertionResult} (hssa : cfg.Ssa) (hbasic : cfg.Basic)
    (hsound : oracle.InfeasibleSound) (h : runBackward cfg site oracle ∅ [] .new = .ok result)
    (hverified : result.judgement = .verified) : ¬ site.Violable .unknownCallees cfg := by
  rintro ⟨cs, s₀, s, hrun, s', hviolating, hnot⟩
  obtain ⟨engine, hengine, hjudgement, -, -⟩ := runBackward_eq_ok h
  obtain ⟨report, hreport, hinfeasible⟩ := (judgement_eq_ok hjudgement).1 hverified
  obtain ⟨hmerged, hquiet⟩ := hrun.withScalars hbasic (hssa.path _ _ hrun.edgePath)
    (hbasic.node _) hviolating
  have hsite : SsaEffects ((cfg.transferAt site.node).effects ++ []) := by
    simpa using (hssa.path _ _ hrun.edgePath).of_append _
  have hend := hsite.merge (by simpa using hbasic.node _) hviolating rfl
  rw [State.withScalars_self] at hend
  refine hsound _ report hreport hinfeasible _ (holds_combined_of_run hsound hengine hmerged hquiet
    ⟨by simp, by simp, fun _ _ _ _ ↦ trivial⟩ ⟨hend, hnot⟩ (fun _ _ ↦ trivial) (by simp)
    (by simp [conjunctLoopInvariants]) (undisturbed_withScalars fun c hc ↦ ?_))
  obtain ⟨-, -, -, hvalid, -⟩ := hrun.split hc
  exact hssa.guard _ hvalid.edge_mem

/-- `x` is set to 1 and then claimed to be 1. -/
def assignOnceCfg : AbstractCfg where
  nodes := [⟨0, "entry", .entry, ⟨[.assign (.int "x") (.term (.int 1))]⟩⟩,
    ⟨1, "exit", .exit, .identity⟩]
  edges := [⟨0, 0, 1, .tru, []⟩]
  entry := 0
  concreteExits := [1]
  exit := some 1
  nextNode := 2
  nextEdge := 1
  nodes_sorted := by simp
  edges_sorted := AbstractCfg.edges_sorted_single
  node_lt := by decide
  edge_lt := AbstractCfg.edge_lt_single
  entry_mem := by simp
  source_mem := by simp
  target_mem := by simp

/-- The paths of a graph with one edge, from the source of that edge. -/
theorem AbstractCfg.edgePath_of_single {cfg : AbstractCfg} {e : AbstractEdge}
    {es : List AbstractEdge} {n : CfgNodeId} (hedges : cfg.edges = [e]) (hne : e.target ≠ e.source)
    (h : cfg.EdgePath es e.source n) : (es = [] ∧ n = e.source) ∨ (es = [e] ∧ n = e.target) := by
  have hmem {e' : AbstractEdge} (he' : e' ∈ cfg.edges) : e' = e :=
    List.mem_singleton.1 (hedges ▸ he')
  rcases es with _ | ⟨e₁, _ | ⟨e₂, es⟩⟩
  · exact Or.inl ⟨rfl, h.symm⟩
  · obtain ⟨he₁, -, htarget⟩ := Path.singleton_iff.1 h
    obtain rfl := hmem he₁
    exact Or.inr ⟨rfl, htarget⟩
  · obtain ⟨m, ⟨he₁, -, rfl⟩, m', ⟨he₂, hm, -⟩, -⟩ := h
    rw [hmem he₁, hmem he₂] at hm
    exact absurd hm hne

theorem ssa_assignOnceCfg : assignOnceCfg.Ssa where
  guard := by simp [assignOnceCfg, Formula.leaves]
  path := by
    intro es n hpath
    have hsingle := AbstractCfg.edgePath_of_single (e := ⟨0, 0, 1, .tru, []⟩) rfl (by decide) hpath
    rcases hsingle with ⟨rfl, rfl⟩ | ⟨rfl, rfl⟩
    · exact ⟨by simp [assignOnceCfg, AbstractCfg.transferAt, AbstractCfg.node], by
        simp [assignOnceCfg, AbstractCfg.transferAt, AbstractCfg.node, TransferEffect.Reads,
          TransferEffect.leaves, Term.leaves]⟩
    · exact ⟨by simp [assignOnceCfg, AbstractCfg.crossingEffects, AbstractCfg.transferAt,
          AbstractCfg.node, TransferFn.identity, TransferEffect.Assigns], by
        simp [assignOnceCfg, AbstractCfg.crossingEffects, AbstractCfg.transferAt,
          AbstractCfg.node, TransferFn.identity, TransferEffect.Reads, TransferEffect.leaves,
          Term.leaves, Formula.leaves]⟩

/-- The general statement at a graph whose only formulas to refute are `false` and `¬ 1 = 1`. -/
theorem not_violable_assignOnceCfg :
    ¬ AssertionSite.Violable ⟨0, 1, .eq (.var (.int "x")) (.int 1), ""⟩ .unknownCallees
      assignOnceCfg := by
  have hrun : (runBackward assignOnceCfg ⟨0, 1, .eq (.var (.int "x")) (.int 1), ""⟩
      (.knowing [.fls, .not (.eq (.int 1) (.int 1))] []) ∅ [] .new).map (·.judgement) =
        .ok .verified := by
    decide
  obtain ⟨result, hresult, hverified⟩ := map_eq_ok.1 hrun
  refine not_violable_of_verified_ssa ssa_assignOnceCfg ⟨fun n ↦ ?_, by simp [assignOnceCfg]⟩
    (Oracle.infeasibleSound_knowing ?_) hresult hverified
  · rw [AbstractCfg.transferAt]
    split
    · rename_i node hnode
      obtain ⟨hmem, -⟩ := AbstractCfg.mem_of_node_eq_ok hnode
      obtain rfl | rfl : node = _ ∨ node = _ := by simpa [assignOnceCfg] using hmem
      · simpa using TransferEffect.Basic.assign _ _
      · simp [TransferFn.identity]
    · simp [TransferFn.identity]
  · simp [Formula.Holds, Formula.eval, Term.eval, Value.compare]

end MayMust
