import MayMust.Analysis.Backward.CallSummaries
import MayMust.Analysis.Dart.Completeness
import MayMust.Cfg.Frame
import MayMust.Interproc.ObserverSummary
import MayMust.Interproc.Scheduler

/-!
# The summaries the scheduler records

The driver computes the postcondition of a query at the node of the assertion site: it is the
backward transformer of the node, applied to the negated obligation. The verdict `Verified` says
that the node is never entered in such a state (`VerdictCorrect`). The summary that is made of it
drops the node, and callers read its postcondition in the state that the procedure returns
(`ContextualSummaryTable.TrueOf`).

The step from one to the other is right where the executions that return are anticipated by the site
(`Anticipated`): from where they start, the node is entered in a state that agrees with the returned
one on what the summary reads. Then every table of a run is true (`trueOf_table_of_run`). It is so
for a site that no execution gets around, when nothing behind it writes what the summary reads
(`anticipated_of_unavoidable`). An error call that is never reached is the other extreme: its
summary says that the procedure never returns (`not_trueOf_table_of_run`). -/

namespace MayMust

open Library

/-! ### Modules -/

/-- The query of the driver for a site. -/
def assertionQuery (ctx : ProcedureContext) (site : AssertionSite) : Query where
  procedure := ctx.interface.procedure
  pre := .tru
  post :=
    match ctx.cfg.node site.node with
    | .ok node => node.transfer.wp (.not site.obligation)
    | .error _ => .not site.obligation

/-- The procedures of a module. Their names differ. -/
structure Module where
  procedures : List ProcedureContext
  names_nodup : (procedures.map (·.interface.procedure)).Nodup

/-- The driver performs the operation for the module: it registers the procedures, enqueues a query
for every site, and dispatches. -/
def Module.Issues (m : Module) : SchedulerOp → Prop
  | .registerProcedure ctx => ctx ∈ m.procedures
  | .enqueue query provenance => ∃ ctx ∈ m.procedures, ∃ site ∈ ctx.assertions,
      query = assertionQuery ctx site ∧ provenance = some ⟨site⟩
  | .dispatchNext _ => True

/-- An execution of the procedure from its entry returns. -/
def AbstractCfg.Returns (cfg : AbstractCfg) (sem : Semantics) (s s' : State) : Prop :=
  ∃ exit cs m, cfg.exit = some exit ∧ cfg.Run sem cs ⟨cfg.entry, s⟩ ⟨exit, m⟩ ∧
    (cfg.transferAt exit).Run sem m s'

/-- The calls of the procedures of the module, where the calls in their bodies are those of `sem`.
-/
def Module.semantics (m : Module) (sem : Semantics) : Semantics where
  callee name s s' :=
    ∃ ctx ∈ m.procedures, ctx.interface.procedure = name ∧ ctx.cfg.Returns sem s s'
  wellTyped := sem.wellTyped

/-! ### What a verdict says -/

/-- What the verdict `Verified` guarantees, as the documentation of `create_notmay_summary` has it:
from the precondition of the query, its postcondition is not reached. It was computed at the node of
the site, so this is about the states in which the node is entered. -/
def VerdictCorrect (sem : Semantics) (ctx : ProcedureContext) (query : Query)
    (site : AssertionSite) : Prop :=
  ∀ cs s t, query.pre.Holds s → ctx.cfg.Run sem cs ⟨ctx.cfg.entry, s⟩ ⟨site.node, t⟩ →
    ¬ query.post.Holds t

/-- The executions that return are anticipated at the site: from where they start, its node is
entered in a state in which the definitions that the projection uses hold, and which agrees with the
returned state on what the projected postcondition reads. -/
def Anticipated (sem : Semantics) (ctx : ProcedureContext) (query : Query)
    (site : AssertionSite) : Prop :=
  ∀ projected, projectToInterface ctx.interface query.post = some projected →
    ∀ s s', ctx.cfg.Returns sem s s' →
      ∃ cs t, ctx.cfg.Run sem cs ⟨ctx.cfg.entry, s⟩ ⟨site.node, t⟩ ∧
        DefinitionsHold ctx.interface query.post t ∧ ∀ l ∈ projected.leaves, l.Same t s'

/-- The operation is a dispatch that verifies the query at the site. -/
def SchedulerOp.Verifies (sched : Scheduler) (ctx : ProcedureContext) (query : Query)
    (site : AssertionSite) : SchedulerOp → Prop
  | .dispatchNext engines =>
    sched.Dispatches ctx query site ∧ (sched.verdictOn engines ctx site).judgement = .verified
  | .registerProcedure _ | .enqueue _ _ => False

/-- One operation for the module, with a correct verdict. -/
structure Module.Step (m : Module) (sem : Semantics) (op : SchedulerOp)
    (sched sched' : Scheduler) : Prop where
  issued : m.Issues op
  next : sched' = op.apply sched
  correct : ∀ ctx query site, op.Verifies sched ctx query site → VerdictCorrect sem ctx query site

/-- One operation for the module that records a summary only for an anticipated site. -/
structure Module.AnticipatedStep (m : Module) (sem : Semantics) (op : SchedulerOp)
    (sched sched' : Scheduler) : Prop extends m.Step sem op sched sched' where
  anticipated : ∀ ctx query site, op.Verifies sched ctx query site → Anticipated sem ctx query site

/-! ### Verdicts about assertions -/

section Verdicts

variable {ctx : ProcedureContext} {site : AssertionSite} {K : Var → Prop}

theorem post_assertionQuery (ctx : ProcedureContext) (site : AssertionSite) :
    (assertionQuery ctx site).post = (ctx.cfg.transferAt site.node).wp (.not site.obligation) := by
  show (match ctx.cfg.node site.node with | .ok node => _ | .error _ => _) = _
  rw [AbstractCfg.transferAt]
  cases ctx.cfg.node site.node <;> rfl

/-- For a block whose effects the transformer accounts for, the verdict is right about the query
exactly when no execution violates the assertion. -/
theorem verdictCorrect_iff_not_violable
    (accounted : ∀ e ∈ (ctx.cfg.transferAt site.node).effects, ¬ e.Ignored ∧ ¬ e.Havocs)
    (sorted : ∀ e ∈ (ctx.cfg.transferAt site.node).effects, ∀ s, e.SortedIn s)
    (hK : ∀ b p, .assign b (.predicate p) ∈ (ctx.cfg.transferAt site.node).effects → ¬ K b)
    (hreads : ∀ e ∈ (ctx.cfg.transferAt site.node).effects, ∀ v, e.ReadsInTerm v → K v)
    (hobligation : site.obligation.TermReads K) :
    VerdictCorrect .unknownCallees ctx (assertionQuery ctx site) site ↔
      ¬ site.Violable .unknownCallees ctx.cfg := by
  have hnot : (Formula.not site.obligation).TermReads K :=
    ((hereditary_termReads K).not_iff _).2 hobligation
  have hpost (t : State) : (assertionQuery ctx site).post.Holds t ↔
      site.ViolatedFrom .unknownCallees ctx.cfg t := by
    rw [post_assertionQuery]
    refine (holds_wp_known_iff accounted sorted hK hreads hnot).trans (exists_congr fun s' ↦ ?_)
    exact and_congr_right fun _ ↦ Formula.holds_not _ _
  constructor
  · rintro hcorrect ⟨cs, s, t, hrun, hviolated⟩
    exact hcorrect cs s t (Formula.holds_tru s) hrun ((hpost t).2 hviolated)
  · intro hnever cs s t _ hrun hviolated
    exact hnever ⟨cs, s, t, hrun, (hpost t).1 hviolated⟩

end Verdicts

/-! ### Where the queries come from -/

section Origin

variable {m : Module} {sem : Semantics} {sched : Scheduler} {op : SchedulerOp}
  {ctx ctx' : ProcedureContext} {query : Query} {site : AssertionSite}

theorem Module.eq_of_name_eq (hctx : ctx ∈ m.procedures) (hctx' : ctx' ∈ m.procedures)
    (h : ctx.interface.procedure = ctx'.interface.procedure) : ctx = ctx' :=
  List.inj_on_of_nodup_map m.names_nodup hctx hctx' h

/-- The scheduler holds procedures of the module, under their names, and queries of the driver. -/
structure Module.Fills (m : Module) (sched : Scheduler) : Prop where
  registered : ∀ name ctx, sched.procedures name = some ctx →
    ctx ∈ m.procedures ∧ ctx.interface.procedure = name
  queued : ∀ id entry, sched.inProgress id = some entry →
    m.Issues (.enqueue entry.query entry.provenance)

theorem Module.fills_withInitialTables (m : Module) (initial : ContextualSummaryTable) :
    m.Fills (.withInitialTables initial) where
  registered := fun _ _ h ↦ nomatch h
  queued := fun _ _ h ↦ nomatch h

theorem Module.Fills.apply (h : m.Fills sched) (hop : m.Issues op) :
    m.Fills (op.apply sched) := by
  cases op with
  | registerProcedure ctx =>
    refine ⟨fun name ctx' hctx' ↦ ?_, h.queued⟩
    replace hctx' : Function.update sched.procedures ctx.interface.procedure (some ctx) name =
      some ctx' := hctx'
    by_cases hname : name = ctx.interface.procedure
    · rw [hname, Function.update_self] at hctx'
      obtain rfl := Option.some.inj hctx'
      exact ⟨hop, hname.symm⟩
    · rw [Function.update_of_ne hname] at hctx'
      exact h.registered name ctx' hctx'
  | enqueue query provenance =>
    refine ⟨h.registered, fun id entry hentry ↦ ?_⟩
    replace hentry : Function.update sched.inProgress sched.nextId
      (some ⟨sched.nextId, query, provenance⟩) id = some entry := hentry
    by_cases hid : id = sched.nextId
    · rw [hid, Function.update_self] at hentry
      obtain rfl := Option.some.inj hentry
      exact hop
    · rw [Function.update_of_ne hid] at hentry
      exact h.queued id entry hentry
  | dispatchNext engines =>
    obtain ⟨hprocedures, hentries, -⟩ := sched.dispatchNext_frame engines
    refine ⟨fun name ctx hctx ↦ ?_, fun id entry hentry ↦ h.queued id entry
      (hentries id entry hentry)⟩
    exact h.registered name ctx (hprocedures ▸ hctx)

/-- What is dispatched is a query of the driver, for a site of the procedure it is dispatched to. -/
theorem Module.Fills.dispatched (h : m.Fills sched) (hd : sched.Dispatches ctx query site) :
    ctx ∈ m.procedures ∧ site ∈ ctx.assertions ∧ query = assertionQuery ctx site := by
  obtain ⟨id, rest, entry, -, hentry, rfl, hprovenance, hctx⟩ := hd
  obtain ⟨ctx', hctx', site', hsite', hquery, hprovenance'⟩ := h.queued id entry hentry
  obtain ⟨hmem, hname⟩ := h.registered _ _ hctx
  have hsame : ctx = ctx' := m.eq_of_name_eq hmem hctx' (by rw [hname, hquery]; rfl)
  obtain rfl : site = site' := by
    rw [hprovenance] at hprovenance'
    exact AssertionProvenance.mk.inj (Option.some.inj hprovenance')
  exact ⟨hmem, hsame ▸ hsite', hsame ▸ hquery⟩

end Origin

/-! ### True summaries -/

section Truth

variable {m : Module} {sem : Semantics} {sched sched' : Scheduler} {op : SchedulerOp}
  {ctx : ProcedureContext} {query : Query} {site : AssertionSite} {summary : NotMaySummary}
  {s s' : State}

theorem AbstractCfg.Returns.sameUndefined {cfg : AbstractCfg} (h : cfg.Returns sem s s') :
    s.SameUndefined s' := by
  obtain ⟨exit, cs, mid, -, hrun, hreturn⟩ := h
  exact (AbstractCfg.Run.sameUndefined hrun).trans (Effects.Run.sameUndefined hreturn)

/-- The summary of a query of the driver keeps the precondition and projects the postcondition. -/
theorem createNotmaySummary_assertionQuery_eq_some
    (h : createNotmaySummary (assertionQuery ctx site) ctx.interface = some summary) :
    projectToInterface ctx.interface (assertionQuery ctx site).post =
      some summary.postcondition := by
  rw [createNotmaySummary] at h
  simp only [assertionQuery, projectToInterface_tru, Option.bind_eq_bind, Option.bind_some,
    Option.bind_eq_some_iff] at h
  obtain ⟨post, hpost, hsummary⟩ := h
  obtain rfl := Option.some.inj hsummary
  exact hpost

/-- **One summary.** A correct verdict at an anticipated site gives a true summary. -/
theorem not_holds_postcondition_of_returns
    (hcorrect : VerdictCorrect sem ctx (assertionQuery ctx site) site)
    (hanticipated : Anticipated sem ctx (assertionQuery ctx site) site)
    (hsummary : createNotmaySummary (assertionQuery ctx site) ctx.interface = some summary)
    (hreturns : ctx.cfg.Returns sem s s') : ¬ summary.postcondition.Holds s' := by
  intro hpost
  have hproject := createNotmaySummary_assertionQuery_eq_some hsummary
  obtain ⟨cs, t, hrun, hdefinitions, hsame⟩ := hanticipated _ hproject s s' hreturns
  have hundefined : t.SameUndefined s' :=
    (AbstractCfg.Run.sameUndefined hrun).symm.trans hreturns.sameUndefined
  have hsite : summary.postcondition.Holds t := (Formula.holds_congr hundefined hsame).2 hpost
  exact hcorrect cs s t (Formula.holds_tru s) hrun
    ((holds_projectToInterface_iff hproject hdefinitions).1 hsite)

/-- One step: a true table stays true. -/
theorem Module.AnticipatedStep.trueOf (h : m.AnticipatedStep sem op sched sched')
    (hfills : m.Fills sched) (htrue : sched.table.TrueOf (m.semantics sem)) :
    sched'.table.TrueOf (m.semantics sem) := by
  rw [h.next]
  cases op with
  | registerProcedure ctx => exact htrue
  | enqueue query provenance => exact htrue
  | dispatchNext engines =>
    obtain ⟨-, -, htable | ⟨ctx, query, site, hdispatches, htable⟩⟩ :=
      sched.dispatchNext_frame engines
    · exact htable ▸ htrue
    rintro name summary hmem s s' hcallee hpre
    rw [SchedulerOp.apply, htable] at hmem
    rcases ContextualSummaryTable.mem_notmay_createAndMergeSummary hmem with
      hold | ⟨hverified, rfl, hsummary⟩
    · exact htrue name summary hold s s' hcallee hpre
    obtain ⟨hctx, -, rfl⟩ := hfills.dispatched hdispatches
    obtain ⟨ctx', hctx', hname, hreturns⟩ := hcallee
    obtain rfl := m.eq_of_name_eq hctx' hctx hname
    exact not_holds_postcondition_of_returns (h.correct _ _ _ ⟨hdispatches, hverified⟩)
      (h.anticipated _ _ _ ⟨hdispatches, hverified⟩) hsummary hreturns

/-- **The table is true in every run of anticipated steps.** For every module, every initial table
and every sequence of operations of the driver, with correct verdicts: if the sites whose queries
are verified anticipate the executions that return, then no execution of a procedure from the
precondition of a recorded summary returns in its postcondition. -/
theorem trueOf_table_of_run {ops : List SchedulerOp} {initial : ContextualSummaryTable}
    (h : Path (m.AnticipatedStep sem) ops (.withInitialTables initial) sched) :
    sched.table.TrueOf (m.semantics sem) := by
  have hstart : (Scheduler.withInitialTables initial).table.TrueOf (m.semantics sem) :=
    fun _ _ hmem ↦ absurd hmem List.not_mem_nil
  refine (Path.invariant (P := fun sched ↦ m.Fills sched ∧ sched.table.TrueOf (m.semantics sem))
    (fun op _ sched sched' hstep ⟨hfills, htrue⟩ ↦ ?_) h
    ⟨m.fills_withInitialTables initial, hstart⟩).2
  exact ⟨hstep.next ▸ hfills.apply hstep.issued, hstep.trueOf hfills htrue⟩

end Truth

/-! ### Sites that no execution gets around -/

/-- The effect may change what the leaf reads. -/
def TransferEffect.Disturbs (e : TransferEffect) : Leaf → Prop
  | .boolVar v | .termVar v => e.Writes v
  | .region r => e.MayWrite r

/-- Nothing in the node, on an edge behind it or in a node behind it disturbs the leaf. -/
def AbstractCfg.LeavesAloneFrom (cfg : AbstractCfg) (n : CfgNodeId) (l : Leaf) : Prop :=
  ∀ path k, Path cfg.Leads path n k →
    (∀ e ∈ (cfg.transferAt k).effects, ¬ e.Disturbs l) ∧
      ∀ edge ∈ cfg.edges, edge.source = k → ∀ e ∈ edge.effects, ¬ e.Disturbs l

section Unavoidable

variable {sem : Semantics} {cfg : AbstractCfg} {ctx : ProcedureContext} {query : Query}
  {site : AssertionSite} {cs : List Crossing} {p q : Position} {s s' : State} {l : Leaf}

theorem Effects.Run.same {es : List TransferEffect} (h : Effects.Run sem es s s')
    (hes : ∀ e ∈ es, ¬ e.Disturbs l) : l.Same s s' := by
  refine Path.rel (R := fun s s' ↦ l.Same s s') (Leaf.Same.refl · l)
    (fun _ _ _ ↦ Leaf.Same.trans) (fun e he t t' hstep ↦ ?_) h
  have hnot := hes e he
  cases l with
  | boolVar v => exact (hstep.lookup_eq hnot).symm
  | termVar v => exact (hstep.lookup_eq hnot).symm
  | region r => exact (hstep.memory_eq_of_not_mayWrite hnot).symm

/-- Behind the node, executions keep what the leaf reads. -/
theorem AbstractCfg.LeavesAloneFrom.same (h : cfg.LeavesAloneFrom p.node l)
    (hrun : cfg.Run sem cs p q) : l.Same p.state q.state ∧ cfg.LeavesAloneFrom q.node l := by
  induction cs generalizing p with
  | nil =>
    obtain rfl : p = q := hrun
    exact ⟨Leaf.Same.refl _ l, h⟩
  | cons c cs ih =>
    obtain ⟨m, ⟨hvalid, rfl, rfl⟩, hrun⟩ := hrun
    obtain ⟨hnode, hedges⟩ := h [] c.edge.source rfl
    have hcross : l.Same c.pre c.post :=
      (Effects.Run.same hvalid.transfer hnode).trans
        (hvalid.effects.same (hedges c.edge hvalid.edge_mem rfl))
    have hbehind : cfg.LeavesAloneFrom c.edge.target l := fun path k hpath ↦
      h (c.edge.id :: path) k ⟨c.edge.target, ⟨c.edge, hvalid.edge_mem, rfl, rfl, rfl⟩, hpath⟩
    obtain ⟨hrest, hlast⟩ := ih hbehind hrun
    exact ⟨hcross.trans hrest, hlast⟩

/-- Where no definition of a local is found, the projection is the formula itself. -/
theorem eq_of_projectToInterface {interface : ProcedureInterface} {φ projected : Formula}
    (h : projectToInterface interface φ = some projected)
    (hnone : collectLocalDefinitions interface φ [] = []) : projected = φ := by
  have hresolved : resolvedDefinitions interface φ = [] := by
    rw [resolvedDefinitions, hnone]
    rfl
  obtain ⟨rfl, -⟩ := projectToInterface_eq_some.1 h
  rw [hresolved]
  rfl

/-- **Unavoidable sites.** If every path from the entry to the exit passes the node of the site,
nothing from the node on disturbs what the postcondition reads, and the postcondition defines no
local, then the executions that return are anticipated at the site. -/
theorem anticipated_of_unavoidable
    (hpasses : ∀ exit path, ctx.cfg.exit = some exit → Path ctx.cfg.Leads path ctx.cfg.entry exit →
      site.node ∈ ctx.cfg.sources path ∨ site.node = exit)
    (halone : ∀ l ∈ query.post.leaves, ctx.cfg.LeavesAloneFrom site.node l)
    (hnone : collectLocalDefinitions ctx.interface query.post [] = []) :
    Anticipated sem ctx query site := by
  rintro projected hproject s s' ⟨exit, cs, m, hexit, hrun, hreturn⟩
  obtain rfl := eq_of_projectToInterface hproject hnone
  have hdefinitions (t : State) : DefinitionsHold ctx.interface query.post t := by
    rw [DefinitionsHold]
    rw [hnone]
    exact fun p hp ↦ absurd hp List.not_mem_nil
  -- The part of the execution from the site's node on.
  obtain ⟨cs₁, cs₂, t, hbefore, hbehind⟩ : ∃ cs₁ cs₂ t,
      ctx.cfg.Run sem cs₁ ⟨ctx.cfg.entry, s⟩ ⟨site.node, t⟩ ∧
        ctx.cfg.Run sem cs₂ ⟨site.node, t⟩ ⟨exit, m⟩ := by
    rcases hpasses exit _ hexit (leads_of_run hrun) with hmem | rfl
    · rw [sources_of_run hrun] at hmem
      obtain ⟨c, hc, hsource⟩ := List.mem_map.1 hmem
      obtain ⟨cs₁, cs₂, -, hvalid, hbefore, hbehind⟩ := AbstractCfg.Run.split hrun hc
      rw [← hsource]
      exact ⟨cs₁, c :: cs₂, c.pre, hbefore, ⟨c.edge.target, c.post⟩, ⟨hvalid, rfl, rfl⟩, hbehind⟩
    · exact ⟨cs, [], m, hrun, rfl⟩
  refine ⟨cs₁, t, hbefore, hdefinitions t, fun l hl ↦ ?_⟩
  obtain ⟨hsame, hexitAlone⟩ := AbstractCfg.LeavesAloneFrom.same (halone l hl) hbehind
  exact hsame.trans (Effects.Run.same hreturn (hexitAlone [] exit rfl).1)

end Unavoidable

/-! ### An error call that is never reached -/

section ErrorCall

/-- The parameter of `f`. -/
def parameterOfF : Term := .var (.int "f$%0")

/-- The procedure `f`. Behind a guard that is never true it calls an error function, otherwise it
returns zero. -/
def errorCfg : AbstractCfg where
  nodes := [⟨0, "entry", .entry, .identity⟩, ⟨1, "error", .normal, .identity⟩,
    ⟨2, "exit", .exit, ⟨[.assign (.int "f$__retval") (.term (.int 0))]⟩⟩]
  edges := [⟨0, 0, 1, .fls, []⟩, ⟨1, 0, 2, .tru, []⟩]
  entry := 0
  concreteExits := [2]
  exit := some 2
  nextNode := 3
  nextEdge := 2
  nodes_sorted := by simp
  edges_sorted := by simp
  node_lt := by decide
  edge_lt := by decide
  entry_mem := by simp
  source_mem := by simp
  target_mem := by simp

/-- The site of the error call. -/
def errorSite : AssertionSite := ⟨0, 1, .fls, "error"⟩

/-- An assertion at the entry. -/
def entrySite : AssertionSite := ⟨0, 0, .ge parameterOfF parameterOfF, "entry"⟩

/-- `f` with one site. -/
def errorContext (site : AssertionSite) : ProcedureContext := ⟨errorCfg, [site], ⟨"f", ["f$%0"]⟩⟩

/-- A solver that knows the queries about `f`. -/
def errorEngines : Engines where
  oracle := .knowing [.fls, .not (.ge parameterOfF parameterOfF)] []
  synthesize := fun _ _ _ _ ↦ none
  orders := fun _ ↦ .stored

/-- A module of one procedure. -/
def Module.single (ctx : ProcedureContext) : Module := ⟨[ctx], List.nodup_singleton _⟩

/-- The driver registers the procedure, enqueues the query for its site and dispatches it. -/
def singleOps (ctx : ProcedureContext) (site : AssertionSite) : List SchedulerOp :=
  [.registerProcedure ctx, .enqueue (assertionQuery ctx site) (some ⟨site⟩),
    .dispatchNext errorEngines]

/-- The scheduler afterwards. -/
def singleScheduler (ctx : ProcedureContext) (site : AssertionSite) : Scheduler :=
  (singleOps ctx site).foldl SchedulerOp.apply (.withInitialTables .new)

/-- Only the one query is dispatched. -/
theorem path_singleOps {ctx : ProcedureContext} {site : AssertionSite}
    (hsite : site ∈ ctx.assertions) :
    Path (fun op sched sched' ↦ (Module.single ctx).Issues op ∧ sched' = op.apply sched ∧
        ∀ ctx' query site', op.Verifies sched ctx' query site' →
          ctx' = ctx ∧ query = assertionQuery ctx site ∧ site' = site)
      (singleOps ctx site) (.withInitialTables .new) (singleScheduler ctx site) := by
  have hctx : ctx ∈ (Module.single ctx).procedures := List.mem_singleton_self ctx
  refine ⟨_, ⟨hctx, rfl, nofun⟩, _, ⟨⟨ctx, hctx, site, hsite, rfl, rfl⟩, rfl, nofun⟩, _,
    ⟨trivial, rfl, ?_⟩, rfl⟩
  rintro ctx' query site' ⟨⟨id, rest, entry, hpending, hentry, rfl, hprovenance, hprocedure⟩, -⟩
  obtain ⟨rfl, -⟩ := List.cons.inj (show [0] = id :: rest from hpending)
  obtain rfl : ⟨0, assertionQuery ctx site, some ⟨site⟩⟩ = entry := Option.some.inj hentry
  have hname : some ctx = some ctx' := by
    rw [← hprocedure]
    exact (Function.update_self ctx.interface.procedure (some ctx) fun _ ↦ none).symm
  exact ⟨(Option.some.inj hname).symm, rfl,
    (AssertionProvenance.mk.inj (Option.some.inj hprovenance)).symm⟩

theorem notmay_singleScheduler_errorSite :
    (singleScheduler (errorContext errorSite) errorSite).table.notmay "f" =
      [⟨.tru, .not .fls⟩] := by
  decide

theorem notmay_singleScheduler_entrySite :
    (singleScheduler (errorContext entrySite) entrySite).table.notmay "f" =
      [⟨.tru, .not (.ge parameterOfF parameterOfF)⟩] := by
  decide

/-- The error call is not reached. -/
theorem verdictCorrect_errorSite (sem : Semantics) (query : Query) :
    VerdictCorrect sem (errorContext errorSite) query errorSite := by
  intro cs s t _ hrun
  have hnode : (⟨errorSite.node, t⟩ : Position).node ≠ 1 := by
    refine Path.invariant (P := fun p : Position ↦ p.node ≠ 1) (fun c _ p q hcross _ ↦ ?_) hrun ?_
    · obtain ⟨hvalid, -, rfl⟩ := hcross
      have hedge : c.edge = ⟨0, 0, 1, .fls, []⟩ ∨ c.edge = ⟨1, 0, 2, .tru, []⟩ := by
        simpa [errorContext, errorCfg] using hvalid.edge_mem
      rcases hedge with hedge | hedge
      · have hguard := hvalid.guard
        rw [hedge] at hguard
        exact absurd hguard (Formula.not_holds_fls c.mid)
      · show c.edge.target ≠ 1
        rw [hedge]
        decide
    · show (0 : ℕ) ≠ 1
      decide
  exact absurd rfl hnode

/-- `f` returns. -/
theorem returns_errorCfg (sem : Semantics) :
    errorCfg.Returns sem .zero (State.zero.set (.int "f$__retval") (.int 0)) := by
  refine ⟨2, [⟨⟨1, 0, 2, .tru, []⟩, .zero, .zero, .zero⟩], .zero, rfl, ?_, ?_⟩
  · refine ⟨⟨2, .zero⟩, ⟨⟨?_, rfl, Formula.holds_tru _, rfl⟩, rfl, rfl⟩, rfl⟩
    simp [errorCfg]
  · exact ⟨_, ⟨rfl, by decide, rfl⟩, rfl⟩

/-- **A recorded summary can be false.** The error call of `f` is never reached, the verdict
`Verified` on it is correct, and the summary that the scheduler records of it says that `f` never
returns. -/
theorem not_trueOf_table_of_run : ¬ ∀ (m : Module) (sem : Semantics) (ops : List SchedulerOp)
    (initial : ContextualSummaryTable) (sched : Scheduler),
    Path (m.Step sem) ops (.withInitialTables initial) sched →
      sched.table.TrueOf (m.semantics sem) := by
  intro h
  have hrun : Path ((Module.single (errorContext errorSite)).Step .unknownCallees)
      (singleOps (errorContext errorSite) errorSite) (.withInitialTables .new)
      (singleScheduler (errorContext errorSite) errorSite) := by
    refine Path.mono (fun op _ sched sched' ↦ ?_)
      (path_singleOps (List.mem_singleton_self errorSite))
    rintro ⟨hissued, hnext, hverifies⟩
    refine ⟨hissued, hnext, fun ctx query site hverified ↦ ?_⟩
    obtain ⟨rfl, -, rfl⟩ := hverifies ctx query site hverified
    exact verdictCorrect_errorSite _ query
  refine h _ _ _ _ _ hrun "f" ⟨.tru, .not .fls⟩ ?_ .zero _
    ⟨errorContext errorSite, List.mem_singleton_self _, rfl, returns_errorCfg _⟩
    (Formula.holds_tru _) ?_
  · rw [notmay_singleScheduler_errorSite]
    exact List.mem_singleton_self _
  · exact (Formula.holds_not _ _).2 (Formula.not_holds_fls _)

/-- The parameter is never less than itself. -/
theorem verdictCorrect_entrySite (sem : Semantics) :
    VerdictCorrect sem (errorContext entrySite) (assertionQuery (errorContext entrySite) entrySite)
      entrySite := by
  intro cs s t _ _ hpost
  have hnot : ¬ (Formula.ge parameterOfF parameterOfF).Holds t := (Formula.holds_not _ _).1 hpost
  simp [parameterOfF, Formula.Holds, Formula.eval, Term.eval, Value.compare, State.lookup,
    Var.int] at hnot

/-- Every path of `f` starts at the entry, and nothing writes the parameter. -/
theorem anticipated_entrySite (sem : Semantics) :
    Anticipated sem (errorContext entrySite) (assertionQuery (errorContext entrySite) entrySite)
      entrySite := by
  refine anticipated_of_unavoidable (fun exit path hexit hpath ↦ ?_) (fun l hl path k _ ↦ ?_) rfl
  · obtain rfl := Option.some.inj hexit
    cases path with
    | nil => cases hpath
    | cons id path =>
      obtain ⟨k, ⟨edge, hedge, rfl, hsource, -⟩, -⟩ := hpath
      refine Or.inl (List.mem_filterMap.2 ⟨edge.id, List.mem_cons_self, ?_⟩)
      rw [AbstractCfg.edge_eq_ok hedge]
      exact congrArg some hsource
  · have hleaf : l = .termVar (.int "f$%0") := by
      rcases List.mem_append.1 (show l ∈ _ ++ _ from hl) with hl | hl <;>
        exact List.mem_singleton.1 hl
    subst hleaf
    constructor
    · refine AbstractCfg.forall_transferAt (fun n hn e he ↦ ?_) k
      have heffect : e = .assign (.int "f$__retval") (.term (.int 0)) := by
        rcases (List.mem_cons.1 hn).imp_right List.mem_cons.1 with rfl | rfl | hn
        · exact absurd he List.not_mem_nil
        · exact absurd he List.not_mem_nil
        · rw [List.mem_singleton.1 hn] at he
          exact List.mem_singleton.1 he
      rw [heffect]
      show ¬ Var.int "f$%0" = Var.int "f$__retval"
      decide
    · intro edge hedge _ e he
      have heffects : edge.effects = [] := by
        rcases List.mem_cons.1 hedge with rfl | hedge
        · rfl
        · rw [List.mem_singleton.1 hedge]
      exact absurd (heffects ▸ he) List.not_mem_nil

/-- The run in which the assertion at the entry of `f` is verified records a true summary. -/
theorem trueOf_table_singleScheduler_entrySite :
    (singleScheduler (errorContext entrySite) entrySite).table.TrueOf
        ((Module.single (errorContext entrySite)).semantics .unknownCallees) ∧
      (singleScheduler (errorContext entrySite) entrySite).table.notmay "f" =
        [⟨.tru, .not (.ge parameterOfF parameterOfF)⟩] := by
  refine ⟨trueOf_table_of_run (Path.mono (fun op _ sched sched' ↦ ?_)
    (path_singleOps (List.mem_singleton_self entrySite))), notmay_singleScheduler_entrySite⟩
  rintro ⟨hissued, hnext, hverifies⟩
  refine ⟨⟨hissued, hnext, fun ctx query site hverified ↦ ?_⟩, fun ctx query site hverified ↦ ?_⟩
  · obtain ⟨rfl, rfl, rfl⟩ := hverifies ctx query site hverified
    exact verdictCorrect_entrySite _
  · obtain ⟨rfl, rfl, rfl⟩ := hverifies ctx query site hverified
    exact anticipated_entrySite _

end ErrorCall

end MayMust
