import MayMust.Analysis.Backward.Callees
import MayMust.Analysis.Dart.SingleAssignment
import MayMust.Interproc.Driver

/-!
# The verdict on a module

The verdict on a function combines the judgements about its assertions, and the verdict on a module
combines those on its functions: one bug is enough for `UNSAFE`, and `SAFE` needs every function to
be lowered and every assertion to be verified.

Both answers are connected to executions. If a module is `SAFE`, no site of a function whose graph
is loop-free and in single-assignment form with basic effects can be violated
(`not_violable_of_safe`). If a module is `UNSAFE`, some site of some function can be violated,
provided that the backward transformer is exact on the graphs and the walk follows their paths
(`exists_violable_of_notSafe`).
-/

namespace MayMust

open Library

/-! ### The source -/

/-- `SafetyVerdict`. -/
inductive SafetyVerdict
  | safe
  | notSafe
  | unknown
  deriving DecidableEq

/-- The loop of `ProcedureReport::verdict`, which ends at the first bug. -/
def verdictFrom (allVerified : Bool) : List AssertionResult → SafetyVerdict
  | [] => if allVerified then .safe else .unknown
  | assertion :: assertions =>
    match assertion.judgement with
    | .verified => verdictFrom allVerified assertions
    | .bugFound _ => .notSafe
    | .unknown => verdictFrom false assertions

/-- `ProcedureReport::verdict`. -/
def ProcedureReport.verdict (report : ProcedureReport) : SafetyVerdict :=
  if !report.failures.isEmpty then .unknown
  else if report.assertions.isEmpty then .safe
  else verdictFrom true report.assertions

/-- `combine_verdict`. -/
def combineVerdict : SafetyVerdict → SafetyVerdict → SafetyVerdict
  | .notSafe, _ | _, .notSafe => .notSafe
  | .unknown, _ | _, .unknown => .unknown
  | .safe, .safe => .safe

/-- The module verdict of `print_module_report`. -/
def ModuleReport.verdict (report : ModuleReport) : SafetyVerdict :=
  report.reports.foldl (fun verdict procedure ↦ combineVerdict verdict procedure.verdict) .safe

/-! ### What the verdicts say -/

section Verdicts

variable {allVerified : Bool} {assertions : List AssertionResult} {v w : SafetyVerdict}
  {report : ProcedureReport} {reports : List ProcedureReport}

theorem combineVerdict_eq_safe_iff : combineVerdict v w = .safe ↔ v = .safe ∧ w = .safe := by
  cases v <;> cases w <;> simp [combineVerdict]

theorem combineVerdict_eq_notSafe_iff :
    combineVerdict v w = .notSafe ↔ v = .notSafe ∨ w = .notSafe := by
  cases v <;> cases w <;> simp [combineVerdict]

theorem verdictFrom_eq_safe_iff : verdictFrom allVerified assertions = .safe ↔
    allVerified = true ∧ ∀ assertion ∈ assertions, assertion.judgement = .verified := by
  induction assertions generalizing allVerified with
  | nil => cases allVerified <;> simp [verdictFrom]
  | cons assertion assertions ih =>
    cases hjudgement : assertion.judgement <;> simp [verdictFrom, hjudgement, ih]

theorem verdictFrom_eq_notSafe_iff : verdictFrom allVerified assertions = .notSafe ↔
    ∃ assertion ∈ assertions, ∃ model, assertion.judgement = .bugFound model := by
  induction assertions generalizing allVerified with
  | nil => cases allVerified <;> simp [verdictFrom]
  | cons assertion assertions ih =>
    cases hjudgement : assertion.judgement <;> simp [verdictFrom, hjudgement, ih]

theorem ProcedureReport.verdict_eq_safe_iff : report.verdict = .safe ↔
    report.failures = [] ∧
      ∀ assertion ∈ report.assertions, assertion.judgement = .verified := by
  rw [verdict]
  split_ifs with hfailures hassertions
  · simp_all
  · simp_all
  · simp_all [verdictFrom_eq_safe_iff]

theorem ProcedureReport.verdict_eq_notSafe_iff : report.verdict = .notSafe ↔
    report.failures = [] ∧
      ∃ assertion ∈ report.assertions, ∃ model, assertion.judgement = .bugFound model := by
  rw [verdict]
  split_ifs with hfailures hassertions
  · simp_all
  · simp_all
  · simp_all [verdictFrom_eq_notSafe_iff]

theorem foldl_combineVerdict_eq_safe_iff :
    reports.foldl (fun verdict procedure ↦ combineVerdict verdict procedure.verdict) v = .safe ↔
      v = .safe ∧ ∀ report ∈ reports, report.verdict = .safe := by
  induction reports generalizing v with
  | nil => simp
  | cons report reports ih =>
    rw [List.foldl_cons, ih, combineVerdict_eq_safe_iff, List.forall_mem_cons, and_assoc]

theorem foldl_combineVerdict_eq_notSafe_iff :
    reports.foldl (fun verdict procedure ↦ combineVerdict verdict procedure.verdict) v = .notSafe ↔
      v = .notSafe ∨ ∃ report ∈ reports, report.verdict = .notSafe := by
  induction reports generalizing v with
  | nil => simp
  | cons report reports ih =>
    rw [List.foldl_cons, ih, combineVerdict_eq_notSafe_iff, List.exists_mem_cons_iff, or_assoc]

/-- A safe module consists of safe functions. -/
theorem ModuleReport.verdict_eq_safe_iff {report : ModuleReport} :
    report.verdict = .safe ↔ ∀ procedure ∈ report.reports, procedure.verdict = .safe := by
  rw [verdict, foldl_combineVerdict_eq_safe_iff, eq_self, true_and]

/-- A module is unsafe because of one of its functions. -/
theorem ModuleReport.verdict_eq_notSafe_iff {report : ModuleReport} :
    report.verdict = .notSafe ↔ ∃ procedure ∈ report.reports, procedure.verdict = .notSafe := by
  rw [verdict, foldl_combineVerdict_eq_notSafe_iff]
  simp

end Verdicts

/-! ### Which direction gave a judgement -/

section Directions

variable {engines : Engines} {cfg : AbstractCfg} {site : AssertionSite}
  {tables : ContextualSummaryTable} {unknown : AssertionResult} {model : Option SmtModel}

theorem judgement_runForwardMust (hunknown : unknown.judgement = .unknown) :
    (runForwardMust engines cfg site unknown).assertion.judgement = .unknown ∨
      ∃ path result, dartExplore cfg site engines.oracle .default engines.orders =
          some (path, result) ∧
        (runForwardMust engines cfg site unknown).assertion = result := by
  rw [runForwardMust]
  cases hexplore : dartExplore cfg site engines.oracle .default engines.orders with
  | none => exact Or.inl hunknown
  | some reported => exact Or.inr ⟨reported.1, reported.2, rfl, rfl⟩

/-- The explorer reports bugs only. -/
theorem exists_bugFound_of_dartExplore {oracle : Oracle} {config : DartConfig}
    {orders : List CfgEdgeId → HashOrder} {path : List CfgEdgeId} {result : AssertionResult}
    (h : dartExplore cfg site oracle config orders = some (path, result)) :
    ∃ model, result.judgement = .bugFound model := by
  have hexplore := dartExplore_eq_some h
  generalize cfg.enumeratePaths cfg.entry site.node config = paths at hexplore
  induction paths with
  | nil => cases hexplore
  | cons path' paths ih =>
    rw [explorePaths] at hexplore
    split at hexplore
    · cases hexplore
    · split at hexplore
      · obtain ⟨-, rfl⟩ := Prod.mk.inj (Option.some.inj hexplore)
        exact ⟨_, rfl⟩
      · exact ih hexplore

/-- What a run returns is the answer of the backward analysis, or the one of the explorer, or
nothing is known. -/
theorem assertion_runSmash (engines : Engines) (cfg : AbstractCfg) (site : AssertionSite)
    (tables : ContextualSummaryTable) :
    analyzeWithTables (engines.synthesize cfg) cfg engines.oracle site tables =
        .ok (runSmash engines cfg site tables).assertion ∨
      (runSmash engines cfg site tables).assertion.judgement = .unknown ∨
      ∃ path result, dartExplore cfg site engines.oracle .default engines.orders =
          some (path, result) ∧
        (runSmash engines cfg site tables).assertion = result := by
  rw [runSmash]
  cases hanalysis : analyzeWithTables (engines.synthesize cfg) cfg engines.oracle site tables with
  | ok result =>
    cases hjudgement : result.judgement with
    | verified => simp only [hjudgement, true_or]
    | bugFound model => simp only [hjudgement, true_or]
    | unknown =>
      simp only [hjudgement]
      exact Or.inr (judgement_runForwardMust hjudgement)
  | error e =>
    cases e with
    | cyclicCfgUnsupported => exact Or.inr (judgement_runForwardMust rfl)
    | rule e => exact Or.inr (Or.inl rfl)
    | oracle e => exact Or.inr (Or.inl rfl)

/-- Only the backward analysis verifies a site. -/
theorem analyzeWithTables_of_verified
    (h : (runSmash engines cfg site tables).assertion.judgement = .verified) :
    analyzeWithTables (engines.synthesize cfg) cfg engines.oracle site tables =
      .ok (runSmash engines cfg site tables).assertion := by
  rcases assertion_runSmash engines cfg site tables with
    hok | hunknown | ⟨path, result, hexplore, hresult⟩
  · exact hok
  · rw [hunknown] at h
    cases h
  · obtain ⟨model, hmodel⟩ := exists_bugFound_of_dartExplore hexplore
    rw [hresult, hmodel] at h
    cases h

/-- An execution that satisfies the type-width facts is an execution. -/
theorem TransferEffect.Step.untyped {e : TransferEffect} {s s' : State}
    (h : e.Step .wellTypedUnknownCallees s s') : e.Step .unknownCallees s s' := by
  cases e with
  | typeBound condition => exact ⟨False.elim, h.2⟩
  | assign target value => cases value <;> exact h
  | _ => exact h

theorem AbstractCfg.Run.untyped {cs : List Crossing} {p q : Position}
    (h : cfg.Run .wellTypedUnknownCallees cs p q) : cfg.Run .unknownCallees cs p q := by
  refine Path.mono (fun c _ _ _ hcross ↦ ?_) h
  obtain ⟨hvalid, hsource, htarget⟩ := hcross
  have huntyped {es : List TransferEffect} {s s' : State}
      (h : Effects.Run .wellTypedUnknownCallees es s s') : Effects.Run .unknownCallees es s s' :=
    Path.mono (fun _ _ _ _ hstep ↦ hstep.untyped) h
  exact ⟨⟨hvalid.edge_mem, huntyped hvalid.transfer, hvalid.guard, huntyped hvalid.effects⟩,
    hsource, htarget⟩

/-- What is exact on the graph is exact on the block of the site. -/
theorem AbstractCfg.Precise.exactBlock (h : cfg.Precise site) : site.ExactBlock cfg where
  sorted e he := h.sorted e (Or.inl ⟨site.node, he⟩)
  plain b p hb hread := by
    refine h.plain b p (Or.inl ⟨site.node, hb⟩) ?_
    rcases hread with hread | ⟨e, he, hread⟩
    · exact Or.inl hread
    · exact Or.inr (Or.inl ⟨e, Or.inl ⟨site.node, he⟩, hread⟩)
  untouched regions hr r hmem hread := by
    refine h.untouched regions (Or.inl ⟨site.node, hr⟩) r hmem ?_
    rcases hread with hread | ⟨e, he, hread⟩
    · exact Or.inl hread
    · exact Or.inr (Or.inl ⟨e, Or.inl ⟨site.node, he⟩, hread⟩)
  bounded cs s₀ s s' hrun hblock _ := (h.bounded cs s₀ _ s' hrun.untyped hblock).2

/-- A bug that the backward analysis finds on a precise graph is one. -/
theorem AbstractCfg.Precise.violable_of_analyzeWithTables {oracle : Oracle}
    {synthesize : Synthesizer} {result : AssertionResult} (hcfg : cfg.Precise site)
    (hsound : oracle.FeasibleSound)
    (h : analyzeWithTables synthesize cfg oracle site tables = .ok result)
    (hbug : result.judgement = .bugFound model) : site.Violable .wellTypedUnknownCallees cfg := by
  obtain ⟨excluded, invariants, hbackward⟩ : ∃ excluded invariants,
      runBackward cfg site oracle excluded invariants tables = .ok result := by
    rw [analyzeWithTables] at h
    split_ifs at h
    · exact ⟨_, _, h⟩
    · obtain ⟨invariants, -, h⟩ := bind_eq_ok.1 h
      split_ifs at h
      exact ⟨_, _, h⟩
  obtain ⟨engine, hengine, hjudgement, -, -⟩ := runBackward_eq_ok hbackward
  obtain ⟨-, report, hreport, hfeasible⟩ := (judgement_eq_ok hjudgement).2 model hbug
  obtain ⟨s₀, hs₀⟩ := hsound _ report hreport hfeasible
  have hwitnessed := RuleEngine.witnessed_fixpointEngine hcfg hengine
  obtain ⟨cs, s, hrun, s', hsite, hnot⟩ :=
    hwitnessed.violable cfg.entry s₀ (NodeSummary.holds_combined.1 hs₀).2
  obtain ⟨hrun', hsite'⟩ := hcfg.bounded cs s₀ _ s' hrun hsite
  exact ⟨cs, s₀, s, hrun', s', hsite', hnot⟩

/-- A bug that is reported on a followed path is one. -/
theorem AssertionSite.ExactBlock.violable_of_dartExplore {oracle : Oracle} {config : DartConfig}
    {orders : List CfgEdgeId → HashOrder} {path : List CfgEdgeId} {result : AssertionResult}
    (hblock : site.ExactBlock cfg) (hsound : oracle.FeasibleSound)
    (hfollowed : ∀ path ∈ cfg.enumeratePaths cfg.entry site.node config,
      PathFollowed cfg site (orders path) path)
    (h : dartExplore cfg site oracle config orders = some (path, result)) :
    site.Violable .wellTypedUnknownCallees cfg := by
  obtain ⟨hmem, ⟨report, hreport, hfeasible⟩, -⟩ := explorePaths_eq_some (dartExplore_eq_some h)
  obtain ⟨s, hs⟩ := hsound _ report hreport hfeasible
  obtain ⟨cs, s', hrun, -, hviolated⟩ := exists_run_of_pathQuery (leads_of_mem_enumeratePaths hmem)
    (hfollowed path hmem) hblock ⟨validated_of_feasibilityWithModel hreport, hs⟩
  exact ⟨cs, s, s', hrun, hviolated⟩

/-- Bugs that are reported about the site are bugs: the backward transformer is exact on the graph,
and the walk follows the paths to the site. -/
structure AbstractCfg.Reliable (cfg : AbstractCfg) (site : AssertionSite)
    (orders : List CfgEdgeId → HashOrder) : Prop where
  precise : cfg.Precise site
  followed : ∀ path ∈ cfg.enumeratePaths cfg.entry site.node .default,
    PathFollowed cfg site (orders path) path

/-- Paths in single-assignment form are followed. -/
theorem AbstractCfg.Precise.reliable {orders : List CfgEdgeId → HashOrder}
    (hcfg : cfg.Precise site) (hssa : cfg.Ssa) (hwalkable : cfg.Walkable)
    (hacyclic : cfg.topologicalOrder.isSome) : cfg.Reliable site orders :=
  ⟨hcfg, fun _ hpath ↦ pathFollowed_of_ssa hssa hwalkable hacyclic hpath⟩

/-- A bug that is reported about a site of a reliable graph is one. -/
theorem AbstractCfg.Reliable.violable (hcfg : cfg.Reliable site engines.orders)
    (hsound : engines.oracle.FeasibleSound)
    (h : (runSmash engines cfg site tables).assertion.judgement = .bugFound model) :
    site.Violable .wellTypedUnknownCallees cfg := by
  rcases assertion_runSmash engines cfg site tables with
    hok | hunknown | ⟨path, result, hexplore, -⟩
  · exact hcfg.precise.violable_of_analyzeWithTables hsound hok h
  · rw [hunknown] at h
    cases h
  · exact hcfg.precise.exactBlock.violable_of_dartExplore hsound hcfg.followed hexplore

end Directions

/-! ### The reports of a module -/

section Sites

variable {engines : Engines} {ctx : ProcedureContext} {sites : List AssertionSite}
  {tables table : ContextualSummaryTable} {site : AssertionSite} {result : AssertionResult}

/-- Every site is analysed, with some table. -/
theorem exists_result_of_mem (hsite : site ∈ sites) : ∃ tables',
    (runSmash engines ctx.cfg site tables').assertion ∈
      (analyseSites engines tables ctx sites table).1 := by
  induction sites generalizing table with
  | nil => cases hsite
  | cons site' sites ih =>
    rw [analyseSites]
    rcases List.mem_cons.1 hsite with rfl | hsite
    · exact ⟨_, List.mem_cons_self⟩
    · obtain ⟨tables', hmem⟩ := ih hsite
      exact ⟨tables', List.mem_cons_of_mem _ hmem⟩

/-- Every result is that of a site. -/
theorem exists_site_of_mem (hresult : result ∈ (analyseSites engines tables ctx sites table).1) :
    ∃ site ∈ sites, ∃ tables', (runSmash engines ctx.cfg site tables').assertion = result := by
  induction sites generalizing table with
  | nil => cases hresult
  | cons site sites ih =>
    rw [analyseSites] at hresult
    rcases List.mem_cons.1 hresult with rfl | hresult
    · exact ⟨site, List.mem_cons_self, _, rfl⟩
    · obtain ⟨site', hsite, hanalysis⟩ := ih hresult
      exact ⟨site', List.mem_cons_of_mem _ hsite, hanalysis⟩

end Sites

namespace Frontend

section Reports

variable {G : Type} {F : Frontend G} {maxFunctionSize : ℕ} {recursive : Finset String}
  {registry : CallSummaryRegistry} {graphs : List G} {g : G}
  {n : ℕ} {table : ContextualSummaryTable} {report : ProcedureReport}
  {provider : String → Option ReturnSummary}

/-- A report without failures is one about a function that was lowered. -/
theorem ReportedBy.lowered (h : F.ReportedBy maxFunctionSize recursive registry g report)
    (hfailures : report.failures = []) :
    ¬ F.TooLarge maxFunctionSize g ∧
      ∃ n lowered table, (F.lower g ⟨registry.summaries, n⟩).1 = .ok lowered ∧
        report.assertions =
          (analyseSites F.engines registry.tables lowered.context lowered.assertions table).1 := by
  obtain ⟨n, table, rfl⟩ := h
  by_cases hlarge : F.TooLarge maxFunctionSize g
  · rw [lowerFunction, if_pos hlarge] at hfailures
    cases hfailures
  · rw [lowerFunction, if_neg hlarge] at hfailures ⊢
    cases hlower : (F.lower g ⟨registry.summaries, n⟩).1 with
    | error message =>
      rw [hlower] at hfailures
      cases hfailures
    | ok lowered => exact ⟨hlarge, n, lowered, table, hlower, rfl⟩

/-- **A safe module is safe.** If the verdict on a module is `SAFE`, every function was small enough
and could be lowered, and no site of a function whose graph is loop-free and in single-assignment
form with basic effects can be violated. -/
theorem not_violable_of_safe (hnodup : F.NamesDiffer graphs)
    (hsound : F.engines.oracle.InfeasibleSound)
    (hsafe : (F.analyzeModule maxFunctionSize provider graphs).verdict = .safe) :
    ∀ g ∈ graphs, ¬ F.TooLarge maxFunctionSize g ∧ ∃ n lowered,
      (F.lower g ⟨(F.analyzeModule maxFunctionSize provider graphs).computedSummaries, n⟩).1 =
        .ok lowered ∧
      ∀ site ∈ lowered.assertions, lowered.procedure.cfg.topologicalOrder.isSome →
        lowered.procedure.cfg.Ssa → lowered.procedure.cfg.Basic →
          ¬ site.Violable .unknownCallees lowered.procedure.cfg := by
  intro g hg
  rw [ModuleReport.verdict_eq_safe_iff, reports_analyzeModule provider hnodup] at hsafe
  obtain ⟨report, hmem, hreport⟩ := reportedBy_analyseFunctions.1 g hg
  obtain ⟨hfailures, hverified⟩ := ProcedureReport.verdict_eq_safe_iff.1 (hsafe report hmem)
  obtain ⟨hlarge, n, lowered, table, hlower, hassertions⟩ := hreport.lowered hfailures
  refine ⟨hlarge, n, lowered, hlower, fun site hsite hacyclic hssa hbasic ↦ ?_⟩
  obtain ⟨tables, hresult⟩ := exists_result_of_mem hsite
  have hjudgement := hverified _ (hassertions ▸ hresult)
  exact hssa.not_violable_of_verified hbasic hacyclic hsound
    (analyzeWithTables_of_verified hjudgement) hjudgement

/-- **An unsafe module is unsafe.** If the verdict on a module is `UNSAFE`, some site of a lowered
function can be violated, provided that the backward transformer is exact on the graphs and every
read of the walk along their paths reaches the current value. -/
theorem exists_violable_of_notSafe (hnodup : F.NamesDiffer graphs)
    (hsound : F.engines.oracle.FeasibleSound)
    (hreliable : ∀ g ∈ graphs, ∀ n lowered,
      (F.lower g ⟨(F.analyzeModule maxFunctionSize provider graphs).computedSummaries, n⟩).1 =
          .ok lowered →
        ∀ site ∈ lowered.assertions, lowered.procedure.cfg.Reliable site F.engines.orders)
    (hbug : (F.analyzeModule maxFunctionSize provider graphs).verdict = .notSafe) :
    ∃ g ∈ graphs, ∃ n lowered,
      (F.lower g ⟨(F.analyzeModule maxFunctionSize provider graphs).computedSummaries, n⟩).1 =
        .ok lowered ∧
      ∃ site ∈ lowered.assertions,
        site.Violable .wellTypedUnknownCallees lowered.procedure.cfg := by
  rw [ModuleReport.verdict_eq_notSafe_iff, reports_analyzeModule provider hnodup] at hbug
  obtain ⟨report, hmem, hverdict⟩ := hbug
  obtain ⟨g, hg, hreport⟩ := reportedBy_analyseFunctions.2 report hmem
  obtain ⟨hfailures, result, hresult, model, hmodel⟩ :=
    ProcedureReport.verdict_eq_notSafe_iff.1 hverdict
  obtain ⟨-, n, lowered, table, hlower, hassertions⟩ := hreport.lowered hfailures
  obtain ⟨site, hsite, tables, rfl⟩ := exists_site_of_mem (hassertions ▸ hresult)
  exact ⟨g, hg, n, lowered, hlower, site, hsite,
    (hreliable g hg n lowered hlower site hsite).violable hsound hmodel⟩

end Reports

end Frontend

/-! ### Two functions without calls -/

section Claim

variable {value : Int64} {oracle : Oracle} {tables tables' : ContextualSummaryTable}
  {engines : Engines} {cfg : AbstractCfg} {site : AssertionSite} {j : Judgement}

/-- A run reads the summaries of the callees. -/
theorem runSmash_congr (h : tables.AgreeOn cfg tables') :
    runSmash engines cfg site tables = runSmash engines cfg site tables' := by
  rw [runSmash, runSmash, analyzeWithTables_congr h]

theorem edges_assignCfg : (assignCfg value).edges = [⟨0, 0, 1, .tru, []⟩] := rfl

theorem transferAt_assignCfg_entry :
    (assignCfg value).transferAt 0 = ⟨[.assign (.int "x") (.term (.int value))]⟩ := rfl

theorem transferAt_assignCfg_ret : (assignCfg value).transferAt 1 = .identity := rfl

theorem eq_assign_of_hasEffect {e : TransferEffect} (he : (assignCfg value).HasEffect e) :
    e = .assign (.int "x") (.term (.int value)) := by
  refine AbstractCfg.forall_hasEffect (P := fun e ↦ e = .assign (.int "x") (.term (.int value)))
    (fun node hnode e he ↦ ?_) (fun edge hedge e he ↦ ?_) he
  · have hnodes : node ∈ [⟨0, "entry", .entry, ⟨[.assign (.int "x") (.term (.int value))]⟩⟩,
      (⟨1, "ret", .exit, .identity⟩ : AbstractNode)] := hnode
    rcases List.mem_cons.1 hnodes with rfl | hnodes
    · exact List.mem_singleton.1 he
    · obtain rfl := List.mem_singleton.1 hnodes
      cases he
  · rw [edges_assignCfg] at hedge
    obtain rfl := List.mem_singleton.1 hedge
    cases he

theorem basic_assignCfg : (assignCfg value).Basic where
  node n e he := by
    rw [eq_assign_of_hasEffect (Or.inl ⟨n, he⟩)]
    exact .assign _ _
  edge edge hedge e he := by
    rw [eq_assign_of_hasEffect (Or.inr ⟨edge, hedge, he⟩)]
    exact .assign _ _

theorem ssa_assignCfg : (assignCfg value).Ssa where
  guard e he r := by
    rw [edges_assignCfg] at he
    obtain rfl := List.mem_singleton.1 he
    exact List.not_mem_nil
  path es n hpath := by
    have hsingle := AbstractCfg.edgePath_of_single edges_assignCfg (by decide) hpath
    rcases hsingle with ⟨rfl, rfl⟩ | ⟨rfl, rfl⟩
    · rw [List.flatMap_nil, List.nil_append, transferAt_assignCfg_entry]
      exact ⟨List.pairwise_singleton _ _, by simp [TransferEffect.Reads, TransferEffect.leaves,
        Term.leaves]⟩
    · rw [List.flatMap_singleton, AbstractCfg.crossingEffects, transferAt_assignCfg_entry,
        transferAt_assignCfg_ret]
      exact ⟨by simp [TransferFn.identity, TransferEffect.Assigns],
        by simp [TransferFn.identity, TransferEffect.Reads, TransferEffect.leaves, Term.leaves,
          Formula.leaves]⟩

/-- The verdict on one of the functions is that on its claim. -/
theorem judgement_of_reportedBy {recursive : Finset String} {registry : CallSummaryRegistry}
    {long : Bool} {report : ProcedureReport}
    (hrun : (runSmash (claimFrontend value oracle).engines (assignCfg value) claimSite
      .new).assertion.judgement = j)
    (h : (claimFrontend value oracle).ReportedBy 0 recursive registry long report) :
    report.failures = [] ∧ report.assertions ≠ [] ∧
      ∀ assertion ∈ report.assertions, assertion.judgement = j := by
  obtain ⟨n, table, rfl⟩ := h
  have hlarge : ¬ (claimFrontend value oracle).TooLarge 0 long := fun h ↦ absurd h.1 (by simp)
  rw [Frontend.lowerFunction, if_neg hlarge]
  refine ⟨rfl, List.cons_ne_nil _ _, fun assertion hassertion ↦ ?_⟩
  · obtain ⟨site, hsite, tables, rfl⟩ := exists_site_of_mem hassertion
    obtain rfl := List.mem_singleton.1 hsite
    rw [← hrun]
    exact congrArg (·.assertion.judgement) (runSmash_congr (basic_assignCfg.agreeOn _ _))

/-- The general statement at two functions that assign 1 and claim it. -/
theorem not_violable_assignCfg : ¬ claimSite.Violable .unknownCallees (assignCfg 1) := by
  let oracle : Oracle := .knowing [.fls, .not (.eq (.int 1) (.int 1))] []
  have hsound : oracle.InfeasibleSound := Oracle.infeasibleSound_knowing <| by
    simp [Formula.Holds, Formula.eval, Term.eval, Value.compare]
  have hrun : (runSmash (claimFrontend 1 oracle).engines (assignCfg 1) claimSite
      .new).assertion.judgement = .verified := by decide
  have hsafe : ((claimFrontend 1 oracle).analyzeModule 0 (fun _ ↦ none) [true, false]).verdict =
      .safe := by
    rw [ModuleReport.verdict_eq_safe_iff,
      Frontend.reports_analyzeModule _ namesDiffer_claimFrontend]
    intro report hreport
    obtain ⟨long, -, hreport⟩ := Frontend.reportedBy_analyseFunctions.2 report hreport
    obtain ⟨hfailures, -, hjudgements⟩ := judgement_of_reportedBy hrun hreport
    exact ProcedureReport.verdict_eq_safe_iff.2 ⟨hfailures, hjudgements⟩
  obtain ⟨-, n, lowered, hlower, hsites⟩ := Frontend.not_violable_of_safe namesDiffer_claimFrontend
    hsound hsafe true (by decide)
  obtain rfl := Except.ok.inj hlower
  exact hsites _ List.mem_cons_self (by decide) ssa_assignCfg basic_assignCfg

/-- The transformer is exact on the graph, and an execution meets no type-width facts. -/
theorem precise_assignCfg {site : AssertionSite} : (assignCfg value).Precise site := by
  have hnone {e : TransferEffect} (he : (assignCfg value).HasEffect e)
      (hne : e ≠ .assign (.int "x") (.term (.int value))) : False :=
    hne (eq_assign_of_hasEffect he)
  refine ⟨fun e he s ↦ ?_, fun b p he ↦ (hnone he (by simp)).elim,
    fun regions he ↦ (hnone he (by simp)).elim, fun cs s₀ p s hrun hblock ↦ ?_⟩
  · obtain rfl := eq_assign_of_hasEffect he
    exact ⟨rfl, by decide⟩
  · have htyped {es : List TransferEffect} (hes : ∀ e ∈ es, (assignCfg value).HasEffect e)
        {s s' : State} (h : Effects.Run .unknownCallees es s s') :
        Effects.Run .wellTypedUnknownCallees es s s' := by
      refine Path.mono (fun e he s s' hstep ↦ ?_) h
      obtain rfl := eq_assign_of_hasEffect (hes e he)
      exact hstep
    refine ⟨Path.mono (fun c hc p q hcross ↦ ?_) hrun,
      htyped (fun e he ↦ Or.inl ⟨p.node, he⟩) hblock⟩
    obtain ⟨hvalid, hsource, htarget⟩ := hcross
    exact ⟨⟨hvalid.edge_mem, htyped (fun e he ↦ Or.inl ⟨_, he⟩) hvalid.transfer, hvalid.guard,
      htyped (fun e he ↦ Or.inr ⟨_, hvalid.edge_mem, he⟩) hvalid.effects⟩, hsource, htarget⟩

/-- The general statement at two functions that assign 0 and claim 1. -/
theorem exists_violable_assignCfg :
    claimSite.Violable .wellTypedUnknownCallees (assignCfg 0) := by
  let oracle : Oracle := .knowing [] [.not (.eq (.int 0) (.int 1))]
  have hsound : oracle.FeasibleSound := Oracle.feasibleSound_knowing fun φ hφ ↦ by
    obtain rfl := List.mem_singleton.1 hφ
    exact ⟨.zero, by simp [Formula.Holds, Formula.eval, Term.eval, Value.compare]⟩
  have hrun : (runSmash (claimFrontend 0 oracle).engines (assignCfg 0) claimSite
      .new).assertion.judgement = .bugFound none := by decide
  have hbug : ((claimFrontend 0 oracle).analyzeModule 0 (fun _ ↦ none) [true, false]).verdict =
      .notSafe := by
    rw [ModuleReport.verdict_eq_notSafe_iff,
      Frontend.reports_analyzeModule _ namesDiffer_claimFrontend]
    obtain ⟨report, hmem, hreport⟩ := Frontend.reportedBy_analyseFunctions.1 true List.mem_cons_self
    obtain ⟨hfailures, hne, hjudgements⟩ := judgement_of_reportedBy hrun hreport
    obtain ⟨assertion, hassertion⟩ := List.exists_mem_of_ne_nil _ hne
    exact ⟨report, hmem, ProcedureReport.verdict_eq_notSafe_iff.2
      ⟨hfailures, assertion, hassertion, none, hjudgements assertion hassertion⟩⟩
  obtain ⟨long, -, n, lowered, hlower, site, hsite, hviolable⟩ :=
    Frontend.exists_violable_of_notSafe namesDiffer_claimFrontend hsound
      (fun long _ n lowered hlower site _ ↦ by
        obtain rfl := Except.ok.inj hlower
        exact precise_assignCfg.reliable ssa_assignCfg
          (AbstractCfg.walkable_of_single fun _ ↦ eq_assign_of_hasEffect) (by decide)) hbug
  obtain rfl := Except.ok.inj hlower
  obtain rfl := List.mem_singleton.1 hsite
  exact hviolable

end Claim

end MayMust
