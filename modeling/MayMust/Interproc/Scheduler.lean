import MayMust.Analysis.AnalyzeWithTables
import MayMust.Analysis.Dart.Explore
import MayMust.Interproc.Projection
import MayMust.Interproc.Query

/-!
# The query scheduler

One scheduler serves a module. The driver registers every procedure and enqueues one query for each
of its assertion sites; the scheduler takes the queries in the order they came, has each analysed
with the summaries found so far (`run_smash`), and turns the verdict into a summary of the
procedure. The maps of the source are functions to `Option` here; log messages and debug names are
left out.

What one dispatch changes is said once (`Scheduler.dispatchNext_frame`): it registers nothing, it
only takes entries away, and it adds to the table at most the summary of the query it analyses.
-/

namespace MayMust

open Library

/-! ### One query -/

/-- The direction that gave a verdict. -/
inductive VerdictEngine
  | mayInvariantAnalysis
  | mustDart
  | inconclusive
  deriving DecidableEq

/-- The outcome for one assertion. -/
structure SmashRunResult where
  assertion : AssertionResult
  engine : VerdictEngine

/-- What the two directions are run with: the solver, the search for loop invariants and the orders
of the hash maps of the path explorer. -/
structure Engines where
  oracle : Oracle
  synthesize : AbstractCfg → Synthesizer
  orders : List CfgEdgeId → HashOrder

/-- `empty_unknown_result`. -/
def emptyUnknownResult (site : AssertionSite) : AssertionResult where
  siteId := site.id
  siteLabel := site.location
  judgement := .unknown
  entrySummary := ⟨site.node, .tru, .tru⟩
  assertionSummary := ⟨site.node, .tru, .tru⟩

section Smash

variable (engines : Engines) (cfg : AbstractCfg) (site : AssertionSite)

/-- The forward direction of `run_smash`, with the result to fall back on. -/
def runForwardMust (unknown : AssertionResult) : SmashRunResult :=
  match dartExplore cfg site engines.oracle .default engines.orders with
  | some (_, result) => ⟨result, .mustDart⟩
  | none => ⟨unknown, .inconclusive⟩

/-- `run_smash`. -/
def runSmash (tables : ContextualSummaryTable) : SmashRunResult :=
  match analyzeWithTables (engines.synthesize cfg) cfg engines.oracle site tables with
  | .ok result =>
    match result.judgement with
    | .verified | .bugFound _ => ⟨result, .mayInvariantAnalysis⟩
    | .unknown => runForwardMust engines cfg site result
  | .error .cyclicCfgUnsupported => runForwardMust engines cfg site (emptyUnknownResult site)
  | .error _ => ⟨emptyUnknownResult site, .inconclusive⟩

end Smash

/-- `create_notmay_summary`. -/
def createNotmaySummary (query : Query) (interface : ProcedureInterface) :
    Option NotMaySummary := do
  let pre ← projectToInterface interface query.pre
  let post ← projectToInterface interface query.post
  return ⟨pre, post⟩

/-- `create_must_summary`. -/
def createMustSummary (concreteEntry concretePost : Formula) (interface : ProcedureInterface) :
    Option ContextualMustSummary := do
  let pre ← projectToInterface interface concreteEntry
  let post ← projectToInterface interface concretePost
  return ⟨pre, post⟩

/-- Append the entries of another list that are missing. -/
def addMissing {α : Type} [DecidableEq α] (entries others : List α) : List α :=
  others.foldl (fun entries other ↦ if other ∈ entries then entries else entries ++ [other]) entries

/-- `ContextualSummaryTable::extend_from`. -/
def ContextualSummaryTable.extendFrom (table other : ContextualSummaryTable) :
    ContextualSummaryTable where
  notmay procedure := addMissing (table.notmay procedure) (other.notmay procedure)
  must procedure := addMissing (table.must procedure) (other.must procedure)
  forwardMay procedure := addMissing (table.forwardMay procedure) (other.forwardMay procedure)

/-- `Scheduler::create_and_merge_summary`, which changes nothing but the table. An error of the
solver during a merge is only logged. -/
def ContextualSummaryTable.createAndMergeSummary (table : ContextualSummaryTable) (query : Query)
    (assertion : AssertionResult) (interface : ProcedureInterface) (oracle : Oracle) :
    ContextualSummaryTable :=
  match assertion.judgement with
  | .verified =>
    match createNotmaySummary query interface with
    | some summary => (table.mergeNotmay oracle interface.procedure summary).1
    | none => table
  | .bugFound _ =>
    match createMustSummary assertion.entrySummary.state assertion.assertionSummary.state
        interface with
    | some summary => (table.mergeMust oracle interface.procedure summary).1
    | none => table
  | .unknown => table

/-! ### The scheduler -/

/-- The identifier of a query. -/
abbrev QueryId := ℕ

/-- What is needed to dispatch queries against a procedure. -/
structure ProcedureContext where
  cfg : AbstractCfg
  assertions : List AssertionSite
  interface : ProcedureInterface

/-- The site that a query was made for. -/
structure AssertionProvenance where
  site : AssertionSite

/-- A query that waits. -/
structure PendingEntry where
  id : QueryId
  query : Query
  provenance : Option AssertionProvenance

/-- The outcome of a dispatch. -/
inductive DispatchOutcome
  | completed (run : SmashRunResult)
  | unprovenanced

/-- What a query in progress stands for while it has no result. -/
inductive PlaceholderKind
  | notMayOptimistic
  | mustOptimistic
  deriving DecidableEq

/-- A query that is being dispatched. -/
structure InProgressQuery where
  id : QueryId
  query : Query
  dependents : List QueryId
  placeholder : PlaceholderKind
  deriving DecidableEq

/-- The scheduler of a module. -/
structure Scheduler where
  pending : List QueryId
  inProgress : QueryId → Option PendingEntry
  completed : QueryId → Option DispatchOutcome
  initialTables : ContextualSummaryTable
  table : ContextualSummaryTable
  procedures : String → Option ProcedureContext
  nextId : ℕ
  active : QueryId → Option InProgressQuery

namespace Scheduler

/-- `Scheduler::with_initial_tables`. -/
def withInitialTables (initialTables : ContextualSummaryTable) : Scheduler where
  pending := []
  inProgress := fun _ ↦ none
  completed := fun _ ↦ none
  initialTables := initialTables
  table := .new
  procedures := fun _ ↦ none
  nextId := 0
  active := fun _ ↦ none

variable (sched : Scheduler)

/-- `Scheduler::legacy_tables_for_dispatch`. -/
def legacyTablesForDispatch : ContextualSummaryTable := sched.initialTables.extendFrom sched.table

/-- `Scheduler::register_procedure`. -/
def registerProcedure (ctx : ProcedureContext) : Scheduler :=
  { sched with procedures := Function.update sched.procedures ctx.interface.procedure (some ctx) }

/-- `Scheduler::enqueue`: the scheduler afterwards, and the identifier of the query. -/
def enqueue (query : Query) (provenance : Option AssertionProvenance) : Scheduler × QueryId :=
  ({ sched with
      nextId := sched.nextId + 1
      inProgress :=
        Function.update sched.inProgress sched.nextId (some ⟨sched.nextId, query, provenance⟩)
      pending := sched.pending ++ [sched.nextId] }, sched.nextId)

/-- The scheduler once an entry has been taken from the queue and is active. -/
def activate (id : QueryId) (rest : List QueryId) (entry : PendingEntry) : Scheduler :=
  { sched with
    pending := rest
    inProgress := Function.update sched.inProgress id none
    active := Function.update sched.active id (some ⟨id, entry.query, [], .notMayOptimistic⟩) }

/-- The scheduler once a query is complete. -/
def complete (id : QueryId) (outcome : DispatchOutcome) : Scheduler :=
  { sched with completed := Function.update sched.completed id (some outcome) }

/-- The scheduler once a query is no longer active. -/
def deactivate (id : QueryId) : Scheduler :=
  { sched with active := Function.update sched.active id none }

/-- The part of `Scheduler::dispatch_next` between the two changes of the map of active queries. -/
def analyseEntry (engines : Engines) (entry : PendingEntry) (ctx : ProcedureContext) :
    Scheduler × DispatchOutcome :=
  match entry.provenance with
  | some provenance =>
    let run := runSmash engines ctx.cfg provenance.site sched.legacyTablesForDispatch
    ({ sched with
        table := sched.table.createAndMergeSummary entry.query run.assertion ctx.interface
          engines.oracle }, .completed run)
  | none => (sched, .unprovenanced)

/-- `Scheduler::dispatch_next`. A query for a procedure that is not registered stays active. -/
def dispatchNext (engines : Engines) : Scheduler × Option DispatchOutcome :=
  match sched.pending with
  | [] => (sched, none)
  | id :: rest =>
    match sched.inProgress id with
    | none => ({ sched with pending := rest }, none)
    | some entry =>
      match sched.procedures entry.query.procedure with
      | none => ((sched.activate id rest entry).complete id .unprovenanced, some .unprovenanced)
      | some ctx =>
        match (sched.activate id rest entry).analyseEntry engines entry ctx with
        | (analysed, outcome) => ((analysed.deactivate id).complete id outcome, some outcome)

end Scheduler

/-- The operations of the scheduler. -/
inductive SchedulerOp
  | registerProcedure (ctx : ProcedureContext)
  | enqueue (query : Query) (provenance : Option AssertionProvenance)
  | dispatchNext (engines : Engines)

/-- The scheduler after an operation. -/
def SchedulerOp.apply (sched : Scheduler) : SchedulerOp → Scheduler
  | registerProcedure ctx => sched.registerProcedure ctx
  | enqueue query provenance => (sched.enqueue query provenance).1
  | dispatchNext engines => (sched.dispatchNext engines).1

/-! ### What a dispatch changes -/

/-- A summary in the table after a verdict is an old one or the summary of a verified query. -/
theorem ContextualSummaryTable.mem_notmay_createAndMergeSummary {table : ContextualSummaryTable}
    {query : Query} {assertion : AssertionResult} {interface : ProcedureInterface} {oracle : Oracle}
    {procedure : String} {summary : NotMaySummary}
    (h :
      summary ∈ (table.createAndMergeSummary query assertion interface oracle).notmay procedure) :
    summary ∈ table.notmay procedure ∨ assertion.judgement = .verified ∧
      procedure = interface.procedure ∧ createNotmaySummary query interface = some summary := by
  rw [createAndMergeSummary] at h
  split at h
  · rename_i hverified
    split at h
    · rename_i created hcreated
      rw [mergeNotmay] at h
      dsimp only at h
      by_cases hname : procedure = interface.procedure
      · subst hname
        rw [Function.update_self] at h
        rcases mem_mergeEntry h with h | rfl
        · exact Or.inl h
        · exact Or.inr ⟨hverified, rfl, hcreated⟩
      · rw [Function.update_of_ne hname] at h
        exact Or.inl h
    · exact Or.inl h
  · split at h <;> exact Or.inl h
  · exact Or.inl h

namespace Scheduler

variable {sched : Scheduler} {engines : Engines} {ctx : ProcedureContext} {query : Query}
  {site : AssertionSite}

/-- The next dispatch has the query analysed at the site. -/
def Dispatches (sched : Scheduler) (ctx : ProcedureContext) (query : Query)
    (site : AssertionSite) : Prop :=
  ∃ id rest entry, sched.pending = id :: rest ∧ sched.inProgress id = some entry ∧
    entry.query = query ∧ entry.provenance = some ⟨site⟩ ∧
    sched.procedures query.procedure = some ctx

/-- The verdict of the next dispatch on the site. -/
def verdictOn (sched : Scheduler) (engines : Engines) (ctx : ProcedureContext)
    (site : AssertionSite) : AssertionResult :=
  (runSmash engines ctx.cfg site sched.legacyTablesForDispatch).assertion

/-- The table after the next dispatch, if it has the query analysed at the site. -/
def tableAfter (sched : Scheduler) (engines : Engines) (ctx : ProcedureContext) (query : Query)
    (site : AssertionSite) : ContextualSummaryTable :=
  sched.table.createAndMergeSummary query (sched.verdictOn engines ctx site) ctx.interface
    engines.oracle

/-- What a dispatch leaves alone, and what it can do to the table. -/
theorem dispatchNext_frame (sched : Scheduler) (engines : Engines) :
    (sched.dispatchNext engines).1.procedures = sched.procedures ∧
      (∀ id entry, (sched.dispatchNext engines).1.inProgress id = some entry →
        sched.inProgress id = some entry) ∧
      ((sched.dispatchNext engines).1.table = sched.table ∨
        ∃ ctx query site, sched.Dispatches ctx query site ∧
          (sched.dispatchNext engines).1.table = sched.tableAfter engines ctx query site) := by
  have htaken (id id' : QueryId) (entry : PendingEntry)
      (h : Function.update sched.inProgress id none id' = some entry) :
      sched.inProgress id' = some entry := by
    by_cases heq : id' = id
    · rw [heq, Function.update_self] at h
      cases h
    · rwa [Function.update_of_ne heq] at h
  cases hpending : sched.pending with
  | nil =>
    rw [dispatchNext, hpending]
    exact ⟨rfl, fun _ _ h ↦ h, Or.inl rfl⟩
  | cons id rest =>
    cases hentry : sched.inProgress id with
    | none =>
      simp only [dispatchNext, hpending, hentry]
      exact ⟨trivial, fun _ _ h ↦ h, Or.inl trivial⟩
    | some entry =>
      cases hctx : sched.procedures entry.query.procedure with
      | none =>
        simp only [dispatchNext, hpending, hentry, hctx]
        exact ⟨rfl, htaken id, Or.inl rfl⟩
      | some ctx =>
        cases hprovenance : entry.provenance with
        | none =>
          simp only [dispatchNext, hpending, hentry, hctx, analyseEntry, hprovenance]
          exact ⟨rfl, htaken id, Or.inl rfl⟩
        | some provenance =>
          simp only [dispatchNext, hpending, hentry, hctx, analyseEntry, hprovenance]
          refine ⟨rfl, htaken id, Or.inr ⟨ctx, entry.query, provenance.site, ?_, rfl⟩⟩
          exact ⟨id, rest, entry, hpending, hentry, rfl, hprovenance, hctx⟩

end Scheduler

end MayMust
