import MayMust.Interproc.Ledger
import MayMust.Interproc.RecordedSummaries
import MayMust.Interproc.SummaryRounds

/-!
# The driver

`analyze_module_with_provider` of the source. It infers the return summaries of a module, goes
through the functions once to register them and to enqueue a query for each of their assertions,
drains the scheduler, and goes through the functions again to put together the reports from the
results that the scheduler keeps.

That this is one analysis after the other is not visible: the results of a function are found again
by the numbers of its queries, which are kept under the name of the function, and every query is
analysed with the summaries of all queries before it. It is so for a module whose functions have
different names (`analyzeModule_eq`): the reports are those of going through the functions in order
and analysing their assertions in order (`analyseFunctions`), with a table of summaries that is
handed on from one assertion to the next.

The maps of the source are functions to `Option`. Log messages, debug names and the table of
virtual functions are left out; the lowering is a parameter.
-/

namespace MayMust

open Library Relation

/-! ### The source -/

/-- `ProcedureReport`. -/
structure ProcedureReport where
  procedure : String
  assertions : List AssertionResult
  failures : List String
  loopCount : ℕ
  instructionCount : ℕ
  recursive : Bool

/-- `ModuleReport`. -/
structure ModuleReport where
  reports : List ProcedureReport
  summaries : ContextualSummaryTable
  computedSummaries : String → Option ReturnSummary

/-- What a function is registered with. -/
def LoweredFunction.context (lowered : LoweredFunction) : ProcedureContext where
  cfg := lowered.procedure.cfg
  assertions := lowered.assertions
  interface := ⟨lowered.procedure.name, lowered.formalParameters⟩

/-- `collect_callee_names`. -/
def collectCalleeNames (graphs : List Purity.FunctionGraph) : Finset String :=
  ((graphs.flatMap fun g ↦ g.vertices.filterMap (·.getCalledFunction)).filter fun callee ↦
    callee ≠ "may_assert" ∧ callee ≠ "may_assume").toFinset

/-- The summaries that the provider has for functions without a body. -/
def providedSummaries (provider : String → Option ReturnSummary)
    (graphs : List Purity.FunctionGraph) : CallSummaryRegistry :=
  (Purity.inOrder (collectCalleeNames graphs)).foldl (fun registry callee ↦
    if callee ∈ Purity.functionNames graphs then registry
    else
      match provider callee with
      | some summary => registry.insert summary
      | none => registry) ⟨fun _ ↦ none, 0⟩

/-- The table that the scheduler starts with: every return summary is a forward summary, and its
negation is never reached. -/
def CallSummaryRegistry.tables (registry : CallSummaryRegistry) : ContextualSummaryTable where
  notmay name := (registry.summaries name).toList.map fun summary ↦ ⟨.tru, .not summary.relation⟩
  must _ := []
  forwardMay name := (registry.summaries name).toList.map fun summary ↦ ⟨.tru, summary.relation⟩

/-- The failure of a function that is too large. -/
def tooLarge (size limit : ℕ) : String :=
  "function too large (" ++ toString size ++ " instructions > limit " ++ toString limit ++
    "): skipped"

/-- What the driver keeps while it goes through the functions. -/
structure DriverState where
  sched : Scheduler
  /-- The counter of the call sites. -/
  nextCallSite : ℕ
  queryIds : String → Option (List QueryId)
  failures : String → Option (List String)
  loopCounts : String → Option ℕ

/-- The queries of a function are enqueued. -/
def Scheduler.enqueueSites (ctx : ProcedureContext) :
    List AssertionSite → Scheduler → Scheduler × List QueryId
  | [], sched => (sched, [])
  | site :: sites, sched =>
    let enqueued := sched.enqueue (assertionQuery ctx site) (some ⟨site⟩)
    let rest := enqueueSites ctx sites enqueued.1
    (rest.1, enqueued.2 :: rest.2)

/-- A failure is added under a name. -/
def DriverState.fail (st : DriverState) (name message : String) : DriverState :=
  { st with
    failures := Function.update st.failures name (some ((st.failures name).getD [] ++ [message])) }

/-- A lowered function is registered and its queries are enqueued. -/
def DriverState.register (st : DriverState) (ctx : ProcedureContext) : DriverState :=
  let (sched, ids) := Scheduler.enqueueSites ctx ctx.assertions (st.sched.registerProcedure ctx)
  { st with
    sched
    queryIds := Function.update st.queryIds ctx.interface.procedure (some ids)
    loopCounts := Function.update st.loopCounts ctx.interface.procedure
      (some ctx.cfg.detectBackEdges.length) }

/-- What `get_completed` of the scheduler holds for the queries, as far as they have been analysed.
-/
def Scheduler.results (sched : Scheduler) (ids : List QueryId) : List AssertionResult :=
  ids.filterMap fun id ↦
    match sched.completed id with
    | some (.completed run) => some run.assertion
    | _ => none

namespace Frontend

variable {G : Type} (F : Frontend G) (maxFunctionSize : ℕ) (recursive : Finset String)

/-- The number of its instructions. -/
def size (g : G) : ℕ := (F.calls g).vertices.length

/-- The size guard. -/
def TooLarge (g : G) : Prop := 0 < maxFunctionSize ∧ maxFunctionSize < F.size g
  deriving Decidable

/-- The body of the loop that registers the functions. -/
def addFunction (summaries : String → Option ReturnSummary) (st : DriverState) (g : G) :
    DriverState :=
  if F.TooLarge maxFunctionSize g then st.fail (F.name g) (tooLarge (F.size g) maxFunctionSize)
  else
    match F.lower g ⟨summaries, st.nextCallSite⟩ with
    | (.error message, n) => { st.fail (F.name g) message with nextCallSite := n }
    | (.ok lowered, n) => { st.register lowered.context with nextCallSite := n }

/-- The report about a function that was not analysed. -/
def failureReport (g : G) (failures : List String) : ProcedureReport where
  procedure := F.name g
  assertions := []
  failures := failures
  loopCount := 0
  instructionCount := F.size g
  recursive := F.name g ∈ recursive

/-- The report about a function that was analysed. -/
def analysisReport (g : G) (assertions : List AssertionResult) (loopCount : ℕ) :
    ProcedureReport where
  procedure := F.name g
  assertions := assertions
  failures := []
  loopCount := loopCount
  instructionCount := F.size g
  recursive := F.name g ∈ recursive

/-- The loop that puts the reports together. -/
def reportsFrom (sched : Scheduler) (st : DriverState) : List G → List ProcedureReport
  | [] => []
  | g :: graphs =>
    match st.failures (F.name g) with
    | some failures =>
      F.failureReport recursive g failures ::
        reportsFrom sched { st with failures := Function.update st.failures (F.name g) none } graphs
    | none =>
      F.analysisReport recursive g (sched.results ((st.queryIds (F.name g)).getD []))
        ((st.loopCounts (F.name g)).getD 0) :: reportsFrom sched st graphs

/-- The state before the first function. -/
def initialState (registry : CallSummaryRegistry) : DriverState where
  sched := .withInitialTables registry.tables
  nextCallSite := registry.nextCallSite
  queryIds _ := none
  failures _ := none
  loopCounts _ := none

/-- `analyze_module_with_provider`. -/
def analyzeModule (provider : String → Option ReturnSummary) (graphs : List G) : ModuleReport :=
  let registry := F.inferSummaries graphs (providedSummaries provider (graphs.map F.calls))
  let st := graphs.foldl (F.addFunction maxFunctionSize registry.summaries) (initialState registry)
  let sched := (st.sched.drain F.engines).1
  { reports := F.reportsFrom (Purity.recursiveFunctions (graphs.map F.calls)) sched st graphs
    summaries := registry.tables.extendFrom sched.table
    computedSummaries := registry.summaries }

end Frontend

/-! ### One function after the other -/

/-- The assertions of a procedure, one after the other. -/
def analyseSites (engines : Engines) (tables : ContextualSummaryTable) (ctx : ProcedureContext) :
    List AssertionSite → ContextualSummaryTable → List AssertionResult × ContextualSummaryTable
  | [], table => ([], table)
  | site :: sites, table =>
    let result := (runSmash engines ctx.cfg site (tables.extendFrom table)).assertion
    let rest := analyseSites engines tables ctx sites
      (table.createAndMergeSummary (assertionQuery ctx site) result ctx.interface engines.oracle)
    (result :: rest.1, rest.2)

namespace Frontend

variable {G : Type} (F : Frontend G) (maxFunctionSize : ℕ) (recursive : Finset String)

/-- A function is lowered, unless it is too large. -/
def lowerFunction (g : G) (registry : CallSummaryRegistry) : Except String LoweredFunction × ℕ :=
  if F.TooLarge maxFunctionSize g then
    (.error (tooLarge (F.size g) maxFunctionSize), registry.nextCallSite)
  else F.lower g registry

/-- The functions of a module, one after the other. The tables are those of the return summaries;
the other table is handed on. -/
def analyseFunctions (registry : CallSummaryRegistry) :
    List G → ℕ → ContextualSummaryTable → List ProcedureReport × ContextualSummaryTable
  | [], _, table => ([], table)
  | g :: graphs, n, table =>
    match F.lowerFunction maxFunctionSize g ⟨registry.summaries, n⟩ with
    | (.error message, n) =>
      let rest := analyseFunctions registry graphs n table
      (F.failureReport recursive g [message] :: rest.1, rest.2)
    | (.ok lowered, n) =>
      let results := analyseSites F.engines registry.tables lowered.context lowered.assertions table
      let rest := analyseFunctions registry graphs n results.2
      (F.analysisReport recursive g results.1 lowered.procedure.cfg.detectBackEdges.length ::
        rest.1, rest.2)

end Frontend

/-! ### The queue -/

/-- An assertion that waits. -/
structure Job where
  ctx : ProcedureContext
  site : AssertionSite

/-- The assertions of a procedure. -/
def ProcedureContext.jobs (ctx : ProcedureContext) : List Job := ctx.assertions.map (⟨ctx, ·⟩)

/-- The assertions that wait, one after the other. -/
def runJobs (engines : Engines) (tables : ContextualSummaryTable) :
    List Job → ContextualSummaryTable → List SmashRunResult × ContextualSummaryTable
  | [], table => ([], table)
  | job :: jobs, table =>
    let run := runSmash engines job.ctx.cfg job.site (tables.extendFrom table)
    let rest := runJobs engines tables jobs
      (table.createAndMergeSummary (assertionQuery job.ctx job.site) run.assertion
        job.ctx.interface engines.oracle)
    (run :: rest.1, rest.2)

/-- The queue of the scheduler is the list of the assertions, numbered from the first one on. -/
structure Scheduler.Loaded (sched : Scheduler) (first : ℕ) (jobs : List Job) : Prop where
  nextId_eq : sched.nextId = first + jobs.length
  pending_eq : sched.pending = List.range' first jobs.length
  inProgress_eq : ∀ k job, jobs[k]? = some job → sched.inProgress (first + k) =
    some ⟨first + k, assertionQuery job.ctx job.site, some ⟨job.site⟩⟩
  procedures_eq : ∀ job ∈ jobs, sched.procedures job.ctx.interface.procedure = some job.ctx

section Queue

variable {engines : Engines} {tables table : ContextualSummaryTable} {jobs jobs' : List Job}
  {job : Job} {sched : Scheduler} {first : ℕ} {ctx : ProcedureContext} {site : AssertionSite}
  {sites : List AssertionSite} {ids : List QueryId}

theorem runJobs_append : runJobs engines tables (jobs ++ jobs') table =
    ((runJobs engines tables jobs table).1 ++
        (runJobs engines tables jobs' (runJobs engines tables jobs table).2).1,
      (runJobs engines tables jobs' (runJobs engines tables jobs table).2).2) := by
  induction jobs generalizing table with
  | nil => rfl
  | cons job jobs ih => rw [List.cons_append, runJobs, ih]; rfl

theorem length_runJobs : (runJobs engines tables jobs table).1.length = jobs.length := by
  induction jobs generalizing table with
  | nil => rfl
  | cons job jobs ih => exact congrArg (· + 1) ih

theorem analyseSites_eq : analyseSites engines tables ctx sites table =
    ((runJobs engines tables (sites.map (⟨ctx, ·⟩)) table).1.map (·.assertion),
      (runJobs engines tables (sites.map (⟨ctx, ·⟩)) table).2) := by
  induction sites generalizing table with
  | nil => rfl
  | cons site sites ih => rw [analyseSites, ih]; rfl

namespace Scheduler.Loaded

theorem enqueue (h : sched.Loaded first jobs)
    (hctx : sched.procedures ctx.interface.procedure = some ctx) :
    (sched.enqueue (assertionQuery ctx site) (some ⟨site⟩)).1.Loaded first
      (jobs ++ [⟨ctx, site⟩]) where
  nextId_eq := by
    show sched.nextId + 1 = _
    rw [h.nextId_eq, List.length_append, List.length_singleton, Nat.add_assoc]
  pending_eq := by
    show sched.pending ++ [sched.nextId] = _
    rw [h.pending_eq, h.nextId_eq, List.length_append, List.length_singleton, List.range'_concat,
      Nat.one_mul]
  inProgress_eq k job hk := by
    show Function.update sched.inProgress sched.nextId _ (first + k) = _
    rcases Nat.lt_trichotomy k jobs.length with hlt | rfl | hgt
    · have hne : first + k ≠ sched.nextId := by
        rw [h.nextId_eq]
        exact fun heq ↦ hlt.ne (Nat.add_left_cancel heq)
      rw [List.getElem?_append_left hlt] at hk
      rw [Function.update_of_ne hne, h.inProgress_eq k job hk]
    · rw [List.getElem?_concat_length, Option.some.injEq] at hk
      rw [← h.nextId_eq, Function.update_self, ← hk]
    · rw [List.getElem?_eq_none (by simpa using Nat.succ_le_of_lt hgt)] at hk
      cases hk
  procedures_eq job hjob := by
    rcases List.mem_append.1 hjob with hjob | hjob
    · exact h.procedures_eq job hjob
    · obtain rfl := List.mem_singleton.1 hjob
      exact hctx

theorem registerProcedure (h : sched.Loaded first jobs) (ctx : ProcedureContext)
    (hnew : ∀ job ∈ jobs, job.ctx.interface.procedure ≠ ctx.interface.procedure) :
    (sched.registerProcedure ctx).Loaded first jobs where
  nextId_eq := h.nextId_eq
  pending_eq := h.pending_eq
  inProgress_eq := h.inProgress_eq
  procedures_eq job hjob := by
    show Function.update sched.procedures _ _ _ = _
    rw [Function.update_of_ne (hnew job hjob), h.procedures_eq job hjob]

/-- The queries of a function get the next numbers. -/
theorem enqueueSites (h : sched.Loaded first jobs) (sites : List AssertionSite)
    (hctx : sched.procedures ctx.interface.procedure = some ctx) :
    (Scheduler.enqueueSites ctx sites sched).1.Loaded first (jobs ++ sites.map (⟨ctx, ·⟩)) ∧
      (Scheduler.enqueueSites ctx sites sched).2 =
        List.range' (first + jobs.length) sites.length ∧
      (Scheduler.enqueueSites ctx sites sched).1.initialTables = sched.initialTables ∧
      (Scheduler.enqueueSites ctx sites sched).1.table = sched.table := by
  induction sites generalizing sched jobs with
  | nil =>
    rw [List.map_nil, List.append_nil]
    exact ⟨h, rfl, rfl, rfl⟩
  | cons site sites ih =>
    obtain ⟨hloaded, hids, htables⟩ := ih (Loaded.enqueue h hctx) hctx
    rw [List.append_assoc, List.singleton_append] at hloaded
    refine ⟨hloaded, ?_, htables⟩
    show sched.nextId :: _ = _
    rw [hids, h.nextId_eq, List.length_append, List.length_singleton, List.length_cons,
      List.range'_succ, Nat.add_assoc]

/-- A dispatch analyses the first assertion. -/
theorem dispatchNext (h : sched.Loaded first (job :: jobs)) (engines : Engines) :
    ∃ next, sched.dispatchNext engines = (next, some (.completed
        (runSmash engines job.ctx.cfg job.site sched.legacyTablesForDispatch))) ∧
      next.Loaded (first + 1) jobs ∧ next.initialTables = sched.initialTables ∧
      next.table = sched.table.createAndMergeSummary (assertionQuery job.ctx job.site)
        (runSmash engines job.ctx.cfg job.site sched.legacyTablesForDispatch).assertion
        job.ctx.interface engines.oracle ∧
      next.completed = Function.update sched.completed first (some (.completed
        (runSmash engines job.ctx.cfg job.site sched.legacyTablesForDispatch))) := by
  have hpending : sched.pending = first :: List.range' (first + 1) jobs.length := by
    rw [h.pending_eq, List.length_cons, List.range'_succ]
  have hentry := h.inProgress_eq 0 job rfl
  have hctx : sched.procedures (assertionQuery job.ctx job.site).procedure = some job.ctx :=
    h.procedures_eq job List.mem_cons_self
  rw [Nat.add_zero] at hentry
  simp only [Scheduler.dispatchNext, hpending, hentry, hctx]
  refine ⟨_, rfl, ⟨?_, rfl, fun k job' hk ↦ ?_, fun job' hjob ↦ ?_⟩, rfl, rfl, rfl⟩
  · show sched.nextId = _
    rw [h.nextId_eq, List.length_cons]
    omega
  · show Function.update sched.inProgress first none (first + 1 + k) = _
    have hne : first + 1 + k ≠ first := (Nat.lt_of_lt_of_le (Nat.lt_succ_self first)
      (Nat.le_add_right _ k)).ne'
    rw [Function.update_of_ne hne, Nat.add_assoc, Nat.add_comm 1 k]
    exact h.inProgress_eq (k + 1) job' hk
  · exact h.procedures_eq job' (List.mem_cons_of_mem job hjob)

/-- Draining analyses the assertions one after the other. -/
theorem drain (h : sched.Loaded first jobs) (engines : Engines) :
    (sched.drain engines).1.table =
        (runJobs engines sched.initialTables jobs sched.table).2 ∧
      (∀ k run, (runJobs engines sched.initialTables jobs sched.table).1[k]? = some run →
        (sched.drain engines).1.completed (first + k) = some (.completed run)) ∧
      ∀ id < first, (sched.drain engines).1.completed id = sched.completed id := by
  induction jobs generalizing sched first with
  | nil =>
    rw [drain_of_nil h.pending_eq]
    exact ⟨rfl, fun k run hk ↦ (List.not_mem_nil (List.mem_of_getElem? hk)).elim, fun _ _ ↦ rfl⟩
  | cons job jobs ih =>
    obtain ⟨next, hnext, hloaded, hinitial, htable, hcompleted⟩ := h.dispatchNext engines
    obtain ⟨hrest, hruns, hkept⟩ := ih hloaded
    rw [hinitial, htable] at hrest hruns
    rw [drain_of_dispatchNext hnext]
    refine ⟨hrest, fun k run' hk ↦ ?_, fun id hid ↦ ?_⟩
    · cases k with
      | zero =>
        rw [Nat.add_zero, hkept first (Nat.lt_succ_self first), hcompleted, Function.update_self]
        exact congrArg (fun run ↦ some (DispatchOutcome.completed run)) (Option.some.inj hk)
      | succ k =>
        show (next.drain engines).1.completed (first + (k + 1)) = _
        rw [← Nat.add_assoc, Nat.add_right_comm]
        exact hruns k run' hk
    · rw [hkept id (Nat.lt_succ_of_lt hid), hcompleted, Function.update_of_ne (Nat.ne_of_lt hid)]

end Scheduler.Loaded

end Queue

/-! ### The two loops -/

/-- What the driver has filed under a name. -/
def DriverState.filedAt (st : DriverState) (name : String) :
    Option (List String) × Option (List QueryId) × Option ℕ :=
  (st.failures name, st.queryIds name, st.loopCounts name)

namespace Frontend

variable {G : Type} (F : Frontend G) (maxFunctionSize : ℕ) (recursive : Finset String)

/-- The functions with what they are registered with, or the reason why they are not. -/
def contexts (registry : CallSummaryRegistry) :
    List G → ℕ → List (G × Except String ProcedureContext)
  | [], _ => []
  | g :: graphs, n =>
    let lowered := F.lowerFunction maxFunctionSize g ⟨registry.summaries, n⟩
    (g, lowered.1.map (·.context)) :: contexts registry graphs lowered.2

/-- The assertions of a function. -/
def entryJobs : G × Except String ProcedureContext → List Job
  | (_, .error _) => []
  | (_, .ok ctx) => ctx.jobs

/-- The driver has filed a function whose queries have the numbers from the given one on. -/
def Filed (st : DriverState) (first : ℕ) : G × Except String ProcedureContext → Prop
  | (g, .error message) => st.failures (F.name g) = some [message]
  | (g, .ok ctx) => st.failures (F.name g) = none ∧
    st.queryIds (F.name g) = some (List.range' first ctx.assertions.length) ∧
    st.loopCounts (F.name g) = some ctx.cfg.detectBackEdges.length

/-- The driver has filed functions. -/
def FiledFrom (st : DriverState) : ℕ → List (G × Except String ProcedureContext) → Prop
  | _, [] => True
  | first, e :: entries =>
    F.Filed st first e ∧ FiledFrom st (first + (entryJobs e).length) entries

/-- The loop over some functions has enqueued their assertions and filed them, and has changed
nothing else. -/
structure Added (st st' : DriverState) (jobs : List Job)
    (entries : List (G × Except String ProcedureContext)) : Prop where
  loaded : st'.sched.Loaded 0 (jobs ++ entries.flatMap entryJobs)
  initialTables_eq : st'.sched.initialTables = st.sched.initialTables
  table_eq : st'.sched.table = st.sched.table
  filed : F.FiledFrom st' jobs.length entries
  kept : ∀ name, (∀ e ∈ entries, F.name e.1 ≠ name) → st'.filedAt name = st.filedAt name

/-- The reports, given the results of all assertions in order. -/
def reportsAt : List SmashRunResult → List (G × Except String ProcedureContext) →
    List ProcedureReport
  | _, [] => []
  | runs, (g, .error message) :: entries =>
    F.failureReport recursive g [message] :: reportsAt runs entries
  | runs, (g, .ok ctx) :: entries =>
    F.analysisReport recursive g ((runs.take ctx.assertions.length).map (·.assertion))
        ctx.cfg.detectBackEdges.length ::
      reportsAt (runs.drop ctx.assertions.length) entries

section Loops

variable {F maxFunctionSize recursive} {st st' st'' : DriverState} {jobs : List Job} {n first : ℕ}
  {graphs : List G} {g : G} {e : G × Except String ProcedureContext}
  {entries : List (G × Except String ProcedureContext)} {registry : CallSummaryRegistry}
  {sched : Scheduler} {runs : List SmashRunResult} {table : ContextualSummaryTable}

theorem mem_of_mem_contexts (h : e ∈ F.contexts maxFunctionSize registry graphs n) :
    e.1 ∈ graphs := by
  induction graphs generalizing n with
  | nil => cases h
  | cons g graphs ih =>
    rcases List.mem_cons.1 h with rfl | h
    · exact List.mem_cons_self
    · exact List.mem_cons_of_mem g (ih h)

/-- A function is registered under its name. -/
theorem procedure_of_mem_entryJobs {job : Job}
    (h : job ∈ entryJobs (g, (F.lowerFunction maxFunctionSize g registry).1.map (·.context))) :
    job.ctx.interface.procedure = F.name g := by
  cases hlower : (F.lowerFunction maxFunctionSize g registry).1 with
  | error message =>
    rw [hlower] at h
    cases h
  | ok lowered =>
    rw [hlower] at h
    obtain ⟨site, -, rfl⟩ := List.mem_map.1 h
    rw [lowerFunction] at hlower
    split_ifs at hlower
    exact F.name_lower g registry lowered hlower

theorem Filed.congr (h : F.Filed st first e)
    (hkept : st'.filedAt (F.name e.1) = st.filedAt (F.name e.1)) : F.Filed st' first e := by
  obtain ⟨g, result⟩ := e
  obtain ⟨hfailures, hrest⟩ := Prod.mk.inj hkept
  obtain ⟨hids, hloops⟩ := Prod.mk.inj hrest
  cases result with
  | error message => exact hfailures.trans h
  | ok ctx => exact ⟨hfailures.trans h.1, hids.trans h.2.1, hloops.trans h.2.2⟩

theorem FiledFrom.congr (h : F.FiledFrom st first entries)
    (hkept : ∀ e ∈ entries, st'.filedAt (F.name e.1) = st.filedAt (F.name e.1)) :
    F.FiledFrom st' first entries := by
  induction entries generalizing first with
  | nil => trivial
  | cons e entries ih =>
    rw [List.forall_mem_cons] at hkept
    exact ⟨Filed.congr h.1 hkept.1, ih h.2 hkept.2⟩

theorem Added.nil (h : st.sched.Loaded 0 jobs) : F.Added st st jobs [] where
  loaded := by rwa [List.flatMap_nil, List.append_nil]
  initialTables_eq := rfl
  table_eq := rfl
  filed := trivial
  kept _ _ := rfl

/-- Functions with other names are added after a function. -/
theorem Added.cons (h : F.Added st st' jobs [e])
    (h' : F.Added st' st'' (jobs ++ entryJobs e) entries)
    (hnew : ∀ e' ∈ entries, F.name e'.1 ≠ F.name e.1) : F.Added st st'' jobs (e :: entries) where
  loaded := by
    rw [List.flatMap_cons, ← List.append_assoc]
    exact h'.loaded
  initialTables_eq := h'.initialTables_eq.trans h.initialTables_eq
  table_eq := h'.table_eq.trans h.table_eq
  filed := by
    refine ⟨Filed.congr h.filed.1 (h'.kept _ hnew), ?_⟩
    rw [← List.length_append]
    exact h'.filed
  kept name hname := by
    rw [List.forall_mem_cons] at hname
    rw [h'.kept name hname.2, h.kept name (by simpa using hname.1)]

/-- A function with a new name is added. -/
theorem Added.addFunction (maxFunctionSize : ℕ) (registry : CallSummaryRegistry)
    (h : st.sched.Loaded 0 jobs)
    (hnew : ∀ job ∈ jobs, job.ctx.interface.procedure ≠ F.name g)
    (hfailures : st.failures (F.name g) = none) :
    F.Added st (F.addFunction maxFunctionSize registry.summaries st g) jobs
        [(g, (F.lowerFunction maxFunctionSize g ⟨registry.summaries, st.nextCallSite⟩).1.map
          (·.context))] ∧
      (F.addFunction maxFunctionSize registry.summaries st g).nextCallSite =
        (F.lowerFunction maxFunctionSize g ⟨registry.summaries, st.nextCallSite⟩).2 := by
  have hfail (message : String) (n : ℕ) :
      F.Added st { st.fail (F.name g) message with nextCallSite := n } jobs
        [(g, .error message)] := by
    refine ⟨?_, rfl, rfl, ⟨?_, trivial⟩, fun name hname ↦ ?_⟩
    · show st.sched.Loaded 0 (jobs ++ [])
      rwa [List.append_nil]
    · show Function.update _ _ _ _ = _
      rw [Function.update_self, hfailures]
      rfl
    · show (Function.update _ _ _ _, _, _) = _
      rw [Function.update_of_ne (by simpa using (hname _ List.mem_cons_self).symm)]
      rfl
  rw [Frontend.addFunction, lowerFunction]
  split_ifs with hlarge
  · exact ⟨hfail _ _, rfl⟩
  · have hname := F.name_lower g ⟨registry.summaries, st.nextCallSite⟩
    rcases hlower : F.lower g ⟨registry.summaries, st.nextCallSite⟩ with ⟨message | lowered, n⟩
    · exact ⟨hfail _ _, rfl⟩
    · rw [hlower] at hname
      have hname : lowered.context.interface.procedure = F.name g := hname lowered rfl
      obtain ⟨hloaded, hids, hinitial, htable⟩ :=
        (h.registerProcedure lowered.context (hname ▸ hnew)).enqueueSites
          lowered.context.assertions (Function.update_self ..)
      refine ⟨⟨?_, hinitial, htable, ⟨⟨hfailures, ?_, ?_⟩, trivial⟩, fun name hother ↦ ?_⟩, rfl⟩
      · rw [List.flatMap_cons, List.flatMap_nil, List.append_nil]
        exact hloaded
      · show Function.update _ _ _ _ = _
        rw [hname, Function.update_self, ← Nat.zero_add jobs.length, ← hids]
      · show Function.update _ _ _ _ = _
        rw [hname, Function.update_self]
      · have hne : name ≠ lowered.context.interface.procedure := by
          rw [hname]
          exact (hother _ List.mem_cons_self).symm
        show (_, Function.update _ _ _ _, Function.update _ _ _ _) = _
        rw [Function.update_of_ne hne, Function.update_of_ne hne]
        rfl

/-- The first loop adds the functions of a module. -/
theorem Added.foldl (maxFunctionSize : ℕ) (registry : CallSummaryRegistry)
    (hloaded : st.sched.Loaded 0 jobs) (hnodup : F.NamesDiffer graphs)
    (hnew : ∀ job ∈ jobs, ∀ g ∈ graphs, job.ctx.interface.procedure ≠ F.name g)
    (hfailures : ∀ g ∈ graphs, st.failures (F.name g) = none) :
    F.Added st (graphs.foldl (F.addFunction maxFunctionSize registry.summaries) st) jobs
      (F.contexts maxFunctionSize registry graphs st.nextCallSite) := by
  induction graphs generalizing st jobs with
  | nil => exact .nil hloaded
  | cons g graphs ih =>
    rw [NamesDiffer, List.map_cons, List.nodup_cons] at hnodup
    rw [List.forall_mem_cons] at hfailures
    have hother {g' : G} (hg' : g' ∈ graphs) : F.name g' ≠ F.name g := fun heq ↦
      hnodup.1 (heq ▸ List.mem_map_of_mem hg')
    obtain ⟨hadded, hnext⟩ := Added.addFunction maxFunctionSize registry hloaded
      (fun job hjob ↦ hnew job hjob g List.mem_cons_self) hfailures.1
    have hloaded' := hadded.loaded
    rw [List.flatMap_cons, List.flatMap_nil, List.append_nil] at hloaded'
    have hrest := ih hloaded' hnodup.2 (fun job hjob g' hg' ↦ ?_) fun g' hg' ↦ ?_
    · rw [hnext] at hrest
      exact .cons hadded hrest fun e' he' ↦ hother (mem_of_mem_contexts he')
    · rcases List.mem_append.1 hjob with hjob | hjob
      · exact hnew job hjob g' (List.mem_cons_of_mem g hg')
      · rw [procedure_of_mem_entryJobs hjob]
        exact (hother hg').symm
    · have hkept := hadded.kept (F.name g') (by simpa using (hother hg').symm)
      exact (Prod.mk.inj hkept).1.trans (hfailures.2 g' hg')

/-! ### The results are found again -/

theorem reportsAt_append {ctx : ProcedureContext} {runs' : List SmashRunResult}
    (hlength : runs.length = ctx.assertions.length) :
    F.reportsAt recursive (runs ++ runs') ((g, .ok ctx) :: entries) =
      F.analysisReport recursive g (runs.map (·.assertion)) ctx.cfg.detectBackEdges.length ::
        F.reportsAt recursive runs' entries := by
  rw [reportsAt, List.take_left' hlength, List.drop_left' hlength]

theorem results_range' (hruns : ∀ k run, runs[k]? = some run →
      sched.completed k = some (.completed run)) {m : ℕ} (hle : first + m ≤ runs.length) :
    sched.results (List.range' first m) = ((runs.drop first).take m).map (·.assertion) := by
  induction m generalizing first with
  | zero => rfl
  | succ m ih =>
    have hlt : first < runs.length := by omega
    have hfirst := hruns first runs[first] (List.getElem?_eq_getElem hlt)
    rw [List.range'_succ, Scheduler.results, List.filterMap_cons, hfirst,
      List.drop_eq_getElem_cons hlt, List.take_succ_cons, List.map_cons]
    exact congrArg _ (ih (by omega))

/-- The second loop finds the results of every function. -/
theorem reportsFrom_eq (hruns : ∀ k run, runs[k]? = some run →
      sched.completed k = some (.completed run)) (hnodup : F.NamesDiffer graphs)
    (hfiled : F.FiledFrom st first (F.contexts maxFunctionSize registry graphs n))
    (hle : first + ((F.contexts maxFunctionSize registry graphs n).flatMap entryJobs).length ≤
      runs.length) :
    F.reportsFrom recursive sched st graphs =
      F.reportsAt recursive (runs.drop first)
        (F.contexts maxFunctionSize registry graphs n) := by
  induction graphs generalizing st first n with
  | nil => rfl
  | cons g graphs ih =>
    rw [NamesDiffer, List.map_cons, List.nodup_cons] at hnodup
    rw [contexts] at hfiled hle ⊢
    obtain ⟨hg, hrest⟩ := hfiled
    rw [List.flatMap_cons, List.length_append, ← Nat.add_assoc] at hle
    rcases hlower : F.lowerFunction maxFunctionSize g ⟨registry.summaries, n⟩ with
      ⟨message | lowered, n'⟩
    · rw [hlower] at hg hrest hle
      have hg : st.failures (F.name g) = some [message] := hg
      rw [reportsFrom, hg]
      refine congrArg _ (ih hnodup.2 (FiledFrom.congr hrest fun e he ↦ ?_) hle)
      have hne : F.name e.1 ≠ F.name g :=
        fun heq ↦ hnodup.1 (heq ▸ List.mem_map_of_mem (mem_of_mem_contexts he))
      show (Function.update _ _ _ _, _, _) = _
      rw [Function.update_of_ne hne]
      rfl
    · rw [hlower] at hg hrest hle
      obtain ⟨hfailures, hids, hloops⟩ := hg
      have hlength : (entryJobs (g, (Except.ok lowered).map (·.context))).length =
          lowered.context.assertions.length := List.length_map _
      rw [hlength] at hrest hle
      rw [reportsFrom, hfailures, hids, hloops]
      show _ = F.analysisReport recursive g _ _ :: F.reportsAt recursive _ _
      rw [List.drop_drop, Option.getD_some, Option.getD_some,
        results_range' hruns ((Nat.le_add_right _ _).trans hle), ih hnodup.2 hrest hle]

/-- The sequential analysis, given the results of all assertions in order. -/
theorem analyseFunctions_eq : F.analyseFunctions maxFunctionSize recursive registry graphs n table =
    (F.reportsAt recursive
        (runJobs F.engines registry.tables
          ((F.contexts maxFunctionSize registry graphs n).flatMap entryJobs) table).1
        (F.contexts maxFunctionSize registry graphs n),
      (runJobs F.engines registry.tables
        ((F.contexts maxFunctionSize registry graphs n).flatMap entryJobs) table).2) := by
  induction graphs generalizing n table with
  | nil => rfl
  | cons g graphs ih =>
    rw [analyseFunctions, contexts]
    rcases hlower : F.lowerFunction maxFunctionSize g ⟨registry.summaries, n⟩ with
      ⟨message | lowered, n'⟩
    · dsimp only
      rw [ih]
      rfl
    · have hlength : (runJobs F.engines registry.tables lowered.context.jobs table).1.length =
          lowered.context.assertions.length := length_runJobs.trans (List.length_map _)
      dsimp only
      rw [ih, analyseSites_eq]
      refine Prod.ext ?_ ?_
      · show _ = F.reportsAt recursive (runJobs _ _ (lowered.context.jobs ++ _) _).1
          ((g, .ok lowered.context) :: _)
        rw [runJobs_append]
        exact (reportsAt_append hlength).symm
      · rw [List.flatMap_cons, runJobs_append]
        rfl

/-- The queue before it is drained holds the assertions of all functions, and the driver has filed
the functions. -/
theorem added_initialState (maxFunctionSize : ℕ) (registry : CallSummaryRegistry)
    (hnodup : F.NamesDiffer graphs) :
    F.Added (initialState registry)
      (graphs.foldl (F.addFunction maxFunctionSize registry.summaries) (initialState registry)) []
      (F.contexts maxFunctionSize registry graphs registry.nextCallSite) :=
  Added.foldl maxFunctionSize registry
    ⟨rfl, rfl, fun _ _ h ↦ (List.not_mem_nil (List.mem_of_getElem? h)).elim, by simp⟩ hnodup
    (by simp) fun _ _ ↦ rfl

/-- The reports of a module are those of going through its functions in order. -/
theorem reports_analyzeModule (provider : String → Option ReturnSummary)
    (hnodup : F.NamesDiffer graphs) :
    (F.analyzeModule maxFunctionSize provider graphs).reports =
      (F.analyseFunctions maxFunctionSize (Purity.recursiveFunctions (graphs.map F.calls))
        (F.inferSummaries graphs (providedSummaries provider (graphs.map F.calls))) graphs
        (F.inferSummaries graphs
          (providedSummaries provider (graphs.map F.calls))).nextCallSite .new).1 := by
  rw [analyzeModule, analyseFunctions_eq]
  dsimp only
  generalize F.inferSummaries graphs _ = registry
  have hadded := added_initialState maxFunctionSize registry hnodup
  obtain ⟨-, hruns, -⟩ := hadded.loaded.drain F.engines
  rw [hadded.initialTables_eq, hadded.table_eq] at hruns
  refine reportsFrom_eq (fun k run hk ↦ ?_) hnodup hadded.filed ?_
  · have hcompleted := hruns k run hk
    rwa [Nat.zero_add] at hcompleted
  · rw [length_runJobs]
    exact (Nat.zero_add _).le

/-- The table of a module is the one that is handed on. -/
theorem summaries_analyzeModule (provider : String → Option ReturnSummary)
    (hnodup : F.NamesDiffer graphs) :
    (F.analyzeModule maxFunctionSize provider graphs).summaries =
      (F.inferSummaries graphs
          (providedSummaries provider (graphs.map F.calls))).tables.extendFrom
        (F.analyseFunctions maxFunctionSize (Purity.recursiveFunctions (graphs.map F.calls))
          (F.inferSummaries graphs (providedSummaries provider (graphs.map F.calls))) graphs
          (F.inferSummaries graphs
            (providedSummaries provider (graphs.map F.calls))).nextCallSite .new).2 := by
  rw [analyzeModule, analyseFunctions_eq]
  dsimp only
  generalize F.inferSummaries graphs _ = registry
  have hadded := added_initialState maxFunctionSize registry hnodup
  obtain ⟨htable, -, -⟩ := hadded.loaded.drain F.engines
  rw [hadded.initialTables_eq, hadded.table_eq] at htable
  rw [htable]
  rfl

/-- **The driver analyses one function after the other.** The reports are those of going through
the functions in order, and the table at the end is the one that was handed on. -/
theorem analyzeModule_eq (provider : String → Option ReturnSummary)
    (hnodup : F.NamesDiffer graphs) :
    let registry := F.inferSummaries graphs (providedSummaries provider (graphs.map F.calls))
    let sequential := F.analyseFunctions maxFunctionSize
      (Purity.recursiveFunctions (graphs.map F.calls)) registry graphs registry.nextCallSite .new
    (F.analyzeModule maxFunctionSize provider graphs).reports = sequential.1 ∧
      (F.analyzeModule maxFunctionSize provider graphs).summaries =
        registry.tables.extendFrom sequential.2 :=
  ⟨reports_analyzeModule provider hnodup, summaries_analyzeModule provider hnodup⟩

end Loops

/-! ### What the reports are about -/

/-- The report is one about the function, lowered with the summaries of the registry. -/
def ReportedBy (registry : CallSummaryRegistry) (g : G) (report : ProcedureReport) : Prop :=
  ∃ n table, report =
    match (F.lowerFunction maxFunctionSize g ⟨registry.summaries, n⟩).1 with
    | .error message => F.failureReport recursive g [message]
    | .ok lowered => F.analysisReport recursive g
        (analyseSites F.engines registry.tables lowered.context lowered.assertions table).1
        lowered.procedure.cfg.detectBackEdges.length

section Reports

variable {F maxFunctionSize recursive} {registry : CallSummaryRegistry} {graphs : List G} {n : ℕ}
  {table : ContextualSummaryTable} {report : ProcedureReport}

/-- The reports are those about the functions. -/
theorem reportedBy_analyseFunctions :
    (∀ g ∈ graphs,
      ∃ report ∈ (F.analyseFunctions maxFunctionSize recursive registry graphs n table).1,
        F.ReportedBy maxFunctionSize recursive registry g report) ∧
    ∀ report ∈ (F.analyseFunctions maxFunctionSize recursive registry graphs n table).1,
      ∃ g ∈ graphs, F.ReportedBy maxFunctionSize recursive registry g report := by
  induction graphs generalizing n table with
  | nil => simp [analyseFunctions]
  | cons g graphs ih =>
    obtain ⟨report, n', table', hreport, hrest⟩ : ∃ report n' table',
        F.ReportedBy maxFunctionSize recursive registry g report ∧
        (F.analyseFunctions maxFunctionSize recursive registry (g :: graphs) n table).1 =
          report :: (F.analyseFunctions maxFunctionSize recursive registry graphs n' table').1 := by
      rw [analyseFunctions]
      rcases hlower : F.lowerFunction maxFunctionSize g ⟨registry.summaries, n⟩ with
        ⟨message | lowered, n'⟩
      · exact ⟨_, _, _, ⟨n, table, by rw [hlower]⟩, rfl⟩
      · exact ⟨_, _, _, ⟨n, table, by rw [hlower]⟩, rfl⟩
    obtain ⟨hgraphs, hreports⟩ := @ih n' table'
    rw [hrest, List.forall_mem_cons, List.forall_mem_cons]
    refine ⟨⟨⟨report, List.mem_cons_self, hreport⟩, fun g' hg' ↦ ?_⟩,
      ⟨g, List.mem_cons_self, hreport⟩, fun report' hreport' ↦ ?_⟩
    · obtain ⟨report', hmem, hreport'⟩ := hgraphs g' hg'
      exact ⟨report', List.mem_cons_of_mem _ hmem, hreport'⟩
    · obtain ⟨g', hg', hreport'⟩ := hreports report' hreport'
      exact ⟨g', List.mem_cons_of_mem _ hg', hreport'⟩

/-- A report is flagged if its function is. -/
theorem ReportedBy.recursive_eq {g : G}
    (h : F.ReportedBy maxFunctionSize recursive registry g report) :
    report.recursive = decide (report.procedure ∈ recursive) := by
  obtain ⟨n, table, rfl⟩ := h
  cases (F.lowerFunction maxFunctionSize g ⟨registry.summaries, n⟩).1 with
  | error message => rfl
  | ok lowered => rfl

/-- **The flags are right.** The report about a function is flagged exactly if a chain of direct
calls leads from the function back to it. -/
theorem recursive_eq_true_iff (provider : String → Option ReturnSummary)
    (hnodup : F.NamesDiffer graphs) :
    ∀ report ∈ (F.analyzeModule maxFunctionSize provider graphs).reports,
      report.recursive = true ↔
        TransGen (Purity.Calls (graphs.map F.calls)) report.procedure report.procedure := by
  intro report hreport
  rw [reports_analyzeModule provider hnodup] at hreport
  obtain ⟨g, -, hreport⟩ := reportedBy_analyseFunctions.2 report hreport
  rw [hreport.recursive_eq, decide_eq_true_iff]
  exact Purity.mem_recursiveFunctions_iff (by rwa [List.map_map])

end Reports

end Frontend

/-! ### Two functions that call each other, and two without calls -/

/-- A front end that supports no function, for two functions that call each other. -/
def evenOdd : Frontend Bool where
  calls odd := if odd then ⟨"odd", [.other, .call ⟨"even", true⟩]⟩
    else ⟨"even", [.call ⟨"odd", true⟩]⟩
  parameters _ := ⟨⟨[]⟩, []⟩
  lower _ registry := (.error "unsupported", registry.nextCallSite)
  engines := ⟨.knowing [] [], fun _ _ _ _ ↦ none, fun _ ↦ .stored⟩
  synthesize _ _ _ _ := none
  name_lower _ _ _ h := by cases h

theorem calls_evenOdd (odd : Bool) : Purity.Calls ([true, false].map evenOdd.calls)
    (evenOdd.name odd) (evenOdd.name !odd) := by
  have hmem (odd : Bool) : evenOdd.calls odd ∈ [true, false].map evenOdd.calls :=
    List.mem_map_of_mem (by cases odd <;> decide)
  refine ⟨evenOdd.calls odd, hmem odd, rfl, ⟨.call ⟨evenOdd.name !odd, true⟩, ?_, ?_⟩, ?_,
    evenOdd.calls !odd, hmem _, rfl⟩
  · cases odd <;> decide
  · cases odd <;> rfl
  · cases odd <;> decide

/-- The general statement at these functions; `odd` calls itself through `even`. -/
theorem recursive_eq_true_evenOdd :
    ∃ report ∈ (evenOdd.analyzeModule 0 (fun _ ↦ none) [true, false]).reports,
      report.procedure = "odd" ∧ report.recursive = true := by
  have hnodup : evenOdd.NamesDiffer [true, false] := by
    show ["odd", "even"].Nodup
    decide
  obtain ⟨report, hreport, registry, hodd⟩ :
      ∃ report ∈ (evenOdd.analyzeModule 0 (fun _ ↦ none) [true, false]).reports,
        ∃ registry, evenOdd.ReportedBy 0
          (Purity.recursiveFunctions ([true, false].map evenOdd.calls)) registry true report := by
    rw [Frontend.reports_analyzeModule _ hnodup]
    obtain ⟨report, hreport, hodd⟩ :=
      Frontend.reportedBy_analyseFunctions.1 true List.mem_cons_self
    exact ⟨report, hreport, _, hodd⟩
  obtain ⟨n, table, rfl⟩ := hodd
  refine ⟨_, hreport, rfl, (Frontend.recursive_eq_true_iff _ hnodup _ hreport).2 ?_⟩
  exact .tail (.single (calls_evenOdd true)) (calls_evenOdd false)

/-- The number is assigned to `x`. -/
def assignCfg (value : Int64) : AbstractCfg :=
  straightLine [.assign (.int "x") (.term (.int value))]

/-- The claim that `x` is 1. -/
def claimSite : AssertionSite := ⟨0, 1, .eq (.var (.int "x")) (.int 1), "claim"⟩

/-- The number is assigned to `x`, and then `x` is claimed to be 1. -/
def assignAndClaim (name : String) (value : Int64) : LoweredFunction where
  procedure := ⟨name, assignCfg value⟩
  formalParameters := []
  assertions := [claimSite]
  ptrWrites := []

/-- A front end for two functions that assign the number to `x` and claim it to be 1, one of which
has one instruction more. -/
def claimFrontend (value : Int64) (oracle : Oracle) : Frontend Bool where
  calls long := ⟨if long then "long" else "short", .other :: if long then [.other] else []⟩
  parameters _ := ⟨⟨[]⟩, []⟩
  lower long registry :=
    (.ok (assignAndClaim (if long then "long" else "short") value), registry.nextCallSite)
  engines := ⟨oracle, fun _ _ _ _ ↦ none, fun _ ↦ .stored⟩
  synthesize _ _ _ _ := none
  name_lower _ _ _ h := by
    rw [← Except.ok.inj h]
    rfl

theorem namesDiffer_claimFrontend {value : Int64} {oracle : Oracle} :
    (claimFrontend value oracle).NamesDiffer [true, false] := by
  unfold Frontend.NamesDiffer
  show ["long", "short"].Nodup
  decide

/-- The general statement at these functions; the first one is too large. -/
theorem analyzeModule_eq_claimFrontend :
    let F := claimFrontend 1 (.knowing [.fls, .not (.eq (.int 1) (.int 1))] [])
    let registry := F.inferSummaries [true, false]
      (providedSummaries (fun _ ↦ none) ([true, false].map F.calls))
    let sequential := F.analyseFunctions 1 (Purity.recursiveFunctions ([true, false].map F.calls))
      registry [true, false] registry.nextCallSite .new
    (F.analyzeModule 1 (fun _ ↦ none) [true, false]).reports = sequential.1 ∧
      (F.analyzeModule 1 (fun _ ↦ none) [true, false]).summaries =
        registry.tables.extendFrom sequential.2 :=
  Frontend.analyzeModule_eq _ namesDiffer_claimFrontend

end MayMust
