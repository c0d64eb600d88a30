import MayMust.Interproc.Scheduler
import MayMust.Library.Ledger

/-!
# Histories of the scheduler

`Scheduler::drain` dispatches until the queue is empty. A history of the scheduler is a sequence of
the calls of its four public operations, and what the calls did: which identifiers were issued, and
which queries were completed with which outcome, in this order.

The queue, the map of the entries that wait and the map of the completed queries follow one ledger
(`Scheduler.Follows`): they are the identifiers that wait, the same set again, and the identifiers
served so far. One dispatch serves the next request (`Follows.dispatchNext`), whatever way it goes
through `dispatch_next`.

The map of active queries does not follow the ledger. The way out for a procedure that is not
registered leaves the query in it, for good (`active_after_dispatchNext`).
-/

namespace MayMust

open Library

namespace Scheduler

variable {sched : Scheduler} {engines : Engines} {id : QueryId} {rest : List QueryId}
  {entry : PendingEntry}

/-! ### One dispatch -/

theorem dispatchNext_of_nil (h : sched.pending = []) :
    sched.dispatchNext engines = (sched, none) := by
  rw [dispatchNext, h]

/-- A dispatch takes the query from the queue and from the map of the entries that wait, and
completes it. In the map of active queries it remains if its procedure is not registered. -/
theorem dispatchNext_of_cons (hpending : sched.pending = id :: rest)
    (hentry : sched.inProgress id = some entry) :
    ∃ outcome table, sched.dispatchNext engines =
      ({ sched with
          pending := rest
          inProgress := Function.update sched.inProgress id none
          completed := Function.update sched.completed id (some outcome)
          table := table
          active := Function.update sched.active id
            (if (sched.procedures entry.query.procedure).isSome then none
              else some ⟨id, entry.query, [], .notMayOptimistic⟩) }, some outcome) := by
  simp only [dispatchNext, hpending, hentry]
  cases hctx : sched.procedures entry.query.procedure with
  | none => exact ⟨.unprovenanced, sched.table, rfl⟩
  | some ctx =>
    cases hprovenance : entry.provenance with
    | none =>
      refine ⟨.unprovenanced, sched.table, ?_⟩
      simp only [analyseEntry, hprovenance, deactivate, complete, activate, Function.update_idem]
      rfl
    | some provenance =>
      let run := runSmash engines ctx.cfg provenance.site sched.legacyTablesForDispatch
      refine ⟨.completed run, sched.table.createAndMergeSummary entry.query run.assertion
        ctx.interface engines.oracle, ?_⟩
      simp only [analyseEntry, hprovenance, deactivate, complete, activate, Function.update_idem]
      rfl

/-! ### Draining -/

theorem length_pending_dispatchNext {next : Scheduler} {outcome : DispatchOutcome}
    (h : sched.dispatchNext engines = (next, some outcome)) :
    next.pending.length < sched.pending.length := by
  cases hpending : sched.pending with
  | nil =>
    rw [dispatchNext_of_nil hpending] at h
    cases h
  | cons id rest =>
    cases hentry : sched.inProgress id with
    | none =>
      rw [dispatchNext] at h
      simp only [hpending, hentry] at h
      cases h
    | some entry =>
      obtain ⟨outcome', table, hdispatch⟩ := dispatchNext_of_cons hpending hentry
      rw [hdispatch] at h
      rw [← (Prod.mk.inj h).1]
      exact Nat.lt_succ_self _

/-- `Scheduler::drain`: the scheduler afterwards, and the outcomes. -/
def drain (sched : Scheduler) (engines : Engines) : Scheduler × List DispatchOutcome :=
  match _h : sched.dispatchNext engines with
  | (next, none) => (next, [])
  | (next, some outcome) =>
    ((next.drain engines).1, outcome :: (next.drain engines).2)
termination_by sched.pending.length
decreasing_by all_goals exact length_pending_dispatchNext _h

theorem drain_of_nil (h : sched.pending = []) : sched.drain engines = (sched, []) := by
  rw [drain]
  split
  · rename_i next hdispatch
    rw [dispatchNext_of_nil h] at hdispatch
    rw [← (Prod.mk.inj hdispatch).1]
  · rename_i next outcome hdispatch
    rw [dispatchNext_of_nil h] at hdispatch
    cases hdispatch

theorem drain_of_dispatchNext {next : Scheduler} {outcome : DispatchOutcome}
    (h : sched.dispatchNext engines = (next, some outcome)) :
    sched.drain engines = ((next.drain engines).1, outcome :: (next.drain engines).2) := by
  rw [drain]
  split
  · rename_i next' hdispatch
    rw [h] at hdispatch
    cases hdispatch
  · rename_i next' outcome' hdispatch
    rw [h] at hdispatch
    obtain ⟨rfl, heq⟩ := Prod.mk.inj hdispatch
    rw [Option.some.inj heq]

end Scheduler

/-! ### Calls and what they do -/

/-- The calls a client of the scheduler can make. -/
inductive SchedulerCall
  | op (op : SchedulerOp)
  | drain (engines : Engines)

/-- What happens to a query. -/
inductive SchedulerEvent
  | issued (id : QueryId)
  | completed (id : QueryId) (outcome : DispatchOutcome)

namespace SchedulerEvent

/-- The identifier that the event issues. -/
def issuedId : SchedulerEvent → Option QueryId
  | issued id => some id
  | completed _ _ => none

/-- The identifier that the event completes. -/
def completedId : SchedulerEvent → Option QueryId
  | issued _ => none
  | completed id _ => some id

/-- Dispatches take the queries from the front of the queue. -/
def dispatches (pending : List QueryId) (outcomes : List DispatchOutcome) : List SchedulerEvent :=
  (pending.zip outcomes).map fun p ↦ completed p.1 p.2

theorem map_completed_of_dispatches {pending : List QueryId} {outcomes : List DispatchOutcome}
    {f : QueryId → Option DispatchOutcome} (hlength : outcomes.length = pending.length)
    (h : ∀ id outcome, completed id outcome ∈ dispatches pending outcomes → f id = some outcome) :
    outcomes.map some = pending.map f := by
  induction pending generalizing outcomes with
  | nil => rw [List.length_eq_zero_iff.1 hlength, List.map_nil, List.map_nil]
  | cons id pending ih =>
    cases outcomes with
    | nil => cases hlength
    | cons outcome outcomes =>
      rw [List.map_cons, List.map_cons, h id outcome List.mem_cons_self,
        ih (Nat.succ_inj.1 hlength) fun id' outcome' hmem ↦
          h id' outcome' (List.mem_cons_of_mem _ hmem)]

end SchedulerEvent

namespace SchedulerCall

/-- The scheduler after a call. -/
def apply (sched : Scheduler) : SchedulerCall → Scheduler
  | op o => o.apply sched
  | drain engines => (sched.drain engines).1

/-- What a call does. -/
def events (sched : Scheduler) : SchedulerCall → List SchedulerEvent
  | op (.registerProcedure _) => []
  | op (.enqueue query provenance) => [.issued (sched.enqueue query provenance).2]
  | op (.dispatchNext engines) =>
    SchedulerEvent.dispatches sched.pending (sched.dispatchNext engines).2.toList
  | drain engines => SchedulerEvent.dispatches sched.pending (sched.drain engines).2

end SchedulerCall

namespace Scheduler

/-- The scheduler after some calls. -/
def after (sched : Scheduler) (calls : List SchedulerCall) : Scheduler :=
  calls.foldl SchedulerCall.apply sched

/-- What the calls do, in order. -/
def history (sched : Scheduler) : List SchedulerCall → List SchedulerEvent
  | [] => []
  | call :: calls => call.events sched ++ (call.apply sched).history calls

/-- The query is in the queue, once, and in the map of the entries that wait; it is not completed.
-/
def Waits (sched : Scheduler) (id : QueryId) : Prop :=
  sched.pending.count id = 1 ∧ (sched.inProgress id).isSome ∧ sched.completed id = none

/-- The query is completed, and neither in the queue nor in the map of the entries that wait. -/
def IsDone (sched : Scheduler) (id : QueryId) : Prop :=
  id ∉ sched.pending ∧ sched.inProgress id = none ∧ (sched.completed id).isSome

end Scheduler

/-! ### Following a ledger -/

/-- The queue and the maps of the scheduler are those of the ledger. -/
structure Scheduler.Follows (sched : Scheduler) (l : Ledger) : Prop where
  nextId : sched.nextId = l.issued
  pending : sched.pending = l.waiting
  inProgress : ∀ id, (sched.inProgress id).isSome ↔ id ∈ l.waiting
  completed : ∀ id, (sched.completed id).isSome ↔ id < l.served

namespace Scheduler.Follows

variable {sched : Scheduler} {l : Ledger} {engines : Engines} {id : QueryId} {rest : List QueryId}

theorem withInitialTables (tables : ContextualSummaryTable) :
    (Scheduler.withInitialTables tables).Follows .empty where
  nextId := rfl
  pending := rfl
  inProgress id := by simp [Scheduler.withInitialTables]
  completed id := by simp [Scheduler.withInitialTables]

theorem registerProcedure (h : sched.Follows l) (ctx : ProcedureContext) :
    (sched.registerProcedure ctx).Follows l :=
  ⟨h.nextId, h.pending, h.inProgress, h.completed⟩

theorem enqueue (h : sched.Follows l) (query : Query) (provenance : Option AssertionProvenance) :
    (sched.enqueue query provenance).1.Follows l.issue where
  nextId := congrArg (· + 1) h.nextId
  pending := by
    show sched.pending ++ [sched.nextId] = _
    rw [Ledger.waiting_issue, h.pending, h.nextId]
  inProgress id := by
    show (Function.update sched.inProgress sched.nextId _ id).isSome ↔ _
    rw [Ledger.waiting_issue, List.mem_append, List.mem_singleton, ← h.nextId]
    by_cases hid : id = sched.nextId
    · simp [hid]
    · rw [Function.update_of_ne hid, h.inProgress, or_iff_left hid]
  completed := h.completed

/-- A query at the front of the queue has an entry, so a dispatch serves it. -/
theorem exists_dispatchNext (h : sched.Follows l) (engines : Engines)
    (hpending : sched.pending = id :: rest) :
    ∃ next outcome, sched.dispatchNext engines = (next, some outcome) ∧ next.Follows l.serve ∧
      next.pending = rest ∧ next.completed = Function.update sched.completed id (some outcome) := by
  obtain ⟨entry, hentry⟩ := Option.isSome_iff_exists.1
    ((h.inProgress id).2 (h.pending ▸ hpending ▸ List.mem_cons_self))
  obtain ⟨outcome, table, hdispatch⟩ := @dispatchNext_of_cons _ engines _ _ _ hpending hentry
  obtain ⟨rfl, hserved, hrest⟩ := Ledger.waiting_eq_cons (h.pending.symm.trans hpending)
  refine ⟨_, outcome, hdispatch, ⟨h.nextId, hrest.symm, fun (id : ℕ) ↦ ?_, fun (id : ℕ) ↦ ?_⟩,
    rfl, rfl⟩
  · show (Function.update sched.inProgress l.served none id).isSome ↔ _
    rw [Ledger.mem_waiting, hserved, Ledger.issued_serve]
    by_cases hid : id = l.served
    · simp [hid]
    · rw [Function.update_of_ne hid, h.inProgress, Ledger.mem_waiting]
      omega
  · show (Function.update sched.completed l.served (some outcome) id).isSome ↔ _
    rw [hserved]
    by_cases hid : id = l.served
    · simp [hid]
    · rw [Function.update_of_ne hid, h.completed, Nat.lt_succ_iff_lt_or_eq, or_iff_left hid]

theorem waits_of_mem (h : sched.Follows l) (hid : id ∈ l.waiting) : sched.Waits id := by
  refine ⟨?_, (h.inProgress id).2 hid, ?_⟩
  · rw [h.pending]
    exact List.count_eq_one_of_mem Ledger.nodup_waiting hid
  · rw [← Option.not_isSome_iff_eq_none, h.completed]
    exact Nat.not_lt.2 (Ledger.mem_waiting.1 hid).1

theorem isDone_of_lt (h : sched.Follows l) (hid : id < l.served) : sched.IsDone id := by
  have hnot : id ∉ l.waiting := fun hmem ↦ Nat.not_lt.2 (Ledger.mem_waiting.1 hmem).1 hid
  refine ⟨h.pending ▸ hnot, ?_, (h.completed id).2 hid⟩
  rw [← Option.not_isSome_iff_eq_none, h.inProgress]
  exact hnot

theorem waits_or_isDone (h : sched.Follows l) (hid : id < sched.nextId) :
    sched.Waits id ∨ sched.IsDone id := by
  by_cases hserved : id < l.served
  · exact Or.inr (h.isDone_of_lt hserved)
  · exact Or.inl (h.waits_of_mem (Ledger.mem_waiting.2 ⟨Nat.not_lt.1 hserved, h.nextId ▸ hid⟩))

end Scheduler.Follows

/-! ### Histories -/

open SchedulerEvent

/-- From one scheduler to another, some events happened: the numbers issued and the numbers
completed are the next ones, and what is completed has the outcome of its event, and keeps it. -/
structure Progress (sched sched' : Scheduler) (events : List SchedulerEvent) (l l' : Ledger) :
    Prop where
  follows : sched'.Follows l'
  issued : List.range l.issued ++ events.filterMap issuedId = List.range l'.issued
  completed : List.range l.served ++ events.filterMap completedId = List.range l'.served
  recorded : ∀ id outcome, .completed id outcome ∈ events → sched'.completed id = some outcome
  kept : ∀ id outcome, sched.completed id = some outcome → sched'.completed id = some outcome

namespace Progress

variable {sched sched' sched'' : Scheduler} {events events' : List SchedulerEvent}
  {l l' l'' : Ledger}

/-- Nothing happened. -/
theorem of_completed_eq (h : sched'.Follows l) (hcompleted : sched'.completed = sched.completed) :
    Progress sched sched' [] l l where
  follows := h
  issued := List.append_nil _
  completed := List.append_nil _
  recorded _ _ hmem := absurd hmem List.not_mem_nil
  kept _ _ hid := hcompleted ▸ hid

theorem append (h : Progress sched sched' events l l')
    (h' : Progress sched' sched'' events' l' l'') :
    Progress sched sched'' (events ++ events') l l'' where
  follows := h'.follows
  issued := by rw [List.filterMap_append, ← List.append_assoc, h.issued, h'.issued]
  completed := by rw [List.filterMap_append, ← List.append_assoc, h.completed, h'.completed]
  recorded id outcome hmem := by
    rcases List.mem_append.1 hmem with hmem | hmem
    · exact h'.kept id outcome (h.recorded id outcome hmem)
    · exact h'.recorded id outcome hmem
  kept id outcome hid := h'.kept id outcome (h.kept id outcome hid)

theorem enqueue (h : sched.Follows l) (query : Query) (provenance : Option AssertionProvenance) :
    Progress sched (sched.enqueue query provenance).1 [.issued sched.nextId] l l.issue where
  follows := h.enqueue query provenance
  issued := by
    show List.range l.issued ++ [sched.nextId] = List.range (l.issued + 1)
    rw [List.range_succ, h.nextId]
  completed := List.append_nil _
  recorded id outcome hmem := by
    cases List.mem_singleton.1 hmem
  kept _ _ hid := hid

/-- A dispatch completes the query at the front of the queue. -/
theorem dispatchNext {id : QueryId} {rest : List QueryId} (h : sched.Follows l) (engines : Engines)
    (hpending : sched.pending = id :: rest) :
    ∃ next outcome, sched.dispatchNext engines = (next, some outcome) ∧ next.pending = rest ∧
      Progress sched next [.completed id outcome] l l.serve := by
  obtain ⟨next, outcome, hdispatch, hfollows, hrest, hcompleted⟩ :=
    h.exists_dispatchNext engines hpending
  obtain ⟨rfl, hserved, -⟩ := Ledger.waiting_eq_cons (h.pending.symm.trans hpending)
  refine ⟨next, outcome, hdispatch, hrest, hfollows, List.append_nil _, ?_, ?_, ?_⟩
  · show List.range l.served ++ [l.served] = _
    rw [hserved, List.range_succ]
  · intro id outcome' hmem
    obtain ⟨rfl, rfl⟩ := SchedulerEvent.completed.inj (List.mem_singleton.1 hmem)
    rw [hcompleted, Function.update_self]
  · intro id outcome' hid
    have hlt : id < l.served := (h.completed id).1 (hid ▸ rfl)
    rw [hcompleted, Function.update_of_ne hlt.ne, hid]

/-- Draining completes all queries that wait. -/
theorem drain (h : sched.Follows l) (engines : Engines) :
    (sched.drain engines).2.length = sched.pending.length ∧
      Progress sched (sched.drain engines).1 (dispatches sched.pending (sched.drain engines).2)
        l l.serveAll := by
  induction hpending : sched.pending generalizing sched l with
  | nil =>
    have hnil : l.waiting = [] := h.pending.symm.trans hpending
    rw [Scheduler.drain_of_nil hpending, Ledger.serveAll_of_waiting_eq_nil hnil]
    exact ⟨rfl, of_completed_eq h rfl⟩
  | cons id rest ih =>
    obtain ⟨next, outcome, hdispatch, hrest, hprogress⟩ := dispatchNext h engines hpending
    obtain ⟨hlength, hdrained⟩ := ih hprogress.follows hrest
    rw [Scheduler.drain_of_dispatchNext hdispatch]
    exact ⟨congrArg (· + 1) hlength, hprogress.append hdrained⟩

theorem call (h : sched.Follows l) (c : SchedulerCall) :
    ∃ l', Progress sched (c.apply sched) (c.events sched) l l' := by
  match c with
  | .op (.registerProcedure ctx) => exact ⟨l, of_completed_eq (h.registerProcedure ctx) rfl⟩
  | .op (.enqueue query provenance) => exact ⟨l.issue, enqueue h query provenance⟩
  | .op (.dispatchNext engines) =>
    rw [SchedulerCall.apply, SchedulerOp.apply, SchedulerCall.events]
    cases hpending : sched.pending with
    | nil =>
      rw [Scheduler.dispatchNext_of_nil hpending]
      exact ⟨l, of_completed_eq h rfl⟩
    | cons id rest =>
      obtain ⟨next, outcome, hdispatch, -, hprogress⟩ := dispatchNext h engines hpending
      rw [hdispatch]
      refine ⟨l.serve, ?_⟩
      rw [Option.toList_some, dispatches, List.zip_cons_cons, List.zip_nil_right]
      exact hprogress
  | .drain engines => exact ⟨l.serveAll, (drain h engines).2⟩

theorem history (h : sched.Follows l) (calls : List SchedulerCall) :
    ∃ l', Progress sched (sched.after calls) (sched.history calls) l l' := by
  induction calls generalizing sched l with
  | nil => exact ⟨l, of_completed_eq h rfl⟩
  | cons c calls ih =>
    obtain ⟨l', hcall⟩ := call h c
    obtain ⟨l'', hcalls⟩ := ih hcall.follows
    exact ⟨l'', hcall.append hcalls⟩

end Progress

/-- Between the calls of any history, every query issued waits or is done, and not both. The
identifiers issued are fresh, those of the completed queries come in the order in which they were
issued, each once, and a completed query keeps its outcome. Draining returns one outcome for each
query that waits, and leaves none. -/
theorem waits_or_isDone_after (tables : ContextualSummaryTable) (calls : List SchedulerCall) :
    let sched := (Scheduler.withInitialTables tables).after calls
    let events := (Scheduler.withInitialTables tables).history calls
    events.filterMap issuedId = List.range sched.nextId ∧
      events.filterMap completedId ++ sched.pending = List.range sched.nextId ∧
      (∀ id < sched.nextId, sched.Waits id ↔ ¬ sched.IsDone id) ∧
      (∀ id outcome, .completed id outcome ∈ events → sched.completed id = some outcome) ∧
      ∀ engines, (sched.drain engines).2.length = sched.pending.length ∧
        (sched.drain engines).1.pending = [] ∧
        (sched.drain engines).2.map some = sched.pending.map (sched.drain engines).1.completed := by
  obtain ⟨l, h⟩ := Progress.history (.withInitialTables tables) calls
  refine ⟨?_, ?_, fun id hid ↦ ⟨fun hwaits hdone ↦ ?_, fun hdone ↦ ?_⟩, h.recorded,
    fun engines ↦ ?_⟩
  · rw [h.follows.nextId, ← h.issued]
    rfl
  · rw [h.follows.nextId, h.follows.pending, ← Ledger.range_append_waiting, ← h.completed]
    rfl
  · exact absurd hdone.2.2 (by simp [hwaits.2.2])
  · exact (h.follows.waits_or_isDone hid).resolve_right hdone
  · obtain ⟨hlength, hdrained⟩ := Progress.drain h.follows engines
    exact ⟨hlength, hdrained.follows.pending.trans Ledger.waiting_serveAll,
      map_completed_of_dispatches hlength hdrained.recorded⟩

/-! ### Active queries -/

/-- The procedure of the query, if it waits, is registered. -/
def Scheduler.Registered (sched : Scheduler) (id : QueryId) : Prop :=
  ∀ entry, sched.inProgress id = some entry → (sched.procedures entry.query.procedure).isSome

/-- The procedures of the queries that the call dispatches are registered. -/
def SchedulerCall.FindsProcedures (sched : Scheduler) : SchedulerCall → Prop
  | op (.dispatchNext _) => ∀ id, sched.pending.head? = some id → sched.Registered id
  | op (.registerProcedure _) | op (.enqueue _ _) => True
  | drain _ => ∀ id ∈ sched.pending, sched.Registered id

namespace Scheduler.Follows

variable {sched : Scheduler} {l : Ledger} {id : QueryId} {rest : List QueryId}

/-- A dispatch leaves its query in the map of active queries if and only if the procedure is not
registered; of the other queries it changes nothing there. -/
theorem active_dispatchNext (h : sched.Follows l) (engines : Engines)
    (hpending : sched.pending = id :: rest) :
    ((sched.dispatchNext engines).1.active id = none ↔ sched.Registered id) ∧
      ∀ id', id' ≠ id → (sched.dispatchNext engines).1.active id' = sched.active id' ∧
        ((sched.dispatchNext engines).1.Registered id' ↔ sched.Registered id') := by
  obtain ⟨entry, hentry⟩ := Option.isSome_iff_exists.1
    ((h.inProgress id).2 (h.pending ▸ hpending ▸ List.mem_cons_self))
  obtain ⟨outcome, table, hdispatch⟩ := @dispatchNext_of_cons _ engines _ _ _ hpending hentry
  rw [hdispatch]
  refine ⟨?_, fun id' hne ↦ ⟨Function.update_of_ne hne _ _, ?_⟩⟩
  · dsimp only
    rw [Function.update_self]
    constructor
    · intro hnone entry' hentry'
      obtain rfl := Option.some.inj (hentry.symm.trans hentry')
      by_contra hregistered
      rw [if_neg hregistered] at hnone
      cases hnone
    · intro hregistered
      rw [if_pos (hregistered entry hentry)]
  · show (∀ entry', Function.update sched.inProgress id none id' = some entry' → _) ↔ _
    rw [Function.update_of_ne hne]
    exact Iff.rfl

theorem active_drain (h : sched.Follows l) (engines : Engines) :
    (∀ id ∉ sched.pending, (sched.drain engines).1.active id = sched.active id) ∧
      ∀ id ∈ sched.pending, (sched.drain engines).1.active id = none ↔ sched.Registered id := by
  induction hpending : sched.pending generalizing sched l with
  | nil =>
    rw [drain_of_nil hpending]
    exact ⟨fun _ _ ↦ rfl, fun _ hmem ↦ absurd hmem List.not_mem_nil⟩
  | cons id rest ih =>
    obtain ⟨next, outcome, hdispatch, hrest, hprogress⟩ :=
      Progress.dispatchNext h engines hpending
    obtain ⟨hself, hother⟩ := h.active_dispatchNext engines hpending
    rw [hdispatch] at hself hother
    obtain ⟨houtside, hinside⟩ := ih hprogress.follows hrest
    have hnodup : (id :: rest).Nodup := hpending ▸ h.pending ▸ Ledger.nodup_waiting
    have hid : id ∉ rest := (List.nodup_cons.1 hnodup).1
    rw [drain_of_dispatchNext hdispatch]
    refine ⟨fun id' hid' ↦ ?_, fun id' hid' ↦ ?_⟩
    · rw [List.mem_cons, not_or] at hid'
      exact (houtside id' hid'.2).trans (hother id' hid'.1).1
    · rcases List.mem_cons.1 hid' with rfl | hmem
      · rw [houtside id' hid]
        exact hself
      · have hne : id' ≠ id := fun heq ↦ hid (heq ▸ hmem)
        exact (hinside id' hmem).trans (hother id' hne).2

/-- A call leaves the map of active queries empty if and only if it finds the procedures. -/
theorem active_apply (h : sched.Follows l) (hactive : ∀ id, sched.active id = none)
    (c : SchedulerCall) :
    (∀ id, (c.apply sched).active id = none) ↔ c.FindsProcedures sched := by
  match c with
  | .op (.registerProcedure ctx) => exact iff_of_true hactive trivial
  | .op (.enqueue query provenance) => exact iff_of_true hactive trivial
  | .op (.dispatchNext engines) =>
    show (∀ id, (sched.dispatchNext engines).1.active id = none) ↔
      ∀ id, sched.pending.head? = some id → sched.Registered id
    cases hpending : sched.pending with
    | nil =>
      rw [dispatchNext_of_nil hpending]
      exact iff_of_true hactive (by simp)
    | cons id rest =>
      obtain ⟨hself, hother⟩ := h.active_dispatchNext engines hpending
      simp only [List.head?_cons, Option.some.injEq, forall_eq', ← hself]
      refine ⟨fun hall ↦ hall id, fun hnone id' ↦ ?_⟩
      by_cases heq : id' = id
      · rw [heq, hnone]
      · rw [(hother id' heq).1, hactive]
  | .drain engines =>
    show (∀ id, (sched.drain engines).1.active id = none) ↔
      ∀ id ∈ sched.pending, sched.Registered id
    obtain ⟨houtside, hinside⟩ := h.active_drain engines
    refine ⟨fun hall id hid ↦ (hinside id hid).1 (hall id), fun hregistered id ↦ ?_⟩
    by_cases hid : id ∈ sched.pending
    · exact (hinside id hid).2 (hregistered id hid)
    · rw [houtside id hid, hactive]

/-- The map of active queries is empty all along a history if and only if every call finds the
procedures. -/
theorem active_after (h : sched.Follows l) (hactive : ∀ id, sched.active id = none)
    (calls : List SchedulerCall) :
    (∀ before, before <+: calls → ∀ id, (sched.after before).active id = none) ↔
      ∀ before c rest, calls = before ++ c :: rest → c.FindsProcedures (sched.after before) := by
  induction calls generalizing sched l with
  | nil =>
    refine iff_of_true (fun before hbefore ↦ ?_) (by simp)
    obtain rfl := List.prefix_nil.1 hbefore
    exact hactive
  | cons c calls ih =>
    obtain ⟨l', hprogress⟩ := Progress.call h c
    constructor
    · intro hall
      have hnext : ∀ id, (c.apply sched).active id = none := hall [c] ⟨calls, rfl⟩
      rintro (_ | ⟨c', before⟩) d rest heq
      · obtain ⟨rfl, -⟩ := List.cons.inj heq
        exact (h.active_apply hactive c).1 hnext
      · obtain ⟨rfl, htail⟩ := List.cons.inj heq
        refine (ih hprogress.follows hnext).1 (fun before' hbefore ↦ ?_) before d rest htail
        exact hall (c :: before') ((List.prefix_cons_inj c).2 hbefore)
    · intro hfinds before hbefore
      have hnext := (h.active_apply hactive c).2 (hfinds [] c calls rfl)
      cases before with
      | nil => exact hactive
      | cons c' before =>
        obtain ⟨rfl, htail⟩ := List.cons_prefix_cons.1 hbefore
        exact (ih hprogress.follows hnext).2
          (fun before' d rest heq ↦ hfinds (c' :: before') d rest (congrArg _ heq)) before htail

end Scheduler.Follows

/-- In every history, the map of active queries is empty between the calls if and only if no call
dispatches a query whose procedure is not registered. -/
theorem active_eq_none_iff (tables : ContextualSummaryTable) (calls : List SchedulerCall) :
    (∀ before, before <+: calls →
        ∀ id, ((Scheduler.withInitialTables tables).after before).active id = none) ↔
      ∀ before c rest, calls = before ++ c :: rest →
        c.FindsProcedures ((Scheduler.withInitialTables tables).after before) :=
  (Scheduler.Follows.withInitialTables tables).active_after (fun _ ↦ rfl) calls

/-- A query for a procedure that nobody registered stays active once it has been dispatched. -/
theorem not_active_eq_none :
    ¬ ∀ (tables : ContextualSummaryTable) (calls : List SchedulerCall) (id : QueryId),
      ((Scheduler.withInitialTables tables).after calls).active id = none := by
  intro h
  let engines : Engines := ⟨.knowing [] [], fun _ _ _ _ ↦ none, fun _ ↦ .stored⟩
  have hnone := h .new
    [.op (.enqueue ⟨"f", .tru, .tru⟩ none), .op (.dispatchNext engines)] 0
  cases hnone

end MayMust
