import Mathlib.Data.List.Nodup
import Mathlib.Data.Prod.Lex
import Mathlib.Data.Set.Card
import Mathlib.Logic.Function.Basic

/-!
# Saturation with a worklist

A set of facts is closed under rules by taking the rules from a queue: the facts a rule yields are
added one by one, and each new fact puts the rules that may yield more because of it back on the
queue. `drain` repeats this until the queue is empty.

Three results, each resting on one fact about a single addition (`insertFact`).

* If a rule that yields something missing is always queued, the final set is closed under every
  rule (`closed_of_drain`).
* The final set stays inside every set that contains the initial facts and is closed
  (`subset_of_drain`).
* If some finite set is such a bound, the queue becomes empty (`exists_drain`): an addition leaves
  fewer facts of the bound missing, and a round without additions shortens the queue.
-/

namespace Library

/-! ### The queue -/

/-- A queue without repetition and the flags that say what is on it. -/
structure Worklist (ι : Type*) [DecidableEq ι] where
  queue : List ι
  queued : ι → Bool
  queued_iff : ∀ i, queued i = true ↔ i ∈ queue
  nodup : queue.Nodup

namespace Worklist

variable {ι : Type*} [DecidableEq ι] {w w' : Worklist ι} {i j : ι}

instance : Membership ι (Worklist ι) := ⟨fun w i ↦ i ∈ w.queue⟩

theorem mem_def : i ∈ w ↔ i ∈ w.queue := Iff.rfl

/-- The empty queue. -/
def empty : Worklist ι := ⟨[], fun _ ↦ false, by simp, List.nodup_nil⟩

/-- Append an element that is not queued. -/
def push (w : Worklist ι) (i : ι) : Worklist ι :=
  if h : w.queued i = true then w
  else
    { queue := w.queue ++ [i]
      queued := Function.update w.queued i true
      queued_iff := fun j ↦ by
        by_cases hj : j = i
        · simp [hj]
        · simp [hj, w.queued_iff]
      nodup := by
        have hi : i ∉ w.queue := fun hi ↦ h ((w.queued_iff i).2 hi)
        exact w.nodup.append (List.nodup_singleton i) (by simpa using hi) }

/-- Append those elements that are not queued. -/
def pushAll (w : Worklist ι) (is : List ι) : Worklist ι := is.foldl push w

/-- The first element and the rest. -/
def pop : Worklist ι → Option (ι × Worklist ι)
  | ⟨[], _, _, _⟩ => none
  | ⟨i :: queue, queued, hqueued, hnodup⟩ =>
    some (i,
      { queue := queue
        queued := Function.update queued i false
        queued_iff := fun j ↦ by
          have hi := (List.nodup_cons.1 hnodup).1
          by_cases hj : j = i
          · simp [hj, hi]
          · simp [hj, hqueued]
        nodup := (List.nodup_cons.1 hnodup).2 })

theorem mem_push : j ∈ w.push i ↔ j ∈ w ∨ j = i := by
  rw [push]
  split_ifs with h
  · have hi : i ∈ w := (w.queued_iff i).1 h
    exact ⟨Or.inl, fun hj ↦ hj.elim id fun heq ↦ heq ▸ hi⟩
  · simp [mem_def]

theorem mem_pushAll {is : List ι} : j ∈ w.pushAll is ↔ j ∈ w ∨ j ∈ is := by
  induction is generalizing w with
  | nil => simp [pushAll]
  | cons i is ih =>
    rw [pushAll, List.foldl_cons, ← pushAll, ih, mem_push, List.mem_cons, or_assoc]

theorem notMem_of_pop_eq_none (h : w.pop = none) : i ∉ w := by
  obtain ⟨_ | ⟨j, queue⟩, queued, hqueued, hnodup⟩ := w
  · exact List.not_mem_nil
  · cases h

theorem mem_of_pop_eq_some (h : w.pop = some (i, w')) : j ∈ w ↔ j = i ∨ j ∈ w' := by
  obtain ⟨_ | ⟨k, queue⟩, queued, hqueued, hnodup⟩ := w
  · cases h
  · obtain ⟨rfl, rfl⟩ := Prod.mk.inj (Option.some.inj h)
    exact List.mem_cons

theorem length_of_pop_eq_some (h : w.pop = some (i, w')) :
    w'.queue.length < w.queue.length := by
  obtain ⟨_ | ⟨k, queue⟩, queued, hqueued, hnodup⟩ := w
  · cases h
  · obtain ⟨rfl, rfl⟩ := Prod.mk.inj (Option.some.inj h)
    exact Nat.lt_succ_self _

end Worklist

/-! ### Saturation -/

/-- Rules that yield facts, and a state that records facts. -/
structure Saturation (ι α σ : Type*) where
  /-- The state records the fact. -/
  has : σ → α → Prop
  decidableHas : ∀ s F, Decidable (has s F)
  insert : σ → α → σ
  /-- The facts a rule yields in a state. -/
  consequences : ι → σ → List α
  /-- The rules that are queued because of a new fact, which the state already records. -/
  readers : σ → α → List ι
  has_insert : ∀ s F G, has (insert s F) G ↔ G = F ∨ has s G
  consequences_mono : ∀ i s s', (∀ F, has s F → has s' F) → consequences i s ⊆ consequences i s'
  /-- A rule that yields more because of a new fact is queued. -/
  mem_consequences_insert : ∀ i s F G, G ∈ consequences i (insert s F) →
    G ∈ consequences i s ∨ i ∈ readers (insert s F) F

/-- The state of the iteration. -/
structure Solving (ι σ : Type*) [DecidableEq ι] where
  state : σ
  worklist : Worklist ι

namespace Saturation

variable {ι α σ : Type*} [DecidableEq ι] (R : Saturation ι α σ)

instance (s : σ) (F : α) : Decidable (R.has s F) := R.decidableHas s F

/-- Record a fact; if it is new, queue the rules that read it. -/
def insertFact (s : Solving ι σ) (F : α) : Solving ι σ :=
  if R.has s.state F then s
  else
    let state := R.insert s.state F
    ⟨state, s.worklist.pushAll (R.readers state F)⟩

/-- Record what a rule yields. -/
def process (s : Solving ι σ) (i : ι) : Solving ι σ :=
  (R.consequences i s.state).foldl R.insertFact s

/-- Process the queued rules until none is left, for a number of rounds at most. -/
def drain : ℕ → Solving ι σ → Option σ
  | 0, _ => none
  | fuel + 1, s =>
    match s.worklist.pop with
    | none => some s.state
    | some (i, worklist) => drain fuel (R.process ⟨s.state, worklist⟩ i)

/-- All that the rule yields is recorded. -/
def Closed (s : σ) (i : ι) : Prop := ∀ F ∈ R.consequences i s, R.has s F

/-- In states that record only facts of the set, the rules yield only facts of the set. -/
def Bounds (U : Set α) : Prop :=
  ∀ i s, (∀ F, R.has s F → F ∈ U) → ∀ F ∈ R.consequences i s, F ∈ U

variable {R} {s : Solving ι σ} {i j : ι} {F G : α} {Fs : List α} {U : Set α} {fuel : ℕ} {z : σ}

/-! ### Recording one fact -/

theorem has_insertFact : R.has (R.insertFact s F).state G ↔ G = F ∨ R.has s.state G := by
  rw [insertFact]
  split_ifs with h
  · exact ⟨Or.inr, fun hG ↦ hG.elim (fun heq ↦ heq ▸ h) id⟩
  · exact R.has_insert _ _ _

theorem mem_worklist_insertFact (h : j ∈ s.worklist) : j ∈ (R.insertFact s F).worklist := by
  rw [insertFact]
  split_ifs
  · exact h
  · exact Worklist.mem_pushAll.2 (Or.inl h)

/-- A rule yields nothing new because of the recorded fact, or it is queued. -/
theorem mem_consequences_insertFact (h : G ∈ R.consequences j (R.insertFact s F).state) :
    G ∈ R.consequences j s.state ∨ j ∈ (R.insertFact s F).worklist := by
  unfold insertFact at h ⊢
  split_ifs at h ⊢ with hF
  · exact Or.inl h
  · exact (R.mem_consequences_insert _ _ _ _ h).imp_right fun hj ↦ Worklist.mem_pushAll.2
      (Or.inr hj)

/-! ### Recording several facts -/

theorem has_foldl_insertFact :
    R.has (Fs.foldl R.insertFact s).state G ↔ G ∈ Fs ∨ R.has s.state G := by
  induction Fs generalizing s with
  | nil => simp
  | cons F Fs ih => rw [List.foldl_cons, ih, has_insertFact, List.mem_cons, or_left_comm, or_assoc]

theorem mem_worklist_foldl_insertFact (h : j ∈ s.worklist) :
    j ∈ (Fs.foldl R.insertFact s).worklist := by
  induction Fs generalizing s with
  | nil => exact h
  | cons F Fs ih => exact ih (mem_worklist_insertFact h)

theorem mem_consequences_foldl_insertFact
    (h : G ∈ R.consequences j (Fs.foldl R.insertFact s).state) :
    G ∈ R.consequences j s.state ∨ j ∈ (Fs.foldl R.insertFact s).worklist := by
  induction Fs generalizing s with
  | nil => exact Or.inl h
  | cons F Fs ih =>
    rcases ih h with hG | hj
    · rcases mem_consequences_insertFact hG with hG | hj
      · exact Or.inl hG
      · exact Or.inr (mem_worklist_foldl_insertFact (s := R.insertFact s F) hj)
    · exact Or.inr hj

/-- Recording facts changes nothing if they are recorded already. -/
theorem foldl_insertFact_eq_self (h : ∀ F ∈ Fs, R.has s.state F) :
    Fs.foldl R.insertFact s = s := by
  induction Fs with
  | nil => rfl
  | cons F Fs ih =>
    have hF : R.insertFact s F = s := by rw [insertFact, if_pos (h F List.mem_cons_self)]
    rw [List.foldl_cons, hF]
    exact ih fun G hG ↦ h G (List.mem_cons_of_mem _ hG)

/-! ### One round and whole runs -/

/-- A round keeps it true that every rule is closed or queued. -/
theorem closed_or_mem_process (h : ∀ j, R.Closed s.state j ∨ j = i ∨ j ∈ s.worklist) (j : ι) :
    R.Closed (R.process s i).state j ∨ j ∈ (R.process s i).worklist := by
  by_cases hj : j ∈ (R.process s i).worklist
  · exact Or.inr hj
  refine Or.inl fun G hG ↦ ?_
  have hold : G ∈ R.consequences j s.state :=
    (mem_consequences_foldl_insertFact hG).resolve_right hj
  rw [process, has_foldl_insertFact]
  rcases h j with hclosed | rfl | hmem
  · exact Or.inr (hclosed G hold)
  · exact Or.inl hold
  · exact absurd (mem_worklist_foldl_insertFact hmem) hj

/-- **The final set is closed.** If every rule is closed or queued at the start, every rule is
closed when the queue is empty. -/
theorem closed_of_drain (h : ∀ j, R.Closed s.state j ∨ j ∈ s.worklist)
    (hz : R.drain fuel s = some z) (j : ι) : R.Closed z j := by
  induction fuel generalizing s with
  | zero => cases hz
  | succ fuel ih =>
    rw [drain] at hz
    cases hpop : s.worklist.pop with
    | none =>
      rw [hpop] at hz
      obtain rfl := Option.some.inj hz
      exact (h j).resolve_right (Worklist.notMem_of_pop_eq_none hpop)
    | some next =>
      obtain ⟨i, worklist⟩ := next
      rw [hpop] at hz
      refine ih (closed_or_mem_process fun k ↦ ?_) hz
      exact (h k).imp_right (Worklist.mem_of_pop_eq_some hpop).1

/-- A round stays inside a bound. -/
theorem subset_process (hU : R.Bounds U) (h : ∀ F, R.has s.state F → F ∈ U) (F : α)
    (hF : R.has (R.process s i).state F) : F ∈ U := by
  rw [process, has_foldl_insertFact] at hF
  exact hF.elim (hU i s.state h F) (h F)

/-- **The final set is least.** It stays inside every bound that contains the initial facts. -/
theorem subset_of_drain (hU : R.Bounds U) (h : ∀ F, R.has s.state F → F ∈ U)
    (hz : R.drain fuel s = some z) (F : α) (hF : R.has z F) : F ∈ U := by
  induction fuel generalizing s with
  | zero => cases hz
  | succ fuel ih =>
    rw [drain] at hz
    cases hpop : s.worklist.pop with
    | none =>
      rw [hpop] at hz
      obtain rfl := Option.some.inj hz
      exact h F hF
    | some next =>
      obtain ⟨i, worklist⟩ := next
      rw [hpop] at hz
      exact ih (subset_process (s := ⟨s.state, worklist⟩) hU h) hz

/-- The initial facts are never lost. -/
theorem has_of_drain (hz : R.drain fuel s = some z) (hF : R.has s.state F) : R.has z F := by
  induction fuel generalizing s with
  | zero => cases hz
  | succ fuel ih =>
    rw [drain] at hz
    cases hpop : s.worklist.pop with
    | none =>
      rw [hpop] at hz
      obtain rfl := Option.some.inj hz
      exact hF
    | some next =>
      obtain ⟨i, worklist⟩ := next
      rw [hpop] at hz
      exact ih hz (has_foldl_insertFact.2 (Or.inr hF))

/-- The facts of a finite bound that are not recorded yet. -/
noncomputable def missing (R : Saturation ι α σ) (U : Set α) (s : σ) : ℕ :=
  {F ∈ U | ¬ R.has s F}.ncard

/-- A round that records something leaves less of a finite bound missing. -/
theorem missing_process_lt (hfinite : U.Finite) (hU : R.Bounds U)
    (h : ∀ F, R.has s.state F → F ∈ U) (hnew : ¬ R.Closed s.state i) :
    R.missing U (R.process s i).state < R.missing U s.state := by
  simp only [Closed, not_forall] at hnew
  obtain ⟨F, hF, hmissing⟩ := hnew
  refine Set.ncard_lt_ncard ?_ (hfinite.subset (Set.sep_subset _ _))
  refine ⟨fun G hG ↦ ⟨hG.1, fun hG' ↦ hG.2 ?_⟩, fun hsub ↦ ?_⟩
  · exact has_foldl_insertFact.2 (Or.inr hG')
  · exact (hsub ⟨hU i s.state h F hF, hmissing⟩).2 (has_foldl_insertFact.2 (Or.inl hF))

/-- **Termination.** If a finite set contains the initial facts and bounds the rules, the queue
becomes empty. -/
theorem exists_drain (hfinite : U.Finite) (hU : R.Bounds U) (s : Solving ι σ)
    (h : ∀ F, R.has s.state F → F ∈ U) : ∃ fuel, (R.drain fuel s).isSome := by
  -- The measure is what is missing, then the length of the queue.
  induction hm : toLex (R.missing U s.state, s.worklist.queue.length) using
    WellFoundedLT.induction generalizing s with
  | ind m ih =>
    cases hpop : s.worklist.pop with
    | none => exact ⟨1, by simp [drain, hpop]⟩
    | some next =>
      obtain ⟨i, worklist⟩ := next
      obtain ⟨fuel, hfuel⟩ : ∃ fuel, (R.drain fuel (R.process ⟨s.state, worklist⟩ i)).isSome := by
        refine ih _ ?_ _ (subset_process (s := ⟨s.state, worklist⟩) hU h) rfl
        subst hm
        by_cases hclosed : R.Closed s.state i
        · have hsame : R.process ⟨s.state, worklist⟩ i = ⟨s.state, worklist⟩ :=
            foldl_insertFact_eq_self (s := ⟨s.state, worklist⟩) hclosed
          rw [hsame]
          exact Prod.Lex.right _ (Worklist.length_of_pop_eq_some hpop)
        · exact Prod.Lex.left _ _ (missing_process_lt (s := ⟨s.state, worklist⟩) hfinite hU h
            hclosed)
      exact ⟨fuel + 1, by rw [drain, hpop]; exact hfuel⟩

end Saturation

end Library
