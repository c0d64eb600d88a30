import Mathlib.Data.List.Basic
import Mathlib.Data.List.Lex
import Mathlib.Logic.Function.Basic
import MayMust.Library.Path

/-!
# Bounded depth-first search for paths

`search` lists the paths from a node to a target in a graph given by its outgoing edges, under a
bound on the length and a bound on the visits to each node. A path is departures as soon as it meets
the target. The two results are that the search finds exactly these paths (`mem_search`) and that
it lists them in the lexicographic order of their edges, hence without repetition
(`pairwise_search`).

The budget of visits is a function from nodes to numbers that starts at zero and is raised at a
node while the paths through it are explored.
-/

namespace Library

variable {ν ε : Type*} [DecidableEq ν]

/-- One more visit to a node. -/
def visit (visits : ν → ℕ) (n : ν) : ν → ℕ := Function.update visits n (visits n + 1)

section Search

variable (next : ν → List ε) (head : ε → ν) (target : ν) (maxVisits : ℕ)

/-- The paths from a node to its first arrival at the target, in depth-first order. -/
def search : ℕ → ν → (ν → ℕ) → List (List ε)
  | remaining, node, visits =>
    if node = target then [[]]
    else
      match remaining with
      | 0 => []
      | remaining + 1 =>
        if maxVisits ≤ visits node then []
        else (next node).flatMap fun e ↦
          (search remaining (head e) (visit visits node)).map (e :: ·)

/-- An edge of the graph leads from one node to another. -/
def Follows (e : ε) (n m : ν) : Prop := e ∈ next n ∧ m = head e

/-- The nodes a path leaves, in order. -/
def departures (n : ν) : List ε → List ν
  | [] => []
  | e :: es => n :: departures (head e) es

/-- The path ends at its first arrival at the target, within both bounds. -/
structure Bounded (remaining : ℕ) (visits : ν → ℕ) (n : ν) (path : List ε) : Prop where
  follows : Path (Follows next head) path n target
  first : target ∉ departures head n path
  length_le : path.length ≤ remaining
  visits_le : ∀ m ∈ departures head n path, visits m + (departures head n path).count m ≤ maxVisits

variable {next head target maxVisits} {remaining : ℕ} {visits : ν → ℕ} {n : ν} {e : ε}
  {es path : List ε}

theorem bounded_nil : Bounded next head target maxVisits remaining visits n [] ↔ n = target :=
  ⟨fun h ↦ h.follows, fun h ↦
    ⟨h, List.not_mem_nil, Nat.zero_le _, fun _ hm ↦ absurd hm List.not_mem_nil⟩⟩

/-- Leaving a node costs one of its visits and one edge. -/
theorem bounded_cons : Bounded next head target maxVisits (remaining + 1) visits n (e :: es) ↔
    n ≠ target ∧ visits n < maxVisits ∧ e ∈ next n ∧
      Bounded next head target maxVisits remaining (visit visits n) (head e) es := by
  constructor
  · intro h
    obtain ⟨m, ⟨he, rfl⟩, hpath⟩ := h.follows
    have hn := h.visits_le n List.mem_cons_self
    rw [departures, List.count_cons_self] at hn
    refine ⟨fun hne ↦ h.first (hne ▸ List.mem_cons_self), by omega, he, hpath,
      fun hmem ↦ h.first (List.mem_cons_of_mem _ hmem), Nat.le_of_succ_le_succ h.length_le,
      fun m hm ↦ ?_⟩
    by_cases hmn : m = n
    · subst hmn
      simp only [visit, Function.update_self]
      omega
    · have hm' := h.visits_le m (List.mem_cons_of_mem _ hm)
      rw [departures, List.count_cons_of_ne (Ne.symm hmn)] at hm'
      simpa [visit, Function.update_of_ne hmn] using hm'
  · rintro ⟨hne, hlt, he, h⟩
    refine ⟨⟨head e, ⟨he, rfl⟩, h.follows⟩, ?_, Nat.succ_le_succ h.length_le, fun m hm ↦ ?_⟩
    · rw [departures, List.mem_cons, not_or]
      exact ⟨Ne.symm hne, h.first⟩
    · by_cases hmn : m = n
      · subst hmn
        rw [departures, List.count_cons_self]
        by_cases hlater : m ∈ departures head (head e) es
        · have hm' := h.visits_le m hlater
          simp only [visit, Function.update_self] at hm'
          omega
        · rw [List.count_eq_zero_of_not_mem hlater]
          omega
      · have hlater : m ∈ departures head (head e) es := (List.mem_cons.1 hm).resolve_left hmn
        have hm' := h.visits_le m hlater
        rw [departures, List.count_cons_of_ne (Ne.symm hmn)]
        simpa [visit, Function.update_of_ne hmn] using hm'

/-- The search finds the bounded paths and no others. -/
theorem mem_search : path ∈ search next head target maxVisits remaining n visits ↔
    Bounded next head target maxVisits remaining visits n path := by
  induction remaining generalizing n visits path with
  | zero =>
    rw [search]
    split
    · rename_i hn
      rw [List.mem_singleton]
      constructor
      · rintro rfl
        exact bounded_nil.2 hn
      · intro h
        exact List.length_eq_zero_iff.1 (Nat.le_zero.1 h.length_le)
    · rename_i hn
      refine ⟨fun h ↦ absurd h List.not_mem_nil, fun h ↦ ?_⟩
      have hnil : path = [] := List.length_eq_zero_iff.1 (Nat.le_zero.1 h.length_le)
      exact absurd (bounded_nil.1 (hnil ▸ h)) hn
  | succ remaining ih =>
    rw [search]
    split
    · rename_i hn
      rw [List.mem_singleton]
      constructor
      · rintro rfl
        exact bounded_nil.2 hn
      · intro h
        cases path with
        | nil => rfl
        | cons e es => exact absurd hn (bounded_cons.1 h).1
    · rename_i hn
      have hnil : ¬ Bounded next head target maxVisits (remaining + 1) visits n [] :=
        fun h ↦ hn (bounded_nil.1 h)
      split
      · rename_i hfull
        refine ⟨fun h ↦ absurd h List.not_mem_nil, fun h ↦ ?_⟩
        cases path with
        | nil => exact absurd h hnil
        | cons e es => exact absurd (bounded_cons.1 h).2.1 (by omega)
      · rename_i hfree
        simp only [List.mem_flatMap, List.mem_map]
        constructor
        · rintro ⟨e, he, es, hes, rfl⟩
          exact bounded_cons.2 ⟨hn, by omega, he, ih.1 hes⟩
        · intro h
          cases path with
          | nil => exact absurd h hnil
          | cons e es =>
            obtain ⟨-, -, he, hes⟩ := bounded_cons.1 h
            exact ⟨e, he, es, ih.2 hes, rfl⟩

/-- The paths come in the lexicographic order of their edges. -/
theorem pairwise_search {lt : ε → ε → Prop} (hnext : ∀ n, (next n).Pairwise lt) :
    (search next head target maxVisits remaining n visits).Pairwise (List.Lex lt) := by
  induction remaining generalizing n visits with
  | zero =>
    rw [search]
    split <;> simp
  | succ remaining ih =>
    rw [search]
    split
    · simp
    split
    · simp
    refine List.pairwise_flatMap.2 ⟨fun e _ ↦ List.pairwise_map.2 (ih.imp .cons), ?_⟩
    refine (hnext n).imp fun {e f} hlt p hp q hq ↦ ?_
    obtain ⟨p', -, rfl⟩ := List.mem_map.1 hp
    obtain ⟨q', -, rfl⟩ := List.mem_map.1 hq
    exact .rel hlt

/-- No path is listed twice. -/
theorem nodup_search {lt : ε → ε → Prop} (hirrefl : ∀ e, ¬ lt e e)
    (hnext : ∀ n, (next n).Pairwise lt) :
    (search next head target maxVisits remaining n visits).Nodup := by
  refine (pairwise_search hnext).imp fun {p q} hlt hne ↦ ?_
  subst hne
  exact List.lex_irrefl hirrefl p hlt

end Search

end Library
