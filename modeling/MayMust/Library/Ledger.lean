import Mathlib.Data.List.Range

/-!
# Ledgers

A ledger numbers requests as they come and serves them in the order of their numbers. All there is
to know about it is how many requests have been issued and how many of them served: those that wait
are the numbers in between, in ascending order. A component that keeps its requests in queues and
maps follows a ledger, and what holds of the ledger then holds of the queues and maps.
-/

namespace Library

/-- The requests issued so far, and how many of them have been served. -/
structure Ledger where
  served : ℕ
  issued : ℕ
  served_le : served ≤ issued

namespace Ledger

/-- No request has been issued. -/
def empty : Ledger := ⟨0, 0, le_rfl⟩

variable (l : Ledger)

/-- One more request. -/
def issue : Ledger := ⟨l.served, l.issued + 1, Nat.le_succ_of_le l.served_le⟩

/-- The next request that waits is served, if there is one. -/
def serve : Ledger := ⟨min (l.served + 1) l.issued, l.issued, min_le_right _ _⟩

/-- All requests that wait are served. -/
def serveAll : Ledger := ⟨l.issued, l.issued, le_rfl⟩

/-- The requests that wait, the next one first. -/
def waiting : List ℕ := List.range' l.served (l.issued - l.served)

variable {l} {id : ℕ} {rest : List ℕ}

@[simp] theorem served_empty : empty.served = 0 := rfl
@[simp] theorem waiting_empty : empty.waiting = [] := rfl
@[simp] theorem issued_issue : l.issue.issued = l.issued + 1 := rfl
@[simp] theorem served_issue : l.issue.served = l.served := rfl
@[simp] theorem issued_serve : l.serve.issued = l.issued := rfl
@[simp] theorem issued_serveAll : l.serveAll.issued = l.issued := rfl
@[simp] theorem served_serveAll : l.serveAll.served = l.issued := rfl

theorem mem_waiting : id ∈ l.waiting ↔ l.served ≤ id ∧ id < l.issued := by
  have hle := l.served_le
  rw [waiting, List.mem_range'_1]
  omega

theorem nodup_waiting : l.waiting.Nodup := List.nodup_range'

@[simp] theorem waiting_serveAll : l.serveAll.waiting = [] := by
  rw [waiting, served_serveAll, issued_serveAll, Nat.sub_self]
  rfl

theorem waiting_issue : l.issue.waiting = l.waiting ++ [l.issued] := by
  have hle := l.served_le
  have hlength : l.issued + 1 - l.served = l.issued - l.served + 1 := by omega
  have hlast : l.served + (l.issued - l.served) = l.issued := by omega
  rw [waiting, waiting, issued_issue, served_issue, hlength, List.range'_concat, Nat.one_mul, hlast]

/-- Who is next, and who waits after that. -/
theorem waiting_eq_cons (h : l.waiting = id :: rest) :
    id = l.served ∧ l.serve.served = l.served + 1 ∧ l.serve.waiting = rest := by
  have hid : l.served ≤ id ∧ id < l.issued := mem_waiting.1 (h ▸ List.mem_cons_self)
  have hlength : l.issued - l.served = l.issued - (l.served + 1) + 1 := by omega
  have hserved : l.serve.served = l.served + 1 := min_eq_left (by omega)
  rw [waiting, hlength, List.range'_succ] at h
  obtain ⟨rfl, rfl⟩ := List.cons.inj h
  exact ⟨rfl, hserved, by rw [waiting, hserved, issued_serve]⟩

/-- Nobody waits once everything has been served. -/
theorem serveAll_of_waiting_eq_nil (h : l.waiting = []) : l.serveAll = l := by
  obtain ⟨served, issued, hle⟩ := l
  have hzero : issued - served = 0 := by simpa [waiting] using h
  have heq : served = issued := by omega
  subst heq
  rfl

@[simp] theorem serveAll_serve : l.serve.serveAll = l.serveAll := rfl

/-- Those served and those that wait are all the requests, in the order they came. -/
theorem range_append_waiting : List.range l.served ++ l.waiting = List.range l.issued := by
  have hle := l.served_le
  have happend := @List.range'_append_1 0 l.served (l.issued - l.served)
  rw [Nat.zero_add, Nat.add_sub_cancel' hle] at happend
  rw [waiting, List.range_eq_range', List.range_eq_range', happend]

end Ledger

end Library
