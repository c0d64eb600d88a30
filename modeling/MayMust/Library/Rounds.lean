import Mathlib.Data.Finset.Card
import Mathlib.Data.Option.Basic
import Mathlib.Logic.Relation

/-!
# Inference in rounds

Some entries are inferred from other entries, all at once and round by round: what is inferred from
the entries of a round replaces them in the next one, and an entry is kept where nothing is
inferred. The inference need not be a function of the entries, but what it infers from related
entries is related (`Inference.respects`).

An entry settles one round after the entries it is inferred from (`Rounds.settles_succ`). If no
entry is inferred from itself, in however many steps, then all entries have settled after as many
rounds as there are entries that are inferred (`Rounds.settles`), and they solve the system that the
inference is (`Rounds.solves`).
-/

namespace Library

open Relation

variable {ι β : Type*}

/-- Up to equality, related entries are equal. -/
theorem rel_eq_iff {x y : Option β} : Option.Rel Eq x y ↔ x = y := by
  cases x <;> cases y <;> simp

/-- An inference of entries from entries. -/
structure Inference (ι β : Type*) where
  /-- Which entries are as good as each other. -/
  related : Setoid β
  /-- The entry is inferred from the other one. -/
  Reads : ι → ι → Prop
  /-- From the entries, this may be inferred for the index. -/
  Infers : ι → (ι → Option β) → Option β → Prop
  respects : ∀ i f f' y y', (∀ j, Reads i j → Option.Rel related.r (f j) (f' j)) →
    Infers i f y → Infers i f' y' → Option.Rel related.r y y'

namespace Inference

variable (I : Inference ι β)

/-- Two entries are related, or both missing. -/
def Same (x y : Option β) : Prop := Option.Rel I.related.r x y

variable {I} {x y z : Option β}

theorem Same.refl (x : Option β) : I.Same x x := by
  cases x with
  | none => exact .none
  | some a => exact .some (I.related.refl a)

theorem Same.symm (h : I.Same x y) : I.Same y x := by
  cases h with
  | none => exact .none
  | some h => exact .some (I.related.symm h)

theorem Same.trans (h : I.Same x y) (h' : I.Same y z) : I.Same x z := by
  cases h with
  | none => exact h'
  | some h =>
    cases h' with
    | some h' => exact .some (I.related.trans h h')

variable (I)

/-- The entries of the rounds: what is inferred replaces the entry. -/
structure Rounds (nodes : Finset ι) (x : ℕ → ι → Option β) : Prop where
  inferred : ∀ m, ∀ i ∈ nodes, ∃ y, I.Infers i (x m) y ∧ x (m + 1) i = y.or (x m i)
  kept : ∀ m, ∀ i ∉ nodes, x (m + 1) i = x m i

/-- From the round on, the entry stays as it is. -/
def Settles (x : ℕ → ι → Option β) (k : ℕ) (i : ι) : Prop := ∀ m ≥ k, I.Same (x m i) (x k i)

variable {I} {nodes : Finset ι} {entries : ℕ → ι → Option β} {k k' m : ℕ} {i : ι}

theorem Settles.mono (h : I.Settles entries k i) (hle : k ≤ k') : I.Settles entries k' i :=
  fun m hm ↦ (h m (hle.trans hm)).trans (h k' hle).symm

/-- Entries that are not inferred never change. -/
theorem Rounds.settles_of_notMem (h : I.Rounds nodes entries) (hi : i ∉ nodes) :
    I.Settles entries 0 i := by
  intro m _
  induction m with
  | zero => exact .refl _
  | succ m ih => exact h.kept m i hi ▸ ih (Nat.zero_le m)

/-- An entry settles one round after the entries that it is inferred from. -/
theorem Rounds.settles_succ (h : I.Rounds nodes entries) (hi : i ∈ nodes)
    (hreads : ∀ j, I.Reads i j → I.Settles entries k j) : I.Settles entries (k + 1) i := by
  obtain ⟨y, hy, hfirst⟩ := h.inferred k i hi
  have hlater : ∀ m ≥ k, ∃ z, I.Same z y ∧ entries (m + 1) i = z.or (entries m i) := by
    intro m hm
    obtain ⟨z, hz, hnext⟩ := h.inferred m i hi
    exact ⟨z, I.respects i _ _ z y (fun j hj ↦ hreads j hj m hm) hz hy, hnext⟩
  cases y with
  | none =>
    -- Nothing is ever inferred again.
    have hsame : ∀ m ≥ k, entries m i = entries k i := by
      intro m hm
      induction m, hm using Nat.le_induction with
      | base => rfl
      | succ m hm ih =>
        obtain ⟨z, hz, hnext⟩ := hlater m hm
        cases hz with
        | none => exact hnext.trans ih
    intro m hm
    rw [hsame m (Nat.le_of_succ_le hm), hsame (k + 1) (Nat.le_succ k)]
    exact .refl _
  | some s =>
    intro m hm
    obtain ⟨m, rfl⟩ := Nat.exists_eq_add_of_le' hm
    obtain ⟨z, hz, hnext⟩ := hlater (m + k) (Nat.le_add_left k m)
    rw [hfirst, ← Nat.add_assoc, hnext]
    cases hz with
    | some hz => exact .some hz

section Acyclic

open Classical in
/-- The entries that the entry is inferred from, in any number of steps. -/
noncomputable def below (I : Inference ι β) (nodes : Finset ι) (i : ι) : Finset ι :=
  nodes.filter (TransGen I.Reads i)

open Classical in
theorem mem_below {j : ι} : j ∈ I.below nodes i ↔ j ∈ nodes ∧ TransGen I.Reads i j :=
  Finset.mem_filter

theorem card_below_lt (hacyclic : ∀ i, ¬ TransGen I.Reads i i) {j : ι} (hj : j ∈ nodes)
    (hreads : I.Reads i j) : (I.below nodes j).card < (I.below nodes i).card := by
  refine Finset.card_lt_card ⟨fun l hl ↦ ?_, fun hsub ↦ ?_⟩
  · obtain ⟨hl, hjl⟩ := mem_below.1 hl
    exact mem_below.2 ⟨hl, .head hreads hjl⟩
  · exact hacyclic j (mem_below.1 (hsub (mem_below.2 ⟨hj, .single hreads⟩))).2

theorem card_below_lt_card (hacyclic : ∀ i, ¬ TransGen I.Reads i i) (hi : i ∈ nodes) :
    (I.below nodes i).card < nodes.card := by
  refine Finset.card_lt_card ⟨fun j hj ↦ (mem_below.1 hj).1, fun hsub ↦ ?_⟩
  exact hacyclic i (mem_below.1 (hsub hi)).2

theorem Rounds.settles_below (h : I.Rounds nodes entries)
    (hacyclic : ∀ i, ¬ TransGen I.Reads i i) (hi : i ∈ nodes) :
    I.Settles entries ((I.below nodes i).card + 1) i := by
  induction hcard : (I.below nodes i).card using Nat.strong_induction_on generalizing i with
  | _ c ih =>
    refine h.settles_succ hi fun j hj ↦ ?_
    by_cases hmem : j ∈ nodes
    · have hless := hcard ▸ card_below_lt hacyclic hmem hj
      exact (ih _ hless hmem rfl).mono hless
    · exact (h.settles_of_notMem hmem).mono (Nat.zero_le c)

/-- **The rounds settle**, after as many of them as there are entries that are inferred. -/
theorem Rounds.settles (h : I.Rounds nodes entries) (hacyclic : ∀ i, ¬ TransGen I.Reads i i)
    (i : ι) : I.Settles entries nodes.card i := by
  by_cases hi : i ∈ nodes
  · exact (h.settles_below hacyclic hi).mono (card_below_lt_card hacyclic hi)
  · exact (h.settles_of_notMem hi).mono (Nat.zero_le _)

/-- What is inferred from the last entries is related to them. -/
theorem Rounds.solves (h : I.Rounds nodes entries) (hacyclic : ∀ i, ¬ TransGen I.Reads i i)
    (hm : nodes.card ≤ m) (hi : i ∈ nodes) {y : Option β} (hy : I.Infers i (entries m) y) :
    I.Same (y.or (entries m i)) (entries m i) := by
  obtain ⟨z, hz, hnext⟩ := h.inferred m i hi
  have hsame : I.Same y z := I.respects i _ _ y z (fun j _ ↦ Same.refl _) hy hz
  have hsettled := (h.settles hacyclic i).mono hm (m + 1) (Nat.le_succ m)
  rw [hnext] at hsettled
  refine .trans ?_ hsettled
  cases hsame with
  | none => exact .refl _
  | some hrelated => exact .some hrelated

end Acyclic

end Inference

end Library
