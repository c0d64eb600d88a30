import Mathlib.Algebra.Order.Ring.Int
import Mathlib.Tactic.Common

/-!
# Writing a block of cells

A memory maps addresses to contents. A block of cells is written one cell after the other, each with
a value that may depend on the memory at that point (`writeBlock`); a copy reads its source cells
(`copyBlock`), some of which an earlier step of the same copy may have overwritten.

Where each cell of the memory after a copy comes from does not depend on the contents: `origin` is
the copy of the identity, and every copy reads the memory before at the origins
(`copyBlock_eq_comp_origin`). For two blocks of arrays the origin of every written cell is the
source cell it should come from exactly when the source does not start below a destination it
overlaps (`origin_block_eq_iff`), and in no case is a written cell its own origin
(`origin_block_ne`), unless the blocks are the same.
-/

namespace Library

variable {α β : Type*} [DecidableEq α]

/-- Write cells `dst 0`, `dst 1`, …, one after the other. -/
def writeBlock (dst : ℕ → α) (value : ℕ → (α → β) → β) (m : α → β) : ℕ → α → β
  | 0 => m
  | n + 1 =>
    Function.update (writeBlock dst value m n) (dst n) (value n (writeBlock dst value m n))

variable {dst src : ℕ → α} {value : ℕ → (α → β) → β} {m : α → β} {n k : ℕ} {a : α}

/-- No other cell is written. -/
theorem writeBlock_of_ne (h : ∀ k < n, dst k ≠ a) : writeBlock dst value m n a = m a := by
  induction n with
  | zero => rfl
  | succ n ih =>
    rw [writeBlock, Function.update_of_ne (h n n.lt_succ_self).symm]
    exact ih fun k hk ↦ h k (hk.trans n.lt_succ_self)

/-- A written cell keeps what was written to it. -/
theorem writeBlock_dst (hdst : Function.Injective dst) (hk : k < n) :
    writeBlock dst value m n (dst k) = value k (writeBlock dst value m k) := by
  induction n with
  | zero => omega
  | succ n ih =>
    rw [writeBlock]
    obtain hlt | rfl := Nat.lt_succ_iff_lt_or_eq.1 hk
    · rw [Function.update_of_ne (hdst.ne hlt.ne), ih hlt]
    · exact Function.update_self ..

/-- Copy cells `src 0`, `src 1`, … to `dst 0`, `dst 1`, …, one after the other. -/
def copyBlock (dst src : ℕ → α) (m : α → β) (n : ℕ) : α → β :=
  writeBlock dst (fun k m ↦ m (src k)) m n

/-- Where the content of a cell after a copy was before it. -/
def origin (dst src : ℕ → α) (n : ℕ) : α → α := copyBlock dst src id n

theorem copyBlock_eq_comp_origin (m : α → β) (n : ℕ) :
    copyBlock dst src m n = m ∘ origin dst src n := by
  induction n with
  | zero => rfl
  | succ n ih =>
    show Function.update (copyBlock dst src m n) (dst n) (copyBlock dst src m n (src n)) =
      m ∘ Function.update (origin dst src n) (dst n) (origin dst src n (src n))
    rw [ih, Function.comp_update, Function.comp_apply]

theorem origin_of_ne (h : ∀ k < n, dst k ≠ a) : origin dst src n a = a :=
  writeBlock_of_ne h

theorem origin_dst (hdst : Function.Injective dst) (hk : k < n) :
    origin dst src n (dst k) = origin dst src k (src k) :=
  writeBlock_dst hdst hk

/-! ### Blocks of arrays -/

variable {ρ : Type*}

/-- The cells of an array from an index on. -/
def block (r : ρ) (d : ℤ) (k : ℕ) : ρ × ℤ := (r, d + k)

theorem block_injective (r : ρ) (d : ℤ) : Function.Injective (block r d) := by
  intro k l h
  have hindex : d + (k : ℤ) = d + l := congrArg Prod.snd h
  omega

variable [DecidableEq ρ] {r r' : ρ} {d s : ℤ}

/-- Copying upwards within one array, what a written cell holds was below the destination. -/
theorem origin_block_lt (h : s < d) (k : ℕ) (hk : k < n) :
    (origin (block r d) (block r s) n (block r d k)).2 < d := by
  induction k using Nat.strong_induction_on generalizing n with
  | _ k ih =>
    rw [origin_dst (block_injective r d) hk]
    by_cases hread : s + k < d
    · -- The source cell lies below the destination and is never written.
      have hne (l : ℕ) : block r d l ≠ block r s k := by
        intro heq
        have hindex : d + (l : ℤ) = s + k := congrArg Prod.snd heq
        omega
      rw [origin_of_ne fun l _ ↦ hne l]
      exact hread
    · -- The source cell has been written by an earlier step.
      obtain ⟨l, hl⟩ : ∃ l : ℕ, s + k = d + l := ⟨(s + k - d).toNat, by omega⟩
      have hsrc : block r s k = block r d l := by rw [block, block, hl]
      rw [hsrc]
      exact ih l (by omega) (by omega)

/-- Otherwise a source cell is read before anything is written to it. -/
theorem origin_block_of_forward (h : r' ≠ r ∨ d ≤ s ∨ s + n ≤ d) (hk : k < n) :
    origin (block r d) (block r' s) n (block r d k) = block r' s k := by
  rw [origin_dst (block_injective r d) hk]
  refine origin_of_ne fun l hl heq ↦ ?_
  obtain ⟨hregion, hindex⟩ : r = r' ∧ d + (l : ℤ) = s + k := Prod.mk.inj heq
  obtain hne | hle | hle := h
  · exact hne hregion.symm
  · omega
  · omega

/-- No written cell keeps its content, unless the blocks are the same. -/
theorem origin_block_ne (h : block r d 0 ≠ block r' s 0) (hk : k < n) :
    origin (block r d) (block r' s) n (block r d k) ≠ block r d k := by
  intro heq
  by_cases hforward : r' ≠ r ∨ d ≤ s
  · rw [origin_block_of_forward (hforward.imp_right Or.inl) hk] at heq
    obtain ⟨rfl, hindex⟩ : r' = r ∧ s + (k : ℤ) = d + k := Prod.mk.inj heq
    obtain rfl : s = d := by omega
    exact h rfl
  · push Not at hforward
    obtain ⟨rfl, hlt⟩ := hforward
    have hbelow := origin_block_lt (r := r') hlt k hk
    rw [heq] at hbelow
    have hindex : d + (k : ℤ) < d := hbelow
    omega

/-- The copy of a block is right exactly if the source does not start below a destination it
overlaps. -/
theorem origin_block_eq_iff :
    (∀ k < n, origin (block r d) (block r' s) n (block r d k) = block r' s k) ↔
      r' ≠ r ∨ d ≤ s ∨ s + n ≤ d := by
  constructor
  · intro h
    by_contra hoverlap
    push Not at hoverlap
    obtain ⟨rfl, hlt, hoverlap⟩ := hoverlap
    -- The cell whose source is the first cell of the destination.
    obtain ⟨k, hk⟩ : ∃ k : ℕ, s + k = d := ⟨(d - s).toNat, by omega⟩
    have hkn : k < n := by omega
    have hbelow := origin_block_lt (r := r') hlt k hkn
    rw [h k hkn] at hbelow
    have hindex : s + (k : ℤ) < d := hbelow
    omega
  · exact fun h k hk ↦ origin_block_of_forward h hk

end Library
