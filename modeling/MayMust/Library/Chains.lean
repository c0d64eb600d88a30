import Mathlib.Algebra.Group.Nat.Defs
import Mathlib.Data.Option.Basic
import Mathlib.Logic.Function.Iterate

/-!
# Resolving chains of definitions

A table defines some names by terms in which other names occur. To make the definitions independent
of each other, the defined names in them are replaced by their definitions, in all definitions at
once. A round of this puts the table into itself, so it doubles the length of the chains that are
resolved: where the definitions are layered in at most `2 ^ n` layers, no defined name is left in
any definition after `n` rounds (`Naming.within_undefined_iterate`).

A round says nothing new. Where the definitions are equations that hold of the values of some names,
and these names are defined in terms of each other only, the definitions of the next table are such
equations too (`Reading.Explains.iterate`).
-/

namespace Library

variable {ν τ α : Type*}

/-- Terms with names, for which terms can be put. -/
structure Naming (ν τ : Type*) where
  /-- All names in the term have the property. -/
  Within : (ν → Prop) → τ → Prop
  /-- Replace the names that the table defines. -/
  put : (ν → Option τ) → τ → τ
  mono : ∀ {P Q : ν → Prop} {t : τ}, (∀ x, P x → Q x) → Within P t → Within Q t
  within_put : ∀ {table : ν → Option τ} {Q : ν → Prop} {t : τ},
    Within (fun x ↦ (∀ u, table x = some u → Within Q u) ∧ (table x = none → Q x)) t →
      Within Q (put table t)

namespace Naming

variable (N : Naming ν τ)

/-- One round: the table is put into itself. -/
def square (table : ν → Option τ) (x : ν) : Option τ := (table x).map (N.put table)

/-- A defined name is so many layers above the defined names in its definition. -/
def Layered (layer : ν → ℕ) (d : ℕ) (table : ν → Option τ) : Prop :=
  ∀ x u, table x = some u → N.Within (fun y ↦ (table y).isSome → layer y + d ≤ layer x) u

variable {N} {layer : ν → ℕ} {d n : ℕ} {table : ν → Option τ} {x : ν} {t u : τ}

@[simp] theorem isSome_square : (N.square table x).isSome = (table x).isSome := Option.isSome_map

@[simp] theorem isSome_iterate_square (n : ℕ) :
    (N.square^[n] table x).isSome = (table x).isSome := by
  induction n generalizing table with
  | zero => rfl
  | succ n ih => rw [Function.iterate_succ_apply, ih, isSome_square]

/-- A round doubles the distance. -/
theorem Layered.square (h : N.Layered layer d table) :
    N.Layered layer (d + d) (N.square table) := by
  intro x u hu
  obtain ⟨t, ht, rfl⟩ := Option.map_eq_some_iff.1 hu
  refine N.within_put (N.mono (fun y hy ↦ ⟨fun w hw ↦ ?_, fun hnone hsome ↦ ?_⟩) (h x t ht))
  · have hxy := hy (hw ▸ Option.isSome_some)
    refine N.mono (fun z hz hsome ↦ ?_) (h y w hw)
    have hyz := hz (isSome_square ▸ hsome)
    omega
  · rw [isSome_square, hnone] at hsome
    exact absurd hsome Bool.false_ne_true

theorem Layered.iterate (h : N.Layered layer 1 table) (n : ℕ) :
    N.Layered layer (2 ^ n) (N.square^[n] table) := by
  induction n with
  | zero => exact h
  | succ n ih =>
    rw [Function.iterate_succ_apply', pow_succ, Nat.mul_two]
    exact ih.square

/-- **After enough rounds, no defined name is left in a definition.** -/
theorem within_undefined_iterate (h : N.Layered layer 1 table)
    (hlayer : ∀ x, (table x).isSome → layer x < 2 ^ n) (hu : N.square^[n] table x = some u) :
    N.Within (fun y ↦ table y = none) u := by
  refine N.mono (fun y hy ↦ ?_) (h.iterate n x u hu)
  have hx := hlayer x (isSome_iterate_square n ▸ hu ▸ Option.isSome_some)
  rw [isSome_iterate_square] at hy
  by_contra hne
  have hle := hy (Option.isSome_iff_ne_none.2 hne)
  omega

/-- No defined name is left where the resolved table is put. -/
theorem within_undefined_put (h : N.Layered layer 1 table)
    (hlayer : ∀ x, (table x).isSome → layer x < 2 ^ n) (ht : N.Within (fun _ ↦ True) t) :
    N.Within (fun y ↦ table y = none) (N.put (N.square^[n] table) t) := by
  refine N.within_put (N.mono (fun x _ ↦ ⟨fun u hu ↦ ?_, fun hnone ↦ ?_⟩) ht)
  · exact within_undefined_iterate h hlayer hu
  · rw [← Option.isNone_iff_eq_none, ← Option.not_isSome, ← isSome_iterate_square (N := N) n,
      hnone]
    rfl

end Naming

/-- Values of terms and of names: where the definitions are those of the names they define, putting
them in changes no value. -/
structure Reading (N : Naming ν τ) (α : Type*) where
  value : τ → α
  look : ν → α
  value_put : ∀ {table : ν → Option τ} {t : τ},
    N.Within (fun x ↦ ∀ u, table x = some u → value u = look x) t → value (N.put table t) = value t

namespace Reading

variable {N : Naming ν τ} (R : Reading N α)

/-- The definitions of some names are equations that hold, between these names. -/
def Explains (K : ν → Prop) (table : ν → Option τ) : Prop :=
  ∀ x u, K x → table x = some u → N.Within K u ∧ R.value u = R.look x

variable {R} {K : ν → Prop} {table : ν → Option τ} {t : τ}

theorem Explains.value_put (h : R.Explains K table) (ht : N.Within K t) :
    R.value (N.put table t) = R.value t :=
  R.value_put (N.mono (fun x hx u hu ↦ (h x u hx hu).2) ht)

theorem Explains.square (h : R.Explains K table) : R.Explains K (N.square table) := by
  intro x u hx hu
  obtain ⟨t, ht, rfl⟩ := Option.map_eq_some_iff.1 hu
  obtain ⟨hwithin, hvalue⟩ := h x t hx ht
  refine ⟨N.within_put (N.mono (fun y hy ↦ ⟨fun w hw ↦ (h y w hy hw).1, fun _ ↦ hy⟩) hwithin), ?_⟩
  rw [h.value_put hwithin, hvalue]

theorem Explains.iterate (h : R.Explains K table) (n : ℕ) :
    R.Explains K (N.square^[n] table) := by
  induction n with
  | zero => exact h
  | succ n ih =>
    rw [Function.iterate_succ_apply']
    exact ih.square

end Reading

end Library
