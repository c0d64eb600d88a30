import Mathlib.Algebra.Order.Group.Int
import Mathlib.Tactic.Common
import Mathlib.Tactic.Ring

/-!
# 64-bit integers against the integers

When a machine operation on `Int64` gives the value of the mathematical operation. Addition,
subtraction, multiplication and negation do when the mathematical value fits
(`toInt_add_eq_iff` and its siblings). Division truncates, so it gives the Euclidean quotient when
the dividend is not negative or is divisible (`tdiv_eq_ediv_iff`). The remainder has the sign of
the dividend, a *signed* Euclidean remainder that of the divisor, and they agree in the cases of
`tmod_eq_signedEmod_iff`.

A build decides what happens to a result that does not fit (`Overflow`): it wraps around or the
program stops. The quotient and the remainder of the least number by `-1` stop it in every build.
-/

namespace Library

/-- The number is a value of `Int64`. -/
def FitsInt64 (n : ℤ) : Prop := -2 ^ 63 ≤ n ∧ n < 2 ^ 63

instance (n : ℤ) : Decidable (FitsInt64 n) :=
  inferInstanceAs (Decidable (-2 ^ 63 ≤ n ∧ n < 2 ^ 63))

theorem fitsInt64_toInt (x : Int64) : FitsInt64 x.toInt := ⟨x.le_toInt, x.toInt_lt⟩

theorem bmod_eq_self_iff (n : ℤ) : n.bmod (2 ^ 64) = n ↔ FitsInt64 n := by
  constructor
  · intro h
    have hle := @Int.le_bmod n (2 ^ 64) (by norm_num)
    have hlt := @Int.bmod_lt n (2 ^ 64) (by norm_num)
    unfold FitsInt64
    omega
  · intro h
    unfold FitsInt64 at h
    exact Int.bmod_eq_of_le (by omega) (by omega)

theorem toInt_add_eq_iff (x y : Int64) :
    (x + y).toInt = x.toInt + y.toInt ↔ FitsInt64 (x.toInt + y.toInt) := by
  rw [Int64.toInt_add, bmod_eq_self_iff]

theorem toInt_sub_eq_iff (x y : Int64) :
    (x - y).toInt = x.toInt - y.toInt ↔ FitsInt64 (x.toInt - y.toInt) := by
  rw [Int64.toInt_sub, bmod_eq_self_iff]

theorem toInt_mul_eq_iff (x y : Int64) :
    (x * y).toInt = x.toInt * y.toInt ↔ FitsInt64 (x.toInt * y.toInt) := by
  rw [Int64.toInt_mul, bmod_eq_self_iff]

theorem toInt_neg_eq_iff (x : Int64) : (-x).toInt = -x.toInt ↔ FitsInt64 (-x.toInt) := by
  rw [Int64.toInt_neg, bmod_eq_self_iff]

/-- Wrapping adds a multiple of `2 ^ 64`. -/
theorem exists_bmod_eq (n : ℤ) : ∃ t : ℤ, n.bmod (2 ^ 64) = n + 2 ^ 64 * t := by
  have h := Int.bmod_add_bdiv n (2 ^ 64)
  refine ⟨-n.bdiv (2 ^ 64), ?_⟩
  omega

theorem exists_toInt_add (x y : Int64) :
    ∃ t : ℤ, (x + y).toInt = x.toInt + y.toInt + 2 ^ 64 * t := by
  rw [Int64.toInt_add]
  exact exists_bmod_eq _

theorem exists_toInt_mul (x y : Int64) :
    ∃ t : ℤ, (x * y).toInt = x.toInt * y.toInt + 2 ^ 64 * t := by
  rw [Int64.toInt_mul]
  exact exists_bmod_eq _

theorem exists_toInt_ofNat (k : ℕ) : ∃ t : ℤ, (Int64.ofNat k).toInt = k + 2 ^ 64 * t := by
  rw [Int64.toInt_ofNat']
  exact exists_bmod_eq _

/-- The one division of machine integers that overflows. -/
theorem toInt_div {x y : Int64} (h : ¬ (x = Int64.minValue ∧ y = -1)) :
    (x / y).toInt = x.toInt.tdiv y.toInt := by
  by_cases hx : x = Int64.minValue
  · exact Int64.toInt_div_of_ne_right x y fun hy ↦ h ⟨hx, hy⟩
  · exact Int64.toInt_div_of_ne_left x y hx

theorem eq_minValue_iff (x : Int64) : x = Int64.minValue ↔ x.toInt = -2 ^ 63 := by
  rw [← Int64.toInt_inj, Int64.toInt_minValue]

theorem eq_neg_one_iff (x : Int64) : x = -1 ↔ x.toInt = -1 := by
  rw [← Int64.toInt_inj]
  rfl

theorem eq_zero_iff (x : Int64) : x = 0 ↔ x.toInt = 0 := by
  rw [← Int64.toInt_inj, Int64.toInt_zero]

/-! ### Truncated against Euclidean division -/

/-- The Euclidean remainder with the sign of the divisor. -/
def signedEmod (a b : ℤ) : ℤ := if 0 ≤ b then a % b else -(a % b)

theorem tdiv_eq_ediv_iff {a b : ℤ} (hb : b ≠ 0) : a.tdiv b = a / b ↔ 0 ≤ a ∨ b ∣ a := by
  rw [Int.tdiv_eq_ediv]
  split
  · simpa
  · rename_i h
    have hsign : b.sign ≠ 0 := by rwa [Ne, Int.sign_eq_zero_iff_zero]
    simp only [h, iff_false]
    omega

theorem tmod_eq_signedEmod_iff {a b : ℤ} (hb : b ≠ 0) :
    a.tmod b = signedEmod a b ↔
      b ∣ a ∨ (0 ≤ a ∧ 0 < b) ∨ (a < 0 ∧ b < 0 ∧ 2 * (a % b) = -b) := by
  have hnonneg := Int.emod_nonneg a hb
  have hlt := Int.emod_lt_abs a hb
  have hdvd : b ∣ a ↔ a % b = 0 := Int.dvd_iff_emod_eq_zero
  rw [Int.tmod_eq_emod, signedEmod]
  simp only [hdvd]
  split_ifs <;> omega

/-! ### Builds with and without overflow checks -/

/-- What becomes of a result that does not fit. -/
inductive Overflow
  | wraps
  | stops
  deriving DecidableEq

/-- The machine integer for an exact result, if the program goes on. -/
def Overflow.fit : Overflow → ℤ → Option Int64
  | wraps, n => some (Int64.ofInt n)
  | stops, n => if FitsInt64 n then some (Int64.ofInt n) else none

/-- The quotient, if the program goes on. -/
def checkedDiv (x y : Int64) : Option Int64 :=
  if y = 0 ∨ (x = Int64.minValue ∧ y = -1) then none else some (x / y)

/-- The remainder, if the program goes on. -/
def checkedRem (x y : Int64) : Option Int64 :=
  if y = 0 ∨ (x = Int64.minValue ∧ y = -1) then none else some (x % y)

theorem toInt_ofInt {n : ℤ} (h : FitsInt64 n) : (Int64.ofInt n).toInt = n :=
  Int64.toInt_ofInt_of_le h.1 h.2

/-- Only the least number has an opposite that does not fit. -/
theorem fitsInt64_neg_iff (x : Int64) : FitsInt64 (-x.toInt) ↔ x ≠ Int64.minValue := by
  have hx := fitsInt64_toInt x
  rw [Ne, eq_minValue_iff]
  unfold FitsInt64 at *
  omega

theorem fitsInt64_abs_iff (x : Int64) : FitsInt64 |x.toInt| ↔ x ≠ Int64.minValue := by
  rw [← fitsInt64_neg_iff]
  have hx := fitsInt64_toInt x
  obtain habs | habs := abs_choice x.toInt
  · have hnonneg := habs ▸ abs_nonneg x.toInt
    rw [habs]
    unfold FitsInt64 at *
    omega
  · rw [habs]

namespace Overflow

variable {overflow : Overflow} {n : ℤ} {x : Int64}

/-- A result that fits is the exact one in every build. -/
theorem fit_eq_some (h : FitsInt64 n) : overflow.fit n = some (Int64.ofInt n) := by
  cases overflow with
  | wraps => rfl
  | stops => exact if_pos h

theorem fit_toInt (x : Int64) : overflow.fit x.toInt = some x := by
  rw [fit_eq_some (fitsInt64_toInt x), Int64.ofInt_toInt]

theorem fit_stops_eq_none (h : ¬ FitsInt64 n) : stops.fit n = none := if_neg h

theorem exists_fit (h : FitsInt64 n) : ∃ x, overflow.fit n = some x ∧ x.toInt = n :=
  ⟨.ofInt n, fit_eq_some h, toInt_ofInt h⟩

/-- With checks there are exact results only. -/
theorem fit_stops_eq_some (h : stops.fit n = some x) : FitsInt64 n ∧ x.toInt = n := by
  have hfits : FitsInt64 n := by
    by_contra hfits
    rw [fit_stops_eq_none hfits] at h
    cases h
  rw [fit_eq_some hfits] at h
  exact ⟨hfits, Option.some.inj h ▸ toInt_ofInt hfits⟩

end Overflow

/-- No division by a positive number overflows. -/
theorem not_overflow_of_pos {x y : Int64} (hy : 0 < y.toInt) :
    ¬ (y = 0 ∨ (x = Int64.minValue ∧ y = -1)) := by
  rw [eq_zero_iff, eq_neg_one_iff]
  omega

theorem checkedDiv_of_pos {x y : Int64} (hy : 0 < y.toInt) : checkedDiv x y = some (x / y) :=
  if_neg (not_overflow_of_pos hy)

theorem checkedRem_of_pos {x y : Int64} (hy : 0 < y.toInt) : checkedRem x y = some (x % y) :=
  if_neg (not_overflow_of_pos hy)

theorem toInt_div_of_pos {x y : Int64} (hy : 0 < y.toInt) :
    (x / y).toInt = x.toInt.tdiv y.toInt :=
  toInt_div fun h ↦ not_overflow_of_pos hy (.inr h)

end Library
