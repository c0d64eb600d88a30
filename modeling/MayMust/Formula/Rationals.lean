import Mathlib.Data.Int.Cast.Field
import Mathlib.Data.Rat.Lemmas
import Mathlib.Order.Compare
import Mathlib.Tactic.NormNum
import MayMust.Formula.Semantics
import MayMust.Library.MachineInt

/-!
# Rational literals

The constructor of `Rational` moves the sign to the numerator and divides by the greatest common
divisor. The order compares the cross products. Every step is an operation on `Int64`, so what
becomes of a result that does not fit depends on the build (`Overflow`).

Only the least number has an opposite and an absolute value that do not fit. Without it the
constructor gives, in every build, the reduced form of the fraction (`new_eq_some`), and there is one
only (`IsReduced.ext`). The order is the one of the numbers if the cross products fit
(`cmp_eq_some`). A build with overflow checks stops in all the other cases (`reduces_and_compares_iff`).
-/

namespace MayMust.Rational

open Library

/-! ### The source -/

/-- The loop of `gcd`. The second number gets closer to 0 with every round. -/
def gcdLoop : ℕ → Int64 → Int64 → Option Int64
  | 0, a, _ => some a
  | rounds + 1, a, b =>
    if b = 0 then some a
    else do
      let t ← checkedRem a b
      gcdLoop rounds b t

variable (overflow : Overflow)

/-- `gcd`. -/
def gcd (a b : Int64) : Option Int64 := do
  let a ← overflow.fit |a.toInt|
  let b ← overflow.fit |b.toInt|
  let a ← gcdLoop b.toInt.natAbs a b
  return if a = 0 then 1 else a

/-- The sign moved to the numerator. -/
def moveSign (num den : Int64) : Option (Int64 × Int64) :=
  if den < 0 then do
    let num ← overflow.fit (-num.toInt)
    let den ← overflow.fit (-den.toInt)
    return (num, den)
  else some (num, den)

/-- `Rational::new`. -/
def new (num den : Int64) : Option Rational :=
  if den = 0 then none
  else do
    let (num, den) ← moveSign overflow num den
    let g ← gcd overflow num den
    let num ← checkedDiv num g
    let den ← checkedDiv den g
    return ⟨num, den⟩

/-- `Rational::integer`. -/
def integer (value : Int64) : Option Rational := new overflow value 1

/-- `Rational::cmp`. -/
def cmp (p q : Rational) : Option Ordering := do
  let lhs ← overflow.fit (p.num.toInt * q.den.toInt)
  let rhs ← overflow.fit (q.num.toInt * p.den.toInt)
  return compare lhs rhs

/-! ### The numbers -/

/-- The number. -/
def toRat (q : Rational) : ℚ := q.num.toInt / q.den.toInt

theorem toReal_eq_toRat (q : Rational) : q.toReal = (q.toRat : ℝ) := by
  rw [toReal, toRat]
  push_cast
  rfl

/-- Lowest terms and a positive denominator. -/
structure IsReduced (q : Rational) : Prop where
  den_pos : 0 < q.den.toInt
  coprime : q.num.toInt.natAbs.Coprime q.den.toInt.natAbs

/-- Every number has one reduced form at most. -/
theorem IsReduced.ext {p q : Rational} (hp : p.IsReduced) (hq : q.IsReduced)
    (h : p.toRat = q.toRat) : p = q := by
  obtain ⟨hnum, hden⟩ := Rat.div_int_inj hp.den_pos hq.den_pos hp.coprime hq.coprime h
  obtain ⟨num, den⟩ := p
  rw [show num = q.num from Int64.toInt_inj.1 hnum, show den = q.den from Int64.toInt_inj.1 hden]

/-- What the constructor promises about a fraction: its one reduced form. -/
def Reduces (result : Option Rational) (num den : Int64) : Prop :=
  ∃ q, result = some q ∧ q.IsReduced ∧ q.toRat = num.toInt / den.toInt ∧
    ∀ p : Rational, p.IsReduced → p.toRat = num.toInt / den.toInt → p = q

/-! ### The greatest common divisor -/

theorem gcdLoop_eq_some {rounds : ℕ} {a b : Int64} (ha : 0 ≤ a.toInt) (hb : 0 ≤ b.toInt)
    (hrounds : b.toInt ≤ rounds) :
    ∃ g, gcdLoop rounds a b = some g ∧ g.toInt = a.toInt.gcd b.toInt := by
  induction rounds generalizing a b with
  | zero =>
    have hzero : b.toInt = 0 := by omega
    exact ⟨a, rfl, by rw [hzero, Int.gcd_zero_right, Int.natAbs_of_nonneg ha]⟩
  | succ rounds ih =>
    rw [gcdLoop]
    split_ifs with hzero
    · rw [hzero, Int64.toInt_zero, Int.gcd_zero_right]
      exact ⟨a, rfl, (Int.natAbs_of_nonneg ha).symm⟩
    have hpos : 0 < b.toInt := lt_of_le_of_ne hb fun h ↦ hzero ((eq_zero_iff b).2 h.symm)
    have hrem : (a % b).toInt = a.toInt % b.toInt := by
      rw [Int64.toInt_mod, Int.tmod_eq_emod_of_nonneg ha]
    have hlt : (a % b).toInt < b.toInt := hrem ▸ Int.emod_lt_of_pos _ hpos
    obtain ⟨g, hg, hgcd⟩ := ih hb (hrem ▸ Int.emod_nonneg _ hpos.ne') (by omega)
    rw [checkedRem_of_pos hpos]
    exact ⟨g, hg, by rw [hgcd, hrem, Int.gcd_comm, Int.gcd_emod]⟩

variable {overflow : Overflow} {num den : Int64}

theorem gcd_eq_some (hnum : num ≠ Int64.minValue) (hden : den ≠ Int64.minValue) (hzero : den ≠ 0) :
    ∃ g, gcd overflow num den = some g ∧ g.toInt = num.toInt.gcd den.toInt := by
  have hnumAbs := toInt_ofInt ((fitsInt64_abs_iff num).2 hnum)
  have hdenAbs := toInt_ofInt ((fitsInt64_abs_iff den).2 hden)
  obtain ⟨g, hg, hgcd⟩ := gcdLoop_eq_some (hnumAbs ▸ abs_nonneg num.toInt)
    (hdenAbs ▸ abs_nonneg den.toInt) Int.le_natAbs
  rw [hnumAbs, hdenAbs, Int.gcd, Int.natAbs_abs, Int.natAbs_abs] at hgcd
  have hne : g ≠ 0 := by
    rw [Ne, eq_zero_iff, hgcd]
    have hpos := Int.gcd_pos_of_ne_zero_right num.toInt (mt (eq_zero_iff den).2 hzero)
    rw [Int.gcd] at hpos
    omega
  refine ⟨g, ?_, hgcd⟩
  rw [gcd, Overflow.fit_eq_some ((fitsInt64_abs_iff num).2 hnum),
    Overflow.fit_eq_some ((fitsInt64_abs_iff den).2 hden)]
  simp only [Option.bind_eq_bind, Option.bind_some, hg, if_neg hne]
  rfl

/-! ### The constructor -/

theorem moveSign_eq_some (hnum : num ≠ Int64.minValue) (hden : den ≠ Int64.minValue)
    (hzero : den ≠ 0) :
    ∃ num' den', moveSign overflow num den = some (num', den') ∧ num' ≠ Int64.minValue ∧
      den' ≠ Int64.minValue ∧ 0 < den'.toInt ∧
        (num'.toInt : ℚ) / den'.toInt = num.toInt / den.toInt := by
  have hfitsNum := (fitsInt64_neg_iff num).2 hnum
  have hfitsDen := (fitsInt64_neg_iff den).2 hden
  have hnumNeg := toInt_ofInt hfitsNum
  have hdenNeg := toInt_ofInt hfitsDen
  have hne : den.toInt ≠ 0 := mt (eq_zero_iff den).2 hzero
  rw [moveSign]
  split_ifs with hneg
  · rw [Int64.lt_iff_toInt_lt, Int64.toInt_zero] at hneg
    refine ⟨.ofInt (-num.toInt), .ofInt (-den.toInt), ?_, ?_, ?_, ?_, ?_⟩
    · rw [Overflow.fit_eq_some hfitsNum, Overflow.fit_eq_some hfitsDen]
      rfl
    · have := num.toInt_lt
      rw [Ne, eq_minValue_iff, hnumNeg]
      omega
    · rw [Ne, eq_minValue_iff, hdenNeg]
      omega
    · omega
    · rw [hnumNeg, hdenNeg]
      push_cast
      exact neg_div_neg_eq _ _
  · rw [Int64.lt_iff_toInt_lt, Int64.toInt_zero] at hneg
    exact ⟨num, den, rfl, hnum, hden, by omega, rfl⟩

/-- **The constructor gives the reduced form** unless an argument is the least number. -/
theorem new_eq_some (hnum : num ≠ Int64.minValue) (hden : den ≠ Int64.minValue) (hzero : den ≠ 0) :
    ∃ q, new overflow num den = some q ∧ q.IsReduced ∧ q.toRat = num.toInt / den.toInt := by
  obtain ⟨num', den', hmove, hnum', hden', hpos, hvalue⟩ := moveSign_eq_some hnum hden hzero
  have hne : den' ≠ 0 := mt (eq_zero_iff den').1 hpos.ne'
  obtain ⟨g, hg, hgcd⟩ := @gcd_eq_some overflow num' den' hnum' hden' hne
  have hgpos : 0 < g.toInt := by
    rw [hgcd]
    exact_mod_cast Int.gcd_pos_of_ne_zero_right num'.toInt hpos.ne'
  have hnumDvd : g.toInt ∣ num'.toInt := hgcd ▸ Int.gcd_dvd_left ..
  have hdenDvd : g.toInt ∣ den'.toInt := hgcd ▸ Int.gcd_dvd_right ..
  have hnumDiv : (num' / g).toInt = num'.toInt / g.toInt := by
    rw [toInt_div_of_pos hgpos, Int.tdiv_eq_ediv_of_dvd hnumDvd]
  have hdenDiv : (den' / g).toInt = den'.toInt / g.toInt := by
    rw [toInt_div_of_pos hgpos, Int.tdiv_eq_ediv_of_dvd hdenDvd]
  refine ⟨⟨num' / g, den' / g⟩, ?_, ⟨?_, ?_⟩, ?_⟩
  · rw [new, if_neg hzero, hmove]
    simp only [Option.bind_eq_bind, Option.bind_some, hg, checkedDiv_of_pos hgpos]
    rfl
  · rw [hdenDiv]
    exact Int.ediv_pos_of_pos_of_dvd hpos hgpos.le hdenDvd
  · rw [hnumDiv, hdenDiv, hgcd]
    exact Int.gcd_ediv_gcd_ediv_gcd_of_ne_zero_right hpos.ne'
  · have hcast : (g.toInt : ℚ) ≠ 0 := mod_cast hgpos.ne'
    rw [toRat, hnumDiv, hdenDiv, Int.cast_div hnumDvd hcast, Int.cast_div hdenDvd hcast,
      div_div_div_cancel_right₀ hcast, hvalue]

/-- A build with checks stops for the least number. -/
theorem new_stops_eq_none (h : num = Int64.minValue ∨ den = Int64.minValue) :
    new .stops num den = none := by
  rw [new]
  split_ifs with hzero
  · rfl
  rw [moveSign]
  split_ifs with hneg
  · obtain rfl | rfl := h
    · rw [Overflow.fit_stops_eq_none (mt (fitsInt64_neg_iff _).1 (not_not_intro rfl))]
      rfl
    · rw [Overflow.fit_stops_eq_none (mt (fitsInt64_neg_iff Int64.minValue).1 (not_not_intro rfl))]
      simp
  · obtain rfl | rfl := h
    · simp only [Option.bind_eq_bind, Option.bind_some, gcd]
      rw [Overflow.fit_stops_eq_none (mt (fitsInt64_abs_iff _).1 (not_not_intro rfl))]
      rfl
    · exact absurd (by decide) hneg

/-! ### The order -/

theorem compare_toInt (x y : Int64) : compare x.toInt y.toInt = compare x y := by
  show compareOfLessAndEq x.toInt y.toInt = compareOfLessAndEq x y
  simp only [compareOfLessAndEq, Int64.lt_iff_toInt_lt, Int64.toInt_inj]

theorem compare_mul {p q : Rational} (hp : 0 < p.den.toInt) (hq : 0 < q.den.toInt) :
    compare (p.num.toInt * q.den.toInt) (q.num.toInt * p.den.toInt) = compare p.toRat q.toRat := by
  have hp' : (0 : ℚ) < p.den.toInt := mod_cast hp
  have hq' : (0 : ℚ) < q.den.toInt := mod_cast hq
  have hlt : p.toRat < q.toRat ↔ p.num.toInt * q.den.toInt < q.num.toInt * p.den.toInt := by
    rw [toRat, toRat, div_lt_div_iff₀ hp' hq']
    exact_mod_cast Iff.rfl
  have heq : p.toRat = q.toRat ↔ p.num.toInt * q.den.toInt = q.num.toInt * p.den.toInt := by
    rw [toRat, toRat, div_eq_div_iff hp'.ne' hq'.ne']
    exact_mod_cast Iff.rfl
  rw [LinearOrder.compare_eq_compareOfLessAndEq, LinearOrder.compare_eq_compareOfLessAndEq]
  simp only [compareOfLessAndEq, hlt, heq]

/-- **The order is the one of the numbers** if the cross products fit. -/
theorem cmp_eq_some {p q : Rational} (hp : 0 < p.den.toInt) (hq : 0 < q.den.toInt)
    (hlhs : FitsInt64 (p.num.toInt * q.den.toInt)) (hrhs : FitsInt64 (q.num.toInt * p.den.toInt)) :
    cmp overflow p q = some (compare p.toRat q.toRat) := by
  rw [cmp, Overflow.fit_eq_some hlhs, Overflow.fit_eq_some hrhs, ← compare_mul hp hq,
    ← toInt_ofInt hlhs, ← toInt_ofInt hrhs, compare_toInt, Int64.ofInt_toInt, Int64.ofInt_toInt]
  rfl

theorem fitsInt64_of_cmp_stops {p q : Rational} {order : Ordering}
    (h : cmp .stops p q = some order) :
    FitsInt64 (p.num.toInt * q.den.toInt) ∧ FitsInt64 (q.num.toInt * p.den.toInt) := by
  rw [cmp] at h
  obtain ⟨lhs, hlhs, h⟩ := Option.bind_eq_some_iff.1 h
  obtain ⟨rhs, hrhs, -⟩ := Option.bind_eq_some_iff.1 h
  exact ⟨(Overflow.fit_stops_eq_some hlhs).1, (Overflow.fit_stops_eq_some hrhs).1⟩

/-! ### The whole range -/

/-- **The constructor and the order are exact, without an overflow, just if neither the numerator
nor the denominator is the least number and the cross products fit.** -/
theorem reduces_and_compares_iff {num den : Int64} (hzero : den ≠ 0) {p q : Rational}
    (hp : 0 < p.den.toInt) (hq : 0 < q.den.toInt) :
    (Reduces (new .stops num den) num den ↔ num ≠ Int64.minValue ∧ den ≠ Int64.minValue) ∧
      (cmp .stops p q = some (compare p.toRat q.toRat) ↔
        FitsInt64 (p.num.toInt * q.den.toInt) ∧ FitsInt64 (q.num.toInt * p.den.toInt)) := by
  refine ⟨⟨?_, ?_⟩, fitsInt64_of_cmp_stops, fun h ↦ cmp_eq_some hp hq h.1 h.2⟩
  · intro h
    obtain ⟨r, hnew, -⟩ := h
    by_contra hmin
    rw [not_and_or, not_not, not_not] at hmin
    rw [new_stops_eq_none hmin] at hnew
    cases hnew
  · intro h
    obtain ⟨hnum, hden⟩ := h
    obtain ⟨r, hnew, hreduced, hvalue⟩ := @new_eq_some .stops num den hnum hden hzero
    exact ⟨r, hnew, hreduced, hvalue,
      fun p hp hpvalue ↦ hp.ext hreduced (hpvalue.trans hvalue.symm)⟩

/-- The fraction `6 / (-4)`, and one half against two thirds. -/
theorem reduces_and_compares_sixOverMinusFour :
    Reduces (new .stops 6 (-4)) 6 (-4) ∧
      cmp .stops ⟨1, 2⟩ ⟨2, 3⟩ = some (compare (toRat ⟨1, 2⟩) (toRat ⟨2, 3⟩)) := by
  obtain ⟨hnew, hcmp⟩ := @reduces_and_compares_iff 6 (-4) (by decide) ⟨1, 2⟩ ⟨2, 3⟩ (by decide)
    (by decide)
  exact ⟨hnew.2 (by decide), hcmp.2 (by decide)⟩

example : new .stops 6 (-4) = some ⟨-3, 2⟩ := by decide

/-- The numerator is the least number, and a cross product is `2 ^ 64`. Without checks the
denominator becomes negative, and the larger number the smaller one. -/
theorem not_reduces_and_not_compares :
    ¬ Reduces (new .stops Int64.minValue 6) Int64.minValue 6 ∧
      new .wraps Int64.minValue 6 = some ⟨4611686018427387904, -3⟩ ∧
      cmp .stops ⟨4294967296, 1⟩ ⟨1, 4294967296⟩ = none ∧
      cmp .wraps ⟨4294967296, 1⟩ ⟨1, 4294967296⟩ = some .lt ∧
      toRat ⟨1, 4294967296⟩ < toRat ⟨4294967296, 1⟩ := by
  refine ⟨fun h ↦ ?_, by decide, by decide, by decide, ?_⟩
  · obtain ⟨q, hq, -⟩ := h
    rw [new_stops_eq_none (.inl rfl)] at hq
    cases hq
  · show ((1 : ℤ) : ℚ) / (4294967296 : ℤ) < ((4294967296 : ℤ) : ℚ) / (1 : ℤ)
    norm_num

end MayMust.Rational
