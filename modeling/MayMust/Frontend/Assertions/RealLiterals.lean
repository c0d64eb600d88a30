import Mathlib.Data.Nat.Cast.Field
import MayMust.Frontend.Assertions.Sorts

/-!
# Real literals

A real literal is read in two parts, each a machine integer, and put together over a power of ten.
The parts may fit while the power, the product or the sum does not, and the number of the digits
behind the point is cast to 32 bits.

A literal whose parts are no machine integers is refused. The others are read exactly if the power
of ten and the number without its point fit, and if the cast loses nothing that counts
(`ReadsExactly`). Otherwise the program stops, or returns another number
(`exact_or_refused_iff`).
-/

namespace MayMust.Assertions

open Library

/-! ### Decimals -/

/-- The number a list of digits denotes. -/
def digitsValue (digits : List Char) : ℕ :=
  digits.foldl (fun n c ↦ 10 * n + (c.toNat - '0'.toNat)) 0

/-- The digits before the point. -/
def wholeDigits (value : String) : List Char := value.toList.takeWhile (· ≠ '.')

/-- The digits behind the point. -/
def fracDigits (value : String) : List Char := (value.toList.dropWhile (· ≠ '.')).tail

/-- The number a decimal denotes. -/
def decimalValue (value : String) : ℚ :=
  digitsValue (wholeDigits value) + digitsValue (fracDigits value) / 10 ^ (fracDigits value).length

theorem foldl_digits (digits : List Char) (n : ℕ) :
    digits.foldl (fun n c ↦ 10 * n + (c.toNat - '0'.toNat)) n =
      n * 10 ^ digits.length + digitsValue digits := by
  induction digits generalizing n with
  | nil => simp [digitsValue]
  | cons c digits ih =>
    rw [digitsValue, List.foldl_cons, List.foldl_cons, ih, ih (10 * 0 + (c.toNat - '0'.toNat)),
      List.length_cons, pow_succ]
    ring

/-- Digits put behind others move them by their number. -/
theorem digitsValue_append (xs ys : List Char) :
    digitsValue (xs ++ ys) = digitsValue xs * 10 ^ ys.length + digitsValue ys := by
  rw [digitsValue, List.foldl_append, foldl_digits]
  rfl

/-- A decimal is the number without its point over a power of ten. -/
theorem decimalValue_eq (value : String) :
    decimalValue value =
      digitsValue (wholeDigits value ++ fracDigits value) / 10 ^ (fracDigits value).length := by
  have hpow : (10 : ℚ) ^ (fracDigits value).length ≠ 0 := pow_ne_zero _ (by norm_num)
  rw [decimalValue, digitsValue_append]
  push_cast
  rw [add_div, mul_div_cancel_right₀ _ hpow]

/-! ### Machine integers -/

theorem parseInt64_of_digits {digits : List Char} (hne : digits ≠ [])
    (hdigits : digits.all Char.isDigit = true) :
    parseInt64 digits =
      if digitsValue digits < 2 ^ 63 then some (Int64.ofNat (digitsValue digits)) else none := by
  have hparse : parseDigits digits = some (digitsValue digits) := if_pos ⟨hne, hdigits⟩
  unfold parseInt64
  split
  · cases hdigits
  · cases hdigits
  · rw [hparse]
    rfl

theorem parseInt64_eq_none {digits : List Char} (hne : digits ≠ [])
    (hdigits : digits.all Char.isDigit = true) (hle : 2 ^ 63 ≤ digitsValue digits) :
    parseInt64 digits = none := by
  rw [parseInt64_of_digits hne hdigits, if_neg (not_lt.2 hle)]

theorem exists_parseInt64 {digits : List Char} (hne : digits ≠ [])
    (hdigits : digits.all Char.isDigit = true) (hlt : digitsValue digits < 2 ^ 63) :
    ∃ n, parseInt64 digits = some n ∧ n.toInt = digitsValue digits := by
  refine ⟨.ofNat (digitsValue digits), ?_, Int64.toInt_ofNat_of_lt hlt⟩
  rw [parseInt64_of_digits hne hdigits, if_pos hlt]

theorem fitsInt64_pow_iff (k : ℕ) : FitsInt64 (10 ^ k) ↔ k ≤ 18 := by
  constructor
  · intro h
    by_contra hk
    have hle : (10 : ℤ) ^ 19 ≤ 10 ^ k := pow_le_pow_right₀ (by norm_num) (by omega)
    have := h.2
    omega
  · intro hk
    have hle : (10 : ℤ) ^ k ≤ 10 ^ 18 := pow_le_pow_right₀ (by norm_num) hk
    have hpos : (0 : ℤ) < 10 ^ k := by positivity
    unfold FitsInt64
    omega

section Arithmetic

variable {overflow : Overflow} {whole fracValue : Int64} {k : ℕ}

/-- The arithmetic is exact while the power and the number without its point fit. -/
theorem decimalRational_eq_some (hwhole : 0 ≤ whole.toInt) (hfrac : 0 ≤ fracValue.toInt)
    (hpower : k % 2 ^ 32 ≤ 18)
    (hsum : whole.toInt * 10 ^ (k % 2 ^ 32) + fracValue.toInt < 2 ^ 63) :
    ∃ r, decimalRational overflow whole fracValue k = some r ∧
      r.toRat = (whole.toInt * 10 ^ (k % 2 ^ 32) + fracValue.toInt) / 10 ^ (k % 2 ^ 32) := by
  have hpos : (0 : ℤ) < 10 ^ (k % 2 ^ 32) := by positivity
  have hnonneg : 0 ≤ whole.toInt * 10 ^ (k % 2 ^ 32) := mul_nonneg hwhole hpos.le
  obtain ⟨denom, hdenom, hdenomEq⟩ : ∃ x, overflow.fit (10 ^ (k % 2 ^ 32)) = some x ∧
      x.toInt = 10 ^ (k % 2 ^ 32) :=
    Overflow.exists_fit ((fitsInt64_pow_iff _).2 hpower)
  obtain ⟨product, hproduct, hproductEq⟩ : ∃ x, overflow.fit (whole.toInt * denom.toInt) = some x ∧
      x.toInt = whole.toInt * denom.toInt :=
    Overflow.exists_fit (by rw [hdenomEq]; constructor <;> omega)
  obtain ⟨sum, hsumFit, hsumEq⟩ : ∃ x, overflow.fit (product.toInt + fracValue.toInt) = some x ∧
      x.toInt = product.toInt + fracValue.toInt :=
    Overflow.exists_fit (by rw [hproductEq, hdenomEq]; constructor <;> omega)
  rw [hproductEq, hdenomEq] at hsumEq
  obtain ⟨r, hr, -, hvalue⟩ : ∃ r, Rational.new overflow sum denom = some r ∧ r.IsReduced ∧
      r.toRat = sum.toInt / denom.toInt := by
    apply Rational.new_eq_some
    · rw [Ne, eq_minValue_iff]
      omega
    · rw [Ne, eq_minValue_iff]
      omega
    · rw [Ne, eq_zero_iff]
      omega
  refine ⟨r, ?_, ?_⟩
  · have hsign : ¬ whole < 0 := by
      rw [Int64.lt_iff_toInt_lt, Int64.toInt_zero]
      omega
    simp only [decimalRational, hdenom, if_neg hsign, abs_of_nonneg hwhole, Overflow.fit_toInt,
      hproduct, hsumFit, one_mul, hr, Option.bind_eq_bind, Option.bind_some]
  · rw [hvalue, hsumEq, hdenomEq]
    push_cast
    rfl

theorem decimalRational_stops {r : Rational} (hwhole : 0 ≤ whole.toInt)
    (h : decimalRational .stops whole fracValue k = some r) :
    k % 2 ^ 32 ≤ 18 ∧ whole.toInt * 10 ^ (k % 2 ^ 32) + fracValue.toInt < 2 ^ 63 := by
  rw [decimalRational] at h
  obtain ⟨denom, hdenom, h⟩ := Option.bind_eq_some_iff.1 h
  obtain ⟨wholeAbs, hwholeAbs, h⟩ := Option.bind_eq_some_iff.1 h
  obtain ⟨product, hproduct, h⟩ := Option.bind_eq_some_iff.1 h
  obtain ⟨sum, hsum, -⟩ := Option.bind_eq_some_iff.1 h
  obtain ⟨hdenomFits, hdenomEq⟩ := Overflow.fit_stops_eq_some hdenom
  obtain ⟨hsumFits, -⟩ := Overflow.fit_stops_eq_some hsum
  rw [(Overflow.fit_stops_eq_some hproduct).2, (Overflow.fit_stops_eq_some hwholeAbs).2,
    abs_of_nonneg hwhole, hdenomEq] at hsumFits
  exact ⟨(fitsInt64_pow_iff _).1 hdenomFits, hsumFits.2⟩

end Arithmetic

/-! ### Numerals -/

/-- A fraction is empty, or starts with the point and has digits behind it. -/
theorem fraction_eq (chars : List Char) : CharClasses.fraction chars = [] ∨
    ∃ frac, frac ≠ [] ∧ frac.all Char.isDigit = true ∧
      CharClasses.fraction chars = '.' :: frac := by
  unfold CharClasses.fraction
  split
  · rename_i d rest
    split_ifs with hd
    · refine .inr ⟨(d :: rest).takeWhile Char.isDigit, ?_, List.all_takeWhile, rfl⟩
      rw [List.takeWhile_cons_of_pos hd]
      exact List.cons_ne_nil _ _
    · exact .inl rfl
  · exact .inl rfl

/-- Digits, and a point between them or none. -/
structure IsNumeral (value : String) : Prop where
  whole_ne : wholeDigits value ≠ []
  whole : (wholeDigits value).all Char.isDigit = true
  frac : (fracDigits value).all Char.isDigit = true
  frac_ne : '.' ∈ value.toList → fracDigits value ≠ []
  whole_eq : '.' ∉ value.toList → wholeDigits value = value.toList ∧ fracDigits value = []

theorem ne_point_of_isDigit {c : Char} (h : c.isDigit = true) : c ≠ '.' := by
  intro hc
  rw [hc] at h
  cases h

/-- The lexer makes numerals only. -/
theorem isNumeral_of_mem_lex {classes : CharClasses} {src value : String} {toks : List Tok}
    (h : classes.lex src = .ok toks) (hmem : .num value ∈ toks) : IsNumeral value := by
  obtain ⟨c, rest, hc, hchars⟩ := exists_numeral_of_mem_lex h hmem
  have hdigits : (c :: rest.takeWhile Char.isDigit).all Char.isDigit = true := by
    rw [List.all_cons, hc, List.all_takeWhile]
    rfl
  have hpoint : ∀ d ∈ c :: rest.takeWhile Char.isDigit, decide (d ≠ '.') = true := fun d hd ↦
    decide_eq_true (ne_point_of_isDigit (List.all_eq_true.1 hdigits d hd))
  have hwhole : wholeDigits value = c :: rest.takeWhile Char.isDigit ++
      (CharClasses.fraction (rest.dropWhile Char.isDigit)).takeWhile (· ≠ '.') := by
    rw [wholeDigits, hchars, List.takeWhile_append_of_pos hpoint]
  have hfracDigits : fracDigits value =
      ((CharClasses.fraction (rest.dropWhile Char.isDigit)).dropWhile (· ≠ '.')).tail := by
    rw [fracDigits, hchars, List.dropWhile_append_of_pos hpoint]
  obtain hfraction | ⟨frac, hne, hfrac, hfraction⟩ := fraction_eq (rest.dropWhile Char.isDigit)
  · rw [hfraction, List.takeWhile_nil, List.append_nil] at hwhole
    rw [hfraction, List.dropWhile_nil, List.tail_nil] at hfracDigits
    rw [hfraction, List.append_nil] at hchars
    have hnone : '.' ∉ value.toList := by
      rw [hchars]
      exact fun hmem ↦ of_decide_eq_true (hpoint _ hmem) rfl
    exact ⟨hwhole ▸ List.cons_ne_nil _ _, hwhole ▸ hdigits, hfracDigits ▸ rfl,
      fun hmem ↦ absurd hmem hnone, fun _ ↦ ⟨hwhole.trans hchars.symm, hfracDigits⟩⟩
  · rw [hfraction, List.takeWhile_cons_of_neg (by simp), List.append_nil] at hwhole
    rw [hfraction, List.dropWhile_cons_of_neg (by simp), List.tail_cons] at hfracDigits
    have hsome : '.' ∈ value.toList := by
      rw [hchars, hfraction]
      simp
    exact ⟨hwhole ▸ List.cons_ne_nil _ _, hwhole ▸ hdigits, hfracDigits ▸ hfrac,
      fun _ ↦ hfracDigits ▸ hne, fun hnot ↦ absurd hsome hnot⟩

/-! ### Which literals are read -/

/-- A part is no machine integer. -/
def Oversized (value : String) : Prop :=
  2 ^ 63 ≤ digitsValue (wholeDigits value) ∨ 2 ^ 63 ≤ digitsValue (fracDigits value)

/-- The digits behind the point, as `parse_real_literal` counts them. -/
def places (value : String) : ℕ := (fracDigits value).length % 2 ^ 32

/-- The power of ten and the number without its point fit, and the count is right unless only zeros
are counted. -/
structure ReadsExactly (value : String) : Prop where
  power : places value ≤ 18
  number : digitsValue (wholeDigits value) * 10 ^ places value + digitsValue (fracDigits value) <
    2 ^ 63
  counted : digitsValue (fracDigits value) = 0 ∨ (fracDigits value).length < 2 ^ 32

/-- What is promised of a literal: its number, or an error that refuses it. -/
def ExactOrRefused (value : String) : Prop :=
  (∃ r, parseRealLiteral .stops value = .ok r ∧ r.toRat = decimalValue value) ∨
    parseRealLiteral .stops value = .error (.invalidRealLiteral value)

section Literals

variable {overflow : Overflow} {value : String}

theorem parseRealLiteral_of_parts {whole fracValue : Int64} (hpoint : '.' ∈ value.toList)
    (hwhole : parseInt64 (wholeDigits value) = some whole)
    (hfrac : parseInt64 (fracDigits value) = some fracValue) :
    parseRealLiteral overflow value =
      (decimalRational overflow whole fracValue (fracDigits value).length).elim
        (.error .panicked) .ok := by
  rw [wholeDigits] at hwhole
  rw [fracDigits] at hfrac
  simp only [parseRealLiteral, if_pos hpoint, hwhole, hfrac]
  rfl

theorem parseRealLiteral_of_whole {whole : Int64} (hpoint : '.' ∉ value.toList)
    (hwhole : parseInt64 value.toList = some whole) :
    parseRealLiteral overflow value =
      (Rational.integer overflow whole).elim (.error .panicked) .ok := by
  simp only [parseRealLiteral, if_neg hpoint, hwhole]
  rfl

/-- A literal with a part that is no machine integer is refused. -/
theorem IsNumeral.refused (h : IsNumeral value) (hoversized : Oversized value) :
    parseRealLiteral overflow value = .error (.invalidRealLiteral value) := by
  by_cases hpoint : '.' ∈ value.toList
  · cases hwhole : parseInt64 (wholeDigits value) with
    | none =>
      rw [wholeDigits] at hwhole
      simp only [parseRealLiteral, if_pos hpoint, hwhole]
      rfl
    | some whole =>
      obtain hle | hle := hoversized
      · rw [parseInt64_eq_none h.whole_ne h.whole hle] at hwhole
        cases hwhole
      have hfrac := parseInt64_eq_none (h.frac_ne hpoint) h.frac hle
      rw [wholeDigits] at hwhole
      rw [fracDigits] at hfrac
      simp only [parseRealLiteral, if_pos hpoint, hwhole, hfrac]
      rfl
  · obtain ⟨hwhole, hfrac⟩ := h.whole_eq hpoint
    obtain hle | hle := hoversized
    · have hnone := parseInt64_eq_none h.whole_ne h.whole hle
      rw [hwhole] at hnone
      simp only [parseRealLiteral, if_neg hpoint, hnone]
      rfl
    · rw [hfrac] at hle
      exact absurd hle (by decide)

/-- The number of places is right, unless there is nothing behind the point. -/
theorem scaled_eq_iff (w f k n : ℕ) :
    ((w : ℚ) * 10 ^ k + f) / 10 ^ k = w + f / 10 ^ n ↔ f = 0 ∨ k = n := by
  have hpow : ∀ i : ℕ, (10 : ℚ) ^ i ≠ 0 := fun i ↦ pow_ne_zero i (by norm_num)
  have hpowInj : (10 : ℚ) ^ n = 10 ^ k ↔ k = n := by
    rw [pow_right_inj₀ (by norm_num) (by norm_num), eq_comm]
  rw [add_div, mul_div_cancel_right₀ _ (hpow k), add_right_inj, div_eq_div_iff (hpow k) (hpow n),
    mul_eq_mul_left_iff, hpowInj, Nat.cast_eq_zero, or_comm]

theorem places_eq_iff : places value = (fracDigits value).length ↔
    (fracDigits value).length < 2 ^ 32 := Nat.mod_eq_iff_lt (by norm_num)

/-- A literal with a point that is not refused gives what the arithmetic gives. -/
theorem IsNumeral.exists_parts (h : IsNumeral value) (hpoint : '.' ∈ value.toList)
    (hfits : ¬ Oversized value) : ∃ whole fracValue : Int64,
      whole.toInt = digitsValue (wholeDigits value) ∧
      fracValue.toInt = digitsValue (fracDigits value) ∧
      parseRealLiteral overflow value =
        (decimalRational overflow whole fracValue (fracDigits value).length).elim
          (.error .panicked) .ok := by
  rw [Oversized, not_or, not_le, not_le] at hfits
  obtain ⟨whole, hwhole, hwholeEq⟩ := exists_parseInt64 h.whole_ne h.whole hfits.1
  obtain ⟨fracValue, hfrac, hfracEq⟩ := exists_parseInt64 (h.frac_ne hpoint) h.frac hfits.2
  exact ⟨whole, fracValue, hwholeEq, hfracEq, parseRealLiteral_of_parts hpoint hwhole hfrac⟩

theorem IsNumeral.exists_eq_ok (h : IsNumeral value) (hfits : ¬ Oversized value)
    (hpower : places value ≤ 18) (hnumber : digitsValue (wholeDigits value) * 10 ^ places value +
      digitsValue (fracDigits value) < 2 ^ 63) :
    ∃ r, parseRealLiteral overflow value = .ok r ∧
      r.toRat = ((digitsValue (wholeDigits value) : ℚ) * 10 ^ places value +
        digitsValue (fracDigits value)) / 10 ^ places value := by
  by_cases hpoint : '.' ∈ value.toList
  · obtain ⟨whole, fracValue, hwhole, hfrac, hparse⟩ := h.exists_parts hpoint hfits
    obtain ⟨r, hr, hvalue⟩ := @decimalRational_eq_some overflow whole fracValue
      (fracDigits value).length (by omega) (by omega) hpower
      (by rw [hwhole, hfrac]; exact_mod_cast hnumber)
    refine ⟨r, ?_, ?_⟩
    · rw [hparse, hr]
      rfl
    · rw [hvalue, hwhole, hfrac]
      rfl
  · obtain ⟨hwholeDigits, hfracDigits⟩ := h.whole_eq hpoint
    rw [Oversized, not_or, not_le] at hfits
    obtain ⟨whole, hwhole, hwholeEq⟩ := exists_parseInt64 h.whole_ne h.whole hfits.1
    obtain ⟨r, hr, -, hvalue⟩ : ∃ r, Rational.new overflow whole 1 = some r ∧ r.IsReduced ∧
        r.toRat = whole.toInt / (1 : Int64).toInt := by
      apply Rational.new_eq_some
      · rw [Ne, eq_minValue_iff]
        omega
      · decide
      · decide
    refine ⟨r, ?_, ?_⟩
    · rw [parseRealLiteral_of_whole hpoint (hwholeDigits ▸ hwhole), Rational.integer, hr]
      rfl
    · rw [hvalue, hwholeEq, places, hfracDigits]
      simp [digitsValue]

/-- The numbers of a literal that is read have fitted. -/
theorem IsNumeral.fits_of_eq_ok (h : IsNumeral value) (hpoint : '.' ∈ value.toList)
    (hfits : ¬ Oversized value) {r : Rational} (hr : parseRealLiteral .stops value = .ok r) :
    places value ≤ 18 ∧ digitsValue (wholeDigits value) * 10 ^ places value +
      digitsValue (fracDigits value) < 2 ^ 63 := by
  obtain ⟨whole, fracValue, hwhole, hfrac, hparse⟩ := @IsNumeral.exists_parts .stops value h hpoint
    hfits
  rw [hparse] at hr
  cases hresult : decimalRational .stops whole fracValue (fracDigits value).length with
  | none =>
    rw [hresult] at hr
    cases hr
  | some r' =>
    obtain ⟨hpower, hnumber⟩ := decimalRational_stops (by omega) hresult
    rw [hwhole, hfrac] at hnumber
    exact ⟨hpower, mod_cast hnumber⟩

theorem IsNumeral.ne_invalidRealLiteral (h : IsNumeral value) (hpoint : '.' ∈ value.toList)
    (hfits : ¬ Oversized value) :
    parseRealLiteral overflow value ≠ .error (.invalidRealLiteral value) := by
  obtain ⟨whole, fracValue, -, -, hparse⟩ := @IsNumeral.exists_parts overflow value h hpoint hfits
  rw [hparse]
  cases decimalRational overflow whole fracValue (fracDigits value).length with
  | none => simp
  | some r => simp

/-- A literal without a point has nothing to scale. -/
theorem IsNumeral.readsExactly (h : IsNumeral value) (hpoint : '.' ∉ value.toList)
    (hfits : ¬ Oversized value) : ReadsExactly value := by
  rw [Oversized, not_or, not_le] at hfits
  have hplaces : places value = 0 := by
    rw [places, (h.whole_eq hpoint).2]
    rfl
  refine ⟨by omega, ?_, .inl ?_⟩
  · rw [hplaces, (h.whole_eq hpoint).2, pow_zero, mul_one]
    exact hfits.1
  · rw [(h.whole_eq hpoint).2]
    rfl

/-- **A literal is read exactly or refused**, without an overflow, just if a part of it is no machine
integer or all numbers fit and the places are counted right. -/
theorem exact_or_refused_iff {classes : CharClasses} {src : String} {toks : List Tok}
    (hlex : classes.lex src = .ok toks) (hmem : .num value ∈ toks) :
    ExactOrRefused value ↔ Oversized value ∨ ReadsExactly value := by
  have hnumeral := isNumeral_of_mem_lex hlex hmem
  by_cases hoversized : Oversized value
  · exact iff_of_true (.inr (hnumeral.refused hoversized)) (.inl hoversized)
  constructor
  · intro h
    by_cases hpoint : '.' ∈ value.toList
    · obtain ⟨r, hr, hvalue⟩ | hrefused := h
      · obtain ⟨hpower, hnumber⟩ := hnumeral.fits_of_eq_ok hpoint hoversized hr
        obtain ⟨r', hr', hscaled⟩ := @IsNumeral.exists_eq_ok .stops value hnumeral hoversized
          hpower hnumber
        rw [← Except.ok.inj (hr.symm.trans hr'), hvalue, decimalValue, eq_comm, scaled_eq_iff,
          places_eq_iff] at hscaled
        exact .inr ⟨hpower, hnumber, hscaled⟩
      · exact absurd hrefused (hnumeral.ne_invalidRealLiteral hpoint hoversized)
    · exact .inr (hnumeral.readsExactly hpoint hoversized)
  · intro h
    obtain ⟨hpower, hnumber, hcounted⟩ := h.resolve_left hoversized
    obtain ⟨r, hr, hscaled⟩ := @IsNumeral.exists_eq_ok .stops value hnumeral hoversized hpower
      hnumber
    refine .inl ⟨r, hr, ?_⟩
    rw [hscaled, decimalValue, scaled_eq_iff, places_eq_iff]
    exact hcounted

end Literals

theorem exact_or_refused_twoAndAHalf :
    ExactOrRefused "2.50" ↔ Oversized "2.50" ∨ ReadsExactly "2.50" :=
  @exact_or_refused_iff "2.50" .ascii "%x > 2.50" [.ident "%x", .gt, .num "2.50"] rfl
    (by simp)

example : parseRealLiteral .stops "2.50" = .ok ⟨5, 2⟩ := by decide

/-- Zero with nineteen places: both parts are 0, and the power of ten does not fit. Without checks a
product that does not fit turns the largest whole part into minus one half. -/
theorem not_exact_or_refused_zero :
    CharClasses.ascii.lex "0.0000000000000000000" = .ok [.num "0.0000000000000000000"] ∧
      ¬ ExactOrRefused "0.0000000000000000000" ∧
      CharClasses.ascii.lex "9223372036854775807.5" = .ok [.num "9223372036854775807.5"] ∧
      parseRealLiteral .stops "9223372036854775807.5" = .error .panicked ∧
      parseRealLiteral .wraps "9223372036854775807.5" = .ok ⟨-1, 2⟩ := by
  have hpanicked : parseRealLiteral .stops "0.0000000000000000000" = .error .panicked := by decide
  refine ⟨rfl, fun h ↦ ?_, rfl, by decide, by decide⟩
  obtain ⟨r, hr, -⟩ | hrefused := h
  · rw [hpanicked] at hr
    cases hr
  · rw [hpanicked] at hrefused
    cases hrefused

end MayMust.Assertions
