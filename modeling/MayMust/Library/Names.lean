import Mathlib.Data.List.Basic
import Mathlib.Tactic.Common

/-!
# Names built from prefixes

Stripping a prefix from a name, and names that carry a number between two fixed parts. A number is
written in decimal and is followed by a dollar sign, so names with different numbers differ
whatever follows. A number at the end of a name is determined if a character that is no digit is in
front of it, and so is what is in front of that (`append_toString_inj`).
-/

namespace Library

/-- What is left of a name after a prefix. -/
def stripPrefix (pre name : String) : Option String :=
  (pre.toList.isPrefixOf? name.toList).map String.ofList

theorem isPrefixOf?_eq_some_iff {α : Type*} [DecidableEq α] {l l' rest : List α} :
    l.isPrefixOf? l' = some rest ↔ l' = l ++ rest := by
  induction l generalizing l' with
  | nil => simp [List.isPrefixOf?]
  | cons a l ih =>
    cases l' with
    | nil => simp [List.isPrefixOf?]
    | cons b l' =>
      rw [List.isPrefixOf?, List.cons_append, List.cons.injEq]
      by_cases hab : a = b
      · simp [hab, ih]
      · simp [hab, Ne.symm hab]

theorem stripPrefix_eq_some_iff {pre name suffix : String} :
    stripPrefix pre name = some suffix ↔ name = pre ++ suffix := by
  rw [stripPrefix, Option.map_eq_some_iff, ← String.toList_inj, String.toList_append]
  constructor
  · rintro ⟨rest, hrest, rfl⟩
    rw [isPrefixOf?_eq_some_iff.1 hrest, String.toList_ofList]
  · intro h
    exact ⟨suffix.toList, isPrefixOf?_eq_some_iff.2 h, String.ofList_toList⟩

@[simp] theorem stripPrefix_append (pre suffix : String) :
    stripPrefix pre (pre ++ suffix) = some suffix :=
  stripPrefix_eq_some_iff.2 rfl

/-- A decimal number is read back from its digits. -/
theorem toDigits_injective {m n : ℕ} (h : Nat.toDigits 10 m = Nat.toDigits 10 n) : m = n := by
  rw [← Nat.ofDigitChars_ten_toDigits (n := m), h, Nat.ofDigitChars_ten_toDigits]

/-- The number in a name is determined by the name. -/
theorem eq_of_append_toString {pre a b : String} {m n : ℕ}
    (h : pre ++ toString m ++ "$" ++ a = pre ++ toString n ++ "$" ++ b) : m = n := by
  have hdollar {k : ℕ} : '$' ∉ Nat.toDigits 10 k := by
    intro hmem
    have hdigit := Nat.isDigit_of_mem_toDigits (by decide) (by decide) hmem
    exact absurd hdigit (by decide)
  simp only [← String.toList_inj, String.toList_append, List.append_assoc,
    List.append_cancel_left_eq, Nat.toString_eq_repr, Nat.toList_repr] at h
  have hsplit {k : ℕ} (rest : List Char) :
      (Nat.toDigits 10 k ++ ("$".toList ++ rest)).takeWhile (· ≠ '$') = Nat.toDigits 10 k := by
    rw [List.takeWhile_append_of_pos]
    · simp
    · intro c hc
      exact decide_eq_true fun heq ↦ hdollar (heq ▸ hc)
  have hdigits := congrArg (List.takeWhile (· ≠ '$')) h
  rw [hsplit, hsplit] at hdigits
  exact toDigits_injective hdigits

/-- Lists that end in digits behind a character that is none split in one way. -/
theorem append_digits_inj {xs ys ds es : List Char} {c : Char} (hc : c.isDigit = false)
    (hds : ∀ d ∈ ds, d.isDigit = true) (hes : ∀ d ∈ es, d.isDigit = true)
    (h : xs ++ c :: ds = ys ++ c :: es) : xs = ys ∧ ds = es := by
  have hlast {zs fs : List Char} (hfs : ∀ d ∈ fs, d.isDigit = true) :
      (zs ++ c :: fs).reverse.takeWhile Char.isDigit = fs.reverse := by
    rw [List.reverse_append, List.reverse_cons, List.append_assoc, List.takeWhile_append_of_pos
      fun d hd ↦ hfs d (List.mem_reverse.1 hd)]
    simp [hc]
  have hdigits : ds = es := by
    rw [← List.reverse_inj, ← @hlast xs ds hds, ← @hlast ys es hes, h]
  exact ⟨List.append_cancel_right (hdigits ▸ h), hdigits⟩

/-- The number at the end of a name is determined by the name. -/
theorem append_toString_inj {a b sep : String} {c : Char} {m n : ℕ} (hc : c.isDigit = false)
    (hsep : sep = String.singleton c) (h : a ++ sep ++ toString m = b ++ sep ++ toString n) :
    a = b ∧ m = n := by
  have hdigit (k : ℕ) : ∀ d ∈ Nat.toDigits 10 k, d.isDigit = true := fun d hd ↦
    Nat.isDigit_of_mem_toDigits (by decide) (by decide) hd
  have htoList : a.toList ++ c :: Nat.toDigits 10 m = b.toList ++ c :: Nat.toDigits 10 n := by
    have := congrArg String.toList h
    simpa [hsep, Nat.toString_eq_repr, Nat.toList_repr] using this
  obtain ⟨hfront, hdigits⟩ := append_digits_inj hc (hdigit m) (hdigit n) htoList
  exact ⟨String.toList_inj.1 hfront, toDigits_injective hdigits⟩

end Library
