import Mathlib.Algebra.Order.BigOperators.GroupWithZero.List
import Mathlib.Data.List.Forall2
import Mathlib.Tactic.Ring

/-!
# Strided addressing

An index vector within given dimensions has the offset that given strides assign to it: the sum of
the indices, each times its stride. Different vectors have different offsets if every stride is
larger than all offsets of the vectors behind it (`strided_inj`).

The strides of interest are those of an array of arrays that is stored in rows and addressed in
words: the size of each row in bytes, rounded down to words but at least one. They tell the
elements apart exactly if an element takes a word or only one index varies
(`rowStrides_injective_iff`).
-/

namespace Library

/-- The indices are within the dimensions. -/
def Within (dims indices : List ℕ) : Prop := List.Forall₂ (· < ·) indices dims

/-- The offset of an index vector. -/
def strided : List ℕ → List ℕ → ℕ
  | s :: strides, i :: indices => i * s + strided strides indices
  | _, _ => 0

/-- Every stride is larger than the offsets of the index vectors behind it. -/
def Spread : List ℕ → List ℕ → Prop
  | _ :: dims, s :: strides =>
    (∀ indices, Within dims indices → strided strides indices < s) ∧ Spread dims strides
  | [], [] => True
  | _, _ => False

variable {dims strides indices indices' : List ℕ} {d i s : ℕ}

@[simp] theorem within_nil : Within [] indices ↔ indices = [] := List.forall₂_nil_right_iff

theorem within_cons : Within (d :: dims) indices ↔
    ∃ i is, i < d ∧ Within dims is ∧ indices = i :: is := by
  rw [Within, List.forall₂_cons_right_iff]
  rfl

@[simp] theorem within_cons_cons : Within (d :: dims) (i :: indices) ↔ i < d ∧
  Within dims indices :=
  List.forall₂_cons

@[simp] theorem strided_cons_cons : strided (s :: strides) (i :: indices) =
    i * s + strided strides indices := rfl

/-- Index vectors with the same offset are equal, if the strides are spread. -/
theorem strided_inj (h : Spread dims strides) (hi : Within dims indices)
    (hi' : Within dims indices') (heq : strided strides indices = strided strides indices') :
    indices = indices' := by
  induction dims generalizing strides indices indices' with
  | nil => rw [within_nil.1 hi, within_nil.1 hi']
  | cons d dims ih =>
    cases strides with
    | nil => exact h.elim
    | cons s strides =>
      obtain ⟨i, is, -, his, rfl⟩ := within_cons.1 hi
      obtain ⟨j, js, -, hjs, rfl⟩ := within_cons.1 hi'
      rw [strided_cons_cons, strided_cons_cons] at heq
      have hlt := h.1 is his
      have hlt' := h.1 js hjs
      -- Division by the stride recovers the first index.
      have hij : i = j := by
        have hdiv : (i * s + strided strides is) / s = (j * s + strided strides js) / s := by
          rw [heq]
        rwa [mul_comm i, mul_comm j, Nat.mul_add_div (by omega), Nat.mul_add_div (by omega),
          Nat.div_eq_of_lt hlt, Nat.div_eq_of_lt hlt', add_zero, add_zero] at hdiv
      subst hij
      rw [ih h.2 his hjs (by omega)]

theorem Within.pos (h : Within dims indices) : ∀ d ∈ dims, 0 < d := by
  induction h with
  | nil => simp
  | cons hlt _ ih => exact List.forall_mem_cons.2 ⟨Nat.zero_lt_of_lt hlt, ih⟩

/-- The vector of zeros. -/
theorem within_replicate_zero (h : ∀ d ∈ dims, 0 < d) :
    Within dims (List.replicate dims.length 0) := by
  induction dims with
  | nil => exact List.Forall₂.nil
  | cons d dims ih =>
    rw [List.forall_mem_cons] at h
    exact List.Forall₂.cons h.1 (ih h.2)

@[simp] theorem strided_replicate_zero (strides : List ℕ) (n : ℕ) :
    strided strides (List.replicate n 0) = 0 := by
  induction n generalizing strides with
  | zero => cases strides <;> rfl
  | succ n ih =>
    cases strides with
    | nil => rfl
    | cons s strides => rw [List.replicate_succ, strided_cons_cons, ih, zero_mul]

/-! ### Rows of words -/

/-- A number of bytes in words, rounded down but at least one. -/
def inWords (word bytes : ℕ) : ℕ := max bytes word / word

/-- The bytes of an element of an array with these dimensions. Arrays of elements take the pitch
for each element. -/
def rowBytes (size pitch : ℕ) : List ℕ → ℕ
  | [] => size
  | d :: dims => (d :: dims).prod * pitch

/-- The strides in words of an array of arrays. -/
def rowStrides (word size pitch : ℕ) : List ℕ → List ℕ
  | [] => []
  | _ :: dims => inWords word (rowBytes size pitch dims) :: rowStrides word size pitch dims

section Rows

variable {word size pitch : ℕ}

theorem inWords_pos (hw : 0 < word) (bytes : ℕ) : 0 < inWords word bytes :=
  Nat.div_pos (le_max_right _ _) hw

theorem inWords_of_le {bytes : ℕ} (h : word ≤ bytes) : inWords word bytes = bytes / word := by
  rw [inWords, max_eq_left h]

theorem inWords_mono {bytes bytes' : ℕ} (h : bytes ≤ bytes') :
    inWords word bytes ≤ inWords word bytes' :=
  Nat.div_le_div_right (max_le_max_right _ h)

/-- Where an element takes a word, a row takes at least the words of its elements. -/
theorem mul_inWords_rowBytes_le (hsize : size ≤ pitch) (hpitch : word ≤ pitch) (hd : 0 < d)
    (hdims : ∀ d ∈ dims, 0 < d) :
    d * inWords word (rowBytes size pitch dims) ≤ inWords word ((d :: dims).prod * pitch) := by
  have hprod : 0 < dims.prod := List.prod_pos hdims
  have hbytes : rowBytes size pitch dims ≤ dims.prod * pitch := by
    cases dims with
    | nil => simpa [rowBytes] using hsize
    | cons d dims => exact le_refl _
  have hword : word ≤ dims.prod * pitch := hpitch.trans (Nat.le_mul_of_pos_left pitch hprod)
  calc d * inWords word (rowBytes size pitch dims)
      ≤ d * inWords word (dims.prod * pitch) := Nat.mul_le_mul_left d (inWords_mono hbytes)
    _ = d * (dims.prod * pitch / word) := by rw [inWords_of_le hword]
    _ ≤ d * (dims.prod * pitch) / word := Nat.mul_div_le_mul_div_assoc d _ word
    _ = inWords word ((d :: dims).prod * pitch) := by
      rw [List.prod_cons, mul_assoc,
        inWords_of_le (hword.trans (Nat.le_mul_of_pos_left _ hd))]

/-- Where an element takes a word, offsets stay below the words of the row. -/
theorem strided_lt_rowBytes (hw : 0 < word) (hsize : size ≤ pitch) (hpitch : word ≤ pitch)
    (h : Within dims indices) :
    strided (rowStrides word size pitch dims) indices < inWords word
      (rowBytes size pitch dims) := by
  induction dims generalizing indices with
  | nil =>
    obtain rfl := within_nil.1 h
    exact inWords_pos hw _
  | cons d dims ih =>
    obtain ⟨i, is, hi, his, rfl⟩ := within_cons.1 h
    have hrow := ih his
    have hle := mul_inWords_rowBytes_le hsize hpitch (Nat.zero_lt_of_lt hi) his.pos
    have hmul : (i + 1) * inWords word (rowBytes size pitch dims) ≤
        d * inWords word (rowBytes size pitch dims) := Nat.mul_le_mul_right _ hi
    rw [rowStrides, strided_cons_cons, rowBytes]
    rw [Nat.add_mul, Nat.one_mul] at hmul
    omega

/-- Where an element takes a word, the strides are spread. -/
theorem spread_rowStrides (hw : 0 < word) (hsize : size ≤ pitch) (hpitch : word ≤ pitch)
    (dims : List ℕ) : Spread dims (rowStrides word size pitch dims) := by
  induction dims with
  | nil => trivial
  | cons d dims ih => exact ⟨fun _ h ↦ strided_lt_rowBytes hw hsize hpitch h, ih⟩

/-- The number of dimensions of more than one element. -/
def proper (dims : List ℕ) : ℕ := (dims.filter (2 ≤ ·)).length

theorem proper_cons_of_two_le (h : 2 ≤ d) : proper (d :: dims) = proper dims + 1 := by
  rw [proper, List.filter_cons_of_pos (by simpa using h), List.length_cons, proper]

theorem proper_cons_of_lt (h : d < 2) : proper (d :: dims) = proper dims := by
  rw [proper, List.filter_cons_of_neg (by simpa using h), proper]

theorem prod_eq_one_of_proper_eq_zero (hpos : ∀ d ∈ dims, 0 < d) (h : proper dims = 0) :
    dims.prod = 1 := by
  induction dims with
  | nil => rfl
  | cons d dims ih =>
    rw [List.forall_mem_cons] at hpos
    have hd : d < 2 := by
      by_contra hd
      rw [proper_cons_of_two_le (not_lt.1 hd)] at h
      omega
    rw [proper_cons_of_lt hd] at h
    rw [List.prod_cons, ih hpos.2 h]
    omega

theorem two_le_prod_of_proper_pos (hpos : ∀ d ∈ dims, 0 < d) (h : 0 < proper dims) :
    2 ≤ dims.prod := by
  induction dims with
  | nil => simp [proper] at h
  | cons d dims ih =>
    rw [List.forall_mem_cons] at hpos
    rw [List.prod_cons]
    rcases lt_or_ge d 2 with hd | hd
    · rw [proper_cons_of_lt hd] at h
      exact (ih hpos.2 h).trans (Nat.le_mul_of_pos_left _ hpos.1)
    · exact hd.trans (Nat.le_mul_of_pos_right _ (List.prod_pos hpos.2))

/-- Where no dimension has two elements, there is only one vector. -/
theorem eq_of_proper_eq_zero (h : proper dims = 0) (hi : Within dims indices)
    (hi' : Within dims indices') : indices = indices' := by
  induction dims generalizing indices indices' with
  | nil => rw [within_nil.1 hi, within_nil.1 hi']
  | cons d dims ih =>
    obtain ⟨i, is, hid, his, rfl⟩ := within_cons.1 hi
    obtain ⟨j, js, hjd, hjs, rfl⟩ := within_cons.1 hi'
    have hd : d < 2 := by
      by_contra hd
      rw [proper_cons_of_two_le (not_lt.1 hd)] at h
      omega
    rw [proper_cons_of_lt hd] at h
    rw [ih h his hjs, show i = j by omega]

/-- Where one dimension has two elements, different vectors have different offsets. -/
theorem strided_inj_of_proper_le_one (hw : 0 < word) (h : proper dims ≤ 1)
    (hi : Within dims indices) (hi' : Within dims indices')
    (heq : strided (rowStrides word size pitch dims) indices =
      strided (rowStrides word size pitch dims) indices') : indices = indices' := by
  induction dims generalizing indices indices' with
  | nil => rw [within_nil.1 hi, within_nil.1 hi']
  | cons d dims ih =>
    obtain ⟨i, is, hid, his, rfl⟩ := within_cons.1 hi
    obtain ⟨j, js, hjd, hjs, rfl⟩ := within_cons.1 hi'
    rw [rowStrides, strided_cons_cons, strided_cons_cons] at heq
    rcases lt_or_ge d 2 with hd | hd
    · rw [proper_cons_of_lt hd] at h
      obtain rfl : i = j := by omega
      rw [ih h his hjs (by omega)]
    · rw [proper_cons_of_two_le hd] at h
      obtain rfl := eq_of_proper_eq_zero (by omega) his hjs
      have hpos := inWords_pos hw (rowBytes size pitch dims)
      rw [Nat.add_right_cancel_iff, Nat.mul_left_inj (by omega)] at heq
      rw [heq]

/-- Where elements are smaller than a word and one dimension has two of them, the offsets are all
numbers up to the number of elements. -/
theorem exists_strided_eq (hw : 0 < word) (hsize : size ≤ pitch) (hpitch : pitch < word)
    (hpos : ∀ d ∈ dims, 0 < d) (h : proper dims ≤ 1) {n : ℕ} (hn : n < dims.prod) :
    ∃ indices, Within dims indices ∧
      strided (rowStrides word size pitch dims) indices = n := by
  induction dims with
  | nil => exact ⟨[], within_nil.2 rfl, by simp at hn; rw [hn]; rfl⟩
  | cons d dims ih =>
    rw [List.forall_mem_cons] at hpos
    rw [List.prod_cons] at hn
    rcases lt_or_ge d 2 with hd | hd
    · rw [proper_cons_of_lt hd] at h
      obtain rfl : d = 1 := by omega
      obtain ⟨is, his, hstrided⟩ := ih hpos.2 h (by simpa using hn)
      refine ⟨0 :: is, within_cons_cons.2 ⟨Nat.one_pos, his⟩, ?_⟩
      rw [rowStrides, strided_cons_cons, hstrided, zero_mul, zero_add]
    · rw [proper_cons_of_two_le hd] at h
      -- The rows are single elements, so their stride is one word.
      have hprod : dims.prod = 1 := prod_eq_one_of_proper_eq_zero hpos.2 (by omega)
      have hone : inWords word (rowBytes size pitch dims) = 1 := by
        have hlt : rowBytes size pitch dims < word := by
          cases dims with
          | nil => exact lt_of_le_of_lt hsize hpitch
          | cons e dims => rw [rowBytes, hprod, one_mul]; exact hpitch
        rw [inWords, max_eq_right hlt.le, Nat.div_self hw]
      rw [hprod, mul_one] at hn
      refine ⟨n :: List.replicate dims.length 0,
        within_cons_cons.2 ⟨hn, within_replicate_zero hpos.2⟩, ?_⟩
      rw [rowStrides, strided_cons_cons, hone, strided_replicate_zero, mul_one, add_zero]

/-- Where elements are smaller than a word and two dimensions have two of them, different vectors
share an offset. -/
theorem exists_collision (hw : 0 < word) (hsize : size ≤ pitch) (hpitch : pitch < word)
    (hpos : ∀ d ∈ dims, 0 < d) (h : 2 ≤ proper dims) :
    ∃ indices indices', Within dims indices ∧ Within dims indices' ∧ indices ≠ indices' ∧
      strided (rowStrides word size pitch dims) indices =
        strided (rowStrides word size pitch dims) indices' := by
  induction dims with
  | nil => simp [proper] at h
  | cons d dims ih =>
    rw [List.forall_mem_cons] at hpos
    rcases Nat.lt_or_ge (proper dims) 2 with hless | hmore
    · -- The next row starts within the words of this one.
      have hd : 2 ≤ d := by
        by_contra hd
        rw [proper_cons_of_lt (not_le.1 hd)] at h
        omega
      rw [proper_cons_of_two_le hd] at h
      have htwo : 2 ≤ dims.prod := two_le_prod_of_proper_pos hpos.2 (by omega)
      have hstride : inWords word (rowBytes size pitch dims) < dims.prod := by
        have hbytes : rowBytes size pitch dims = dims.prod * pitch := by
          cases dims with
          | nil => simp at htwo
          | cons e dims => rfl
        rw [hbytes, inWords, Nat.div_lt_iff_lt_mul hw]
        exact max_lt (Nat.mul_lt_mul_of_pos_left hpitch (by omega))
          (lt_mul_of_one_lt_left hw htwo)
      obtain ⟨is, his, hstrided⟩ := exists_strided_eq hw hsize hpitch hpos.2 (by omega) hstride
      refine ⟨0 :: is, 1 :: List.replicate dims.length 0, within_cons_cons.2 ⟨hpos.1, his⟩,
        within_cons_cons.2 ⟨hd, within_replicate_zero hpos.2⟩, by simp, ?_⟩
      rw [rowStrides, strided_cons_cons, strided_cons_cons, hstrided, strided_replicate_zero,
        zero_mul, one_mul, zero_add, add_zero]
    · obtain ⟨is, js, his, hjs, hne, heq⟩ := ih hpos.2 hmore
      refine ⟨0 :: is, 0 :: js, within_cons_cons.2 ⟨hpos.1, his⟩,
        within_cons_cons.2 ⟨hpos.1, hjs⟩, by simpa using hne, ?_⟩
      rw [rowStrides, strided_cons_cons, strided_cons_cons, heq]

/-- The strides of rows tell the elements apart exactly if an element takes a word or at most one
dimension has two elements. -/
theorem rowStrides_injective_iff (hw : 0 < word) (hsize : size ≤ pitch)
    (hpos : ∀ d ∈ dims, 0 < d) :
    (∀ indices indices', Within dims indices → Within dims indices' →
      strided (rowStrides word size pitch dims) indices =
        strided (rowStrides word size pitch dims) indices' → indices = indices') ↔
      word ≤ pitch ∨ proper dims ≤ 1 := by
  constructor
  · intro h
    by_contra hnot
    push Not at hnot
    obtain ⟨is, js, his, hjs, hne, heq⟩ := exists_collision hw hsize hnot.1 hpos hnot.2
    exact hne (h is js his hjs heq)
  · rintro (hpitch | hproper) is js his hjs heq
    · exact strided_inj (spread_rowStrides hw hsize hpitch dims) his hjs heq
    · exact strided_inj_of_proper_le_one hw hproper his hjs heq

end Rows

end Library
