import MayMust.Cfg.Adapter.Arithmetic

/-!
# Lowering of pointer arithmetic

`lower_gep` turns the indices of a `getelementptr` into an offset in cells within the region of the
base pointer, or into a field region of its own when they select a field of the struct the base
points to. A cell stands for a scalar: types of at most seven bytes take one cell, larger ones a
cell for each four bytes.

`TargetData.Covers` says which cells hold the scalars of a range of bytes, under the layout that
`lower_gep` fixes.
-/

namespace MayMust

open Library

/-! ### The source -/

/-- The text of a sort. -/
def VarSort.display : VarSort → String
  | .bool => "Bool"
  | .int => "Int"
  | .real => "Real"

/-- `lower_integer_value`. -/
def lowerIntegerValue (function : String) (value : LlvmValue) : Except AdapterError Term :=
  match value.constantInt with
  | some constant => .ok (.int constant)
  | none =>
    match sortOfInstructionValue value with
    | .error e => .error e
    | .ok .int => .ok (.var (.int (localName function value)))
    | .ok sort => .error (.unsupportedValue
        ("expected integer value, found " ++ sort.display ++ ": " ++ value.printed))

/-- A type, as far as the lowering of pointer arithmetic looks into it. -/
inductive LlvmType
  | scalar (kind : TypeKind)
  | array (element : LlvmType) (length : ℕ)
  | struct (fields : List LlvmType)

/-- What LLVM knows about the layout of types in memory. -/
structure TargetData where
  /-- `store_size_of_type`. -/
  storeSize : LlvmType → UInt64
  /-- `offset_of_element`. -/
  offsetOfElement : LlvmType → UInt32 → UInt64
  /-- The distance of the elements of an array of the type, in bytes. The lowering does not read
  it. -/
  abiSize : LlvmType → ℕ

/-- What a `getelementptr` becomes. -/
inductive GepLowering
  | offset (term : Term)
  | structField (fieldIndex : UInt32)

/-- What the lowering reads of a `getelementptr`. -/
structure GepInstruction where
  /-- The base pointer and the indices. -/
  operands : List LlvmValue
  sourceElementType : Option LlvmType

section

variable (function : String) (layout : TargetData)

/-- The distance in cells of the elements of an array. -/
def gepStride (type : LlvmType) : Int64 :=
  Int64.ofNat (max (layout.storeSize type).toNat 4 / 4)

/-- The indices after the first one, which walk into the type. -/
def gepSteps : LlvmType → Term → List LlvmValue → Except AdapterError Term
  | _, offset, [] => .ok offset
  | .struct fields, offset, index :: rest =>
    match index.constantInt with
    | some field =>
      let field := field.toUInt64.toUInt32
      let byteOffset := layout.offsetOfElement (.struct fields) field
      gepSteps (fields[field.toNat]?.getD (.struct fields))
        (.add offset (.int (Int64.ofNat (byteOffset.toNat / 4)))) rest
    | none => .ok offset
  | .array element _, offset, index :: rest => do
    let index ← lowerIntegerValue function index
    gepSteps element (.add offset (.mul index (.int (gepStride layout element)))) rest
  | .scalar kind, offset, index :: rest => do
    let index ← lowerIntegerValue function index
    gepSteps (.scalar kind) (.add offset (.mul index (.int (gepStride layout (.scalar kind))))) rest

/-- The field a `getelementptr` selects of the struct its base points to, if that is all it does. -/
def selectedField (type : LlvmType) (indices : List LlvmValue) : Option UInt32 :=
  match type, indices with
  | .struct _, [first, second] =>
    match first.constantInt, second.constantInt with
    | some 0, some field => if 0 ≤ field then some field.toUInt64.toUInt32 else none
    | _, _ => none
  | _, _ => none

/-- The offset of the indices, walking from the type of the elements the base points to. -/
def gepOffset (type : LlvmType) : List LlvmValue → Except AdapterError Term
  | [] => .ok (.int 0)
  | first :: rest => do
    let index ← lowerIntegerValue function first
    gepSteps function layout type (.add (.int 0) (.mul index (.int (gepStride layout type)))) rest

/-- The sum of the indices. -/
def gepSum (offset : Term) : List LlvmValue → Except AdapterError Term
  | [] => .ok offset
  | index :: rest => do
    let term ← lowerIntegerValue function index
    gepSum (.add offset term) rest

/-- `lower_gep`. -/
def lowerGep (i : GepInstruction) : Except AdapterError GepLowering :=
  match i.operands, i.sourceElementType with
  | [], _ => .ok (.offset (.int 0))
  | _ :: indices, none => return .offset (← gepSum function (.int 0) indices)
  | _ :: indices, some type =>
    match selectedField type indices with
    | some field => .ok (.structField field)
    | none => return .offset (← gepOffset function layout type indices)

end

/-! ### The cells of a range of bytes -/

/-- A cell relative to a pointer: an offset in the pointer's region or in one of its field
regions. -/
structure Location where
  field : Option UInt32
  index : ℤ
  deriving DecidableEq

/-- The location a `getelementptr` with constant indices leads to. -/
def GepLowering.Denotes (lowering : GepLowering) (x : Location) : Prop :=
  match lowering with
  | .offset term => x.field = none ∧ ∀ s, term.eval s = .int x.index
  | .structField field => x = ⟨some field, 0⟩

/-- An integer constant as an operand. -/
def constantOperand (value : ℕ) : LlvmValue where
  kind := .integer 64
  displayName := toString value
  constantInt := some (Int64.ofNat value)
  constantReal := none
  printed := toString value

namespace TargetData

variable (layout : TargetData)

/-- A type has a scalar at the end of a path of indices: its offset and its size in bytes. -/
inductive ScalarAt : LlvmType → List ℕ → ℕ → ℕ → Prop
  | scalar (kind : TypeKind) :
    ScalarAt (.scalar kind) [] 0 (layout.storeSize (.scalar kind)).toNat
  | array {element : LlvmType} {length i : ℕ} {path : List ℕ} {offset size : ℕ} (hi : i < length)
      (h : ScalarAt element path offset size) :
    ScalarAt (.array element length) (i :: path) (i * layout.abiSize element + offset) size
  | struct {fields : List LlvmType} {field : LlvmType} {i : ℕ} {path : List ℕ} {offset size : ℕ}
      (hi : fields[i]? = some field) (h : ScalarAt field path offset size) :
    ScalarAt (.struct fields) (i :: path)
      ((layout.offsetOfElement (.struct fields) (UInt32.ofNat i)).toNat + offset) size

/-- The location holds a scalar of the first bytes from a pointer to elements of the type on: it is
where `lower_gep` leads to for the indices of a scalar that starts in these bytes. Indices are
signed 64-bit integers. -/
def Covers (type : LlvmType) (bytes : ℕ) (x : Location) : Prop :=
  ∃ k path offset size lowering, k < 2 ^ 63 ∧ layout.ScalarAt type path offset size ∧ 0 < size ∧
    k * layout.abiSize type + offset < bytes ∧
    lowerGep "" layout ⟨constantOperand 0 :: (k :: path).map constantOperand, some type⟩ =
      .ok lowering ∧ lowering.Denotes x

/-- The first cells of the pointer's region. -/
def First (n : ℕ) (x : Location) : Prop := x.field = none ∧ 0 ≤ x.index ∧ x.index < n

variable {layout} {kind : TypeKind} {bytes : ℕ} {x : Location}

theorem toInt_gepStride (type : LlvmType) :
    (gepStride layout type).toInt = (max (layout.storeSize type).toNat 4 / 4 : ℕ) := by
  have hsize := (layout.storeSize type).toNat_lt
  exact Int64.toInt_ofNat_of_lt (by omega)

theorem toInt_gepStride_pos (type : LlvmType) : 0 < (gepStride layout type).toInt := by
  rw [toInt_gepStride]
  omega

theorem lowerGep_scalar (k : ℕ) :
    lowerGep "" layout ⟨[constantOperand 0, constantOperand k], some (.scalar kind)⟩ =
      .ok (.offset (.add (.int 0)
        (.mul (.int (Int64.ofNat k)) (.int (gepStride layout (.scalar kind)))))) :=
  rfl

theorem eval_add_mul (k : ℕ) (hk : k < 2 ^ 63) (stride : Int64) (s : State) :
    (Term.add (.int 0) (.mul (.int (Int64.ofNat k)) (.int stride))).eval s =
      .int (k * stride.toInt) := by
  have hzero : (0 : Int64).toInt = 0 := rfl
  simp only [Term.eval, Value.arith, Int64.toInt_ofNat_of_lt hk, hzero, zero_add]

/-- The scalars of a range of an array of scalars. -/
theorem covers_scalar (hsize : 0 < (layout.storeSize (.scalar kind)).toNat) :
    layout.Covers (.scalar kind) bytes x ↔
      ∃ k, k < 2 ^ 63 ∧ k * layout.abiSize (.scalar kind) < bytes ∧
        x = ⟨none, k * (gepStride layout (.scalar kind)).toInt⟩ := by
  constructor
  · rintro ⟨k, path, offset, size, lowering, hk, hscalar, -, hbytes, hlower, hdenotes⟩
    cases hscalar
    rw [List.map_cons, List.map_nil, lowerGep_scalar] at hlower
    obtain rfl := Except.ok.inj hlower
    obtain ⟨hfield, heval⟩ := hdenotes
    have hindex := heval State.zero
    rw [eval_add_mul k hk] at hindex
    refine ⟨k, hk, by omega, ?_⟩
    cases x
    simp only [Value.int.injEq] at hfield hindex
    rw [hfield, hindex]
  · rintro ⟨k, hk, hbytes, rfl⟩
    exact ⟨k, [], 0, _, _, hk, .scalar kind, hsize, by omega, lowerGep_scalar k, rfl,
      eval_add_mul k hk _⟩

/-- A range of bytes of an array of scalars takes as many cells as it has bytes exactly if the
scalars are bytes, or there is at most one byte. -/
theorem covers_scalar_iff_first (hsize : 0 < (layout.storeSize (.scalar kind)).toNat)
    (habi : (layout.storeSize (.scalar kind)).toNat ≤ layout.abiSize (.scalar kind))
    (hbytes : bytes < 2 ^ 63) :
    (∀ x, layout.Covers (.scalar kind) bytes x ↔ First bytes x) ↔
      bytes ≤ 1 ∨ layout.abiSize (.scalar kind) = 1 := by
  set e := layout.abiSize (.scalar kind) with he
  set stride := (gepStride layout (.scalar kind)).toInt with hstride
  have hcovers (x : Location) := @covers_scalar layout kind bytes x hsize
  rw [← he, ← hstride] at hcovers
  constructor
  · intro h
    by_contra hlarge
    push Not at hlarge
    obtain ⟨hlarge, hne⟩ := hlarge
    -- The last of the first cells is covered, so the stride divides its index.
    have hlast : First bytes ⟨none, (bytes - 1 : ℕ)⟩ := ⟨rfl, by simp, by simp; omega⟩
    have hsecond : First bytes ⟨none, 1⟩ := ⟨rfl, by simp, by simp; omega⟩
    obtain ⟨k, -, -, hk⟩ := (hcovers _).1 ((h _).2 hsecond)
    obtain ⟨l, -, hl, hll⟩ := (hcovers _).1 ((h _).2 hlast)
    simp only [Location.mk.injEq, true_and] at hk hll
    have hone : stride = 1 := by
      obtain ⟨-, hone⟩ | ⟨hneg, -⟩ := Int.mul_eq_one_iff_eq_one_or_neg_one.1 hk.symm
      · exact hone
      · omega
    rw [hone, mul_one] at hll
    have hl' : l = bytes - 1 := by omega
    have htwo : 2 ≤ e := by omega
    have hmul : l * 2 ≤ l * e := Nat.mul_le_mul_left l htwo
    omega
  · intro h x
    have hpos : 0 < e := by omega
    -- The bytes in the range are the elements in the range, and these have no gaps.
    have helem (k : ℕ) : k * e < bytes ↔ k < bytes := by
      obtain hsmall | hone := h
      · have hle : k ≤ k * e := Nat.le_mul_of_pos_right k hpos
        constructor
        · omega
        · intro hk
          obtain rfl : k = 0 := by omega
          omega
      · rw [hone, mul_one]
    have hindex {k : ℕ} (hk : k < bytes) : (k : ℤ) * stride = k := by
      obtain hsmall | hone := h
      · obtain rfl : k = 0 := by omega
        simp
      · have hstore : (layout.storeSize (.scalar kind)).toNat = 1 := by omega
        have hstrideOne : stride = 1 := by
          rw [hstride, gepStride, hstore]
          rfl
        rw [hstrideOne, mul_one]
    rw [hcovers]
    constructor
    · rintro ⟨k, -, hk, rfl⟩
      rw [helem] at hk
      rw [hindex hk]
      exact ⟨rfl, by simp, by simpa using hk⟩
    · rintro ⟨hfield, hnonneg, hlt⟩
      obtain ⟨k, hk⟩ := Int.eq_ofNat_of_zero_le hnonneg
      have hkbytes : k < bytes := by omega
      refine ⟨k, by omega, (helem k).2 hkbytes, ?_⟩
      cases x
      simp only at hfield hk
      rw [hindex hkbytes, hfield, hk]

end TargetData

end MayMust
