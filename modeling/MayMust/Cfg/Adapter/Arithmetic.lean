import MayMust.Cfg.Effect
import MayMust.Library.Fallible
import Mathlib.Tactic.Linarith
import Mathlib.Tactic.Ring
import Mathlib.Tactic.Positivity

/-!
# Lowering of integer instructions

`lower_node_transfer` of the source on the integer arithmetic, comparison and shift instructions.
An LLVM integer of width `w` is represented by its signed value: constants are read with sign
extension, and that is the encoding `LlvmValue.Encodes` states.

Two families of instructions are compared with LLVM's own operations on bit vectors.

* Signed division, remainder and right shifts become the formula's division and remainder, which
  the solver rounds the Euclidean way. The result is LLVM's exactly where the two conventions
  agree (`SignedOpcode.Agrees`).
* Unsigned division, remainder and comparisons come with assumes that both operands are
  non-negative, so the lowered node executes only where both top bits are clear.
-/

namespace MayMust

open Library

/-! ### Values and instructions -/

/-- The type of an LLVM value, as far as the lowering looks at it. -/
inductive TypeKind
  | integer (width : ℕ)
  | pointer
  | floating
  | other
  deriving DecidableEq, Repr

/-- What the lowering reads of an LLVM value. -/
structure LlvmValue where
  kind : TypeKind
  displayName : String
  /-- `as_constant_int`: the sign-extended value of an integer constant. -/
  constantInt : Option Int64
  /-- The rational a finite floating-point constant is rounded to. -/
  constantReal : Option Rational
  /-- `print`: the textual form. -/
  printed : String

/-- The errors of the lowering that the modelled passes raise. -/
inductive AdapterError
  | unsupportedInstruction (printed : String)
  | unsupportedValue (printed : String)
  | phiPredecessorMismatch (text : String)
  deriving DecidableEq

/-- `local_name`. -/
def localName (function : String) (value : LlvmValue) : String :=
  function ++ "$" ++ value.displayName

/-- `sort_of_instruction_value`. -/
def sortOfInstructionValue (value : LlvmValue) : Except AdapterError VarSort :=
  match value.kind with
  | .integer 1 => .ok .bool
  | .integer _ | .pointer => .ok .int
  | .floating => .ok .real
  | .other => .error (.unsupportedValue value.printed)

/-- `assigned_var`. -/
def assignedVar (function : String) (value : LlvmValue) : Except AdapterError Var := do
  let sort ← sortOfInstructionValue value
  return ⟨localName function value, sort⟩

/-- The text mentions a null pointer. -/
def mentionsNull (printed : String) : Bool := decide ("null".toList <:+: printed.toList)

/-- `lower_numeric_value`. -/
def lowerNumericValue (function : String) (value : LlvmValue) : Except AdapterError Term :=
  if value.kind = .pointer then
    if value.constantInt = some 0 ∨ mentionsNull value.printed then .ok (.int 0)
    else .ok (.var (.int (localName function value)))
  else
    match value.constantInt, value.constantReal with
    | some constant, _ => .ok (.int constant)
    | none, some constant => .ok (.real constant)
    | none, none =>
      match sortOfInstructionValue value with
      | .error e => .error e
      | .ok .int => .ok (.var (.int (localName function value)))
      | .ok .real => .ok (.var (.real (localName function value)))
      | .ok .bool => .error (.unsupportedValue value.printed)

/-- The predicates of `icmp`. -/
inductive IcmpPredicate
  | eq | ne | ugt | uge | ult | ule | sgt | sge | slt | sle
  deriving DecidableEq, Repr

/-- The comparison `get_icmp_predicate` names: signed and unsigned predicates share one. -/
def IcmpPredicate.compare : IcmpPredicate → Term → Term → Formula
  | eq, lhs, rhs => .eq lhs rhs
  | ne, lhs, rhs => .not (.eq lhs rhs)
  | ugt, lhs, rhs | sgt, lhs, rhs => .gt lhs rhs
  | uge, lhs, rhs | sge, lhs, rhs => .ge lhs rhs
  | ult, lhs, rhs | slt, lhs, rhs => .lt lhs rhs
  | ule, lhs, rhs | sle, lhs, rhs => .le lhs rhs

/-- `is_unsigned_icmp`. -/
def IcmpPredicate.isUnsigned : IcmpPredicate → Bool
  | ugt | uge | ult | ule => true
  | _ => false

/-- The modelled opcodes. -/
inductive BinaryOpcode
  | add | sub | mul | sdiv | srem | udiv | urem
  | icmp (predicate : IcmpPredicate)
  | shl | lshr | ashr
  deriving DecidableEq, Repr

/-- An instruction with two operands, neither of which is the instruction itself. -/
structure BinaryInstruction where
  opcode : BinaryOpcode
  /-- The instruction as a value: its type and name. -/
  result : LlvmValue
  lhs : LlvmValue
  rhs : LlvmValue
  lhs_ne : lhs.constantInt = none → lhs.displayName ≠ result.displayName
  rhs_ne : rhs.constantInt = none → rhs.displayName ≠ result.displayName

/-! ### The lowering -/

/-- The term of an arithmetic instruction. -/
def BinaryOpcode.term : BinaryOpcode → Term → Term → Option Term
  | add, lhs, rhs => some (.add lhs rhs)
  | sub, lhs, rhs => some (.sub lhs rhs)
  | mul, lhs, rhs => some (.mul lhs rhs)
  | sdiv, lhs, rhs | udiv, lhs, rhs => some (.div lhs rhs)
  | srem, lhs, rhs | urem, lhs, rhs => some (.rem lhs rhs)
  | _, _, _ => none

/-- The effects of a shift by a constant; a variable or large shift amount leaves the target
unconstrained. -/
def lowerShift (opcode : BinaryOpcode) (target : Var) (lhs : Term) :
    Option Int64 → List TransferEffect
  | none => []
  | some shift =>
    if 0 ≤ shift ∧ shift < 63 then
      let factor : Int64 := 1 <<< shift
      let term := if opcode = .shl then Term.mul lhs (.int factor) else Term.div lhs (.int factor)
      .assign target (.term term) ::
        if opcode = .lshr then [.typeBound (.ge (.var target) (.int 0))] else []
    else []

/-- `lower_node_transfer` on the modelled opcodes. -/
def lowerNodeTransfer (function : String) (i : BinaryInstruction) :
    Except AdapterError TransferFn :=
  match i.opcode with
  | .add | .sub | .mul | .sdiv | .srem => do
    let target ← assignedVar function i.result
    let lhs ← lowerNumericValue function i.lhs
    let rhs ← lowerNumericValue function i.rhs
    return ⟨((i.opcode.term lhs rhs).map fun term ↦ .assign target (.term term)).toList⟩
  | .udiv | .urem => do
    let target ← assignedVar function i.result
    let lhs ← lowerNumericValue function i.lhs
    let rhs ← lowerNumericValue function i.rhs
    return ⟨((i.opcode.term lhs rhs).map fun term ↦ .assign target (.term term)).toList ++
      [.assume (.ge lhs (.int 0)), .assume (.ge rhs (.int 0)),
        .assume (.ge (.var target) (.int 0))]⟩
  | .icmp predicate => do
    let target ← assignedVar function i.result
    let lhs ← lowerNumericValue function i.lhs
    let rhs ← lowerNumericValue function i.rhs
    return ⟨(if predicate.isUnsigned then
        [.assume (.ge lhs (.int 0)), .assume (.ge rhs (.int 0))] else []) ++
      [.assign target (.predicate (predicate.compare lhs rhs))]⟩
  | .shl | .lshr | .ashr => do
    let sort ← sortOfInstructionValue i.result
    if sort = .bool then return ⟨[]⟩
    else
      let target ← assignedVar function i.result
      let lhs ← lowerNumericValue function i.lhs
      return ⟨lowerShift i.opcode target lhs i.rhs.constantInt⟩

/-- The operand holds the bit vector: an integer of its width whose lowered term evaluates to the
signed value. -/
def LlvmValue.Encodes (function : String) (s : State) {w : ℕ} (value : LlvmValue)
    (x : BitVec w) : Prop :=
  value.kind = .integer w ∧ ∃ t, lowerNumericValue function value = .ok t ∧ t.eval s = .int x.toInt

/-- The constant of an operand is its signed value. -/
theorem LlvmValue.Encodes.toInt_constantInt {function : String} {s : State} {w : ℕ}
    {value : LlvmValue} {x : BitVec w} (h : value.Encodes function s x) {constant : Int64}
    (hconstant : value.constantInt = some constant) : constant.toInt = x.toInt := by
  obtain ⟨hkind, t, ht, heval⟩ := h
  have ht' : t = .int constant := by
    simpa [lowerNumericValue, hkind, hconstant, eq_comm] using ht
  rw [ht', Term.eval] at heval
  exact Value.int.inj heval

/-! ### Two roundings of integer division -/

/-- Euclidean and truncating division agree on a non-negative or divisible dividend only. -/
theorem ediv_eq_tdiv_iff {a b : ℤ} (hb : b ≠ 0) : a / b = a.tdiv b ↔ 0 ≤ a ∨ b ∣ a := by
  have hsign : b.sign ≠ 0 := by simpa using hb
  rw [Int.tdiv_eq_ediv]
  split_ifs with h
  · simp [h]
  · exact iff_of_false (by omega) h

/-- The solver's remainder agrees with the truncating one on a divisible dividend, on a
non-negative dividend with a positive divisor, and where both are negative and the remainder is
half the divisor. -/
theorem intRem_eq_tmod_iff (s : State) {a b : ℤ} (hb : b ≠ 0) :
    s.intRem a b = a.tmod b ↔
      b ∣ a ∨ (0 ≤ a ∧ 0 < b) ∨ (a < 0 ∧ b < 0 ∧ b ∣ 2 * a) := by
  have hnonneg := Int.emod_nonneg a hb
  have hlt := Int.emod_lt_abs a hb
  rw [State.intRem, if_neg hb, Int.tmod_eq_emod]
  by_cases hdvd : b ∣ a
  · simp [hdvd, Int.emod_eq_zero_of_dvd hdvd]
  have hpos : a % b ≠ 0 := fun h ↦ hdvd (Int.dvd_of_emod_eq_zero h)
  rcases lt_or_gt_of_ne hb with hneg | hb
  · rw [if_neg (not_le.2 hneg)]
    rcases le_or_gt 0 a with ha | ha
    · rw [if_pos (Or.inl ha)]
      exact iff_of_false (by omega) (by omega)
    -- Both are negative: the remainder is half the divisor exactly if the divisor divides `2a`.
    have hhalf : b ∣ 2 * a ↔ 2 * (a % b) = -b := by
      have hdecomp : 2 * a = b * (2 * (a / b)) + 2 * (a % b) := by
        linarith [Int.mul_ediv_add_emod a b]
      rw [hdecomp, Int.dvd_add_right (Int.dvd_mul_right b _)]
      constructor
      · rintro ⟨k, hk⟩
        have hk1 : k = -1 := by
          rw [abs_of_neg hneg] at hlt
          have hk0 : k < 0 := by
            by_contra hk0
            have : b * k ≤ 0 := mul_nonpos_of_nonpos_of_nonneg hneg.le (not_lt.1 hk0)
            omega
          have hk2 : -2 < k := by nlinarith
          omega
        rw [hk, hk1]
        ring
      · intro h
        exact ⟨-1, by rw [h]; ring⟩
    rw [if_neg (by simp [hdvd, ha]), hhalf]
    omega
  · rw [if_pos hb.le]
    rcases le_or_gt 0 a with ha | ha
    · simp [ha, hb]
    · rw [if_neg (by simp [hdvd, ha])]
      exact iff_of_false (by omega) (by omega)

/-! ### Signed division, remainder and right shifts -/

/-- The instructions whose lowering divides. -/
inductive SignedOpcode
  | sdiv | srem | ashr | lshr
  deriving DecidableEq, Repr

namespace SignedOpcode

/-- The opcode of the instruction. -/
def opcode : SignedOpcode → BinaryOpcode
  | sdiv => .sdiv
  | srem => .srem
  | ashr => .ashr
  | lshr => .lshr

/-- LLVM's result. -/
def result {w : ℕ} : SignedOpcode → BitVec w → BitVec w → BitVec w
  | sdiv, x, y => x.sdiv y
  | srem, x, y => x.srem y
  | ashr, x, y => x.sshiftRight' y
  | lshr, x, y => x >>> y

/-- LLVM defines the result, and what a logical shift shifts is not negative. -/
def Defined {w : ℕ} : SignedOpcode → BitVec w → BitVec w → Prop
  | sdiv, x, y | srem, x, y => y ≠ 0 ∧ ¬ (x = BitVec.intMin w ∧ y = -1)
  | ashr, _, y => 0 ≤ y.toInt ∧ y.toNat < w
  | lshr, x, y => 0 ≤ x.toInt ∧ 0 ≤ y.toInt ∧ y.toNat < w

/-- The operands on which the solver's rounding is LLVM's. -/
def Agrees : SignedOpcode → ℤ → ℤ → Prop
  | sdiv, a, b => 0 ≤ a ∨ b ∣ a
  | srem, a, b => b ∣ a ∨ (0 ≤ a ∧ 0 < b) ∨ (a < 0 ∧ b < 0 ∧ b ∣ 2 * a)
  | ashr, _, _ | lshr, _, _ => True

end SignedOpcode

section Signed

variable {function : String} {s : State} {w : ℕ} {i : BinaryInstruction} {x y : BitVec w}
  {effects : List TransferEffect} {target : Var} {t : Term}

theorem BitVec.toInt_ne_zero (hy : y ≠ 0) : y.toInt ≠ 0 :=
  fun h ↦ hy (BitVec.eq_of_toInt_eq (by simpa using h))

/-- The term of a signed division or remainder, evaluated. -/
theorem eval_term_of_lowerNodeTransfer {opcode : BinaryOpcode}
    (hopcode : opcode = .sdiv ∨ opcode = .srem) (hi : i.opcode = opcode)
    (hx : i.lhs.Encodes function s x) (hy : i.rhs.Encodes function s y) (hy0 : y ≠ 0)
    (h : lowerNodeTransfer function i = .ok ⟨effects⟩)
    (ht : .assign target (.term t) ∈ effects) :
    t.eval s = .int (if opcode = .sdiv then x.toInt / y.toInt else s.intRem x.toInt y.toInt) := by
  obtain ⟨-, lhs, hlhs, hevall⟩ := hx
  obtain ⟨-, rhs, hrhs, hevalr⟩ := hy
  have hne := BitVec.toInt_ne_zero hy0
  rcases hopcode with rfl | rfl
  · simp only [lowerNodeTransfer, hi, hlhs, hrhs, bind_eq_ok, pure_eq_ok, Except.ok.injEq,
      exists_eq_left', TransferFn.mk.injEq] at h
    obtain ⟨v, -, rfl⟩ := h
    obtain ⟨-, rfl⟩ : target = v ∧ t = .div lhs rhs := by simpa [BinaryOpcode.term] using ht
    simp [Term.eval, hevall, hevalr, Value.arith, State.intDiv, hne]
  · simp only [lowerNodeTransfer, hi, hlhs, hrhs, bind_eq_ok, pure_eq_ok, Except.ok.injEq,
      exists_eq_left', TransferFn.mk.injEq] at h
    obtain ⟨v, -, rfl⟩ := h
    obtain ⟨-, rfl⟩ : target = v ∧ t = .rem lhs rhs := by simpa [BinaryOpcode.term] using ht
    simp [Term.eval, hevall, hevalr, Value.arith]

/-- The factor of a shift the lowering models is the power of two. -/
theorem toInt_one_shiftLeft {shift : Int64} (h : 0 ≤ shift ∧ shift < 63) :
    ((1 : Int64) <<< shift).toInt = 2 ^ shift.toInt.toNat := by
  have hall : ∀ k < 63, ((1 : Int64) <<< Int64.ofInt (k : ℕ)).toInt = 2 ^ k := by decide
  have h0 : 0 ≤ shift.toInt := Int64.le_iff_toInt_le.1 h.1
  have h63 : shift.toInt < 63 := Int64.lt_iff_toInt_lt.1 h.2
  have := hall shift.toInt.toNat (by omega)
  rwa [Int.toNat_of_nonneg h0, Int64.ofInt_toInt] at this

/-- A right shift assigns only by a constant amount in the modelled range, and divides. -/
theorem mem_lowerShift {opcode : BinaryOpcode} (hopcode : opcode ≠ .shl) {v : Var} {lhs : Term}
    {constant : Option Int64}
    (h : .assign target (.term t) ∈ lowerShift opcode v lhs constant) :
    ∃ shift, constant = some shift ∧ (0 ≤ shift ∧ shift < 63) ∧
      t = .div lhs (.int (1 <<< shift)) := by
  cases constant with
  | none => cases h
  | some shift =>
    simp only [lowerShift, if_neg hopcode] at h
    split_ifs at h with hrange hlshr
    · have ht : target = v ∧ t = .div lhs (.int (1 <<< shift)) := by simpa using h
      exact ⟨shift, rfl, hrange, ht.2⟩
    · have ht : target = v ∧ t = .div lhs (.int (1 <<< shift)) := by simpa using h
      exact ⟨shift, rfl, hrange, ht.2⟩
    · cases h

/-- The term of a right shift is the division rounded down by a power of two. -/
theorem eval_term_of_lowerShift {opcode : BinaryOpcode}
    (hopcode : opcode = .lshr ∨ opcode = .ashr) (hi : i.opcode = opcode)
    (hx : i.lhs.Encodes function s x) (hy : i.rhs.Encodes function s y) (hy0 : 0 ≤ y.toInt)
    (h : lowerNodeTransfer function i = .ok ⟨effects⟩)
    (ht : .assign target (.term t) ∈ effects) :
    t.eval s = .int (x.toInt >>> y.toNat) := by
  obtain ⟨-, lhs, hlhs, hevall⟩ := hx
  have hlower : ∃ v, effects = lowerShift opcode v lhs i.rhs.constantInt ∨ effects = [] := by
    rcases hopcode with rfl | rfl
    all_goals
      simp only [lowerNodeTransfer, hi, hlhs, bind_eq_ok] at h
      obtain ⟨sort, -, h⟩ := h
      split_ifs at h
      · exact ⟨target, Or.inr (congrArg TransferFn.effects (pure_eq_ok.1 h)).symm⟩
      · obtain ⟨v, -, h⟩ := bind_eq_ok.1 h
        exact ⟨v, Or.inl (congrArg TransferFn.effects (pure_eq_ok.1 h)).symm⟩
  obtain ⟨v, rfl | rfl⟩ := hlower
  · have hshl : opcode ≠ .shl := by rcases hopcode with rfl | rfl <;> decide
    obtain ⟨shift, hconstant, hrange, rfl⟩ := mem_lowerShift hshl ht
    have hshift : shift.toInt = y.toInt := hy.toInt_constantInt hconstant
    have hyNat : y.toInt = y.toNat := by
      rw [BitVec.toInt_eq_toNat_of_msb]
      rw [BitVec.msb_eq_toInt, decide_eq_false_iff_not]
      omega
    have hpow := toInt_one_shiftLeft hrange
    rw [hshift, hyNat, Int.toNat_natCast] at hpow
    have hpos : (2 : ℤ) ^ y.toNat ≠ 0 := by positivity
    rw [Term.eval, hevall, Term.eval, hpow, Value.arith, State.intDiv, if_neg hpos,
      Int.shiftRight_eq_div_pow]
    norm_cast
  · cases ht

/-- A logical shift of a non-negative value is the arithmetic one. -/
theorem toInt_ushiftRight_of_nonneg (hx : 0 ≤ x.toInt) : (x >>> y).toInt = x.toInt >>> y.toNat := by
  have hmsb : x.msb = false := by
    rw [BitVec.msb_eq_toInt, decide_eq_false_iff_not]
    omega
  have hxNat : x.toInt = x.toNat := BitVec.toInt_eq_toNat_of_msb hmsb
  rw [BitVec.ushiftRight_eq', BitVec.toInt_ushiftRight, hxNat]
  split_ifs with h
  · simp [h]
  · rfl

/-- **The lowering of signed division, remainder and right shifts is exact where the roundings
agree.** On operands for which LLVM defines the result, the solver's value of the lowered term is
LLVM's result if and only if `SignedOpcode.Agrees`. -/
theorem eval_lowered_eq_result_iff (op : SignedOpcode) (hi : i.opcode = op.opcode)
    (hx : i.lhs.Encodes function s x) (hy : i.rhs.Encodes function s y) (hdef : op.Defined x y)
    (h : lowerNodeTransfer function i = .ok ⟨effects⟩)
    (ht : .assign target (.term t) ∈ effects) :
    t.eval s = .int (op.result x y).toInt ↔ op.Agrees x.toInt y.toInt := by
  cases op with
  | sdiv =>
    have hy0 := BitVec.toInt_ne_zero hdef.1
    have hresult : (x.sdiv y).toInt = x.toInt.tdiv y.toInt :=
      BitVec.toInt_sdiv_of_ne_or_ne x y (not_and_or.1 hdef.2)
    rw [eval_term_of_lowerNodeTransfer (Or.inl rfl) hi hx hy hdef.1 h ht, SignedOpcode.result,
      hresult, if_pos rfl, Value.int.injEq]
    exact ediv_eq_tdiv_iff hy0
  | srem =>
    have hy0 := BitVec.toInt_ne_zero hdef.1
    rw [eval_term_of_lowerNodeTransfer (Or.inr rfl) hi hx hy hdef.1 h ht, SignedOpcode.result,
      BitVec.toInt_srem, if_neg (by decide), Value.int.injEq]
    exact intRem_eq_tmod_iff s hy0
  | ashr =>
    rw [eval_term_of_lowerShift (Or.inr rfl) hi hx hy hdef.1 h ht, SignedOpcode.result,
      BitVec.toInt_sshiftRight']
    exact iff_of_true rfl trivial
  | lshr =>
    rw [eval_term_of_lowerShift (Or.inl rfl) hi hx hy hdef.2.1 h ht, SignedOpcode.result,
      toInt_ushiftRight_of_nonneg hdef.1]
    exact iff_of_true rfl trivial

/-- The signed quotient of a 64-bit variable by two. -/
def halveInstruction : BinaryInstruction where
  opcode := .sdiv
  result := ⟨.integer 64, "q", none, none, "%q = sdiv i64 %a, 2"⟩
  lhs := ⟨.integer 64, "a", none, none, "i64 %a"⟩
  rhs := ⟨.integer 64, "2", some 2, none, "i64 2"⟩
  lhs_ne := fun _ ↦ by decide
  rhs_ne := fun h ↦ by cases h

theorem lowerNodeTransfer_halveInstruction : lowerNodeTransfer "f" halveInstruction =
    .ok ⟨[.assign (.int "f$q") (.term (.div (.var (.int "f$a")) (.int 2)))]⟩ := by
  decide

theorem encodes_halveInstruction (x : BitVec 64) :
    halveInstruction.lhs.Encodes "f" (State.zero.set (.int "f$a") (.int x.toInt)) x ∧
      halveInstruction.rhs.Encodes "f" (State.zero.set (.int "f$a") (.int x.toInt))
        (2 : BitVec 64) :=
  ⟨⟨rfl, .var (.int "f$a"), by decide, State.lookup_set_self rfl⟩,
    ⟨rfl, .int 2, by decide, by rw [Term.eval]; exact congrArg Value.int (by decide)⟩⟩

/-- The general statement where seven is divided by two. -/
theorem eval_lowered_eq_result_iff_seven :
    (Term.div (.var (.int "f$a")) (.int 2)).eval
        (State.zero.set (.int "f$a") (.int (7 : BitVec 64).toInt)) =
      .int (SignedOpcode.sdiv.result (7 : BitVec 64) 2).toInt :=
  (eval_lowered_eq_result_iff .sdiv rfl (encodes_halveInstruction 7).1
    (encodes_halveInstruction 7).2
    ⟨by decide, by decide⟩ lowerNodeTransfer_halveInstruction (List.mem_singleton.2 rfl)).2
    (Or.inl (by decide))

/-- LLVM divides minus seven by two to minus three; the solver to minus four. -/
theorem not_eval_lowered_eq_result :
    ¬ ∀ (op : SignedOpcode) (function : String) (s : State) (i : BinaryInstruction)
      (x y : BitVec 64) (effects : List TransferEffect) (target : Var) (t : Term),
      i.opcode = op.opcode → i.lhs.Encodes function s x → i.rhs.Encodes function s y →
        op.Defined x y → lowerNodeTransfer function i = .ok ⟨effects⟩ →
          .assign target (.term t) ∈ effects → t.eval s = .int (op.result x y).toInt := by
  intro h
  have heval := h .sdiv "f" _ halveInstruction (-7) 2 _ _ _ rfl (encodes_halveInstruction (-7)).1
    (encodes_halveInstruction (-7)).2 ⟨by decide, by decide⟩ lowerNodeTransfer_halveInstruction
    (List.mem_singleton.2 rfl)
  have hsolver : (Term.div (.var (.int "f$a")) (.int 2)).eval
      (State.zero.set (.int "f$a") (.int (-7 : BitVec 64).toInt)) = .int (-4) := by
    rw [Term.eval, Term.eval, Term.eval, State.lookup_set_self rfl, Value.arith, State.intDiv,
      if_neg (by decide)]
    exact congrArg Value.int (by decide)
  rw [hsolver, Value.int.injEq] at heval
  exact absurd heval (by decide)

end Signed

/-! ### Unsigned division, remainder and comparisons -/

/-- The instructions whose lowering assumes non-negative operands. -/
inductive UnsignedOpcode
  | udiv | urem | ult | ule | ugt | uge
  deriving DecidableEq, Repr

namespace UnsignedOpcode

/-- The opcode of the instruction. -/
def opcode : UnsignedOpcode → BinaryOpcode
  | udiv => .udiv
  | urem => .urem
  | ult => .icmp .ult
  | ule => .icmp .ule
  | ugt => .icmp .ugt
  | uge => .icmp .uge

/-- The width of the result. -/
def resultWidth (w : ℕ) : UnsignedOpcode → ℕ
  | udiv | urem => w
  | ult | ule | ugt | uge => 1

/-- LLVM's result, in the signed encoding. -/
def result {w : ℕ} : UnsignedOpcode → BitVec w → BitVec w → Value
  | udiv, x, y => .int (x / y).toInt
  | urem, x, y => .int (x % y).toInt
  | ult, x, y => .bool (x.ult y)
  | ule, x, y => .bool (x.ule y)
  | ugt, x, y => .bool (y.ult x)
  | uge, x, y => .bool (y.ule x)

/-- LLVM defines the result. -/
def Defined {w : ℕ} : UnsignedOpcode → BitVec w → BitVec w → Prop
  | udiv, _, y | urem, _, y => y ≠ 0
  | ult, _, _ | ule, _, _ | ugt, _, _ | uge, _, _ => True

end UnsignedOpcode

section Unsigned

variable {sem : Semantics} {function : String} {s s' : State} {w : ℕ} {i : BinaryInstruction}
  {x y : BitVec w} {target : Var} {lhs rhs : Term}

theorem localName_ne {v v' : LlvmValue} (h : v.displayName ≠ v'.displayName) :
    localName function v ≠ localName function v' := by
  intro heq
  refine h ?_
  have hlist := congrArg String.toList heq
  simp only [localName, String.toList_append, List.append_assoc,
    List.append_cancel_left_eq] at hlist
  exact String.toList_inj.1 (by simpa using hlist)

/-- Writing the result of an instruction does not change its operands. -/
theorem LlvmValue.Encodes.set {v r : LlvmValue} (h : v.Encodes function s x)
    (hne : v.constantInt = none → v.displayName ≠ r.displayName) (sort : VarSort) (z : Value) :
    v.Encodes function (s.set ⟨localName function r, sort⟩ z) x := by
  obtain ⟨hkind, t, ht, heval⟩ := h
  refine ⟨hkind, t, ht, ?_⟩
  rw [← heval]
  rw [lowerNumericValue] at ht
  rw [if_neg (by simp [hkind])] at ht
  split at ht
  · obtain rfl := Except.ok.inj ht
    rw [Term.eval, Term.eval]
  · obtain rfl := Except.ok.inj ht
    rw [Term.eval, Term.eval]
  rename_i hconstant _
  have hname : localName function v ≠ localName function r := localName_ne (hne hconstant)
  split at ht
  · cases ht
  · obtain rfl := Except.ok.inj ht
    rw [Term.eval, Term.eval, State.lookup_set_of_ne (by simp [Var.int, hname])]
  · obtain rfl := Except.ok.inj ht
    rw [Term.eval, Term.eval, State.lookup_set_of_ne (by simp [Var.real, hname])]
  · cases ht

/-- The assume that an operand is not negative. -/
theorem holds_ge_zero_iff {t : Term} (h : t.eval s = .int x.toInt) :
    (Formula.ge t (.int 0)).Holds s ↔ x.msb = false := by
  simp [Formula.Holds, Formula.eval, h, Term.eval, Value.compare, BitVec.msb_eq_toInt]

theorem toInt_eq_toNat (h : x.msb = false) : x.toInt = x.toNat :=
  BitVec.toInt_eq_toNat_of_msb h

/-- The lowered comparison runs exactly where both top bits are clear. -/
theorem run_icmp_iff {predicate : IcmpPredicate} (hp : predicate.isUnsigned = true)
    (hi : i.opcode = .icmp predicate) (hresult : i.result.kind = .integer 1)
    (hlhs : lowerNumericValue function i.lhs = .ok lhs) (hevall : lhs.eval s = .int x.toInt)
    (hrhs : lowerNumericValue function i.rhs = .ok rhs) (hevalr : rhs.eval s = .int y.toInt)
    {t : TransferFn} (h : lowerNodeTransfer function i = .ok t) :
    t.Run sem s s' ↔ (x.msb = false ∧ y.msb = false) ∧
      s' = s.set ⟨localName function i.result, .bool⟩
        (.bool ((predicate.compare lhs rhs).eval s)) := by
  have htarget : assignedVar function i.result = .ok ⟨localName function i.result, .bool⟩ := by
    simp [assignedVar, sortOfInstructionValue, hresult]
  simp only [lowerNodeTransfer, hi, htarget, hlhs, hrhs, bind_eq_ok, pure_eq_ok, Except.ok.injEq,
    exists_eq_left', if_pos hp] at h
  subst h
  simp only [TransferFn.Run, Effects.Run, List.cons_append, List.nil_append, Path.cons_iff,
    Path.nil_iff, TransferEffect.Step, holds_ge_zero_iff hevall]
  constructor
  · rintro ⟨_, ⟨hxmsb, rfl⟩, _, ⟨hge, rfl⟩, _, ⟨-, hs'⟩, rfl⟩
    exact ⟨⟨hxmsb, (holds_ge_zero_iff hevalr).1 hge⟩, hs'⟩
  · rintro ⟨⟨hxmsb, hymsb⟩, hs'⟩
    exact ⟨s, ⟨hxmsb, rfl⟩, s, ⟨(holds_ge_zero_iff hevalr).2 hymsb, rfl⟩, s', ⟨trivial, hs'⟩, rfl⟩

/-- The lowered unsigned division or remainder, whose term evaluates to `q`, runs exactly where
both top bits are clear and `q` is not negative. -/
theorem run_unsignedDivision_iff {opcode : BinaryOpcode} {term : Term} {q : ℤ}
    (hopcode : opcode = .udiv ∨ opcode = .urem) (hi : i.opcode = opcode)
    (htarget : assignedVar function i.result = .ok ⟨localName function i.result, .int⟩)
    (hx : i.lhs.Encodes function s x) (hy : i.rhs.Encodes function s y)
    (hlhs : lowerNumericValue function i.lhs = .ok lhs)
    (hrhs : lowerNumericValue function i.rhs = .ok rhs)
    (hterm : opcode.term lhs rhs = some term) (hq : term.eval s = .int q)
    {t : TransferFn} (h : lowerNodeTransfer function i = .ok t) :
    t.Run sem s s' ↔ (x.msb = false ∧ y.msb = false ∧ 0 ≤ q) ∧
      s' = s.set ⟨localName function i.result, .int⟩ (.int q) := by
  set target : Var := ⟨localName function i.result, .int⟩ with htargetDef
  obtain ⟨-, lhs', hlhs', hevall⟩ := hx.set i.lhs_ne .int (.int q)
  obtain ⟨-, rhs', hrhs', hevalr⟩ := hy.set i.rhs_ne .int (.int q)
  obtain rfl : lhs' = lhs := Except.ok.inj (hlhs'.symm.trans hlhs)
  obtain rfl : rhs' = rhs := Except.ok.inj (hrhs'.symm.trans hrhs)
  have ht : t = ⟨[.assign target (.term term), .assume (.ge lhs' (.int 0)),
      .assume (.ge rhs' (.int 0)), .assume (.ge (.var target) (.int 0))]⟩ := by
    rcases hopcode with rfl | rfl
    all_goals
      simp only [lowerNodeTransfer, hi, htarget, hlhs, hrhs, bind_eq_ok, pure_eq_ok,
        Except.ok.injEq, exists_eq_left', hterm, Option.map_some, Option.toList_some] at h
      exact h.symm
  have hres : (Formula.ge (.var target) (.int 0)).Holds (s.set target (.int q)) ↔ 0 ≤ q := by
    have hlookup : (s.set target (.int q)).lookup target = .int q := State.lookup_set_self rfl
    simp [Formula.Holds, Formula.eval, Term.eval, hlookup, Value.compare]
  subst ht
  simp only [TransferFn.Run, Effects.Run, Path.cons_iff, Path.nil_iff, TransferEffect.Step, hq]
  constructor
  · rintro ⟨_, ⟨-, -, rfl⟩, _, ⟨hge, rfl⟩, _, ⟨hge', rfl⟩, _, ⟨hge'', rfl⟩, rfl⟩
    exact ⟨⟨(holds_ge_zero_iff hevall).1 hge, (holds_ge_zero_iff hevalr).1 hge', hres.1 hge''⟩, rfl⟩
  · rintro ⟨⟨hxmsb, hymsb, hq0⟩, rfl⟩
    exact ⟨_, ⟨rfl, fun hsort ↦ (by cases hsort), rfl⟩, _,
      ⟨(holds_ge_zero_iff hevall).2 hxmsb, rfl⟩,
      _, ⟨(holds_ge_zero_iff hevalr).2 hymsb, rfl⟩, _, ⟨hres.2 hq0, rfl⟩, rfl⟩

/-- On operands whose top bits are clear the comparison of the signed values is LLVM's unsigned
comparison. -/
theorem eval_compare_eq_result (hxmsb : x.msb = false) (hymsb : y.msb = false)
    (hevall : lhs.eval s = .int x.toInt) (hevalr : rhs.eval s = .int y.toInt) :
    (IcmpPredicate.ult.compare lhs rhs).eval s = x.ult y ∧
      (IcmpPredicate.ule.compare lhs rhs).eval s = x.ule y ∧
        (IcmpPredicate.ugt.compare lhs rhs).eval s = y.ult x ∧
          (IcmpPredicate.uge.compare lhs rhs).eval s = y.ule x := by
  have hxNat := toInt_eq_toNat hxmsb
  have hyNat := toInt_eq_toNat hymsb
  refine ⟨?_, ?_, ?_, ?_⟩
  all_goals
    simp only [IcmpPredicate.compare, Formula.eval, hevall, hevalr, Value.compare, hxNat, hyNat,
      BitVec.ult, BitVec.ule, Nat.cast_lt, Nat.cast_le]

/-- A non-zero divisor with a clear top bit is wider than one bit. -/
theorem ne_one_of_msb (hy0 : y ≠ 0) (hymsb : y.msb = false) : w ≠ 1 := by
  rintro rfl
  have hlt : 2 * y.toNat < 2 ^ 1 := BitVec.msb_eq_false_iff_two_mul_lt.1 hymsb
  have hzero : y.toNat = 0 := by omega
  exact hy0 (BitVec.eq_of_toNat_eq hzero)

/-- An integer wider than one bit is assigned to an integer variable. -/
theorem assignedVar_of_ne_one (function : String) {v : LlvmValue} (hkind : v.kind = .integer w)
    (hw : w ≠ 1) : assignedVar function v = .ok ⟨localName function v, .int⟩ := by
  have hsort : sortOfInstructionValue v = .ok .int := by
    rw [sortOfInstructionValue]
    rw [hkind]
    split <;> simp_all
  rw [assignedVar, hsort]
  rfl

/-- Unsigned division or remainder, whose term evaluates to `q`, runs exactly where both top bits
are clear, and then to `q`. -/
theorem run_unsignedDivision {opcode : BinaryOpcode} {q : ℤ}
    (hopcode : opcode = .udiv ∨ opcode = .urem) (hi : i.opcode = opcode)
    (hresult : i.result.kind = .integer w)
    (hx : i.lhs.Encodes function s x) (hy : i.rhs.Encodes function s y) (hy0 : y ≠ 0)
    (hq : ∀ lhs rhs term, opcode.term lhs rhs = some term → lhs.eval s = .int x.toInt →
      rhs.eval s = .int y.toInt → term.eval s = .int q)
    (hq0 : x.msb = false → y.msb = false → 0 ≤ q) {t : TransferFn}
    (h : lowerNodeTransfer function i = .ok t) :
    t.Run sem s s' ↔ (x.msb = false ∧ y.msb = false) ∧
      s' = s.set ⟨localName function i.result, .int⟩ (.int q) := by
  obtain ⟨-, lhs, hlhs, hevall⟩ := id hx
  obtain ⟨-, rhs, hrhs, hevalr⟩ := id hy
  obtain ⟨term, hterm⟩ : ∃ term, opcode.term lhs rhs = some term := by
    rcases hopcode with rfl | rfl <;> exact ⟨_, rfl⟩
  by_cases hw : w = 1
  · -- A one-bit result is a Boolean variable, which an integer term cannot be assigned to.
    subst hw
    refine iff_of_false ?_ fun hc ↦ ne_one_of_msb hy0 hc.1.2 rfl
    have htarget : assignedVar function i.result = .ok ⟨localName function i.result, .bool⟩ := by
      simp [assignedVar, sortOfInstructionValue, hresult]
    have ht : ∃ rest, t =
        ⟨.assign ⟨localName function i.result, .bool⟩ (.term term) :: rest⟩ := by
      rcases hopcode with rfl | rfl
      all_goals
        simp only [lowerNodeTransfer, hi, htarget, hlhs, hrhs, bind_eq_ok, pure_eq_ok,
          Except.ok.injEq, exists_eq_left', hterm, Option.map_some, Option.toList_some] at h
        exact ⟨_, h.symm⟩
    obtain ⟨rest, rfl⟩ := ht
    rintro ⟨_, hstep, -⟩
    exact hstep.2.1 rfl
  · have htarget := assignedVar_of_ne_one function hresult hw
    rw [run_unsignedDivision_iff hopcode hi htarget hx hy hlhs hrhs hterm
      (hq lhs rhs term hterm hevall hevalr) h]
    refine and_congr_left fun _ ↦ ?_
    exact ⟨fun hc ↦ ⟨hc.1, hc.2.1⟩, fun hc ↦ ⟨hc.1, hc.2, hq0 hc.1 hc.2⟩⟩

/-- The node is deterministic: it runs just where the top bits are clear, and then gives the target
the value. -/
def RunsTo (sem : Semantics) (t : TransferFn) (s : State) (x y : BitVec w) (target : Var)
    (value : Value) : Prop :=
  ∃ z, (∀ s', t.Run sem s s' ↔ (x.msb = false ∧ y.msb = false) ∧ s' = z) ∧
    (x.msb = false → y.msb = false → z.lookup target = value)

theorem RunsTo.run_iff {t : TransferFn} {value : Value} (h : RunsTo sem t s x y target value) :
    ((∃ s', t.Run sem s s' ∧ s'.lookup target = value) ↔ x.msb = false ∧ y.msb = false) ∧
      ((∃ s', t.Run sem s s') ↔ x.msb = false ∧ y.msb = false) := by
  obtain ⟨z, hrun, hz⟩ := h
  have hruns (hmsb : x.msb = false ∧ y.msb = false) : t.Run sem s z := (hrun z).2 ⟨hmsb, rfl⟩
  refine ⟨⟨?_, fun hmsb ↦ ⟨z, hruns hmsb, hz hmsb.1 hmsb.2⟩⟩, ?_, fun hmsb ↦ ⟨z, hruns hmsb⟩⟩
  · intro hs'
    obtain ⟨s', hs', -⟩ := hs'
    exact ((hrun s').1 hs').1
  · intro hs'
    obtain ⟨s', hs'⟩ := hs'
    exact ((hrun s').1 hs').1

theorem runsTo_icmp {predicate : IcmpPredicate} {b : Bool} (hp : predicate.isUnsigned = true)
    (hi : i.opcode = .icmp predicate) (hresult : i.result.kind = .integer 1)
    (hlhs : lowerNumericValue function i.lhs = .ok lhs) (hevall : lhs.eval s = .int x.toInt)
    (hrhs : lowerNumericValue function i.rhs = .ok rhs) (hevalr : rhs.eval s = .int y.toInt)
    (hb : x.msb = false → y.msb = false → (predicate.compare lhs rhs).eval s = b)
    {t : TransferFn} (h : lowerNodeTransfer function i = .ok t)
    (htarget : assignedVar function i.result = .ok target) :
    RunsTo sem t s x y target (.bool b) := by
  have hvar : target = ⟨localName function i.result, .bool⟩ := by
    simpa [assignedVar, sortOfInstructionValue, hresult, eq_comm] using htarget
  subst hvar
  refine ⟨_, fun s' ↦ run_icmp_iff hp hi hresult hlhs hevall hrhs hevalr h, fun hxmsb hymsb ↦ ?_⟩
  rw [State.lookup_set_self rfl, hb hxmsb hymsb]

theorem runsTo_unsignedDivision {opcode : BinaryOpcode} {q : ℤ}
    (hopcode : opcode = .udiv ∨ opcode = .urem) (hi : i.opcode = opcode)
    (hresult : i.result.kind = .integer w)
    (hx : i.lhs.Encodes function s x) (hy : i.rhs.Encodes function s y) (hy0 : y ≠ 0)
    (hq : ∀ lhs rhs term, opcode.term lhs rhs = some term → lhs.eval s = .int x.toInt →
      rhs.eval s = .int y.toInt → term.eval s = .int q) {value : Value}
    (hmsb : x.msb = false → y.msb = false → 0 ≤ q ∧ value = .int q)
    {t : TransferFn} (h : lowerNodeTransfer function i = .ok t)
    (htarget : assignedVar function i.result = .ok target) :
    RunsTo sem t s x y target value := by
  refine ⟨_, fun s' ↦ run_unsignedDivision hopcode hi hresult hx hy hy0 hq
    (fun hxmsb hymsb ↦ (hmsb hxmsb hymsb).1) h, fun hxmsb hymsb ↦ ?_⟩
  have hvar : target = ⟨localName function i.result, .int⟩ :=
    Except.ok.inj (htarget.symm.trans (assignedVar_of_ne_one function hresult
      (ne_one_of_msb hy0 hymsb)))
  rw [hvar, State.lookup_set_self rfl, (hmsb hxmsb hymsb).2]

/-- The lowered unsigned instruction runs just where the top bits are clear, to LLVM's result. -/
theorem runsTo_unsigned (op : UnsignedOpcode) (hi : i.opcode = op.opcode)
    (hresult : i.result.kind = .integer (op.resultWidth w))
    (hx : i.lhs.Encodes function s x) (hy : i.rhs.Encodes function s y) (hdef : op.Defined x y)
    {t : TransferFn} (h : lowerNodeTransfer function i = .ok t)
    (htarget : assignedVar function i.result = .ok target) :
    RunsTo sem t s x y target (op.result x y) := by
  obtain ⟨-, lhs, hlhs, hevall⟩ := id hx
  obtain ⟨-, rhs, hrhs, hevalr⟩ := id hy
  cases op with
  | udiv =>
    have hy0 := BitVec.toInt_ne_zero hdef
    have hkind : i.result.kind = .integer w := hresult
    refine runsTo_unsignedDivision (q := x.toInt / y.toInt) (.inl rfl) hi hkind hx hy hdef
      (fun lhs rhs term hterm hl hr ↦ ?_) (fun hxmsb hymsb ↦ ⟨?_, ?_⟩) h htarget
    · obtain rfl : Term.div lhs rhs = term := Option.some.inj hterm
      rw [Term.eval, hl, hr, Value.arith, State.intDiv, if_neg hy0]
    · exact Int.ediv_nonneg (BitVec.toInt_nonneg_of_msb_false hxmsb)
        (BitVec.toInt_nonneg_of_msb_false hymsb)
    · rw [UnsignedOpcode.result, BitVec.toInt_udiv_of_msb hxmsb, toInt_eq_toNat hxmsb,
        toInt_eq_toNat hymsb]
  | urem =>
    have hy0 := BitVec.toInt_ne_zero hdef
    have hkind : i.result.kind = .integer w := hresult
    refine runsTo_unsignedDivision (q := s.intRem x.toInt y.toInt) (.inr rfl) hi hkind hx hy hdef
      (fun lhs rhs term hterm hl hr ↦ ?_) (fun hxmsb hymsb ↦ ?_) h htarget
    · obtain rfl : Term.rem lhs rhs = term := Option.some.inj hterm
      rw [Term.eval, hl, hr, Value.arith]
    · have hrem : s.intRem x.toInt y.toInt = x.toInt % y.toInt := by
        rw [State.intRem, if_neg hy0, if_pos (BitVec.toInt_nonneg_of_msb_false hymsb)]
      rw [hrem]
      refine ⟨Int.emod_nonneg _ hy0, ?_⟩
      rw [UnsignedOpcode.result, BitVec.toInt_umod_of_msb hxmsb, toInt_eq_toNat hymsb]
  | ult =>
    have hb (hxmsb : x.msb = false) (hymsb : y.msb = false) :=
      (eval_compare_eq_result hxmsb hymsb hevall hevalr).1
    exact runsTo_icmp rfl hi hresult hlhs hevall hrhs hevalr hb h htarget
  | ule =>
    have hb (hxmsb : x.msb = false) (hymsb : y.msb = false) :=
      (eval_compare_eq_result hxmsb hymsb hevall hevalr).2.1
    exact runsTo_icmp rfl hi hresult hlhs hevall hrhs hevalr hb h htarget
  | ugt =>
    have hb (hxmsb : x.msb = false) (hymsb : y.msb = false) :=
      (eval_compare_eq_result hxmsb hymsb hevall hevalr).2.2.1
    exact runsTo_icmp rfl hi hresult hlhs hevall hrhs hevalr hb h htarget
  | uge =>
    have hb (hxmsb : x.msb = false) (hymsb : y.msb = false) :=
      (eval_compare_eq_result hxmsb hymsb hevall hevalr).2.2.2
    exact runsTo_icmp rfl hi hresult hlhs hevall hrhs hevalr hb h htarget

/-- **The lowering of unsigned instructions admits exactly the operands with clear top bits.** For
such operands the lowered node has an execution, and its result is LLVM's unsigned result; for all
other operands it has none. -/
theorem run_unsigned_iff (op : UnsignedOpcode) (hi : i.opcode = op.opcode)
    (hresult : i.result.kind = .integer (op.resultWidth w))
    (hx : i.lhs.Encodes function s x) (hy : i.rhs.Encodes function s y) (hdef : op.Defined x y)
    {t : TransferFn} (h : lowerNodeTransfer function i = .ok t)
    (htarget : assignedVar function i.result = .ok target) :
    ((∃ s', t.Run sem s s' ∧ s'.lookup target = op.result x y) ↔
      x.msb = false ∧ y.msb = false) ∧
    ((∃ s', t.Run sem s s') ↔ x.msb = false ∧ y.msb = false) :=
  (runsTo_unsigned op hi hresult hx hy hdef h htarget).run_iff

/-- Whether a 32-bit variable is below ten as an unsigned number. -/
def belowTenInstruction : BinaryInstruction where
  opcode := .icmp .ult
  result := ⟨.integer 1, "c", none, none, "%c = icmp ult i32 %a, 10"⟩
  lhs := ⟨.integer 32, "a", none, none, "i32 %a"⟩
  rhs := ⟨.integer 32, "10", some 10, none, "i32 10"⟩
  lhs_ne := fun _ ↦ by decide
  rhs_ne := fun h ↦ by cases h

theorem lowerNodeTransfer_belowTenInstruction : lowerNodeTransfer "f" belowTenInstruction =
    .ok ⟨[.assume (.ge (.var (.int "f$a")) (.int 0)), .assume (.ge (.int 10) (.int 0)),
      .assign (.bool "f$c") (.predicate (.lt (.var (.int "f$a")) (.int 10)))]⟩ := by
  decide

theorem encodes_belowTenInstruction (x : BitVec 32) :
    belowTenInstruction.lhs.Encodes "f" (State.zero.set (.int "f$a") (.int x.toInt)) x ∧
      belowTenInstruction.rhs.Encodes "f" (State.zero.set (.int "f$a") (.int x.toInt))
        (10 : BitVec 32) :=
  ⟨⟨rfl, .var (.int "f$a"), by decide, State.lookup_set_self rfl⟩,
    ⟨rfl, .int 10, by decide, by rw [Term.eval]; exact congrArg Value.int (by decide)⟩⟩

/-- The general statement where the variable is seven. -/
theorem run_unsigned_iff_seven :
    ∃ s', TransferFn.Run .unknownCallees ⟨[.assume (.ge (.var (.int "f$a")) (.int 0)),
        .assume (.ge (.int 10) (.int 0)),
        .assign (.bool "f$c") (.predicate (.lt (.var (.int "f$a")) (.int 10)))]⟩
      (State.zero.set (.int "f$a") (.int (7 : BitVec 32).toInt)) s' ∧
      s'.lookup (.bool "f$c") = .bool true :=
  (run_unsigned_iff .ult rfl rfl (encodes_belowTenInstruction 7).1
    (encodes_belowTenInstruction 7).2 trivial lowerNodeTransfer_belowTenInstruction
    (by decide)).1.2 ⟨by decide, by decide⟩

/-- The comparison of the largest 32-bit number with ten is lowered to a node without an
execution. -/
theorem not_run_unsigned :
    ¬ ∀ (op : UnsignedOpcode) (function : String) (s : State) (i : BinaryInstruction)
      (x y : BitVec 32) (t : TransferFn) (target : Var), i.opcode = op.opcode →
      i.result.kind = .integer (op.resultWidth 32) → i.lhs.Encodes function s x →
      i.rhs.Encodes function s y → op.Defined x y → lowerNodeTransfer function i = .ok t →
      assignedVar function i.result = .ok target →
        ∃ s', t.Run .unknownCallees s s' ∧ s'.lookup target = op.result x y := by
  intro h
  have htarget : assignedVar "f" belowTenInstruction.result = .ok (.bool "f$c") := by decide
  obtain ⟨s', ⟨_, ⟨hge, -⟩, -⟩, -⟩ := h .ult "f" _ belowTenInstruction (BitVec.allOnes 32) 10 _ _
    rfl
    rfl (encodes_belowTenInstruction _).1 (encodes_belowTenInstruction _).2 trivial
    lowerNodeTransfer_belowTenInstruction htarget
  have heval : (Term.var (.int "f$a")).eval (State.zero.set (.int "f$a")
      (.int (BitVec.allOnes 32).toInt)) = .int (BitVec.allOnes 32).toInt :=
        State.lookup_set_self rfl
  have hmsb := (holds_ge_zero_iff heval).1 hge
  exact absurd hmsb (by decide)

end Unsigned

end MayMust
