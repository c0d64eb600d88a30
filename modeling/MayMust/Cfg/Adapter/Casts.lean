import MayMust.Cfg.Adapter.Arithmetic

/-!
# Lowering of integer casts

`lower_node_transfer` of the source on `sext`, `zext` and `trunc`. All three assign the source's
value unchanged and differ in the type-width facts that follow the assignment. A one-bit source is
a Boolean, which is read as one or zero.

The lowered node has an execution that ends with LLVM's result exactly where the unchanged value
is that result (`CastOpcode.Unchanged`):

* a sign extension of the one-bit `1` is `-1`, but the node assigns `1` and then bounds it by
  `-1` and `0`;
* a zero extension of a value with its top bit set is bounded below by zero;
* a truncation does not reduce the value, and to one bit it assigns a number to a Boolean.
-/

namespace MayMust

open Library

/-! ### The lowering -/

/-- The modelled casts. -/
inductive CastOpcode
  | sext | zext | trunc
  deriving DecidableEq, Repr

/-- A cast whose source is not the cast itself. -/
structure CastInstruction where
  opcode : CastOpcode
  /-- The instruction as a value: its type and name. -/
  result : LlvmValue
  source : LlvmValue
  source_ne : source.constantInt = none → source.displayName ≠ result.displayName

/-- `lower_bool_value`. -/
def lowerBoolValue (function : String) (value : LlvmValue) : Except AdapterError Formula :=
  match value.constantInt with
  | some constant => .ok (if constant = 0 then .fls else .tru)
  | none =>
    match sortOfInstructionValue value with
    | .error e => .error e
    | .ok .bool => .ok (.var (.bool (localName function value)))
    | .ok _ => .error (.unsupportedValue value.printed)

/-- `zext_upper_bound`: the largest value a zero extension of a `w`-bit integer may have. -/
def zextUpperBound (w : ℕ) : Option Int64 :=
  if w = 0 then none
  else if w ≤ 62 then some ((1 <<< Int64.ofNat w) - 1)
  else if w = 63 then some Int64.maxValue
  else none

/-- `sext_bounds`: the range of a sign extension of a `w`-bit integer. -/
def sextBounds (w : ℕ) : Option (Int64 × Int64) :=
  if w = 0 then none
  else if w ≤ 63 then
    let half : Int64 := 1 <<< Int64.ofNat (w - 1)
    some (-half, half - 1)
  else if w = 64 then some (Int64.minValue, Int64.maxValue)
  else none

/-- The type-width facts that follow the assignment. Facts about sources wider than 16 bits are
left out, except that a zero extension is not negative. -/
def CastOpcode.rangeFacts (opcode : CastOpcode) (source : TypeKind) (t : Term) : List Formula :=
  match source, opcode with
  | .integer w, .zext =>
    .ge t (.int 0) ::
      if w ≤ 16 then (zextUpperBound w).toList.map fun upper ↦ .le t (.int upper) else []
  | .integer w, .sext =>
    if w ≤ 16 then
      match sextBounds w with
      | some (lo, hi) => [.ge t (.int lo), .le t (.int hi)]
      | none => []
    else []
  | _, _ => []

/-- The term a cast assigns. -/
def lowerCastSource (function : String) (source : LlvmValue) : Except AdapterError Term := do
  let sort ← sortOfInstructionValue source
  if sort = .bool then return .boolToInt (← lowerBoolValue function source)
  else lowerNumericValue function source

/-- `lower_node_transfer` on casts. -/
def lowerCast (function : String) (i : CastInstruction) : Except AdapterError TransferFn := do
  let target ← assignedVar function i.result
  let value ← lowerCastSource function i.source
  return ⟨.assign target (.term value) ::
    (i.opcode.rangeFacts i.source.kind (.var target)).map .typeBound⟩

/-! ### LLVM's casts -/

namespace CastOpcode

/-- LLVM's result. -/
def result {w : ℕ} (v : ℕ) : CastOpcode → BitVec w → BitVec v
  | sext, x => x.signExtend v
  | zext, x => x.setWidth v
  | trunc, x => x.setWidth v

/-- The widths between which the cast is an LLVM instruction. -/
def Valid (w v : ℕ) : CastOpcode → Prop
  | sext | zext => 0 < w ∧ w < v
  | trunc => 0 < v ∧ v < w

/-- The values which the assignment, unchanged, leaves right. -/
def Unchanged {w : ℕ} (v : ℕ) : CastOpcode → BitVec w → Prop
  | sext, x => w ≠ 1 ∨ x = 0
  | zext, x => w = 1 ∨ 0 ≤ x.toInt
  | trunc, x => v ≠ 1 ∧ -2 ^ (v - 1) ≤ x.toInt ∧ x.toInt < 2 ^ (v - 1)

/-- What the type-width facts say of the assigned number. -/
def InRange (w : ℕ) : CastOpcode → ℤ → Prop
  | sext, n => w ≤ 16 → -2 ^ (w - 1) ≤ n ∧ n ≤ 2 ^ (w - 1) - 1
  | zext, n => 0 ≤ n ∧ (w ≤ 16 → n ≤ 2 ^ w - 1)
  | trunc, _ => True

end CastOpcode

/-- The value of a scalar that holds an integer: one bit is a Boolean, more bits are the signed
number. -/
def encodedInteger {w : ℕ} (x : BitVec w) : Value :=
  if w = 1 then .bool x.msb else .int x.toInt

/-- The number the cast assigns for a source. -/
def castNumber {w : ℕ} (x : BitVec w) : ℤ :=
  if w = 1 then if x.msb then 1 else 0 else x.toInt

/-- The operand holds the bit vector, as a Boolean if it is a single bit. -/
def LlvmValue.HoldsInteger (function : String) (s : State) {w : ℕ} (value : LlvmValue)
    (x : BitVec w) : Prop :=
  value.kind = .integer w ∧
    if w = 1 then ∃ φ, lowerBoolValue function value = .ok φ ∧ φ.eval s = x.msb
    else ∃ t, lowerNumericValue function value = .ok t ∧ t.eval s = .int x.toInt

/-! ### What the lowered node does -/

section Casts

variable {sem : Semantics} {function : String} {s s' : State} {w v : ℕ} {i : CastInstruction}
  {x : BitVec w} {target : Var} {n : ℤ}

/-- The bound of a zero extension of at most 16 bits is exact. -/
theorem zextUpperBound_eq (hw0 : 0 < w) (hw : w ≤ 16) :
    ∃ upper, zextUpperBound w = some upper ∧ upper.toInt = 2 ^ w - 1 := by
  have hall : ∀ k < 16, (zextUpperBound (k + 1)).map Int64.toInt = some (2 ^ (k + 1) - 1) := by
    decide
  have hk := hall (w - 1) (by omega)
  rw [Nat.sub_add_cancel hw0] at hk
  exact Option.map_eq_some_iff.1 hk

/-- The bounds of a sign extension of at most 16 bits are exact. -/
theorem sextBounds_eq (hw0 : 0 < w) (hw : w ≤ 16) :
    ∃ lo hi, sextBounds w = some (lo, hi) ∧
      lo.toInt = -2 ^ (w - 1) ∧ hi.toInt = 2 ^ (w - 1) - 1 := by
  have hall : ∀ k < 16, (sextBounds (k + 1)).map (fun b ↦ (b.1.toInt, b.2.toInt)) =
      some (-2 ^ k, 2 ^ k - 1) := by
    decide
  have hk := hall (w - 1) (by omega)
  rw [Nat.sub_add_cancel hw0] at hk
  obtain ⟨⟨lo, hi⟩, hb, heq⟩ := Option.map_eq_some_iff.1 hk
  exact ⟨lo, hi, hb, congrArg Prod.fst heq, congrArg Prod.snd heq⟩

theorem holds_ge_int_iff {t : Term} {c : Int64} (ht : t.eval s = .int n) :
    (Formula.ge t (.int c)).Holds s ↔ c.toInt ≤ n := by
  simp [Formula.Holds, Formula.eval, ht, Term.eval, Value.compare]

theorem holds_le_int_iff {t : Term} {c : Int64} (ht : t.eval s = .int n) :
    (Formula.le t (.int c)).Holds s ↔ n ≤ c.toInt := by
  simp [Formula.Holds, Formula.eval, ht, Term.eval, Value.compare]

/-- Executions that satisfy the type-width facts pass a list of them where all of them hold. -/
theorem run_typeBounds_iff (htyped : sem.wellTyped) {φs : List Formula} :
    Effects.Run sem (φs.map .typeBound) s s' ↔ (∀ φ ∈ φs, φ.Holds s) ∧ s' = s := by
  induction φs with
  | nil => simp [Effects.Run, eq_comm]
  | cons φ φs ih =>
    rw [Effects.Run] at ih
    simp only [List.map_cons, Effects.Run, Path.cons_iff, TransferEffect.Step, List.forall_mem_cons]
    constructor
    · rintro ⟨_, ⟨hφ, rfl⟩, hrest⟩
      exact ⟨⟨hφ htyped, (ih.1 hrest).1⟩, (ih.1 hrest).2⟩
    · rintro ⟨⟨hφ, hφs⟩, hs'⟩
      exact ⟨s, ⟨fun _ ↦ hφ, rfl⟩, ih.2 ⟨hφs, hs'⟩⟩

/-- The facts about a cast hold exactly where the number is in range. -/
theorem forall_rangeFacts_iff {t : Term} (hw : 0 < w) (ht : t.eval s = .int n)
    (opcode : CastOpcode) :
    (∀ φ ∈ opcode.rangeFacts (.integer w) t, φ.Holds s) ↔ opcode.InRange w n := by
  have hzero : (0 : Int64).toInt = 0 := rfl
  cases opcode with
  | sext =>
    by_cases hw16 : w ≤ 16
    · obtain ⟨lo, hi, hbounds, hlo, hhi⟩ := sextBounds_eq hw hw16
      simp [CastOpcode.rangeFacts, CastOpcode.InRange, hw16, hbounds, holds_ge_int_iff ht,
        holds_le_int_iff ht, hlo, hhi]
    · simp [CastOpcode.rangeFacts, CastOpcode.InRange, hw16]
  | zext =>
    by_cases hw16 : w ≤ 16
    · obtain ⟨upper, hbound, hupper⟩ := zextUpperBound_eq hw hw16
      simp [CastOpcode.rangeFacts, CastOpcode.InRange, hw16, hbound, holds_ge_int_iff ht,
        holds_le_int_iff ht, hzero, hupper]
    · simp [CastOpcode.rangeFacts, CastOpcode.InRange, hw16, holds_ge_int_iff ht, hzero]
  | trunc => simp [CastOpcode.rangeFacts, CastOpcode.InRange]

/-- The lowered source evaluates to the number of the source. -/
theorem LlvmValue.HoldsInteger.eval {value : LlvmValue} {t : Term}
    (hx : value.HoldsInteger function s x) (h : lowerCastSource function value = .ok t) :
    t.eval s = .int (castNumber x) := by
  obtain ⟨hkind, hx⟩ := hx
  by_cases hw : w = 1
  · subst hw
    have hsort : sortOfInstructionValue value = .ok .bool := by
      simp [sortOfInstructionValue, hkind]
    obtain ⟨φ, hφ, heval⟩ := (if_pos rfl).mp hx
    simp only [lowerCastSource, hsort, hφ, bind_eq_ok, pure_eq_ok, Except.ok.injEq,
      exists_eq_left', if_true] at h
    rw [← h, Term.eval, heval, castNumber, if_pos rfl]
  · have hsort : sortOfInstructionValue value = .ok .int := by
      rw [sortOfInstructionValue]
      rw [hkind]
      split <;> simp_all
    obtain ⟨t', ht', heval⟩ := (if_neg hw).mp hx
    simp only [lowerCastSource, hsort, bind_eq_ok, Except.ok.injEq, exists_eq_left',
      if_neg (show VarSort.int ≠ .bool by decide)] at h
    obtain rfl : t' = t := Except.ok.inj (ht'.symm.trans h)
    rw [heval, castNumber, if_neg hw]

/-- A cast to more than one bit runs exactly where the facts hold of the source's number, which
becomes the result. -/
theorem run_lowerCast_iff (htyped : sem.wellTyped) (hw : 0 < w) (hv : v ≠ 1)
    (hresult : i.result.kind = .integer v) (hx : i.source.HoldsInteger function s x)
    {t : TransferFn} (h : lowerCast function i = .ok t) :
    t.Run sem s s' ↔ i.opcode.InRange w (castNumber x) ∧
      s' = s.set ⟨localName function i.result, .int⟩ (.int (castNumber x)) := by
  set z := s.set ⟨localName function i.result, .int⟩ (.int (castNumber x)) with hz
  have htarget := assignedVar_of_ne_one function hresult hv
  simp only [lowerCast, htarget, hx.1, bind_eq_ok, pure_eq_ok, Except.ok.injEq,
    exists_eq_left'] at h
  obtain ⟨term, hterm, rfl⟩ := h
  have heval := hx.eval hterm
  have hlookup : (Term.var ⟨localName function i.result, .int⟩).eval z = .int (castNumber x) :=
    State.lookup_set_self rfl
  rw [← forall_rangeFacts_iff hw hlookup i.opcode, ← run_typeBounds_iff htyped]
  simp only [TransferFn.Run, Effects.Run, Path.cons_iff, TransferEffect.Step, heval]
  constructor
  · rintro ⟨_, ⟨-, -, rfl⟩, hrest⟩
    exact hrest
  · intro hrun
    exact ⟨z, ⟨rfl, fun hsort ↦ (by cases hsort), hz⟩, hrun⟩

/-- A cast to one bit assigns a number to a Boolean and has no execution. -/
theorem not_run_lowerCast_one (hresult : i.result.kind = .integer 1) {t : TransferFn}
    (h : lowerCast function i = .ok t) : ¬ t.Run sem s s' := by
  have htarget : assignedVar function i.result = .ok ⟨localName function i.result, .bool⟩ := by
    simp [assignedVar, sortOfInstructionValue, hresult]
  simp only [lowerCast, htarget, bind_eq_ok, pure_eq_ok, Except.ok.injEq, exists_eq_left'] at h
  obtain ⟨term, -, rfl⟩ := h
  rintro ⟨_, hstep, -⟩
  exact hstep.2.1 rfl

/-- LLVM's result is the source's number, in range, exactly where the cast leaves it right. -/
theorem inRange_and_toInt_result_iff (op : CastOpcode) (hvalid : op.Valid w v) (hv : v ≠ 1) :
    op.InRange w (castNumber x) ∧ castNumber x = (op.result v x).toInt ↔ op.Unchanged v x := by
  have hlo := x.le_toInt
  have hhi : x.toInt < 2 ^ (w - 1) := BitVec.toInt_lt
  cases op with
  | sext =>
    have hresult : (x.signExtend v).toInt = x.toInt := BitVec.toInt_signExtend_of_le hvalid.2.le
    simp only [CastOpcode.InRange, CastOpcode.result, CastOpcode.Unchanged, hresult]
    by_cases hw : w = 1
    · subst hw
      rcases BitVec.eq_zero_or_eq_one x with rfl | rfl <;> decide
    · rw [castNumber, if_neg hw]
      exact iff_of_true ⟨fun _ ↦ ⟨hlo, by omega⟩, rfl⟩ (Or.inl hw)
  | zext =>
    have hlt : x.toNat < 2 ^ w := x.isLt
    have hresult : (x.setWidth v).toInt = x.toNat := by
      rw [← BitVec.setWidth'_eq hvalid.2.le, BitVec.toInt_setWidth'_of_lt hvalid.2]
    simp only [CastOpcode.InRange, CastOpcode.result, CastOpcode.Unchanged, hresult]
    by_cases hw : w = 1
    · subst hw
      rcases BitVec.eq_zero_or_eq_one x with rfl | rfl <;> decide
    · rw [castNumber, if_neg hw]
      constructor
      · rintro ⟨⟨h0, -⟩, -⟩
        exact Or.inr h0
      · rintro (hw1 | h0)
        · exact absurd hw1 hw
        · have hmsb : x.msb = false := by
            rw [BitVec.msb_eq_toInt, decide_eq_false_iff_not]
            omega
          have heq : x.toInt = x.toNat := toInt_eq_toNat hmsb
          have hcast : (x.toNat : ℤ) < 2 ^ w := by exact_mod_cast hlt
          exact ⟨⟨h0, fun _ ↦ by omega⟩, heq⟩
  | trunc =>
    obtain ⟨hv0, hvw⟩ := hvalid
    have hw : w ≠ 1 := by omega
    have hresult : (x.setWidth v).toInt = x.toInt.bmod (2 ^ v) := by
      rw [BitVec.toInt_setWidth, ← BitVec.toInt_signExtend_eq_toNat_bmod_of_le hvw.le,
        BitVec.toInt_signExtend_eq_toInt_bmod_of_le x hvw.le]
    have hpow : (2 : ℤ) ^ v = 2 * 2 ^ (v - 1) := by
      rw [← pow_succ', Nat.sub_add_cancel hv0]
    simp only [CastOpcode.InRange, CastOpcode.result, CastOpcode.Unchanged, hresult, castNumber,
      if_neg hw, true_and, eq_comm (a := x.toInt)]
    rw [Int.bmod_eq_iff (by positivity)]
    push_cast
    simp only [sub_self, dvd_zero, and_true, hv, ne_eq, not_false_eq_true, true_and]
    omega

/-- **The lowering of casts is right exactly where the cast leaves the number unchanged.** For
every pair of widths between which the cast is an instruction and every source value, among the
executions that satisfy the type-width facts the lowered node has one that ends with LLVM's result
if and only if `CastOpcode.Unchanged`. -/
theorem run_lowerCast_result_iff (htyped : sem.wellTyped) (hvalid : i.opcode.Valid w v)
    (hresult : i.result.kind = .integer v) (hx : i.source.HoldsInteger function s x)
    {t : TransferFn} (h : lowerCast function i = .ok t)
    (htarget : assignedVar function i.result = .ok target) :
    (∃ s', t.Run sem s s' ∧ s'.lookup target = encodedInteger (i.opcode.result v x)) ↔
      i.opcode.Unchanged v x := by
  have hw : 0 < w := by
    unfold CastOpcode.Valid at hvalid
    split at hvalid <;> omega
  by_cases hv : v = 1
  · -- Only a truncation ends in one bit, and its condition excludes that.
    subst hv
    refine iff_of_false (fun ⟨s', hrun, _⟩ ↦ not_run_lowerCast_one hresult h hrun) ?_
    unfold CastOpcode.Valid at hvalid
    unfold CastOpcode.Unchanged
    split <;> simp_all
  · have hvar : target = ⟨localName function i.result, .int⟩ :=
      Except.ok.inj (htarget.symm.trans (assignedVar_of_ne_one function hresult hv))
    have hrun {s' : State} : t.Run sem s s' ↔ i.opcode.InRange w (castNumber x) ∧
        s' = s.set ⟨localName function i.result, .int⟩ (.int (castNumber x)) :=
      run_lowerCast_iff htyped hw hv hresult hx h
    rw [← inRange_and_toInt_result_iff i.opcode hvalid hv]
    subst hvar
    constructor
    · rintro ⟨s', hs', hlookup⟩
      obtain ⟨hrange, rfl⟩ := hrun.1 hs'
      rw [State.lookup_set_self rfl, encodedInteger, if_neg hv, Value.int.injEq] at hlookup
      exact ⟨hrange, hlookup⟩
    · rintro ⟨hrange, heq⟩
      refine ⟨_, hrun.2 ⟨hrange, rfl⟩, ?_⟩
      rw [State.lookup_set_self rfl, encodedInteger, if_neg hv, heq]

/-- A sign extension of a one-bit variable to 32 bits. -/
def signExtendFlag : CastInstruction where
  opcode := .sext
  result := ⟨.integer 32, "v", none, none, "%v = sext i1 %b to i32"⟩
  source := ⟨.integer 1, "b", none, none, "i1 %b"⟩
  source_ne := fun _ ↦ by decide

theorem lowerCast_signExtendFlag : lowerCast "f" signExtendFlag =
    .ok ⟨[.assign (.int "f$v") (.term (.boolToInt (.var (.bool "f$b")))),
      .typeBound (.ge (.var (.int "f$v")) (.int (-1))),
      .typeBound (.le (.var (.int "f$v")) (.int 0))]⟩ := by
  decide

theorem holdsInteger_signExtendFlag (b : Bool) :
    signExtendFlag.source.HoldsInteger "f" (State.zero.set (.bool "f$b") (.bool b))
      (BitVec.ofBool b) := by
  refine ⟨rfl, .var (.bool "f$b"), by decide, ?_⟩
  rw [Formula.eval, State.lookup_set_self rfl]
  cases b <;> decide

/-- The general statement at zero. -/
theorem run_lowerCast_result_iff_zero :
    ∃ s', TransferFn.Run .wellTypedUnknownCallees
        ⟨[.assign (.int "f$v") (.term (.boolToInt (.var (.bool "f$b")))),
          .typeBound (.ge (.var (.int "f$v")) (.int (-1))),
          .typeBound (.le (.var (.int "f$v")) (.int 0))]⟩
        (State.zero.set (.bool "f$b") (.bool false)) s' ∧
      s'.lookup (.int "f$v") = encodedInteger (CastOpcode.sext.result 32 (0 : BitVec 1)) :=
  have hvalid : signExtendFlag.opcode.Valid 1 32 := ⟨by decide, by decide⟩
  have htarget : assignedVar "f" signExtendFlag.result = .ok (.int "f$v") := by decide
  (run_lowerCast_result_iff trivial hvalid rfl (holdsInteger_signExtendFlag false)
    lowerCast_signExtendFlag htarget).2 (Or.inr rfl)

/-- The sign extension of the one-bit `1` has no execution that ends with `-1`. -/
theorem not_run_lowerCast_result :
    ¬ ∀ (function : String) (s : State) (i : CastInstruction) (w v : ℕ) (x : BitVec w)
      (t : TransferFn) (target : Var), i.opcode.Valid w v → i.result.kind = .integer v →
      i.source.HoldsInteger function s x → lowerCast function i = .ok t →
      assignedVar function i.result = .ok target →
        ∃ s', t.Run .wellTypedUnknownCallees s s' ∧
          s'.lookup target = encodedInteger (i.opcode.result v x) := by
  intro h
  have htarget : assignedVar "f" signExtendFlag.result = .ok (.int "f$v") := by decide
  obtain ⟨s', hrun, -⟩ := h "f" _ signExtendFlag 1 32 1 _ _ ⟨by decide, by decide⟩ rfl
    (holdsInteger_signExtendFlag true) lowerCast_signExtendFlag htarget
  have hbounds := (run_lowerCast_iff trivial (by decide) (by decide) rfl
    (holdsInteger_signExtendFlag true) lowerCast_signExtendFlag).1 hrun
  exact absurd (hbounds.1 (by decide)).2 (by decide)

end Casts

end MayMust
