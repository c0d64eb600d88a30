import MayMust.Cfg.Adapter.Gep
import MayMust.Cfg.Adapter.Instantiation
import MayMust.Cfg.Effect
import MayMust.Library.BlockCopy

/-!
# Expansion of memory intrinsics

`apply_pending_memcpy_effects` appends stores to the node of a call of `llvm.memcpy`, `llvm.memmove`
or `llvm.memset`: one store for each element of a constant source array, else one for each *byte* of
a constant length. Memory is indexed by cells, and under the layout of `lower_gep` a cell holds a
scalar, so a range of bytes mostly takes fewer cells than it has bytes. The stores run upwards and
read their source as they go.

A run of the stores writes a block of cells (`run_memoryStores_iff`). It does what the call does in
every memory exactly if the call is `MemoryCall.Expandable`: the cells of the range of bytes are the
first cells, as many as there are stores; the source does not start below a destination it overlaps;
and a constant array is copied from its start, is never written to, and has elements of one cell.
-/

namespace MayMust

open Library

/-! ### The source -/

/-- A global array whose initial elements are constant integers. -/
structure GlobalArray where
  values : List Int64
  nonempty : values ≠ []
  /-- Elements are numbered by 32-bit integers. -/
  numbered : values.length < 2 ^ 32
  /-- The program may not write to the array. The pass does not read this. -/
  isConstant : Bool
  /-- The type of the elements. The pass does not read this. -/
  elementType : LlvmType

/-- What the pass reads of an argument. -/
structure IntrinsicArg where
  value : LlvmValue
  /-- The array that `constant_int_elements` finds. -/
  array : Option GlobalArray

/-- What the pass reads of a call. -/
structure IntrinsicCall where
  callee : String
  args : List IntrinsicArg

/-- What a call of a memory intrinsic is expanded from. -/
inductive Intrinsic
  | elements (array : GlobalArray)
  | copy (source : PointerBinding) (length : Int64)
  | set (fill length : Int64)

namespace IntrinsicCall

/-- The call copies memory. -/
def isMemcpy (call : IntrinsicCall) : Bool :=
  (stripPrefix "llvm.memcpy" call.callee).isSome || (stripPrefix "llvm.memmove" call.callee).isSome

/-- The call fills memory. -/
def isMemset (call : IntrinsicCall) : Bool := (stripPrefix "llvm.memset" call.callee).isSome

variable (functionName : String) (env : PointerEnv) (call : IntrinsicCall)

/-- The source of a copy. -/
def resolveCopy : Option Intrinsic := do
  let src ← call.args[1]?
  match src.array with
  | some array => some (.elements array)
  | none =>
    let len ← call.args[2]?
    let len ← len.value.constantInt
    let source ← env (localName functionName src.value)
    return .copy source len

/-- The fill value and the length of a fill. -/
def resolveSet : Option Intrinsic := do
  let fill ← call.args[1]?
  let fill ← fill.value.constantInt
  let len ← call.args[2]?
  let len ← len.value.constantInt
  return .set fill len

/-- What the call is expanded from, and the binding of its destination. -/
def resolve : Option (PointerBinding × Intrinsic) :=
  if !call.isMemcpy && !call.isMemset then none
  else do
    let dst ← call.args[0]?
    let binding ← env (localName functionName dst.value)
    let i ← if call.isMemcpy then call.resolveCopy functionName env else call.resolveSet
    return (binding, i)

end IntrinsicCall

namespace Intrinsic

/-- The number of stores. -/
def count : Intrinsic → ℕ
  | .elements array => array.values.length
  | .copy _ length | .set _ length => length.toInt.toNat

/-- What each store writes. -/
def storedValue (i : Intrinsic) (index : ℕ) : Term :=
  match i with
  | .elements array => .int (array.values[index]?.getD 0)
  | .copy source _ =>
    .select (.var source.region) (.add source.offset (.int (Int64.ofNat index)))
  | .set fill _ => .int fill

/-- The stores of an intrinsic. -/
def stores (dst : PointerBinding) (i : Intrinsic) : List TransferEffect :=
  (List.range i.count).map fun index ↦
    .memoryStore dst.region (.add dst.offset (.int (Int64.ofNat index))) (i.storedValue index)

end Intrinsic

/-- The effects a call is expanded to. -/
def IntrinsicCall.emitted (functionName : String) (env : PointerEnv) (call : IntrinsicCall) :
    List TransferEffect :=
  match call.resolve functionName env with
  | some (dst, i) => i.stores dst
  | none => []

/-- `apply_pending_memcpy_effects`, for the calls of a function and their nodes. -/
def applyPendingMemcpyEffects (functionName : String) (env : PointerEnv)
    (calls : List (IntrinsicCall × CfgNodeId)) (cfg : AbstractCfg) : AbstractCfg :=
  calls.foldl (fun cfg (call, node) ↦
    cfg.setEffects node ((cfg.transferAt node).effects ++ call.emitted functionName env)) cfg

/-- A node has its effects from before the pass, then those its calls are expanded to. -/
theorem transferAt_applyPendingMemcpyEffects (functionName : String) (env : PointerEnv)
    {calls : List (IntrinsicCall × CfgNodeId)} {cfg : AbstractCfg} {node : CfgNodeId}
    (h : node ∈ cfg.nodeIds) :
    (applyPendingMemcpyEffects functionName env calls cfg).transferAt node =
      ⟨(cfg.transferAt node).effects ++ (calls.filter (·.2 = node)).flatMap fun call ↦
        call.1.emitted functionName env⟩ := by
  induction calls generalizing cfg with
  | nil => simp [applyPendingMemcpyEffects]
  | cons call calls ih =>
    have hmem : node ∈ (cfg.setEffects call.2 ((cfg.transferAt call.2).effects ++
        call.1.emitted functionName env)).nodeIds := by
      rwa [AbstractCfg.nodeIds_setEffects]
    refine (ih hmem).trans ?_
    by_cases heq : call.2 = node
    · rw [List.filter_cons_of_pos (by simpa using heq), ← heq,
        AbstractCfg.transferAt_setEffects_self _ (heq ▸ h), List.flatMap_cons, List.append_assoc]
    · rw [List.filter_cons_of_neg (by simpa using heq),
        AbstractCfg.transferAt_setEffects_of_ne _ (Ne.symm heq)]

/-! ### What a call does -/

/-- The contents of a cell. -/
def State.contents (s : State) (a : String × ℤ) : ℤ := s.memory a.1 a.2

/-- A region and an offset in it: where a pointer points to. -/
structure Target where
  region : String
  offset : ℤ
  deriving DecidableEq

/-- The cell at a location relative to a pointer. -/
def Target.address (p : Target) (x : Location) : String × ℤ :=
  match x.field with
  | none => (p.region, p.offset + x.index)
  | some field => (p.region ++ "$f" ++ toString field, x.index)

/-- The given locations have the given contents, and nothing else has changed. -/
structure Written (covered : Location → Prop) (dst : Target) (content : Location → ℤ)
    (s s' : State) : Prop where
  scalars : s'.scalars = s.scalars
  written : ∀ x, covered x → s'.contents (dst.address x) = content x
  frame : ∀ a, (∀ x, covered x → dst.address x ≠ a) → s'.contents a = s.contents a

/-- The elements of an array as integers. -/
def GlobalArray.element (array : GlobalArray) (k : ℕ) : ℤ := (array.values[k]?.getD 0).toInt

/-- The elements are in a region, one after the other. -/
def GlobalArray.HeldIn (array : GlobalArray) (layout : TargetData) (region : String)
    (m : String × ℤ → ℤ) : Prop :=
  ∀ k < array.values.length,
    m (region, k * (gepStride layout array.elementType).toInt) = array.element k

/-- A call of a memory intrinsic: its pointers, the type of the elements that the destination points
to, and its length in bytes. -/
structure MemoryCall where
  dst : Target
  src : Target
  elementType : LlvmType
  bytes : ℕ

namespace MemoryCall

variable (call : MemoryCall) (layout : TargetData)

/-- The locations of the range of bytes. -/
def Covered (x : Location) : Prop := layout.Covers call.elementType call.bytes x

/-- The contents the range of bytes should have after the call. -/
def content (i : Intrinsic) (s : State) (x : Location) : ℤ :=
  match i with
  | .elements _ | .copy .. => s.contents (call.src.address x)
  | .set fill _ => fill.toInt

/-- The intrinsic is the call's, for the given values of the scalars. -/
structure Resolves (binding : PointerBinding) (i : Intrinsic) (scalars : Scalars) : Prop where
  region : binding.region = call.dst.region
  offset : ∀ s : State, s.scalars = scalars → binding.offset.eval s = .int call.dst.offset
  /-- A source pointer has the given region and offset. -/
  source : ∀ source length, i = .copy source length → source.region = call.src.region ∧
    ∀ s : State, s.scalars = scalars → source.offset.eval s = .int call.src.offset
  copyBytes : ∀ source length, i = .copy source length → call.bytes = length.toUInt64.toNat
  setBytes : ∀ fill length, i = .set fill length → call.bytes = length.toUInt64.toNat
  /-- The destination is not in memory that may not be written to. -/
  writable : ∀ array, i = .elements array → array.isConstant = true →
    ∀ x, (call.dst.address x).1 ≠ call.src.region

/-- A constant array keeps its initial elements. -/
def Prior (i : Intrinsic) (s : State) : Prop :=
  ∀ array, i = .elements array → array.isConstant = true →
    array.HeldIn layout call.src.region s.contents

/-- What the call does. -/
def Done (i : Intrinsic) (s s' : State) : Prop :=
  Written (call.Covered layout) call.dst (call.content i s) s s'

/-- The stores do what the call does. -/
def Expandable (i : Intrinsic) : Prop :=
  match i with
  | .copy .. =>
    (∀ x, call.dst.address x ≠ call.src.address x →
      (call.Covered layout x ↔ TargetData.First i.count x)) ∧
    (call.src.region ≠ call.dst.region ∨ call.dst.offset ≤ call.src.offset ∨
      call.src.offset + i.count ≤ call.dst.offset)
  | .set .. => ∀ x, call.Covered layout x ↔ TargetData.First i.count x
  | .elements array =>
    (∀ x, call.Covered layout x ↔ TargetData.First i.count x) ∧ array.isConstant = true ∧
    call.src.offset = 0 ∧
    (gepStride layout array.elementType = 1 ∨ array.values.length = 1)

end MemoryCall

/-! ### Addresses -/

theorem toString_uint32_injective {m n : UInt32} (h : toString m = toString n) : m = n := by
  have hrepr : toString m.toNat = toString n.toNat := h
  rw [← String.toList_inj, Nat.toString_eq_repr, Nat.toList_repr, Nat.toString_eq_repr,
    Nat.toList_repr] at hrepr
  exact UInt32.toNat_inj.1 (toDigits_injective hrepr)

theorem append_field_ne (region : String) (field : UInt32) :
    region ++ "$f" ++ toString field ≠ region := by
  intro h
  have hlength := congrArg String.length h
  simp only [String.length_append] at hlength
  have hf : "$f".length = 2 := rfl
  omega

namespace Target

variable {p q : Target} {x y : Location}

theorem address_injective (p : Target) : Function.Injective p.address := by
  rintro ⟨field, i⟩ ⟨field', j⟩ h
  cases field with
  | none =>
    cases field' with
    | none =>
      have hindex : p.offset + i = p.offset + j := congrArg Prod.snd h
      obtain rfl : i = j := by omega
      rfl
    | some field' => exact absurd (congrArg Prod.fst h).symm (append_field_ne p.region field')
  | some field =>
    cases field' with
    | none => exact absurd (congrArg Prod.fst h) (append_field_ne p.region field)
    | some field' =>
      obtain ⟨hregion, rfl⟩ := Prod.mk.inj h
      rw [String.append_right_inj] at hregion
      rw [toString_uint32_injective hregion]

/-- The cells of pointers to different regions differ. -/
theorem address_ne (h : p.region ≠ q.region) (x : Location) : p.address x ≠ q.address x := by
  obtain ⟨field, i⟩ := x
  intro heq
  have hregion := congrArg Prod.fst heq
  cases field with
  | none => exact h hregion
  | some field =>
    have hregion' : p.region ++ "$f" ++ toString field = q.region ++ "$f" ++ toString field :=
      hregion
    rw [String.append_left_inj, String.append_left_inj] at hregion'
    exact h hregion'

theorem exists_index_of_first {n : ℕ} (hx : TargetData.First n x) : ∃ k < n, x = ⟨none, k⟩ := by
  obtain ⟨field, i⟩ := x
  obtain ⟨rfl, hnonneg, hlt⟩ := hx
  obtain ⟨k, rfl⟩ := Int.eq_ofNat_of_zero_le hnonneg
  exact ⟨k, by simpa using hlt, rfl⟩

/-- The first cells of a pointer are a block. -/
theorem address_of_first {n : ℕ} (h : TargetData.First n x) :
    ∃ k < n, ∀ p : Target, p.address x = block p.region p.offset k := by
  obtain ⟨k, hk, rfl⟩ := exists_index_of_first h
  exact ⟨k, hk, fun p ↦ rfl⟩

theorem block_ne_address {n k : ℕ} (h : ¬ TargetData.First n x) (hk : k < n) :
    block p.region p.offset k ≠ p.address x := by
  intro heq
  have hx : (⟨none, k⟩ : Location) = x := p.address_injective heq
  subst hx
  exact h ⟨rfl, by simp, by simpa using hk⟩

theorem first_index {n k : ℕ} (hk : k < n) : TargetData.First n ⟨none, k⟩ :=
  ⟨rfl, by simp, by simpa using hk⟩

end Target

/-! ### Runs of stores -/

theorem State.contents_setRegion (s : State) (region : String) (i x : ℤ) :
    (s.setRegion region (Function.update (s.memory region) i x)).contents =
      Function.update s.contents (region, i) x := by
  funext ⟨region', j⟩
  show Function.update s.memory region (Function.update (s.memory region) i x) region' j = _
  by_cases hregion : region' = region
  · subst hregion
    rw [Function.update_self]
    by_cases hindex : j = i
    · subst hindex
      rw [Function.update_self, Function.update_self]
    · rw [Function.update_of_ne hindex, Function.update_of_ne fun h ↦ hindex (congrArg Prod.snd h)]
      rfl
  · rw [Function.update_of_ne hregion, Function.update_of_ne fun h ↦ hregion (congrArg Prod.fst h)]
    rfl

theorem State.ext_contents {s s' : State} (hscalars : s'.scalars = s.scalars)
    (hcontents : s'.contents = s.contents) : s' = s := by
  cases s
  cases s'
  obtain rfl := hscalars
  have hmemory := funext fun r ↦ funext fun i ↦ congrFun hcontents (r, i)
  exact congrArg _ hmemory

/-- A run of stores to consecutive cells writes a block. -/
theorem run_memoryStores_iff {sem : Semantics} {region : String} {offset value : ℕ → Term} {d : ℤ}
    {val : ℕ → (String × ℤ → ℤ) → ℤ} {s s' : State} {n : ℕ}
    (hoffset : ∀ k < n, ∀ t : State, t.scalars = s.scalars →
      ((offset k).eval t).toInt = d + k)
    (hvalue : ∀ k < n, ∀ t : State, t.scalars = s.scalars →
      ((value k).eval t).toInt = val k t.contents) :
    Effects.Run sem ((List.range n).map fun k ↦ .memoryStore region (offset k) (value k)) s s' ↔
      s'.scalars = s.scalars ∧ s'.contents = writeBlock (block region d) val s.contents n := by
  induction n generalizing s' with
  | zero =>
    constructor
    · rintro rfl
      exact ⟨rfl, rfl⟩
    · rintro ⟨hscalars, hcontents⟩
      exact (State.ext_contents hscalars hcontents).symm
  | succ n ih =>
    have ih (m : State) := @ih m (fun k hk ↦ hoffset k (hk.trans n.lt_succ_self))
      (fun k hk ↦ hvalue k (hk.trans n.lt_succ_self))
    -- The last store, from a state that the stores before it lead to.
    have hlast {m t : State} (hscalars : m.scalars = s.scalars) :
        (TransferEffect.memoryStore region (offset n) (value n)).Step sem m t ↔
          t = m.setRegion region (Function.update (m.memory region) (d + n)
            (val n m.contents)) := by
      rw [TransferEffect.Step, hoffset n n.lt_succ_self m hscalars,
        hvalue n n.lt_succ_self m hscalars]
    rw [List.range_succ, List.map_append, Effects.Run, Path.append_iff]
    constructor
    · rintro ⟨m, hrun, hstep⟩
      obtain ⟨hscalars, hcontents⟩ := (ih m).1 hrun
      obtain rfl := (hlast hscalars).1 (Path.singleton_iff.1 hstep)
      refine ⟨hscalars, ?_⟩
      rw [State.contents_setRegion, hcontents]
      rfl
    · rintro ⟨hscalars, hcontents⟩
      let m : State := ⟨s.scalars, fun r i ↦ writeBlock (block region d) val s.contents n (r, i)⟩
      refine ⟨m, (ih m).2 ⟨rfl, rfl⟩, Path.singleton_iff.2 ((@hlast m s' rfl).2 ?_)⟩
      refine State.ext_contents hscalars ?_
      rw [State.contents_setRegion, hcontents]
      rfl

/-! ### Copies -/

section

variable {dst src : Target} {n : ℕ} {covered : Location → Prop}

/-- Where the content of a cell comes from after the stores of a copy. -/
def copyOrigin (dst src : Target) (n : ℕ) : String × ℤ → String × ℤ :=
  origin (block dst.region dst.offset) (block src.region src.offset) n

theorem copyOrigin_of_first {x : Location} (hx : TargetData.First n x)
    (h : src.region ≠ dst.region ∨ dst.offset ≤ src.offset ∨ src.offset + n ≤ dst.offset) :
    copyOrigin dst src n (dst.address x) = src.address x := by
  obtain ⟨k, hk, haddress⟩ := Target.address_of_first hx
  rw [haddress, haddress]
  exact origin_block_of_forward h hk

theorem copyOrigin_of_not_first {x : Location} (hx : ¬ TargetData.First n x) :
    copyOrigin dst src n (dst.address x) = dst.address x :=
  origin_of_ne fun _ hk ↦ Target.block_ne_address hx hk

/-- A first cell that has to be moved does not keep its content. -/
theorem copyOrigin_ne {x : Location} (hx : TargetData.First n x)
    (hmove : dst.address x ≠ src.address x) :
    copyOrigin dst src n (dst.address x) ≠ dst.address x := by
  obtain ⟨k, hk, haddress⟩ := Target.address_of_first hx
  rw [haddress] at hmove ⊢
  rw [haddress] at hmove
  refine origin_block_ne (fun hstart ↦ hmove ?_) hk
  obtain ⟨hregion, hoffset⟩ := Prod.mk.inj hstart
  rw [block, block, hregion]
  exact congrArg _ (by omega)

/-- The stores of a copy move the right cells, whatever the memory is. -/
theorem copyOrigin_right_iff :
    ((∀ x, covered x → copyOrigin dst src n (dst.address x) = src.address x) ∧
        ∀ a, (∀ x, covered x → dst.address x ≠ a) → copyOrigin dst src n a = a) ↔
      (∀ x, dst.address x ≠ src.address x → (covered x ↔ TargetData.First n x)) ∧
        (src.region ≠ dst.region ∨ dst.offset ≤ src.offset ∨ src.offset + n ≤ dst.offset) := by
  constructor
  · rintro ⟨hcovered, hframe⟩
    have hfirst (x : Location) (hmove : dst.address x ≠ src.address x) :
        covered x ↔ TargetData.First n x := by
      constructor
      · intro hx
        by_contra hnot
        rw [← hcovered x hx, copyOrigin_of_not_first hnot] at hmove
        exact hmove rfl
      · intro hx
        by_contra hnot
        refine copyOrigin_ne hx hmove (hframe _ fun y hy heq ↦ hnot ?_)
        rwa [← dst.address_injective heq]
    refine ⟨hfirst, ?_⟩
    by_contra hoverlap
    -- All of the first cells have to be moved, but not all of them are moved right.
    have hoffset : dst.offset ≠ src.offset := by
      intro heq
      exact hoverlap (Or.inr (Or.inl heq.le))
    refine hoverlap (origin_block_eq_iff.1 fun k hk ↦ ?_)
    have hmove : dst.address ⟨none, k⟩ ≠ src.address ⟨none, k⟩ := by
      intro heq
      have hindex : dst.offset + (k : ℤ) = src.offset + k := congrArg Prod.snd heq
      omega
    exact hcovered ⟨none, k⟩ ((hfirst _ hmove).2 (Target.first_index hk))
  · rintro ⟨hfirst, hforward⟩
    constructor
    · intro x hx
      by_cases hmove : dst.address x = src.address x
      · by_cases hfx : TargetData.First n x
        · exact copyOrigin_of_first hfx hforward
        · rw [copyOrigin_of_not_first hfx, hmove]
      · exact copyOrigin_of_first ((hfirst x hmove).1 hx) hforward
    · intro a ha
      by_cases hwritten : ∃ x, TargetData.First n x ∧ dst.address x = a
      · obtain ⟨x, hx, rfl⟩ := hwritten
        have hstay : dst.address x = src.address x := by
          by_contra hmove
          exact ha x ((hfirst x hmove).2 hx) rfl
        rw [copyOrigin_of_first hx hforward, hstay]
      · refine origin_of_ne fun k hk heq ↦ hwritten ⟨⟨none, k⟩, Target.first_index hk, heq⟩

/-- `copyOrigin_right_iff` for the copied memories. -/
theorem copyBlock_right_iff :
    (∀ m : String × ℤ → ℤ,
        (∀ x, covered x → copyBlock (block dst.region dst.offset) (block src.region src.offset) m n
          (dst.address x) = m (src.address x)) ∧
        ∀ a, (∀ x, covered x → dst.address x ≠ a) →
          copyBlock (block dst.region dst.offset) (block src.region src.offset) m n a = m a) ↔
      (∀ x, dst.address x ≠ src.address x → (covered x ↔ TargetData.First n x)) ∧
        (src.region ≠ dst.region ∨ dst.offset ≤ src.offset ∨ src.offset + n ≤ dst.offset) := by
  rw [← copyOrigin_right_iff]
  -- A memory that tells a cell from all others.
  have heq {a b : String × ℤ} (h : ∀ m : String × ℤ → ℤ, m a = m b) : a = b := by
    by_contra hne
    have hcell := h fun c ↦ if c = b then 1 else 0
    rw [if_neg hne, if_pos rfl] at hcell
    exact absurd hcell (by decide)
  simp only [copyBlock_eq_comp_origin, Function.comp_apply]
  constructor
  · intro h
    exact ⟨fun x hx ↦ heq fun m ↦ (h m).1 x hx, fun a ha ↦ heq fun m ↦ (h m).2 a ha⟩
  · rintro ⟨hcovered, hframe⟩ m
    exact ⟨fun x hx ↦ congrArg m (hcovered x hx), fun a ha ↦ congrArg m (hframe a ha)⟩

/-! ### Fills and constant arrays -/

/-- The contents after stores of constants. -/
def constantBlock (dst : Target) (c : ℕ → ℤ) (n : ℕ) (m : String × ℤ → ℤ) : String × ℤ → ℤ :=
  writeBlock (block dst.region dst.offset) (fun k _ ↦ c k) m n

variable {c : ℕ → ℤ} {m : String × ℤ → ℤ}

theorem constantBlock_index {k : ℕ} (hk : k < n) :
    constantBlock dst c n m (dst.address ⟨none, k⟩) = c k :=
  writeBlock_dst (block_injective _ _) hk

theorem constantBlock_of_not_first {x : Location} (hx : ¬ TargetData.First n x) :
    constantBlock dst c n m (dst.address x) = m (dst.address x) :=
  writeBlock_of_ne fun _ hk ↦ Target.block_ne_address hx hk

/-- Outside the first cells nothing changes. -/
theorem constantBlock_frame {a : String × ℤ}
    (h : ∀ x, TargetData.First n x → dst.address x ≠ a) : constantBlock dst c n m a = m a :=
  writeBlock_of_ne fun k hk ↦ h ⟨none, k⟩ (Target.first_index hk)

/-- The stores of a fill write the right cells, whatever the memory is, if and only if the cells to
be written are the first ones. -/
theorem constantBlock_right_iff (fill : ℤ) :
    (∀ m, (∀ x, covered x → constantBlock dst (fun _ ↦ fill) n m (dst.address x) = fill) ∧
        ∀ a, (∀ x, covered x → dst.address x ≠ a) →
          constantBlock dst (fun _ ↦ fill) n m a = m a) ↔
      ∀ x, covered x ↔ TargetData.First n x := by
  constructor
  · intro h x
    obtain ⟨hcovered, hframe⟩ := h fun _ ↦ fill + 1
    constructor
    · intro hx
      by_contra hnot
      have hfill := hcovered x hx
      rw [constantBlock_of_not_first hnot] at hfill
      omega
    · intro hx
      by_contra hnot
      obtain ⟨k, hk, rfl⟩ := Target.exists_index_of_first hx
      have hfill := hframe (dst.address ⟨none, k⟩) fun y hy heq ↦
        hnot (dst.address_injective heq ▸ hy)
      rw [constantBlock_index hk] at hfill
      omega
  · intro h m
    refine ⟨fun x hx ↦ ?_, fun a ha ↦ ?_⟩
    · obtain ⟨k, hk, rfl⟩ := Target.exists_index_of_first ((h x).1 hx)
      exact constantBlock_index hk
    · exact constantBlock_frame fun x hx ↦ ha x ((h x).2 hx)

end

section

variable {dst src : Target} {covered : Location → Prop} {layout : TargetData} {array : GlobalArray}
  {m : String × ℤ → ℤ}

/-- The memory that holds an array in a region, and elsewhere the given value. -/
def GlobalArray.memory (array : GlobalArray) (layout : TargetData) (region : String)
    (other : ℤ) (a : String × ℤ) : ℤ :=
  let stride := (gepStride layout array.elementType).toInt
  if a.1 = region ∧ 0 ≤ a.2 ∧ a.2 % stride = 0 ∧ a.2 / stride < array.values.length then
    array.element (a.2 / stride).toNat
  else other

theorem GlobalArray.heldIn_memory (region : String) (other : ℤ) :
    array.HeldIn layout region (array.memory layout region other) := by
  intro k hk
  have hpos := @TargetData.toInt_gepStride_pos layout array.elementType
  have hdiv := Int.mul_ediv_cancel (k : ℤ) hpos.ne'
  rw [GlobalArray.memory]
  simp only [Int.mul_emod_left, hdiv]
  rw [if_pos ⟨trivial, by positivity, trivial, by simpa using hk⟩, Int.toNat_natCast]

theorem GlobalArray.memory_of_ne {region : String} {other : ℤ} {a : String × ℤ}
    (h : a.1 ≠ region) : array.memory layout region other a = other :=
  if_neg fun ha ↦ h ha.1

/-- Cells that are all cells of elements, and no more than there are elements: they are the first
ones, and no element has a second cell, unless there is one element only. -/
theorem offset_eq_zero_of_cells {offset stride : ℤ} {n : ℕ} (hpos : 0 < n) (hstride : 0 < stride)
    (hcell : ∀ k < n, 0 ≤ offset + k ∧ (offset + k) % stride = 0 ∧ (offset + k) / stride < n) :
    offset = 0 ∧ (stride = 1 ∨ n = 1) := by
  obtain ⟨hnonneg, hmod, hdiv⟩ := hcell 0 hpos
  simp only [Nat.cast_zero, add_zero] at hnonneg hmod hdiv
  by_cases hone : n = 1
  · refine ⟨?_, Or.inr hone⟩
    have hsplit := Int.emod_add_mul_ediv offset stride
    have hquot : 0 ≤ offset / stride := Int.ediv_nonneg hnonneg hstride.le
    have hquotZero : offset / stride = 0 := by omega
    rw [hquotZero, hmod] at hsplit
    omega
  · -- Two neighbouring cells are cells of elements, so the stride divides 1.
    obtain ⟨-, hmodOne, -⟩ := hcell 1 (by omega)
    have hdvd : stride ∣ 1 := by
      have hsub := Int.dvd_sub (Int.dvd_of_emod_eq_zero hmodOne) (Int.dvd_of_emod_eq_zero hmod)
      rwa [Nat.cast_one, add_sub_cancel_left] at hsub
    have hstrideOne : stride = 1 := Int.eq_one_of_dvd_one hstride.le hdvd
    obtain ⟨-, -, hlast⟩ := hcell (n - 1) (by omega)
    rw [hstrideOne, Int.ediv_one] at hlast
    exact ⟨by omega, Or.inl hstrideOne⟩

/-- The stores of the elements of an array write the covered cells, with the contents of the source,
and no other cell. -/
def ElementsRight (dst src : Target) (covered : Location → Prop) (array : GlobalArray)
    (m : String × ℤ → ℤ) : Prop :=
  (∀ x, covered x → constantBlock dst array.element array.values.length m (dst.address x) =
      m (src.address x)) ∧
    ∀ a, (∀ x, covered x → dst.address x ≠ a) →
      constantBlock dst array.element array.values.length m a = m a

/-- A memory in which every cell differs from the first element: no copy of it is right. -/
theorem isConstant_of_elementsRight
    (h : ∀ m, (array.isConstant = true → array.HeldIn layout src.region m) →
      ElementsRight dst src covered array m) : array.isConstant = true := by
  have hpos : 0 < array.values.length := List.length_pos_iff.2 array.nonempty
  by_contra hmutable
  obtain ⟨hcovered, hframe⟩ := h (fun _ ↦ array.element 0 + 1) fun hc ↦ absurd hc hmutable
  have hzero := @constantBlock_index dst _ array.element (fun _ ↦ array.element 0 + 1) 0 hpos
  by_cases hx : covered ⟨none, (0 : ℕ)⟩
  · have heq : array.element 0 = array.element 0 + 1 := hzero.symm.trans (hcovered _ hx)
    omega
  · have hframeZero := hframe (dst.address ⟨none, (0 : ℕ)⟩) fun y hy hya ↦
      hx (dst.address_injective hya ▸ hy)
    have heq : array.element 0 = array.element 0 + 1 := hzero.symm.trans hframeZero
    omega

section Held

variable (hregion : ∀ x, (dst.address x).1 ≠ src.region)
  (h : ∀ m, array.HeldIn layout src.region m → ElementsRight dst src covered array m)

include hregion h

/-- Only cells that are written are covered: otherwise the source and the destination may differ
there. -/
theorem first_of_elementsRight {x : Location} (hx : covered x) :
    TargetData.First array.values.length x := by
  by_contra hnot
  -- A memory in which the two cells differ.
  let held := array.memory layout src.region 0
  let m := Function.update held (dst.address x) (held (src.address x) + 1)
  have hother {a : String × ℤ} (ha : a ≠ dst.address x) : m a = held a :=
    Function.update_of_ne ha ..
  have hm : array.HeldIn layout src.region m := fun k hk ↦
    (hother fun heq ↦ hregion x (congrArg Prod.fst heq).symm).trans
      (array.heldIn_memory src.region 0 k hk)
  have hself : m (dst.address x) = held (src.address x) + 1 := Function.update_self ..
  have heq := (h m hm).1 x hx
  rw [constantBlock_of_not_first hnot, hself,
    hother (Target.address_ne (hregion ⟨none, 0⟩) x).symm] at heq
  omega

/-- A cell that is written is covered: otherwise it is to keep its value. -/
theorem covered_of_elementsRight {x : Location} (hx : TargetData.First array.values.length x) :
    covered x := by
  by_contra hnot
  obtain ⟨k, hk, rfl⟩ := Target.exists_index_of_first hx
  have hheld := @GlobalArray.heldIn_memory layout array src.region (array.element k + 1)
  have heq := (h _ hheld).2 (dst.address ⟨none, k⟩) fun y hy hya ↦
    hnot (dst.address_injective hya ▸ hy)
  rw [constantBlock_index hk, GlobalArray.memory_of_ne (hregion _)] at heq
  omega

/-- Every source cell is a cell of an element. -/
theorem cell_of_elementsRight {k : ℕ} (hk : k < array.values.length) :
    0 ≤ src.offset + k ∧ (src.offset + k) % (gepStride layout array.elementType).toInt = 0 ∧
      (src.offset + k) / (gepStride layout array.elementType).toInt < array.values.length := by
  by_contra hnot
  have hheld := @GlobalArray.heldIn_memory layout array src.region (array.element k + 1)
  have hfirst := covered_of_elementsRight hregion h (Target.first_index hk)
  have heq := (h _ hheld).1 ⟨none, k⟩ hfirst
  rw [constantBlock_index hk] at heq
  have hother : array.memory layout src.region (array.element k + 1)
      (src.address ⟨none, k⟩) = array.element k + 1 := if_neg fun hc ↦ hnot hc.2
  omega

end Held

/-- The stores of the elements of an array write the right cells, in every memory that holds the
array if it is constant, if and only if the cells to be written are the first ones and the array is
constant, is copied from its start and has elements of one cell. -/
theorem elements_right_iff
    (hwritable : array.isConstant = true → ∀ x, (dst.address x).1 ≠ src.region) :
    (∀ m, (array.isConstant = true → array.HeldIn layout src.region m) →
        (∀ x, covered x →
          constantBlock dst array.element array.values.length m (dst.address x) =
            m (src.address x)) ∧
        ∀ a, (∀ x, covered x → dst.address x ≠ a) →
          constantBlock dst array.element array.values.length m a = m a) ↔
      (∀ x, covered x ↔ TargetData.First array.values.length x) ∧ array.isConstant = true ∧
        src.offset = 0 ∧ (gepStride layout array.elementType = 1 ∨ array.values.length = 1) := by
  constructor
  · intro h
    have hconstant : array.isConstant = true := isConstant_of_elementsRight h
    have hregion := hwritable hconstant
    have hheld (m : String × ℤ → ℤ) (hm : array.HeldIn layout src.region m) :
        ElementsRight dst src covered array m := h m fun _ ↦ hm
    obtain ⟨hoffset, hcells⟩ := offset_eq_zero_of_cells
      (List.length_pos_iff.2 array.nonempty) (TargetData.toInt_gepStride_pos array.elementType)
      fun _ hk ↦ cell_of_elementsRight hregion hheld hk
    exact ⟨fun _ ↦ ⟨first_of_elementsRight hregion hheld, covered_of_elementsRight hregion hheld⟩,
      hconstant, hoffset, hcells.imp_left Int64.toInt_inj.1⟩
  · rintro ⟨hfirst, hconstant, hoffset, hcells⟩ m hm
    refine ⟨fun x hx ↦ ?_, fun a ha ↦ constantBlock_frame fun x hx ↦ ha x ((hfirst x).2 hx)⟩
    obtain ⟨k, hk, rfl⟩ := Target.exists_index_of_first ((hfirst x).1 hx)
    have hindex : (k : ℤ) * (gepStride layout array.elementType).toInt = src.offset + k := by
      obtain hstride | hone := hcells
      · have hstrideOne : (1 : Int64).toInt = 1 := rfl
        rw [hstride, hstrideOne, hoffset]
        omega
      · obtain rfl : k = 0 := by omega
        rw [hoffset]
        simp
    rw [constantBlock_index hk, ← hm hconstant k hk, hindex]
    rfl

end

/-! ### The expansion of a call -/

section

variable {call : MemoryCall} {layout : TargetData} {binding : PointerBinding} {i : Intrinsic}
  {scalars : Scalars} {sem : Semantics} {s s' : State}

/-- The contents after the stores of an intrinsic. -/
def MemoryCall.after (call : MemoryCall) (i : Intrinsic) (m : String × ℤ → ℤ) : String × ℤ → ℤ :=
  match i with
  | .elements array => constantBlock call.dst array.element array.values.length m
  | .copy _ length =>
    copyBlock (block call.dst.region call.dst.offset) (block call.src.region call.src.offset) m
      length.toInt.toNat
  | .set fill length => constantBlock call.dst (fun _ ↦ fill.toInt) length.toInt.toNat m

theorem Intrinsic.count_lt (i : Intrinsic) : i.count < 2 ^ 63 := by
  have hlength (length : Int64) : length.toInt.toNat < 2 ^ 63 := by
    have hlt := length.toInt_lt
    omega
  cases i with
  | elements array => exact array.numbered.trans (by decide)
  | copy source length => exact hlength length
  | set fill length => exact hlength length

theorem eval_add_index {t : Term} {d : ℤ} {k n : ℕ} (ht : t.eval s = .int d) (hk : k < n)
    (hn : n < 2 ^ 63) : ((Term.add t (.int (Int64.ofNat k))).eval s).toInt = d + k := by
  simp only [Term.eval, ht, Value.arith, Value.toInt, Int64.toInt_ofNat_of_lt (hk.trans hn)]

theorem run_stores_iff (h : call.Resolves binding i scalars) (hs : s.scalars = scalars) :
    Effects.Run sem (i.stores binding) s s' ↔
      s'.scalars = s.scalars ∧ s'.contents = call.after i s.contents := by
  have hoffset (k : ℕ) (hk : k < i.count) (t : State) (ht : t.scalars = s.scalars) :
      ((Term.add binding.offset (.int (Int64.ofNat k))).eval t).toInt = call.dst.offset + k :=
    eval_add_index (h.offset t (ht.trans hs)) hk i.count_lt
  have hrun {val : ℕ → (String × ℤ → ℤ) → ℤ}
      (hvalue : ∀ k < i.count, ∀ t : State, t.scalars = s.scalars →
        ((i.storedValue k).eval t).toInt = val k t.contents) :=
    @run_memoryStores_iff sem binding.region _ _ _ val s s' i.count hoffset hvalue
  rw [h.region] at hrun
  rw [Intrinsic.stores, h.region]
  cases i with
  | elements array =>
    exact hrun fun k hk t ht ↦ rfl
  | set fill length =>
    exact hrun fun k hk t ht ↦ rfl
  | copy source length =>
    obtain ⟨hregion, hsource⟩ := h.source source length rfl
    refine hrun fun k hk t ht ↦ ?_
    have hindex := eval_add_index (hsource t (ht.trans hs)) hk (Intrinsic.count_lt _)
    rw [Intrinsic.storedValue, Term.eval, hindex, Memory.eval, hregion]
    rfl

/-- The stores can be run from every state. -/
theorem exists_run_stores (h : call.Resolves binding i scalars) (hs : s.scalars = scalars) :
    ∃ s', Effects.Run sem (i.stores binding) s s' :=
  ⟨⟨s.scalars, fun r j ↦ call.after i s.contents (r, j)⟩, (run_stores_iff h hs).2 ⟨rfl, rfl⟩⟩

/-- What the stores do in every state, as a statement on the contents. -/
theorem stores_done_iff (h : call.Resolves binding i scalars) :
    (∀ s s' : State, s.scalars = scalars → call.Prior layout i s →
        Effects.Run sem (i.stores binding) s s' → call.Done layout i s s') ↔
      ∀ m, (∀ array, i = .elements array → array.isConstant = true →
          array.HeldIn layout call.src.region m) →
        (∀ x, call.Covered layout x → call.after i m (call.dst.address x) =
          call.content i ⟨scalars, fun r j ↦ m (r, j)⟩ x) ∧
        ∀ a, (∀ x, call.Covered layout x → call.dst.address x ≠ a) → call.after i m a = m a := by
  constructor
  · intro hdone m hm
    let s : State := ⟨scalars, fun r j ↦ m (r, j)⟩
    let s' : State := ⟨scalars, fun r j ↦ call.after i m (r, j)⟩
    have hresult := hdone s s' rfl hm ((run_stores_iff h rfl).2 ⟨rfl, rfl⟩)
    exact ⟨hresult.written, hresult.frame⟩
  · intro hright s s' hs hprior hrun
    obtain ⟨hscalars, hcontents⟩ := (run_stores_iff h hs).1 hrun
    obtain ⟨hwritten, hframe⟩ := hright s.contents hprior
    rw [← hcontents, ← hs] at hwritten
    rw [← hcontents] at hframe
    exact ⟨hscalars, hwritten, hframe⟩

/-- The stores do in every state what the call does if and only if the call is expandable. -/
theorem stores_done_iff_expandable (h : call.Resolves binding i scalars) :
    (∀ s s' : State, s.scalars = scalars → call.Prior layout i s →
        Effects.Run sem (i.stores binding) s s' → call.Done layout i s s') ↔
      call.Expandable layout i := by
  rw [stores_done_iff h]
  cases i with
  | elements array =>
    refine Iff.trans (forall_congr' fun m ↦ imp_congr_left ?_)
      (elements_right_iff (h.writable array rfl))
    exact ⟨fun hm hconstant ↦ hm array rfl hconstant, fun hm array' heq hconstant ↦ by
      obtain rfl := Intrinsic.elements.inj heq
      exact hm hconstant⟩
  | set fill length =>
    refine Iff.trans (forall_congr' fun m ↦ ?_) (@constantBlock_right_iff call.dst _ _ fill.toInt)
    exact ⟨fun hm ↦ hm (by rintro array ⟨⟩), fun hm _ ↦ hm⟩
  | copy source length =>
    refine Iff.trans (forall_congr' fun m ↦ ?_) copyBlock_right_iff
    exact ⟨fun hm ↦ hm (by rintro array ⟨⟩), fun hm _ ↦ hm⟩

/-- **When memory intrinsics are expanded correctly.** For every call of `memcpy`, `memmove` or
`memset` that is expanded, whatever its regions, offsets, lengths and element type are: the effects
it is expanded to do in every memory what the call does, if and only if it is expandable. -/
theorem emitted_done_iff {functionName : String} {env : PointerEnv} {code : IntrinsicCall}
    (hcode : code.resolve functionName env = some (binding, i))
    (h : call.Resolves binding i scalars) :
    (∀ s s' : State, s.scalars = scalars → call.Prior layout i s →
        Effects.Run sem (code.emitted functionName env) s s' → call.Done layout i s s') ↔
      call.Expandable layout i := by
  have hemitted : code.emitted functionName env = i.stores binding := by
    rw [IntrinsicCall.emitted, hcode]
  rw [hemitted]
  exact stores_done_iff_expandable h

end

/-- The layout of integers. -/
def integerLayout : TargetData where
  storeSize
    | .scalar (.integer w) => UInt64.ofNat ((w + 7) / 8)
    | _ => 8
  offsetOfElement _ _ := 0
  abiSize
    | .scalar (.integer w) => (w + 7) / 8
    | _ => 8

/-- A pointer argument. -/
def pointerArg (name : String) : IntrinsicArg := ⟨⟨.pointer, name, none, none, name⟩, none⟩

/-- A constant argument. -/
def constantArg (value : ℕ) : IntrinsicArg := ⟨constantOperand value, none⟩

/-- A call that copies the given number of bytes from one variable to another. -/
def copyCall (bytes : ℕ) : IntrinsicCall :=
  ⟨"llvm.memcpy.p0.p0.i64", [pointerArg "a", pointerArg "b", constantArg bytes]⟩

/-- The variables are in regions of their own. -/
def twoVariables : PointerEnv := fun name ↦
  if name = "f$a" then some ⟨"f$stack0", .int 0⟩
  else if name = "f$b" then some ⟨"f$stack1", .int 0⟩ else none

/-- Copy between arrays of integers of the given width. -/
def copyOf (width bytes : ℕ) : MemoryCall :=
  ⟨⟨"f$stack0", 0⟩, ⟨"f$stack1", 0⟩, .scalar (.integer width), bytes⟩

theorem resolves_copyOf (width : ℕ) {bytes : ℕ} (hbytes : bytes < 2 ^ 63) (scalars : Scalars) :
    (copyOf width bytes).Resolves ⟨"f$stack0", .int 0⟩
      (.copy ⟨"f$stack1", .int 0⟩ (Int64.ofNat bytes)) scalars where
  region := rfl
  offset _ _ := rfl
  source source length h := by
    obtain ⟨rfl, -⟩ := Intrinsic.copy.inj h
    exact ⟨rfl, fun _ _ ↦ rfl⟩
  copyBytes source length h := by
    obtain ⟨-, rfl⟩ := Intrinsic.copy.inj h
    show bytes = (UInt64.ofNat bytes).toNat
    rw [UInt64.toNat_ofNat', Nat.mod_eq_of_lt (by omega)]
  setBytes fill length h := by cases h
  writable array h := by cases h

theorem resolve_copyCall (bytes : ℕ) :
    (copyCall bytes).resolve "f" twoVariables =
      some (⟨"f$stack0", .int 0⟩, .copy ⟨"f$stack1", .int 0⟩ (Int64.ofNat bytes)) := by
  have hmemcpy : (copyCall bytes).isMemcpy = true := by
    show ((stripPrefix "llvm.memcpy" "llvm.memcpy.p0.p0.i64").isSome || _) = true
    rw [show stripPrefix "llvm.memcpy" "llvm.memcpy.p0.p0.i64" = some ".p0.p0.i64" by decide]
    rfl
  have hdst : twoVariables "f$a" = some ⟨"f$stack0", .int 0⟩ := by decide
  have hsrc : twoVariables "f$b" = some ⟨"f$stack1", .int 0⟩ := by decide
  rw [IntrinsicCall.resolve, hmemcpy]
  show ((twoVariables "f$a").bind fun binding ↦
    ((twoVariables "f$b").bind fun source ↦
      some (Intrinsic.copy source (Int64.ofNat bytes))).bind fun i ↦ some (binding, i)) = _
  rw [hdst, hsrc]
  rfl

theorem emitted_copyCall (bytes : ℕ) :
    (copyCall bytes).emitted "f" twoVariables =
      Intrinsic.stores ⟨"f$stack0", .int 0⟩
        (.copy ⟨"f$stack1", .int 0⟩ (Int64.ofNat bytes)) := by
  rw [IntrinsicCall.emitted, resolve_copyCall]

/-- The cells of the source are numbered. -/
def numberedSource : State := ⟨State.zero.scalars, fun r i ↦ if r = "f$stack1" then i else 0⟩

/-- The general statement for a copy of three bytes between arrays of bytes. -/
theorem emitted_done_iff_bytes :
    ∃ s', Effects.Run .unknownCallees ((copyCall 3).emitted "f" twoVariables) numberedSource s' ∧
      (copyOf 8 3).Done integerLayout (.copy ⟨"f$stack1", .int 0⟩ 3) numberedSource s' := by
  have hresolves := @resolves_copyOf 8 3 (by decide) State.zero.scalars
  have hexpandable : (copyOf 8 3).Expandable integerLayout (.copy ⟨"f$stack1", .int 0⟩ 3) := by
    refine ⟨fun x _ ↦ ?_, Or.inl (by decide)⟩
    exact (TargetData.covers_scalar_iff_first (by decide) (by decide) (by decide)).2 (Or.inr rfl) x
  obtain ⟨s', hrun⟩ := @exists_run_stores _ _ _ _ .unknownCallees numberedSource hresolves rfl
  rw [← emitted_copyCall] at hrun
  exact ⟨s', hrun, (emitted_done_iff (resolve_copyCall 3) hresolves).2 hexpandable numberedSource s'
    rfl (by rintro array ⟨⟩) hrun⟩

/-- Eight bytes are two integers of 32 bits, but eight cells are written. -/
theorem not_emitted_done :
    ¬ ∀ (layout : TargetData) (call : MemoryCall) (functionName : String) (env : PointerEnv)
      (code : IntrinsicCall) (binding : PointerBinding) (i : Intrinsic) (scalars : Scalars),
      code.resolve functionName env = some (binding, i) → call.Resolves binding i scalars →
        ∀ s s' : State, s.scalars = scalars → call.Prior layout i s →
          Effects.Run .unknownCallees (code.emitted functionName env) s s' →
            call.Done layout i s s' := by
  intro h
  have hresolves := @resolves_copyOf 32 8 (by decide) State.zero.scalars
  have hdone := h integerLayout _ _ _ _ _ _ _ (resolve_copyCall 8) hresolves
  rw [emitted_copyCall] at hdone
  obtain ⟨hfirst, -⟩ := (stores_done_iff_expandable hresolves).1 hdone
  -- The third cell is written, but the third integer is not in the range of bytes.
  have hcovered := (hfirst ⟨none, 2⟩ (by decide)).2 ⟨rfl, by decide, by decide⟩
  obtain ⟨k, -, hk, hindex⟩ := (TargetData.covers_scalar (by decide)).1 hcovered
  have hstride : (gepStride integerLayout (.scalar (.integer 32))).toInt = 1 := by decide
  have hsize : integerLayout.abiSize (.scalar (.integer 32)) = 4 := rfl
  simp only [Location.mk.injEq, true_and, hstride] at hindex
  have hbytes : k * integerLayout.abiSize (.scalar (.integer 32)) < 8 := hk
  rw [hsize] at hbytes
  omega

end MayMust
