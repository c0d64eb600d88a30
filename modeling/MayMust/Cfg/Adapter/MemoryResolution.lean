import MayMust.Cfg.Adapter.Instantiation

/-!
# Resolution of memory effects

`resolve_memory_effects` replaces loads and stores through pointers by reads and writes of symbolic
regions. It walks the nodes once, in topological order without the back edges, and carries a single
environment of pointer bindings (`env`) and a single map of the pointers held by memory cells
(`ptrAt`) from each node to the next one in this order, whatever edges lead there.

Machine integers wrap around, as in a release build.
-/

namespace MayMust

open Library

/-! ### The source -/

/-- The regions that have a flat address, in the order of their registration. -/
structure FlatLayout where
  ordered : List (String × Int64)
  deriving DecidableEq

namespace FlatLayout

/-- `FLAT_STRIDE`. -/
def stride : Int64 := 4096

/-- `FlatLayout::base_of`. -/
def baseOf (flat : FlatLayout) (region : String) : Option Int64 :=
  (flat.ordered.find? (·.1 = region)).map (·.2)

/-- `FlatLayout::add_region`. -/
def addRegion (flat : FlatLayout) (region : String) : FlatLayout :=
  if (flat.baseOf region).isSome then flat
  else ⟨flat.ordered ++ [(region, Int64.ofNat flat.ordered.length * stride)]⟩

/-- `FlatLayout::flat_addr`. -/
def flatAddr (flat : FlatLayout) (region : String) (offset : Int64) : Option Int64 :=
  (flat.baseOf region).map (· + offset)

/-- `FlatLayout::region_at`. -/
def regionAt (flat : FlatLayout) (addr : Int64) : Option (String × Int64) :=
  (flat.ordered.find? fun entry ↦ entry.2 ≤ addr ∧ addr < entry.2 + stride).map
    fun entry ↦ (entry.1, addr - entry.2)

end FlatLayout

/-- `eval_flat_addr`. -/
def evalFlatAddr (flatVars : String → Option Int64) : Term → Option Int64
  | .int n => some n
  | .var v => flatVars v.name
  | .add lhs rhs => do return (← evalFlatAddr flatVars lhs) + (← evalFlatAddr flatVars rhs)
  | .sub lhs rhs => do return (← evalFlatAddr flatVars lhs) - (← evalFlatAddr flatVars rhs)
  | .mul lhs rhs => do return (← evalFlatAddr flatVars lhs) * (← evalFlatAddr flatVars rhs)
  | _ => none

/-- The result of the alias analysis: the regions a pointer may point to, and the regions of the
pointers that may be stored in a region. Sets are listed in order. -/
structure AliasResult where
  pointsTo : String → List String
  storedInto : String → List String

/-- The element of a singleton. -/
def singleton? (regions : List String) : Option String :=
  match regions with
  | [region] => some region
  | _ => none

/-- An operand of an instruction, as far as the environment is seeded from it. -/
structure PointerOperand where
  value : LlvmValue
  isGlobalVariableRef : Bool
  /-- `as_const_gep_of_global`. -/
  constGepOfGlobal : Option (String × Int64)
  /-- `constant_fn_ptr_elements` of the operand. -/
  fnPtrElements : Option (List (Option String))
  /-- `constant_fn_ptr_elements` of the base of a constant expression. -/
  baseFnPtrElements : Option (List (Option String))

/-- What the pass reads besides the graph. -/
structure ResolverInput where
  functionName : String
  params : List String
  pointerParamIndices : List ℕ
  /-- The operands of the instructions of the function, in order. -/
  operands : List PointerOperand
  aliases : AliasResult
  flat : FlatLayout
  vtableMap : String → Option (List (Option String))
  summaries : String → Option ReturnSummary
  /-- The actual arguments of the call a node was made from. -/
  callArgs : CfgNodeId → Option (List LlvmValue)

/-- What the pass carries from one effect to the next. -/
structure Resolver where
  env : PointerEnv
  ptrAt : String × Int64 → Option PointerBinding
  fnPtrVars : String → Option String
  flatIntVars : String → Option Int64
  vtableFnPtrs : String → Option (List (Option String))
  flat : FlatLayout

namespace Resolver

/-- `PointerEnv::bind`. -/
def bind (st : Resolver) (pointer : String) (binding : PointerBinding) : Resolver :=
  { st with env := Function.update st.env pointer (some binding) }

/-- `PointerEnv::bind`, if there is a binding. -/
def bind? (st : Resolver) (pointer : String) : Option PointerBinding → Resolver
  | some binding => st.bind pointer binding
  | none => st

/-- The pointer a cell holds from now on. -/
def setPtrAt (st : Resolver) (region : String) (offset : Int64) (binding : PointerBinding) :
    Resolver :=
  { st with ptrAt := Function.update st.ptrAt (region, offset) (some binding) }

/-- Add the table of a global, unless there is one. -/
def addVtable (st : Resolver) (region : String) (entries : Option (List (Option String))) :
    Resolver :=
  if (st.vtableFnPtrs region).isSome then st
  else { st with vtableFnPtrs := Function.update st.vtableFnPtrs region entries }

/-- Seed a pointer parameter. -/
def seedParam (input : ResolverInput) (st : Resolver) (index : ℕ) : Resolver :=
  match input.params[index]? with
  | some name =>
    st.bind (input.functionName ++ "$" ++ name)
      ⟨extRegionName input.functionName index, .int 0⟩
  | none => st

/-- Seed an operand that refers to a global. -/
def seedOperand (input : ResolverInput) (st : Resolver) (op : PointerOperand) : Resolver :=
  let name := localName input.functionName op.value
  if op.isGlobalVariableRef ∧ op.value.kind = .pointer then
    let region := "global$" ++ op.value.displayName
    let st := if (st.env name).isNone then st.bind name ⟨region, .int 0⟩ else st
    st.addVtable region op.fnPtrElements
  else
    match op.constGepOfGlobal with
    | some (globalName, offset) =>
      if (st.env name).isNone then
        let region := "global$" ++ globalName
        let st := { st with flat := st.flat.addRegion region }
        (st.addVtable region op.baseFnPtrElements).bind name ⟨region, .int offset⟩
      else st
    | none => st

/-- The environment before the first node. -/
def seed (input : ResolverInput) : Resolver :=
  input.operands.foldl (seedOperand input)
    (input.pointerParamIndices.foldl (seedParam input)
      { env := fun _ ↦ none
        ptrAt := fun _ ↦ none
        fnPtrVars := fun _ ↦ none
        flatIntVars := fun _ ↦ none
        vtableFnPtrs := input.vtableMap
        flat := input.flat })

end Resolver

/-- `scalar_memory_slot_var`. -/
def scalarMemorySlotVar (region : String) (offset : Term) (sort : VarSort) : Option Var :=
  match offset with
  | .int value => some ⟨region ++ "$slot" ++ toString value, sort⟩
  | _ => none

/-- The function a table holds at an index. -/
def vtableEntry (entries : Option (List (Option String))) (index : Option Int64) :
    Option String := do
  let entries ← entries
  let index ← index
  (entries[index.toUInt64.toNat]?).join

namespace Resolver

variable (input : ResolverInput)

/-- The effect a load becomes. -/
def resolveLoad (st : Resolver) (target : Var) (source : String) : TransferEffect :=
  match st.env source with
  | some binding =>
    if target.sort = .real then
      match scalarMemorySlotVar binding.region binding.offset .real with
      | some slot => .assign target (.term (.var slot))
      | none => .load target source
    else .assign target (.term (.select (.var binding.region) binding.offset))
  | none => .load target source

/-- The effect a store becomes. -/
def resolveStore (st : Resolver) (target : String) (value : Term) : TransferEffect :=
  match st.env target with
  | some binding =>
    if value.sort = .ok .real then
      match scalarMemorySlotVar binding.region binding.offset .real with
      | some slot => .assign slot (.term value)
      | none => .store target value
    else .memoryStore binding.region binding.offset value
  | none => .store target value

/-- What is known after a pointer has been stored in memory. -/
def afterPointerStore (st : Resolver) (targetSlot valuePtr : String) : Resolver :=
  match st.env targetSlot with
  | some slot =>
    match slot.offset.tryAsConstantInt with
    | some k =>
      match st.env valuePtr with
      | some value => st.setPtrAt slot.region k value
      | none =>
        match singleton? (input.aliases.pointsTo valuePtr) with
        | some region => st.setPtrAt slot.region k ⟨region, .int 0⟩
        | none => st
    | none => st
  | none => st

/-- What is known after a pointer has been loaded from memory: the pointer stored in the cell, else
a function of a table, else the cell itself stands for its content. -/
def afterPointerLoad (st : Resolver) (targetPtr sourceSlot : String) : Resolver :=
  match st.env sourceSlot with
  | some binding =>
    let k := binding.offset.tryAsConstantInt
    match k.bind fun k ↦ st.ptrAt (binding.region, k) with
    | some stored => st.bind targetPtr stored
    | none =>
      match vtableEntry (st.vtableFnPtrs binding.region) k with
      | some function =>
        { st with fnPtrVars := Function.update st.fnPtrVars targetPtr (some function) }
      | none => st.bind targetPtr binding
  | none =>
    let stored := (input.aliases.pointsTo sourceSlot).flatMap input.aliases.storedInto
    match singleton? stored.dedup with
    | some region => st.bind targetPtr ⟨region, .int 0⟩
    | none => st

/-- The pointers a callee has stored through its parameters. -/
def afterPtrWrite (args : List LlvmValue) (st : Resolver) (write : PointerWriteEffect) : Resolver :=
  match args[write.paramIndex]? with
  | some actual =>
    match st.env (localName input.functionName actual) with
    | some arg =>
      match arg.offset.tryAsConstantInt with
      | some base =>
        st.setPtrAt arg.region (base + Int64.ofInt write.paramOffset)
          ⟨write.targetRegion, write.targetOffset⟩
      | none => st
    | none => st
  | none => st

/-- What is known after a call. -/
def afterCall (node : CfgNodeId) (st : Resolver) (callee : String) : Resolver :=
  match input.summaries callee, input.callArgs node with
  | some summary, some args => summary.ptrWrites.foldl (afterPtrWrite input args) st
  | _, _ => st

/-- One effect of a node: what is known after it, and what it becomes. -/
def resolveEffect (node : CfgNodeId) (st : Resolver) (effect : TransferEffect) :
    Resolver × TransferEffect :=
  match effect with
  | .alloca target region => (st.bind target ⟨region, .int 0⟩, effect)
  | .heapAlloc resultPtr region =>
    ({ st with flat := st.flat.addRegion region }.bind resultPtr ⟨region, .int 0⟩, effect)
  | .getElementPtr target base offset =>
    (st.bind? target ((st.env base).map fun b ↦ ⟨b.region, .add b.offset offset⟩), effect)
  | .load target source => (st, st.resolveLoad target source)
  | .store target value => (st, st.resolveStore target value)
  | .pointerStore targetSlot valuePtr => (afterPointerStore input st targetSlot valuePtr, .nop)
  | .pointerLoad targetPtr sourceSlot => (afterPointerLoad input st targetPtr sourceSlot, .nop)
  | .indirectCall calleePtr memoryEffect =>
    match st.fnPtrVars calleePtr with
    | some callee => (st, .call callee memoryEffect)
    | none => (st, effect)
  | .pointerAlias target source => (st.bind? target (st.env source), .nop)
  | .structFieldGep target base fieldIndex =>
    (st.bind? target ((st.env base).map fun b ↦
      ⟨b.region ++ "$f" ++ toString fieldIndex, .int 0⟩), .nop)
  | .ptrToInt target sourcePtr =>
    let resolved := do
      let binding ← st.env sourcePtr
      match binding.offset with
      | .int offset => st.flat.flatAddr binding.region offset
      | _ => none
    match resolved with
    | some addr =>
      ({ st with flatIntVars := Function.update st.flatIntVars target.name (some addr) },
        .assign target (.term (.int addr)))
    | none => (st, .nop)
  | .intToPtr targetPtr sourceName =>
    (st.bind? targetPtr do
      let addr ← st.flatIntVars sourceName
      let (region, offset) ← st.flat.regionAt addr
      return ⟨region, .int offset⟩, .nop)
  | .assign target (.term value) =>
    match evalFlatAddr st.flatIntVars value with
    | some addr =>
      ({ st with flatIntVars := Function.update st.flatIntVars target.name (some addr) }, effect)
    | none => (st, effect)
  | .call callee _ => (afterCall input node st callee, effect)
  | _ => (st, effect)

/-- The effects of a node, one after the other. -/
def resolveEffects (node : CfgNodeId) :
    Resolver → List TransferEffect → Resolver × List TransferEffect
  | st, [] => (st, [])
  | st, e :: es =>
    let (st, e') := resolveEffect input node st e
    let (st, es') := resolveEffects node st es
    (st, e' :: es')

/-- One node. -/
def resolveNode (acc : AbstractCfg × Resolver) (node : CfgNodeId) : AbstractCfg × Resolver :=
  let (st, effects) := resolveEffects input node acc.2 (acc.1.transferAt node).effects
  (acc.1.setEffects node effects, st)

end Resolver

/-- The order in which the nodes are visited: topological without the back edges, or that of their
ids if there is no such order. -/
def AbstractCfg.visitOrder (cfg : AbstractCfg) : List CfgNodeId :=
  (cfg.topologicalOrderExcluding cfg.detectBackEdges.toFinset).getD cfg.nodeIds

/-- `resolve_memory_effects`: the rewritten graph, the environment and the pointers in memory. -/
def resolveMemoryEffects (input : ResolverInput) (cfg : AbstractCfg) :
    AbstractCfg × PointerEnv × (String × Int64 → Option PointerBinding) :=
  let (cfg, st) := cfg.visitOrder.foldl (Resolver.resolveNode input) (cfg, Resolver.seed input)
  (cfg, st.env, st.ptrAt)

end MayMust
