import Mathlib.Logic.Relation
import MayMust.Cfg.Adapter.MemoryResolution
import MayMust.PointerAnalysis.Andersen

/-!
# Where pointers point

`collect_constraints` of the source turns the pointer instructions of all functions of a module
into inclusion constraints, and `run_alias_analysis` solves them. This module says what the
solution is good for: `covers_of_runAliasAnalysis`.

An execution of a function is a sequence of its instructions, in any order and any number of times,
so nothing depends on control flow. A pointer is an address or unknown. An address names an object
of a region, a path of struct fields and an offset; two fields, and a struct and its first field,
are different places, as they are for the analysis. What is not a pointer instruction, a call of
another function among them, may forget pointers but makes and moves none: the analysis gives the
result of a call no region, and nothing a callee stores is seen in the caller.

Regions are named as in the adapter, except those of the heap (`heapRegion_ne_adapter`).
-/

namespace MayMust

open Library Relation

namespace Andersen

/-! ### The source -/

/-- What the analysis reads of an operand. -/
structure Operand where
  value : LlvmValue
  isGlobalVariableRef : Bool

/-- An opcode, with what the analysis reads for it. -/
inductive PointerOpcode
  | alloca
  /-- The source element type: whether it is a struct, if LLVM reports one. -/
  | getElementPtr (sourceIsStruct : Option Bool)
  | load
  | store
  | bitCast
  | addrSpaceCast
  /-- The incoming values. -/
  | phi (incomings : List LlvmValue)
  /-- `get_called_function` and `get_call_args`. -/
  | call (calledFunction : Option String) (args : List LlvmValue)
  | other

/-- An instruction. -/
structure PointerInstruction where
  result : LlvmValue
  opcode : PointerOpcode
  operands : List Operand

/-- What the analysis reads of a function graph. -/
structure PointerGraph where
  name : String
  params : List String
  pointerParamIndices : List ℕ
  vertices : List PointerInstruction

/-- `local_name`. -/
def localName (function : String) (value : LlvmValue) : String :=
  function ++ "$" ++ value.displayName

/-- `ext_region`. -/
def extRegion (function : String) (index : ℕ) : String := function ++ "$__ext_" ++ toString index

/-- `alloca_region`. -/
def allocaRegion (function : String) (index : ℕ) : String := function ++ "$stack" ++ toString index

/-- `global_region`. -/
def globalRegion (value : LlvmValue) : String := "global$" ++ value.displayName

/-- `heap_region`. -/
def heapRegion (callSiteId : ℕ) : String := "heap$call" ++ toString callSiteId

/-- `is_ptr`. -/
def isPtr (value : LlvmValue) : Bool := value.kind = .pointer

/-- `is_alloc_callee`. -/
def isAllocCallee (name : String) : Bool :=
  name ∈ ["malloc", "calloc", "realloc", "_Znwm", "_Znam", "_ZnwmRKSt9nothrow_t",
    "_ZnamRKSt9nothrow_t"]

namespace PointerInstruction

/-- The instruction is an `alloca`. -/
def isAlloca (i : PointerInstruction) : Bool :=
  match i.opcode with
  | .alloca => true
  | _ => false

/-- The instruction calls an allocator. -/
def isAllocation (i : PointerInstruction) : Bool :=
  match i.opcode with
  | .call (some callee) _ => isAllocCallee callee
  | _ => false

/-- The field that a GEP of a struct with the indices 0 and a constant selects. -/
def structField? (i : PointerInstruction) : Option UInt32 :=
  match i.opcode, i.operands.tail with
  | .getElementPtr (some true), [first, second] =>
    match second.value.constantInt with
    | some field =>
      if first.value.constantInt = some 0 ∧ 0 ≤ field then some field.toUInt64.toUInt32 else none
    | none => none
  | _, _ => none

end PointerInstruction

/-- The body of the loop over the parameters. -/
def paramConstraints (g : PointerGraph) (index : ℕ) : List Constraint :=
  match g.params[index]? with
  | some param => [.seed (g.name ++ "$" ++ param) ⟨extRegion g.name index⟩]
  | none => []

/-- The body of the loop over the operands. -/
def globalConstraints (g : PointerGraph) (operand : Operand) : List Constraint :=
  if operand.isGlobalVariableRef && isPtr operand.value then
    [.seed (localName g.name operand.value) ⟨globalRegion operand.value⟩]
  else []

/-- `alloca_map`: the regions of the instructions that are an `alloca`. -/
def allocaMap (function : String) : ℕ → List PointerInstruction → List (Option String)
  | _, [] => []
  | stackIndex, i :: is =>
    if i.isAlloca then
      some (allocaRegion function stackIndex) :: allocaMap function (stackIndex + 1) is
    else none :: allocaMap function stackIndex is

/-- The constraints of a call. -/
def callConstraints (function : String) (callSiteId : ℕ) (result : LlvmValue) (callee : String)
    (args : List LlvmValue) : List Constraint :=
  if isAllocCallee callee then
    if isPtr result then [.seed (localName function result) ⟨heapRegion callSiteId⟩] else []
  else if callee ≠ "may_assert" then
    args.zipIdx.filterMap fun arg ↦
      if isPtr arg.1 then some (.copy (extRegion callee arg.2) (localName function arg.1))
      else none
  else []

/-- The constraints of an instruction. -/
def instructionConstraints (function : String) (region : Option String) (callSiteId : ℕ)
    (i : PointerInstruction) : List Constraint :=
  match i.opcode, i.operands with
  | .alloca, _ =>
    match region with
    | some region => [.seed (localName function i.result) ⟨region⟩]
    | none => []
  | .getElementPtr _, base :: _ =>
    if isPtr i.result then
      match i.structField? with
      | some field =>
        [.structField (localName function i.result) (localName function base.value) field]
      | none => [.copy (localName function i.result) (localName function base.value)]
    else []
  | .load, slot :: _ =>
    if isPtr i.result then
      [.loadPtr (localName function i.result) (localName function slot.value)]
    else []
  | .store, value :: slot :: _ =>
    if isPtr value.value then
      [.storePtr (localName function slot.value) (localName function value.value)]
    else []
  | .bitCast, source :: _ | .addrSpaceCast, source :: _ =>
    if isPtr i.result then
      [.copy (localName function i.result) (localName function source.value)]
    else []
  | .phi incomings, _ =>
    if isPtr i.result then
      incomings.map fun incoming ↦
        .copy (localName function i.result) (localName function incoming)
    else []
  | .call (some callee) args, _ => callConstraints function callSiteId i.result callee args
  | _, _ => []

/-- The body of the loop over the instructions: the constraints so far and `call_site_id`. -/
def collectInstruction (function : String) (acc : List Constraint × ℕ)
    (i : PointerInstruction × Option String) : List Constraint × ℕ :=
  (acc.1 ++ instructionConstraints function i.2 acc.2 i.1,
    if i.1.isAllocation then acc.2 + 1 else acc.2)

/-- The body of the loop over the graphs. -/
def collectGraph (acc : List Constraint × ℕ) (g : PointerGraph) : List Constraint × ℕ :=
  (g.vertices.zip (allocaMap g.name 0 g.vertices)).foldl (collectInstruction g.name)
    (acc.1 ++ g.pointerParamIndices.flatMap (paramConstraints g) ++
      (g.vertices.flatMap (·.operands)).flatMap (globalConstraints g), acc.2)

/-- `collect_constraints`. -/
def collectConstraints (graphs : List PointerGraph) : List Constraint :=
  (graphs.foldl collectGraph ([], 0)).1

/-- `run_alias_analysis`, for a number of rounds of the solver's loop at most. -/
def runAliasAnalysis (order : KeyOrder) (graphs : List PointerGraph) (fuel : ℕ) :
    Option AliasResult :=
  solve order (collectConstraints graphs) fuel

/-- `may_alias_regions`. -/
def AliasResult.MayAliasRegions (result : AliasResult) (r₁ r₂ : String) : Prop :=
  r₁ = r₂ ∨ ∃ p, ⟨r₁⟩ ∈ result.pts p ∧ ⟨r₂⟩ ∈ result.pts p

/-- The result as the resolver of memory effects reads it. -/
def AliasResult.regions (result : AliasResult) : MayMust.AliasResult where
  pointsTo p := (locs (result.pts p)).map (·.name)
  storedInto r := (locs (result.ptsMem r)).map (·.name)

/-! ### Executions -/

/-- An address: a place in one of the objects of a region. -/
structure Address where
  region : String
  object : ℕ
  path : List UInt32
  offset : ℤ
  deriving DecidableEq

/-- The location of an address. -/
def Address.loc (a : Address) : AbstractLoc := a.path.foldl AbstractLoc.field ⟨a.region⟩

/-- The pointers in the variables and in the memory. -/
structure Pointers where
  env : String → Option Address
  cells : Address → Option Address

namespace Pointers

/-- Assign a pointer variable. -/
def assign (s : Pointers) (name : String) (pointer : Option Address) : Pointers :=
  { s with env := Function.update s.env name pointer }

/-- Store a pointer in memory. -/
def store (s : Pointers) (slot : Address) (pointer : Option Address) : Pointers :=
  { s with cells := Function.update s.cells slot pointer }

/-- Some pointers are not known any more, and the others are what they were. -/
def Forgets (s s' : Pointers) : Prop :=
  (∀ p, s'.env p = none ∨ s'.env p = s.env p) ∧ ∀ c, s'.cells c = none ∨ s'.cells c = s.cells c

end Pointers

namespace PointerGraph

/-- The number of an `alloca`. -/
def stackIndex (g : PointerGraph) (k : ℕ) : ℕ := (g.vertices.take k).countP (·.isAlloca)

/-- The number of allocations in front of an instruction. -/
def allocationsBefore (g : PointerGraph) (k : ℕ) : ℕ := (g.vertices.take k).countP (·.isAllocation)

/-- The number of allocations of a function. -/
def allocations (g : PointerGraph) : ℕ := g.vertices.countP (·.isAllocation)

end PointerGraph

/-- The second address is in the same object and at the same path. -/
def Address.SamePlace (a b : Address) : Prop :=
  b.region = a.region ∧ b.object = a.object ∧ b.path = a.path

/-- One instruction of a function is executed. The allocations of the functions in front of it in
the module have been numbered first. -/
inductive Step (g : PointerGraph) (firstSite : ℕ) (s : Pointers) : Pointers → Prop
  | alloca {k : ℕ} {i : PointerInstruction} {a : Address} (hi : g.vertices[k]? = some i)
      (hop : i.opcode = .alloca) (hregion : a.region = allocaRegion g.name (g.stackIndex k))
      (hpath : a.path = []) : Step g firstSite s (s.assign (localName g.name i.result) (some a))
  | allocate {k : ℕ} {i : PointerInstruction} {a : Address} {callee : String}
      {args : List LlvmValue} (hi : g.vertices[k]? = some i)
      (hop : i.opcode = .call (some callee) args) (hcallee : isAllocCallee callee)
      (hptr : isPtr i.result) (hregion : a.region = heapRegion (firstSite + g.allocationsBefore k))
      (hpath : a.path = []) : Step g firstSite s (s.assign (localName g.name i.result) (some a))
  | field {i : PointerInstruction} {sourceIsStruct : Option Bool} {base : Operand}
      {indices : List Operand} {a b : Address} {n : UInt32} (hi : i ∈ g.vertices)
      (hop : i.opcode = .getElementPtr sourceIsStruct) (hoperands : i.operands = base :: indices)
      (hptr : isPtr i.result) (hfield : i.structField? = some n)
      (ha : s.env (localName g.name base.value) = some a)
      (hb : Address.SamePlace { a with path := a.path ++ [n] } b) :
      Step g firstSite s (s.assign (localName g.name i.result) (some b))
  | offset {i : PointerInstruction} {sourceIsStruct : Option Bool} {base : Operand}
      {indices : List Operand} {a b : Address} (hi : i ∈ g.vertices)
      (hop : i.opcode = .getElementPtr sourceIsStruct) (hoperands : i.operands = base :: indices)
      (hptr : isPtr i.result) (hfield : i.structField? = none)
      (ha : s.env (localName g.name base.value) = some a) (hb : a.SamePlace b) :
      Step g firstSite s (s.assign (localName g.name i.result) (some b))
  | load {i : PointerInstruction} {slot : Operand} {rest : List Operand} {a : Address}
      (hi : i ∈ g.vertices) (hop : i.opcode = .load) (hoperands : i.operands = slot :: rest)
      (hptr : isPtr i.result) (ha : s.env (localName g.name slot.value) = some a) :
      Step g firstSite s (s.assign (localName g.name i.result) (s.cells a))
  | store {i : PointerInstruction} {value slot : Operand} {rest : List Operand} {a : Address}
      (hi : i ∈ g.vertices) (hop : i.opcode = .store)
      (hoperands : i.operands = value :: slot :: rest) (hptr : isPtr value.value)
      (ha : s.env (localName g.name slot.value) = some a) :
      Step g firstSite s (s.store a (s.env (localName g.name value.value)))
  | cast {i : PointerInstruction} {source : Operand} {rest : List Operand} (hi : i ∈ g.vertices)
      (hop : i.opcode = .bitCast ∨ i.opcode = .addrSpaceCast)
      (hoperands : i.operands = source :: rest) (hptr : isPtr i.result) :
      Step g firstSite s
        (s.assign (localName g.name i.result) (s.env (localName g.name source.value)))
  | phi {i : PointerInstruction} {incomings : List LlvmValue} {incoming : LlvmValue}
      (hi : i ∈ g.vertices) (hop : i.opcode = .phi incomings) (hmem : incoming ∈ incomings)
      (hptr : isPtr i.result) :
      Step g firstSite s (s.assign (localName g.name i.result) (s.env (localName g.name incoming)))
  | forget {s' : Pointers} (h : s.Forgets s') : Step g firstSite s s'

/-- The pointers a function starts with: its parameters and the globals it refers to. -/
structure Initial (g : PointerGraph) (s : Pointers) : Prop where
  env : ∀ p a, s.env p = some a → a.path = [] ∧
    ((∃ index ∈ g.pointerParamIndices, ∃ param, g.params[index]? = some param ∧
        p = g.name ++ "$" ++ param ∧ a.region = extRegion g.name index) ∨
      ∃ i ∈ g.vertices, ∃ operand ∈ i.operands, operand.isGlobalVariableRef ∧
        isPtr operand.value ∧ p = localName g.name operand.value ∧
          a.region = globalRegion operand.value)
  cells : ∀ c, s.cells c = none

/-- All pointers are where the maps say. -/
structure Covers (m : PointsTo) (s : Pointers) : Prop where
  env : ∀ p a, s.env p = some a → a.loc ∈ m.pointers p
  cells : ∀ c a, s.cells c = some a → a.loc ∈ m.cells c.loc.name

/-! ### What is collected -/

section Collection

variable {g : PointerGraph} {graphs pre post : List PointerGraph} {i : PointerInstruction}
  {is : List PointerInstruction} {function : String} {cs : List Constraint} {c : Constraint}
  {k n id firstSite : ℕ} {acc : List Constraint × ℕ}

/-- The region `alloca_map` has for an instruction. -/
def regionOf (function : String) (stackIndex : ℕ) (i : PointerInstruction) : Option String :=
  if i.isAlloca then some (allocaRegion function stackIndex) else none

theorem allocaMap_cons (function : String) (n : ℕ) (i : PointerInstruction)
    (is : List PointerInstruction) :
    allocaMap function n (i :: is) =
      regionOf function n i :: allocaMap function (if i.isAlloca then n + 1 else n) is := by
  rw [allocaMap, regionOf]
  split_ifs <;> rfl

/-- The loop over the instructions keeps what has been collected and adds the constraints of every
instruction, under the numbers of its `alloca` and of its call site. -/
theorem foldl_collectInstruction (function : String) (is : List PointerInstruction) (n : ℕ)
    (acc : List Constraint × ℕ) :
    ((is.zip (allocaMap function n is)).foldl (collectInstruction function) acc).2 =
        acc.2 + is.countP (·.isAllocation) ∧
      (∀ c ∈ acc.1,
        c ∈ ((is.zip (allocaMap function n is)).foldl (collectInstruction function) acc).1) ∧
      ∀ k i, is[k]? = some i →
        ∀ c ∈ instructionConstraints function
            (regionOf function (n + (is.take k).countP (·.isAlloca)) i)
            (acc.2 + (is.take k).countP (·.isAllocation)) i,
          c ∈ ((is.zip (allocaMap function n is)).foldl (collectInstruction function) acc).1 := by
  induction is generalizing n acc with
  | nil => simp
  | cons i is ih =>
    rw [allocaMap_cons, List.zip_cons_cons, List.foldl_cons]
    obtain ⟨hid, hkeep, hadd⟩ := ih (if i.isAlloca then n + 1 else n)
      (collectInstruction function acc (i, regionOf function n i))
    have hsite : (collectInstruction function acc (i, regionOf function n i)).2 =
        acc.2 + if i.isAllocation then 1 else 0 := by
      rw [collectInstruction]
      split_ifs <;> rfl
    refine ⟨?_, fun c hc ↦ hkeep c (List.mem_append_left _ hc), fun k j hj c hc ↦ ?_⟩
    · rw [hid, hsite, List.countP_cons]
      omega
    · cases k with
      | zero =>
        obtain rfl : i = j := by simpa using hj
        exact hkeep c (List.mem_append_right _ (by simpa using hc))
      | succ k =>
        refine hadd k j (by simpa using hj) c ?_
        rw [List.take_succ_cons, List.countP_cons, List.countP_cons] at hc
        rw [hsite]
        have hn : n + ((is.take k).countP (·.isAlloca) + if i.isAlloca then 1 else 0) =
            (if i.isAlloca then n + 1 else n) + (is.take k).countP (·.isAlloca) := by
          split_ifs <;> omega
        have hsites : acc.2 + ((is.take k).countP (·.isAllocation) +
            if i.isAllocation then 1 else 0) =
            (acc.2 + if i.isAllocation then 1 else 0) + (is.take k).countP (·.isAllocation) := by
          omega
        rwa [hn, hsites] at hc

/-- The constraints of a function are among the constraints. -/
structure Emits (g : PointerGraph) (firstSite : ℕ) (cs : List Constraint) : Prop where
  param : ∀ index ∈ g.pointerParamIndices, ∀ c ∈ paramConstraints g index, c ∈ cs
  operand : ∀ i ∈ g.vertices, ∀ operand ∈ i.operands, ∀ c ∈ globalConstraints g operand, c ∈ cs
  instruction : ∀ k i, g.vertices[k]? = some i →
    ∀ c ∈ instructionConstraints g.name (regionOf g.name (g.stackIndex k) i)
      (firstSite + g.allocationsBefore k) i, c ∈ cs

theorem collectGraph_spec (acc : List Constraint × ℕ) (g : PointerGraph) :
    (collectGraph acc g).2 = acc.2 + g.allocations ∧
      (∀ c ∈ acc.1, c ∈ (collectGraph acc g).1) ∧ Emits g acc.2 (collectGraph acc g).1 := by
  obtain ⟨hid, hkeep, hadd⟩ := foldl_collectInstruction g.name g.vertices 0
    (acc.1 ++ g.pointerParamIndices.flatMap (paramConstraints g) ++
      (g.vertices.flatMap (·.operands)).flatMap (globalConstraints g), acc.2)
  refine ⟨hid, fun c hc ↦ hkeep c ?_, fun index hindex c hc ↦ hkeep c ?_,
    fun i hi operand hoperand c hc ↦ hkeep c ?_, fun k i hi c hc ↦ hadd k i hi c ?_⟩
  · exact List.mem_append_left _ (List.mem_append_left _ hc)
  · exact List.mem_append_left _
      (List.mem_append_right _ (List.mem_flatMap.2 ⟨index, hindex, hc⟩))
  · exact List.mem_append_right _ (List.mem_flatMap.2
      ⟨operand, List.mem_flatMap.2 ⟨i, hi, hoperand⟩, hc⟩)
  · rw [Nat.zero_add]
    exact hc

theorem foldl_collectGraph (graphs : List PointerGraph) (acc : List Constraint × ℕ) :
    (graphs.foldl collectGraph acc).2 = acc.2 + (graphs.map (·.allocations)).sum ∧
      ∀ c ∈ acc.1, c ∈ (graphs.foldl collectGraph acc).1 := by
  induction graphs generalizing acc with
  | nil => simp
  | cons g graphs ih =>
    obtain ⟨hid, hkeep, -⟩ := collectGraph_spec acc g
    obtain ⟨hid', hkeep'⟩ := ih (collectGraph acc g)
    rw [List.foldl_cons, hid', hid, List.map_cons, List.sum_cons]
    exact ⟨by omega, fun c hc ↦ hkeep' c (hkeep c hc)⟩

/-- The constraints of every function of the module are collected, and the allocations of the
functions in front of it have been numbered first. -/
theorem emits_collectConstraints (h : graphs = pre ++ g :: post) :
    Emits g (pre.map (·.allocations)).sum (collectConstraints graphs) := by
  subst h
  rw [collectConstraints, List.foldl_append, List.foldl_cons]
  obtain ⟨hid, -⟩ := foldl_collectGraph pre ([], 0)
  obtain ⟨-, -, hemits⟩ := collectGraph_spec (pre.foldl collectGraph ([], 0)) g
  obtain ⟨-, hkeep⟩ := foldl_collectGraph post (collectGraph (pre.foldl collectGraph ([], 0)) g)
  rw [hid, Nat.zero_add] at hemits
  exact ⟨fun index hindex c hc ↦ hkeep c (hemits.param index hindex c hc),
    fun i hi operand hoperand c hc ↦ hkeep c (hemits.operand i hi operand hoperand c hc),
    fun k i hi c hc ↦ hkeep c (hemits.instruction k i hi c hc)⟩

end Collection

/-! ### Soundness -/

section Soundness

variable {g : PointerGraph} {firstSite : ℕ} {cs : List Constraint} {m : PointsTo}
  {s s' : Pointers} {p : String} {a b : Address} {pointer : Option Address} {n : UInt32}

theorem Address.SamePlace.loc_eq (h : a.SamePlace b) : b.loc = a.loc := by
  obtain ⟨hregion, -, hpath⟩ := h
  rw [Address.loc, Address.loc, hregion, hpath]

theorem Address.loc_field (a : Address) (n : UInt32) :
    Address.loc { a with path := a.path ++ [n] } = a.loc.field n := by
  rw [Address.loc, Address.loc, List.foldl_append]
  rfl

theorem Covers.assign (h : Covers m s) (hp : ∀ a, pointer = some a → a.loc ∈ m.pointers p) :
    Covers m (s.assign p pointer) where
  env q a ha := by
    rw [Pointers.assign] at ha
    rcases eq_or_ne q p with rfl | hne
    · exact hp a (by simpa using ha)
    · exact h.env q a (by simpa [hne] using ha)
  cells := h.cells

theorem Covers.store (h : Covers m s) {slot : Address}
    (hp : ∀ a, pointer = some a → a.loc ∈ m.cells slot.loc.name) :
    Covers m (s.store slot pointer) where
  env := h.env
  cells c a ha := by
    rw [Pointers.store] at ha
    rcases eq_or_ne c slot with rfl | hne
    · exact hp a (by simpa using ha)
    · exact h.cells c a (by simpa [hne] using ha)

theorem Covers.forgets (h : Covers m s) (hs : s.Forgets s') : Covers m s' where
  env p a ha := by
    rcases hs.1 p with hnone | hsame
    · rw [hnone] at ha
      cases ha
    · exact h.env p a (hsame ▸ ha)
  cells c a ha := by
    rcases hs.2 c with hnone | hsame
    · rw [hnone] at ha
      cases ha
    · exact h.cells c a (hsame ▸ ha)

/-- A function starts with pointers that are where a solution says. -/
theorem Initial.covers (h : Initial g s) (hemits : Emits g firstSite cs) (hm : m.Solves cs) :
    Covers m s where
  env p a ha := by
    obtain ⟨hpath, ⟨index, hindex, param, hparam, rfl, hregion⟩ |
      ⟨i, hi, operand, hoperand, hglobal, hptr, rfl, hregion⟩⟩ := h.env p a ha
    · have hmem : Constraint.seed (g.name ++ "$" ++ param) ⟨extRegion g.name index⟩ ∈ cs :=
        hemits.param index hindex _ (by simp [paramConstraints, hparam])
      rw [Address.loc, hpath, hregion]
      exact hm _ hmem
    · have hmem : Constraint.seed (localName g.name operand.value)
          ⟨globalRegion operand.value⟩ ∈ cs :=
        hemits.operand i hi operand hoperand _ (by simp [globalConstraints, hglobal, hptr])
      rw [Address.loc, hpath, hregion]
      exact hm _ hmem
  cells c a ha := by
    rw [h.cells c] at ha
    cases ha

/-- One instruction keeps the pointers where a solution says. -/
theorem Covers.step (h : Covers m s) (hemits : Emits g firstSite cs) (hm : m.Solves cs)
    (hstep : Step g firstSite s s') : Covers m s' := by
  have hof {i : PointerInstruction} (hi : i ∈ g.vertices) {c : Constraint}
      (hc : ∀ region id, c ∈ instructionConstraints g.name region id i) : c.SatisfiedBy m := by
    obtain ⟨k, hk⟩ := List.getElem?_of_mem hi
    exact hm c (hemits.instruction k i hk c (hc _ _))
  cases hstep with
  | @alloca k i a hi hop hregion hpath =>
    refine h.assign fun a' ha' ↦ ?_
    obtain rfl := Option.some.inj ha'
    have hmem : Constraint.seed (localName g.name i.result)
        ⟨allocaRegion g.name (g.stackIndex k)⟩ ∈ cs :=
      hemits.instruction k i hi _ (by
        simp [instructionConstraints, regionOf, PointerInstruction.isAlloca, hop])
    rw [Address.loc, hpath, hregion]
    exact hm _ hmem
  | @allocate k i a callee args hi hop hcallee hptr hregion hpath =>
    refine h.assign fun a' ha' ↦ ?_
    obtain rfl := Option.some.inj ha'
    have hmem : Constraint.seed (localName g.name i.result)
        ⟨heapRegion (firstSite + g.allocationsBefore k)⟩ ∈ cs :=
      hemits.instruction k i hi _ (by
        simp [instructionConstraints, callConstraints, hop, hcallee, hptr])
    rw [Address.loc, hpath, hregion]
    exact hm _ hmem
  | @field i sourceIsStruct base indices a b n hi hop hoperands hptr hfield ha hb =>
    refine h.assign fun b' hb' ↦ ?_
    obtain rfl := Option.some.inj hb'
    have hsat := hof (c := .structField (localName g.name i.result)
      (localName g.name base.value) n) hi fun region id ↦ by
        simp [instructionConstraints, hop, hoperands, hptr, hfield]
    rw [hb.loc_eq, Address.loc_field]
    exact hsat _ (h.env _ a ha)
  | @offset i sourceIsStruct base indices a b hi hop hoperands hptr hfield ha hb =>
    refine h.assign fun b' hb' ↦ ?_
    obtain rfl := Option.some.inj hb'
    have hsat := hof (c := .copy (localName g.name i.result) (localName g.name base.value)) hi
      fun region id ↦ by simp [instructionConstraints, hop, hoperands, hptr, hfield]
    rw [hb.loc_eq]
    exact hsat (h.env _ a ha)
  | @load i slot rest a hi hop hoperands hptr ha =>
    refine h.assign fun b hb ↦ ?_
    have hsat := hof (c := .loadPtr (localName g.name i.result) (localName g.name slot.value)) hi
      fun region id ↦ by simp [instructionConstraints, hop, hoperands, hptr]
    exact hsat _ (h.env _ a ha) (h.cells a b hb)
  | @store i value slot rest a hi hop hoperands hptr ha =>
    refine h.store fun b hb ↦ ?_
    have hsat := hof (c := .storePtr (localName g.name slot.value) (localName g.name value.value))
      hi fun region id ↦ by simp [instructionConstraints, hop, hoperands, hptr]
    exact hsat _ (h.env _ a ha) (h.env _ b hb)
  | @cast i source rest hi hop hoperands hptr =>
    refine h.assign fun b hb ↦ ?_
    have hsat := hof (c := .copy (localName g.name i.result) (localName g.name source.value)) hi
      fun region id ↦ by
        rcases hop with hop | hop <;> simp [instructionConstraints, hop, hoperands, hptr]
    exact hsat (h.env _ b hb)
  | @phi i incomings incoming hi hop hmem hptr =>
    refine h.assign fun b hb ↦ ?_
    have hsat := hof (c := .copy (localName g.name i.result) (localName g.name incoming)) hi
      fun region id ↦ by
        simp only [instructionConstraints, hop, hptr, ↓reduceIte, List.mem_map]
        exact ⟨incoming, hmem, rfl⟩
    exact hsat (h.env _ b hb)
  | forget hforget => exact h.forgets hforget

/-- All instructions do, in any order and any number of times. -/
theorem Covers.run (h : Covers m s) (hemits : Emits g firstSite cs) (hm : m.Solves cs)
    (hrun : ReflTransGen (Step g firstSite) s s') : Covers m s' := by
  induction hrun with
  | refl => exact h
  | tail _ hstep ih => exact ih.step hemits hm hstep

end Soundness

/-! ### The results of the analysis -/

section Results

variable {order : KeyOrder} {graphs pre post : List PointerGraph} {g : PointerGraph} {fuel : ℕ}
  {result : AliasResult} {input : ResolverInput} {st : Resolver} {s₀ s : Pointers}
  {slot value target region : String} {a b : Address}

/-- The pointers of a function, as it is executed in some module. -/
def Reaches (pre : List PointerGraph) (g : PointerGraph) (s : Pointers) : Prop :=
  ∃ s₀, Initial g s₀ ∧ ReflTransGen (Step g (pre.map (·.allocations)).sum) s₀ s

theorem Reaches.covers (hs : Reaches pre g s) (hgraphs : graphs = pre ++ g :: post)
    (hresult : runAliasAnalysis order graphs fuel = some result) : Covers result.pointsTo s := by
  obtain ⟨s₀, hinit, hrun⟩ := hs
  have hemits := emits_collectConstraints hgraphs
  have hsolves := solves_of_solve hresult
  exact (hinit.covers hemits hsolves).run hemits hsolves hrun

/-- **Pointers are where the analysis says.** Let the analysis of a module return. Whatever
instructions of one of its functions have been executed, in any order, every known pointer in a
variable is at one of the locations of the variable, and every known pointer in memory at one of
those stored into its region. So a variable never points, not even at different times, to two
regions that may not alias. -/
theorem covers_of_runAliasAnalysis (hgraphs : graphs = pre ++ g :: post)
    (hresult : runAliasAnalysis order graphs fuel = some result) :
    (∀ s, Reaches pre g s →
      (∀ p a, s.env p = some a → a.loc ∈ result.pts p) ∧
      ∀ c a, s.cells c = some a → a.loc ∈ result.ptsMem c.loc.name) ∧
    ∀ s s', Reaches pre g s → Reaches pre g s' → ∀ p a b,
      s.env p = some a → s'.env p = some b → result.MayAliasRegions a.loc.name b.loc.name := by
  have hcovers {s : Pointers} (hs : Reaches pre g s) : Covers result.pointsTo s :=
    hs.covers hgraphs hresult
  refine ⟨fun s hs ↦ ⟨(hcovers hs).env, (hcovers hs).cells⟩, fun s s' hs hs' p a b ha hb ↦ ?_⟩
  exact Or.inr ⟨p, (hcovers hs).env p a ha, (hcovers hs').env p b hb⟩

theorem singleton?_eq_some {regions : List String} (h : singleton? regions = some region) :
    regions = [region] := by
  rcases regions with _ | ⟨r, _ | ⟨r', rest⟩⟩
  · cases h
  · rw [Option.some.inj (show some r = some region from h)]
  · cases h

/-- What the resolver binds a loaded pointer to when it does not know the slot. -/
theorem env_afterPointerLoad {binding : PointerBinding} (hslot : st.env slot = none)
    (htarget : st.env target = none)
    (h : (Resolver.afterPointerLoad input st target slot).env target = some binding) :
    ((input.aliases.pointsTo slot).flatMap input.aliases.storedInto).dedup = [binding.region] := by
  rw [Resolver.afterPointerLoad, hslot] at h
  simp only at h
  split at h
  · rename_i region hregion
    simp only [Resolver.bind, Function.update_self, Option.some.injEq] at h
    rw [← h]
    exact singleton?_eq_some hregion
  · rw [htarget] at h
    cases h

/-- What the resolver notes for a stored pointer which it does not know. -/
theorem ptrAt_afterPointerStore {place stored : PointerBinding} {k : Int64}
    (hvalue : st.env value = none) (hslot : st.env slot = some place)
    (hk : place.offset.tryAsConstantInt = some k) (hold : st.ptrAt (place.region, k) = none)
    (h : (Resolver.afterPointerStore input st slot value).ptrAt (place.region, k) = some stored) :
    input.aliases.pointsTo value = [stored.region] := by
  rw [Resolver.afterPointerStore, hslot] at h
  simp only [hk, hvalue] at h
  split at h
  · rename_i region hregion
    simp only [Resolver.setPtrAt, Function.update_self, Option.some.injEq] at h
    rw [← h]
    exact singleton?_eq_some hregion
  · rw [hold] at h
    cases h

/-- The region which the adapter gives the allocation of a callee. -/
def heapAllocRegion (function callee : String) (index : ℕ) : String :=
  function ++ "$heap$" ++ callee ++ "@" ++ toString index

/-- The two name the heap differently: no region of the analysis is one of the adapter's. -/
theorem heapRegion_ne_adapter (function callee : String) (index callSiteId : ℕ) :
    heapRegion callSiteId ≠ heapAllocRegion function callee index := by
  intro h
  have hat : '@' ∈ (heapAllocRegion function callee index).toList := by
    simp [heapAllocRegion]
  rw [← h] at hat
  simp only [heapRegion, String.toList_append, List.mem_append, Nat.toString_eq_repr,
    Nat.toList_repr] at hat
  rcases hat with hprefix | hdigits
  · exact absurd hprefix (by decide)
  · exact absurd (Nat.isDigit_of_mem_toDigits (by decide) (by decide) hdigits) (by decide)

end Results

/-! ### A pointer parameter kept in a variable -/

/-- A pointer value. -/
def pointerValue (displayName : String) : LlvmValue :=
  ⟨.pointer, displayName, none, none, displayName⟩

/-- An operand that is a local value. -/
def localOperand (displayName : String) : Operand := ⟨pointerValue displayName, false⟩

/-- `%p` is stored in the variable `%s`, and `%q` is loaded from there. -/
def spill : PointerGraph where
  name := "f"
  params := ["%p"]
  pointerParamIndices := [0]
  vertices := [
    ⟨pointerValue "%s", .alloca, []⟩,
    ⟨pointerValue "", .store, [localOperand "%p", localOperand "%s"]⟩,
    ⟨pointerValue "%q", .load, [localOperand "%s"]⟩]

/-- The object which the parameter points to. -/
def spillParam : Address := ⟨"f$__ext_0", 0, [], 0⟩

/-- The variable. -/
def spillSlot : Address := ⟨"f$stack0", 0, [], 0⟩

/-- The pointers at the start. -/
def spillInitial : Pointers :=
  ⟨Function.update (fun _ ↦ none) "f$%p" (some spillParam), fun _ ↦ none⟩

/-- The pointers at the end. -/
def spillFinal : Pointers :=
  ((spillInitial.assign "f$%s" (some spillSlot)).store spillSlot (some spillParam)).assign "f$%q"
    (some spillParam)

theorem reaches_spillFinal : Reaches [] spill spillFinal := by
  refine ⟨spillInitial, ⟨fun p a ha ↦ ?_, fun c ↦ rfl⟩, ?_⟩
  · rw [spillInitial] at ha
    rcases eq_or_ne p "f$%p" with rfl | hne
    · obtain rfl : spillParam = a := by simpa using ha
      exact ⟨rfl, Or.inl ⟨0, by decide, "%p", rfl, by decide, by decide⟩⟩
    · simp [hne] at ha
  · have hregion : spillSlot.region = allocaRegion spill.name (spill.stackIndex 0) := by decide
    have hstart : Step spill 0 spillInitial (spillInitial.assign "f$%s" (some spillSlot)) :=
      Step.alloca (k := 0) rfl rfl hregion rfl
    have hstoreMem : (⟨pointerValue "", .store, [localOperand "%p", localOperand "%s"]⟩ :
        PointerInstruction) ∈ spill.vertices := by simp [spill]
    have hslot : (spillInitial.assign "f$%s" (some spillSlot)).env
        (localName spill.name (localOperand "%s").value) = some spillSlot := by decide
    have hstore : Step spill 0 _ _ := Step.store hstoreMem rfl rfl (by decide) hslot
    have hloadMem : (⟨pointerValue "%q", .load, [localOperand "%s"]⟩ : PointerInstruction) ∈
        spill.vertices := by simp [spill]
    have hload : Step spill 0
        ((spillInitial.assign "f$%s" (some spillSlot)).store spillSlot (some spillParam)) _ :=
      Step.load hloadMem rfl rfl (by decide) hslot
    exact ((ReflTransGen.single hstart).tail hstore).tail hload

theorem isSome_runAliasAnalysis_spill : (runAliasAnalysis .stored [spill] 10).isSome := by
  decide +kernel

/-- The loaded pointer is one of those which the analysis finds. -/
theorem covers_of_runAliasAnalysis_spill :
    ∃ result, runAliasAnalysis .stored [spill] 10 = some result ∧
      spillFinal.env "f$%q" = some spillParam ∧ spillParam.loc ∈ result.pts "f$%q" := by
  obtain ⟨result, hresult⟩ := Option.isSome_iff_exists.1 isSome_runAliasAnalysis_spill
  have hq : spillFinal.env "f$%q" = some spillParam := by decide
  have hmodule : [spill] = [] ++ spill :: [] := rfl
  exact ⟨result, hresult, hq, ((covers_of_runAliasAnalysis hmodule hresult).1 spillFinal
    reaches_spillFinal).1 "f$%q" spillParam hq⟩

/-- What the resolver reads in this function, given the result of the analysis. -/
def spillInput (result : AliasResult) : ResolverInput where
  functionName := "f"
  params := ["%p"]
  pointerParamIndices := [0]
  operands := []
  aliases := result.regions
  flat := ⟨[]⟩
  vtableMap _ := none
  summaries _ := none
  callArgs _ := none

/-- A resolver that knows no pointer. -/
def unresolved : Resolver where
  env _ := none
  ptrAt _ := none
  fnPtrVars _ := none
  flatIntVars _ := none
  vtableFnPtrs _ := none
  flat := ⟨[]⟩

end Andersen

end MayMust
