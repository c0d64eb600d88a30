import MayMust.Cfg.Adapter.MemoryResolution
import MayMust.Cfg.Execution

/-!
# Executions of pointer programs

What a graph does before its memory effects are resolved. A configuration holds, besides the state,
the value of each pointer name and the pointers that memory cells hold. A cell is a region and an
offset into it. A pointer value is the cell it points to; next to it we keep how it was computed, as
an object and an offset expression, and the state in which the expression was last evaluated. These
two are not read by any step: conditions on executions speak about them.

A load reads the cell its pointer points to and a store writes it. Reals are not part of the memory
of a state, so a load of a real may yield any value.
-/

namespace MayMust

open Library

/-- The value of a pointer. -/
structure PointerValue where
  cell : String × ℤ
  /-- The object and the offset expression it was computed from, if it comes from a known object. -/
  origin : Option PointerBinding
  /-- The state in which the offset was evaluated. -/
  computedIn : State

namespace PointerValue

/-- The start of an object. -/
def start (region : String) (s : State) : PointerValue :=
  ⟨(region, 0), some ⟨region, .int 0⟩, s⟩

/-- Pointer arithmetic, by an offset whose value is `n`. -/
def advance (v : PointerValue) (offset : Term) (n : ℤ) (s : State) : PointerValue :=
  ⟨(v.cell.1, v.cell.2 + n), v.origin.map fun b ↦ ⟨b.region, .add b.offset offset⟩, s⟩

/-- The expression it was computed by has the value it had then. -/
def Current (v : PointerValue) (s : State) : Prop :=
  ∀ b, v.origin = some b → b.offset.eval s = b.offset.eval v.computedIn

/-- It points where its origin says. -/
def Computed (v : PointerValue) : Prop :=
  ∀ b, v.origin = some b → b.region = v.cell.1 ∧ b.offset.eval v.computedIn = .int v.cell.2

variable {v : PointerValue} {s : State}

theorem computed_start (region : String) (s : State) : (start region s).Computed := by
  rintro b ⟨⟩
  exact ⟨rfl, by simp [start, Term.eval]⟩

theorem Computed.advance {offset : Term} {n : ℤ} (hv : v.Computed) (hs : v.Current s)
    (hn : offset.eval s = .int n) : (v.advance offset n s).Computed := by
  intro b hb
  obtain ⟨b, horigin, rfl⟩ := Option.map_eq_some_iff.1 hb
  have hcell := hv b horigin
  refine ⟨hcell.1, ?_⟩
  show (Term.add b.offset offset).eval s = _
  rw [Term.eval, hs b horigin, hcell.2, hn]
  rfl

/-- Where the expression has kept its value, it evaluates to the address. -/
theorem Computed.eval_offset {b : PointerBinding} (hv : v.Computed) (hs : v.Current s)
    (hb : v.origin = some b) : v.cell = (b.region, (b.offset.eval s).toInt) := by
  obtain ⟨hregion, hoffset⟩ := hv b hb
  rw [hs b hb, hregion, hoffset, Value.toInt_int]

end PointerValue

/-- A configuration of a pointer program. -/
structure PointerConfig where
  state : State
  pointer : String → Option PointerValue
  /-- The pointers that cells hold, as far as the program has stored them. -/
  content : String × ℤ → Option PointerValue

namespace PointerConfig

/-- Give a pointer name a value. -/
def bind (c : PointerConfig) (name : String) (v : PointerValue) : PointerConfig :=
  { c with pointer := Function.update c.pointer name (some v) }

/-- Store a pointer in a cell. -/
def hold (c : PointerConfig) (cell : String × ℤ) (v : PointerValue) : PointerConfig :=
  { c with content := Function.update c.content cell (some v) }

/-- Replace the scalars and the memory. -/
def withState (c : PointerConfig) (s : State) : PointerConfig := { c with state := s }

/-- The configuration after a value has been stored in a cell. -/
noncomputable def write (c : PointerConfig) (cell : String × ℤ) (value : Term) : PointerConfig :=
  if value.sort = .ok .real then c
  else
    c.withState (c.state.setRegion cell.1
      (Function.update (c.state.memory cell.1) cell.2 (value.eval c.state).toInt))

end PointerConfig

/-- The effects that only concern scalars. -/
def TransferEffect.OnScalars : TransferEffect → Prop
  | .assign .. | .assume .. | .typeBound .. | .obligation .. | .nop => True
  | _ => False

/-- The pointer name an effect defines. -/
def TransferEffect.definedPointer : TransferEffect → Option String
  | .alloca target _ | .heapAlloc target _ | .getElementPtr target _ _ | .pointerLoad target _
  | .pointerAlias target _ | .structFieldGep target _ _ | .intToPtr target _ => some target
  | _ => none

/-- The pointer a load or a store goes through. -/
def TransferEffect.accessedPointer : TransferEffect → Option String
  | .load _ source => some source
  | .store target _ => some target
  | _ => none

/-- One effect of a pointer program. Every pointer that is read has been computed. -/
def TransferEffect.PointerStep (sem : Semantics) :
    TransferEffect → PointerConfig → PointerConfig → Prop
  | .alloca target region, c, c' | .heapAlloc target region, c, c' =>
    c' = c.bind target (.start region c.state)
  | .getElementPtr target base offset, c, c' =>
    ∃ v n, c.pointer base = some v ∧ offset.eval c.state = .int n ∧
      c' = c.bind target (v.advance offset n c.state)
  | .pointerStore targetSlot valuePtr, c, c' =>
    ∃ a v, c.pointer targetSlot = some a ∧ c.pointer valuePtr = some v ∧ c' = c.hold a.cell v
  | .pointerLoad targetPtr sourceSlot, c, c' =>
    -- a cell no pointer has been stored in may hold any pointer
    ∃ a v, c.pointer sourceSlot = some a ∧ (∀ w, c.content a.cell = some w → v = w) ∧
      c' = c.bind targetPtr v
  | .pointerAlias target source, c, c' => ∃ v, c.pointer source = some v ∧ c' = c.bind target v
  | .load target source, c, c' =>
    ∃ a x, c.pointer source = some a ∧ x.sort = target.sort ∧
      (target.sort = .int → x = .int (c.state.memory a.cell.1 a.cell.2)) ∧
      c' = c.withState (c.state.set target x)
  | .store target value, c, c' => ∃ a, c.pointer target = some a ∧ c' = c.write a.cell value
  | e, c, c' => e.OnScalars ∧ ∃ s, e.Step sem c.state s ∧ c' = c.withState s

/-- Effects one after the other, each in a configuration in which `ok` allows it. -/
def PointerEffects.Run (sem : Semantics) (ok : TransferEffect → PointerConfig → Prop) :
    List TransferEffect → PointerConfig → PointerConfig → Prop :=
  Path fun e c c' ↦ ok e c ∧ e.PointerStep sem c c'

/-- One crossing of an edge. -/
structure PointerCrossing where
  edge : AbstractEdge
  pre : PointerConfig
  mid : PointerConfig
  post : PointerConfig

/-- The crossing is one the graph allows. -/
structure PointerCrossing.Valid (sem : Semantics) (ok : TransferEffect → PointerConfig → Prop)
    (cfg : AbstractCfg) (x : PointerCrossing) : Prop where
  edge_mem : x.edge ∈ cfg.edges
  transfer : PointerEffects.Run sem ok (cfg.transferAt x.edge.source).effects x.pre x.mid
  guard : x.edge.guard.Holds x.mid.state
  effects : PointerEffects.Run sem ok x.edge.effects x.mid x.post

namespace AbstractCfg

/-- The crossings are an execution of the pointer program from one position to another. -/
def PointerRun (cfg : AbstractCfg) (sem : Semantics) (ok : TransferEffect → PointerConfig → Prop) :
    List PointerCrossing → CfgNodeId × PointerConfig → CfgNodeId × PointerConfig → Prop :=
  Path fun x p q ↦ x.Valid sem ok cfg ∧ p = (x.edge.source, x.pre) ∧ q = (x.edge.target, x.post)

/-- The pointer names the graph defines. -/
def definedPointers (cfg : AbstractCfg) : List String :=
  (cfg.nodes.flatMap (·.transfer.effects)).filterMap (·.definedPointer)

/-- What the lowering promises: edges carry scalar effects only, and each pointer name has one
definition. -/
structure PointerProgram (cfg : AbstractCfg) : Prop where
  edges_scalar : ∀ edge ∈ cfg.edges, ∀ e ∈ edge.effects, e.OnScalars
  definedPointers_nodup : cfg.definedPointers.Nodup

end AbstractCfg

/-- The configuration is one in which the function can be entered: parameters and globals point to
the regions they are given, and nothing has been computed or stored. -/
structure PointerConfig.Initial (input : ResolverInput) (cfg : AbstractCfg) (c : PointerConfig) :
    Prop where
  origin : ∀ p, (c.pointer p).bind (·.origin) = (Resolver.seed input).env p
  computed : ∀ p v, c.pointer p = some v → v.Computed
  undefined : ∀ p ∈ cfg.definedPointers, c.pointer p = none
  content : ∀ a, c.content a = none

/-! ### Names keep their values -/

section Names

variable {sem : Semantics} {ok : TransferEffect → PointerConfig → Prop} {e : TransferEffect}
  {es : List TransferEffect} {c c' : PointerConfig} {p : String} {v : PointerValue}

namespace TransferEffect

/-- A step changes no name but the one it defines. -/
theorem PointerStep.pointer_eq (h : e.PointerStep sem c c') (hp : e.definedPointer ≠ some p) :
    c'.pointer p = c.pointer p := by
  have hbind {name : String} (w : PointerValue) (hne : some name ≠ some p) :
      (c.bind name w).pointer p = c.pointer p :=
    Function.update_of_ne (fun heq ↦ hne (by rw [heq])) _ _
  cases e with
  | alloca target region | heapAlloc target region =>
    obtain rfl := h
    exact hbind _ hp
  | getElementPtr target base offset =>
    obtain ⟨w, n, -, -, rfl⟩ := h
    exact hbind _ hp
  | pointerStore targetSlot valuePtr =>
    obtain ⟨a, w, -, -, rfl⟩ := h
    rfl
  | pointerLoad targetPtr sourceSlot =>
    obtain ⟨a, w, -, -, rfl⟩ := h
    exact hbind _ hp
  | pointerAlias target source =>
    obtain ⟨w, -, rfl⟩ := h
    exact hbind _ hp
  | load target source =>
    obtain ⟨a, x, -, -, -, rfl⟩ := h
    rfl
  | store target value =>
    obtain ⟨a, -, rfl⟩ := h
    rw [PointerConfig.write]
    split <;> rfl
  | _ =>
    obtain ⟨-, s, -, rfl⟩ := h
    rfl

/-- Scalar effects leave the pointers alone. -/
theorem PointerStep.of_scalar (h : e.PointerStep sem c c') (he : e.OnScalars) :
    c'.pointer = c.pointer ∧ c'.content = c.content := by
  cases e with
  | assign _ _ | assume _ | typeBound _ | obligation _ | nop =>
    obtain ⟨-, s, -, rfl⟩ := h
    exact ⟨rfl, rfl⟩
  | _ => exact he.elim

end TransferEffect

/-- A run changes no name that its effects do not define. -/
theorem PointerEffects.Run.pointer_eq (hrun : PointerEffects.Run sem ok es c c')
    (hp : p ∉ es.filterMap (·.definedPointer)) : c'.pointer p = c.pointer p := by
  refine Path.invariant (P := fun m ↦ m.pointer p = c.pointer p) (fun e he m m' hstep hm ↦ ?_)
    hrun rfl
  rw [hstep.2.pointer_eq fun hdef ↦ hp (List.mem_filterMap.2 ⟨e, he, hdef⟩), hm]

/-- The names the effects define are distinct and have no value yet. -/
def PointerConfig.Unbound (c : PointerConfig) (es : List TransferEffect) : Prop :=
  (es.filterMap (·.definedPointer)).Nodup ∧
    ∀ p ∈ es.filterMap (·.definedPointer), c.pointer p = none

theorem PointerConfig.Unbound.step (h : c.Unbound (e :: es)) (hstep : e.PointerStep sem c c') :
    c'.Unbound es := by
  obtain ⟨hnodup, hnone⟩ := h
  rw [List.filterMap_cons] at hnodup hnone
  cases hdef : e.definedPointer with
  | none =>
    rw [hdef] at hnodup hnone
    refine ⟨hnodup, fun p hp ↦ ?_⟩
    rw [hstep.pointer_eq (by simp [hdef])]
    exact hnone p hp
  | some t =>
    rw [hdef, List.nodup_cons] at hnodup
    rw [hdef] at hnone
    refine ⟨hnodup.2, fun p hp ↦ ?_⟩
    have hne : t ≠ p := fun heq ↦ hnodup.1 (heq ▸ hp)
    rw [hstep.pointer_eq (by simp [hdef, hne])]
    exact hnone p (List.mem_cons_of_mem t hp)

/-- A name that has a value keeps it. -/
theorem PointerConfig.Unbound.pointer_eq_of_run (h : c.Unbound es)
    (hrun : PointerEffects.Run sem ok es c c') (hv : c.pointer p = some v) :
    c'.pointer p = some v := by
  induction es generalizing c with
  | nil =>
    obtain rfl := hrun
    exact hv
  | cons e es ih =>
    obtain ⟨m, ⟨-, hstep⟩, hrun⟩ := hrun
    refine ih (h.step hstep) hrun ?_
    rw [hstep.pointer_eq ?_, hv]
    intro hdef
    have hnone := h.2 p (by simp [hdef])
    rw [hnone] at hv
    cases hv

end Names

end MayMust
