import MayMust.Formula.Semantics
import MayMust.Library.Path

/-!
# Transfer effects and what they do

The atomic effects of a basic block or an edge, and their concrete meaning as a step relation
on states. The step relation is written from what the documentation of each effect says the
program does, not from the transformers that are later compared with it:

* an unresolved `load` and a `ptrToInt` may give their target any value;
* an unresolved `store` writes its value to some cell of some region, or to none;
* a call runs its callee (`Semantics.callee`); whatever the callee is, a call that preserves
  memory leaves the state unchanged and a call that havocs memory leaves the scalars unchanged;
* `havocRegions` may change the listed regions and nothing else;
* an assignment of a value of the wrong sort has no execution;
* the pointer bookkeeping effects do nothing.
-/

namespace MayMust

open Library

/-- How a call affects the symbolic memory regions. -/
inductive CallMemoryEffect
  | preservesMemory
  | havocMemory
  deriving DecidableEq, Repr

/-- The right-hand side of an assignment. -/
inductive AssignValue
  | term (value : Term)
  | predicate (value : Formula)
  deriving DecidableEq

/-- A single effect inside a transfer function. -/
inductive TransferEffect
  | assign (target : Var) (value : AssignValue)
  | alloca (target region : String)
  | getElementPtr (target base : String) (offset : Term)
  | load (target : Var) (source : String)
  | store (target : String) (value : Term)
  | memoryStore (region : String) (offset value : Term)
  | pointerStore (targetSlot valuePtr : String)
  | pointerLoad (targetPtr sourceSlot : String)
  | pointerAlias (target source : String)
  | structFieldGep (target base : String) (fieldIndex : UInt32)
  | assume (condition : Formula)
  | typeBound (condition : Formula)
  | obligation (condition : Formula)
  | nop
  | ptrToInt (target : Var) (sourcePtr : String)
  | intToPtr (targetPtr sourceName : String)
  | call (callee : String) (memoryEffect : CallMemoryEffect)
  | havocRegions (regions : List String)
  | heapAlloc (resultPtr region : String)
  | indirectCall (calleePtr : String) (memoryEffect : CallMemoryEffect)
  deriving DecidableEq

/-- An ordered sequence of effects. -/
structure TransferFn where
  effects : List TransferEffect
  deriving DecidableEq

/-- The identity transformer. -/
def TransferFn.identity : TransferFn := ⟨[]⟩

/-- What an execution depends on beyond the effects themselves. -/
structure Semantics where
  /-- The state changes a call of each procedure may make. -/
  callee : String → State → State → Prop
  /-- Executions satisfy the type-width facts they meet. -/
  wellTyped : Prop

/-- Calls of unknown procedures; type-width facts are not enforced. -/
def Semantics.unknownCallees : Semantics := ⟨fun _ _ _ ↦ True, False⟩

/-- Calls of unknown procedures, in executions that satisfy the type-width facts they meet. -/
def Semantics.wellTypedUnknownCallees : Semantics := ⟨fun _ _ _ ↦ True, True⟩

/-- The state changes a call with the given memory effect may make. -/
def CallMemoryEffect.Allows (effect : CallMemoryEffect) (s s' : State) : Prop :=
  s'.scalars = s.scalars ∧ (effect = .preservesMemory → s'.memory = s.memory)

/-- One effect takes a state to another. -/
def TransferEffect.Step (sem : Semantics) : TransferEffect → State → State → Prop
  | .assign target (.term value), s, s' =>
    (value.eval s).sort = target.sort ∧ target.sort ≠ .bool ∧ s' = s.set target (value.eval s)
  | .assign target (.predicate value), s, s' =>
    target.sort = .bool ∧ s' = s.set target (.bool (value.eval s))
  | .load target _, s, s' | .ptrToInt target _, s, s' =>
    ∃ x : Value, x.sort = target.sort ∧ s' = s.set target x
  | .store _ value, s, s' =>
    s' = s ∨
      ∃ r i, s' = s.setRegion r (Function.update (s.memory r) i (value.eval s).toInt)
  | .memoryStore region offset value, s, s' =>
    s' = s.setRegion region
      (Function.update (s.memory region) (offset.eval s).toInt (value.eval s).toInt)
  | .assume condition, s, s' | .obligation condition, s, s' => condition.Holds s ∧ s' = s
  | .typeBound condition, s, s' => (sem.wellTyped → condition.Holds s) ∧ s' = s
  | .call callee effect, s, s' => sem.callee callee s s' ∧ effect.Allows s s'
  | .indirectCall _ effect, s, s' => effect.Allows s s'
  | .havocRegions regions, s, s' =>
    s'.scalars = s.scalars ∧ ∀ r, r ∉ regions → s'.memory r = s.memory r
  | .alloca .., s, s' | .getElementPtr .., s, s' | .pointerStore .., s, s'
  | .pointerLoad .., s, s' | .pointerAlias .., s, s' | .structFieldGep .., s, s'
  | .nop, s, s' | .intToPtr .., s, s' | .heapAlloc .., s, s' => s' = s

/-- A list of effects takes a state to another. -/
def Effects.Run (sem : Semantics) : List TransferEffect → State → State → Prop :=
  Path (TransferEffect.Step sem)

/-- A transfer function takes a state to another. -/
def TransferFn.Run (sem : Semantics) (t : TransferFn) : State → State → Prop :=
  Effects.Run sem t.effects

variable {sem sem' : Semantics} {e : TransferEffect} {s s' : State}

theorem State.SameUndefined.of_scalars_eq (h : s'.scalars = s.scalars) : s.SameUndefined s' := by
  simp [State.SameUndefined, h]

/-- No effect changes the interpretation of division by zero. -/
theorem TransferEffect.Step.sameUndefined (h : e.Step sem s s') : s.SameUndefined s' := by
  cases e with
  | assign target value =>
    cases value with
    | term value => obtain ⟨-, -, rfl⟩ := h; simp
    | predicate value => obtain ⟨-, rfl⟩ := h; simp
  | load target source => obtain ⟨x, -, rfl⟩ := h; simp
  | ptrToInt target source => obtain ⟨x, -, rfl⟩ := h; simp
  | store target value => obtain rfl | ⟨r, i, rfl⟩ := h <;> simp [State.SameUndefined.refl]
  | memoryStore region offset value => obtain rfl := h; simp
  | assume condition => obtain ⟨-, rfl⟩ := h; exact .refl _
  | obligation condition => obtain ⟨-, rfl⟩ := h; exact .refl _
  | typeBound condition => obtain ⟨-, rfl⟩ := h; exact .refl _
  | call callee effect => exact .of_scalars_eq h.2.1
  | indirectCall calleePtr effect => exact .of_scalars_eq h.1
  | havocRegions regions => exact .of_scalars_eq h.1
  | _ => obtain rfl := h; exact .refl _

theorem Effects.Run.sameUndefined {es : List TransferEffect} (h : Effects.Run sem es s s') :
    s.SameUndefined s' :=
  Path.rel State.SameUndefined.refl (fun _ _ _ ↦ State.SameUndefined.trans)
    (fun _ _ _ _ ↦ TransferEffect.Step.sameUndefined) h

/-- Fewer constraints on executions allow more steps. -/
theorem TransferEffect.Step.mono (hcallee : ∀ f s s', sem.callee f s s' → sem'.callee f s s')
    (htyped : sem'.wellTyped → sem.wellTyped) (h : e.Step sem s s') : e.Step sem' s s' := by
  cases e with
  | assign target value => cases value <;> exact h
  | typeBound condition => exact ⟨fun ht ↦ h.1 (htyped ht), h.2⟩
  | call callee effect => exact ⟨hcallee _ _ _ h.1, h.2⟩
  | _ => exact h

end MayMust
