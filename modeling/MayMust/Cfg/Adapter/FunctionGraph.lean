import Mathlib.Data.List.Flatten
import Mathlib.Data.List.Infix
import Mathlib.Logic.Function.Basic
import MayMust.Cfg.Adapter.Casts

/-!
# Instruction graphs

`FunctionGraph::new` of the source: the graph whose vertices are the visible instructions of a
function. The intra-block pass links consecutive visible instructions of a block, the inter-block
pass links a block's terminator to the first visible instruction of each successor block. The
successors of a vertex are a set, so two arms of a branch with the same target are one edge.

A function is a list of basic blocks, a block its PHIs, its other instructions and its terminator.
The fields of `LlvmFunction` are rules of LLVM's verifier. An instruction is identified by its
block and its position there, which is what pointer identity gives the source.

The passes read no predecessor sets, call sites or variable tables, so these are left out.
-/

namespace MayMust

namespace Lowering

/-! ### Functions -/

/-- What ends a block, with the blocks it may transfer control to. -/
inductive TerminatorKind
  /-- A branch without condition. What `LLVMGetCondition` returns for it is not specified. -/
  | br (reported : Option LlvmValue) (target : ℕ)
  | condBr (condition : LlvmValue) (ifTrue ifFalse : ℕ)
  /-- The default target and those of the cases. -/
  | switch (targets : List ℕ)
  | indirectBr (targets : List ℕ)
  | invoke (normal unwind : ℕ)
  | ret
  | unreachable
  | other (targets : List ℕ)

namespace TerminatorKind

/-- `is_branch_instruction`. -/
def isBranchInstruction : TerminatorKind → Bool
  | br .. | condBr .. => true
  | _ => false

/-- `get_branch_condition`. -/
def getBranchCondition : TerminatorKind → Option LlvmValue
  | br reported _ => reported
  | condBr condition _ _ => some condition
  | _ => none

/-- `get_successor_blocks`. -/
def getSuccessorBlocks : TerminatorKind → List ℕ
  | br _ target => [target]
  | condBr _ ifTrue ifFalse => [ifTrue, ifFalse]
  | switch targets | indirectBr targets | other targets => targets
  | invoke normal unwind => [normal, unwind]
  | ret | unreachable => []

end TerminatorKind

/-- A terminator. -/
structure Terminator where
  printed : String
  kind : TerminatorKind

/-- A PHI. Its incoming pairs are a block and the value for it. -/
structure PhiInstruction where
  result : LlvmValue
  incomings : List (ℕ × LlvmValue)

/-- An instruction that is neither a PHI nor a terminator. -/
structure BodyInstruction where
  printed : String
  /-- `get_called_function`. -/
  calledFunction : Option String

inductive Instruction
  | phi (instruction : PhiInstruction)
  | body (instruction : BodyInstruction)
  | terminator (instruction : Terminator)

/-- A basic block. LLVM groups the PHIs at its top. -/
structure BasicBlock where
  phis : List PhiInstruction
  body : List BodyInstruction
  terminator : Terminator

/-- `get_all_instructions`. -/
def BasicBlock.getAllInstructions (b : BasicBlock) : List Instruction :=
  b.phis.map .phi ++ (b.body.map .body ++ [.terminator b.terminator])

/-- A function with a body; blocks are named by their positions. -/
structure LlvmFunction where
  name : String
  blocks : List BasicBlock
  successor_lt : ∀ b ∈ blocks, ∀ target ∈ b.terminator.kind.getSuccessorBlocks,
    target < blocks.length
  /-- The entry block has no predecessors. -/
  entry_notMem : ∀ b ∈ blocks, 0 ∉ b.terminator.kind.getSuccessorBlocks
  /-- The incoming blocks of a PHI are the predecessors of its block. -/
  mem_incomings_iff : ∀ (k : ℕ) (b : BasicBlock), blocks[k]? = some b → ∀ phi ∈ b.phis, ∀ source,
    source ∈ phi.incomings.map Prod.fst ↔
      ∃ c : BasicBlock, blocks[source]? = some c ∧ k ∈ c.terminator.kind.getSuccessorBlocks
  /-- Two entries for one incoming block have the same value. -/
  incoming_eq : ∀ b ∈ blocks, ∀ phi ∈ b.phis, ∀ source v w,
    (source, v) ∈ phi.incomings → (source, w) ∈ phi.incomings → v = w
  /-- The incoming values have the PHI's type. -/
  incoming_kind : ∀ b ∈ blocks, ∀ phi ∈ b.phis, ∀ incoming ∈ phi.incomings,
    incoming.2.kind = phi.result.kind
  /-- Floating-point constants, and no others, are values of floating-point types. -/
  constant_kind : ∀ b ∈ blocks, ∀ phi ∈ b.phis, ∀ incoming ∈ phi.incomings,
    (incoming.2.constantInt.isSome → incoming.2.kind ≠ .floating) ∧
      (incoming.2.constantReal.isSome → incoming.2.kind = .floating)

/-- The handle of an instruction. -/
structure InstructionId where
  block : ℕ
  position : ℕ
  deriving DecidableEq

/-- `should_skip_instruction`. -/
def shouldSkipInstruction : Instruction → Bool
  | .body instruction =>
    match instruction.calledFunction with
    | some callee => callee ∈ ["may_assert", "may_assume", "may_type_bound", "reach_error",
        "__assert_fail", "__VERIFIER_error", "printf", "putchar"]
    | none => false
  | _ => false

namespace LlvmFunction

variable (f : LlvmFunction)

/-- The instruction of a handle. -/
def instruction? (x : InstructionId) : Option Instruction :=
  (f.blocks[x.block]?).bind fun b ↦ b.getAllInstructions[x.position]?

/-- The handle is one of an instruction that is not skipped. -/
def isVisible (x : InstructionId) : Bool :=
  match f.instruction? x with
  | some i => !shouldSkipInstruction i
  | none => false

/-- The handles of a block's instructions. -/
def handles (k : ℕ) : List InstructionId :=
  match f.blocks[k]? with
  | some b => (List.range b.getAllInstructions.length).map (⟨k, ·⟩)
  | none => []

/-- `visible_by_block`. -/
def visible (k : ℕ) : List InstructionId := (f.handles k).filter f.isVisible

/-- The pairs of `visible.windows(2)`. -/
def windows (k : ℕ) : List (InstructionId × InstructionId) :=
  (f.visible k).zip (f.visible k).tail

/-- The pairs which the inter-block pass links for a block. -/
def blockEdges (k : ℕ) : List (InstructionId × InstructionId) :=
  match (f.visible k).getLast? with
  | some last =>
    match f.instruction? last with
    | some (.terminator t) =>
      t.kind.getSuccessorBlocks.filterMap fun target ↦
        (f.visible target).head?.map fun first ↦ (last, first)
    | _ => []
  | none => []

/-- The positions of the blocks. -/
def blockIds : List ℕ := List.range f.blocks.length

end LlvmFunction

/-! ### The graph -/

/-- An instruction graph. The order of a successor list stands for that of the source's set,
which is the order of addresses. -/
structure FunctionGraph where
  vertices : List InstructionId
  successors : InstructionId → List InstructionId
  successors_eq_nil : ∀ x, x ∉ vertices → successors x = []

namespace FunctionGraph

/-- The graph without vertices. -/
def empty : FunctionGraph := ⟨[], fun _ ↦ [], fun _ _ ↦ rfl⟩

/-- `add_instruction`. -/
def addInstruction (g : FunctionGraph) (x : InstructionId) : FunctionGraph where
  vertices := if x ∈ g.vertices then g.vertices else g.vertices ++ [x]
  successors := g.successors
  successors_eq_nil y hy := by
    refine g.successors_eq_nil y fun hmem ↦ hy ?_
    split
    · exact hmem
    · exact List.mem_append_left _ hmem

theorem mem_addInstruction {g : FunctionGraph} {x y : InstructionId} :
    y ∈ (g.addInstruction x).vertices ↔ y ∈ g.vertices ∨ y = x := by
  rw [addInstruction]
  split
  · rename_i hx
    constructor
    · exact Or.inl
    · rintro (hy | rfl)
      · exact hy
      · exact hx
  · simp only [List.mem_append, List.mem_singleton]

/-- `add_edge`. -/
def addEdge (g : FunctionGraph) (source target : InstructionId) : FunctionGraph where
  vertices := ((g.addInstruction source).addInstruction target).vertices
  successors := Function.update g.successors source ((g.successors source).insert target)
  successors_eq_nil y hy := by
    have hne : y ≠ source := fun h ↦
      hy (mem_addInstruction.2 (.inl (mem_addInstruction.2 (.inr h))))
    rw [Function.update_of_ne hne]
    exact g.successors_eq_nil y fun hmem ↦
      hy (mem_addInstruction.2 (.inl (mem_addInstruction.2 (.inl hmem))))

/-- `FunctionGraph::new`. -/
def new (f : LlvmFunction) : FunctionGraph :=
  (f.blockIds.flatMap f.windows ++ f.blockIds.flatMap f.blockEdges).foldl
    (fun g edge ↦ g.addEdge edge.1 edge.2)
    ((f.blockIds.flatMap f.visible).foldl addInstruction empty)

theorem mem_foldl_addInstruction {g : FunctionGraph} {xs : List InstructionId}
    {y : InstructionId} :
    y ∈ (xs.foldl addInstruction g).vertices ↔ y ∈ g.vertices ∨ y ∈ xs := by
  induction xs generalizing g with
  | nil => simp
  | cons x xs ih =>
    rw [List.foldl_cons, ih, mem_addInstruction, List.mem_cons, or_assoc]

theorem successors_foldl_addInstruction (g : FunctionGraph) (xs : List InstructionId) :
    (xs.foldl addInstruction g).successors = g.successors := by
  induction xs generalizing g with
  | nil => rfl
  | cons x xs ih => rw [List.foldl_cons, ih, addInstruction]

theorem mem_vertices_addEdge {g : FunctionGraph} {a b x : InstructionId} :
    x ∈ (g.addEdge a b).vertices ↔ x ∈ g.vertices ∨ x = a ∨ x = b := by
  rw [addEdge, mem_addInstruction, mem_addInstruction, or_assoc]

theorem mem_successors_addEdge {g : FunctionGraph} {a b x y : InstructionId} :
    y ∈ (g.addEdge a b).successors x ↔ y ∈ g.successors x ∨ (x, y) = (a, b) := by
  show y ∈ Function.update g.successors a ((g.successors a).insert b) x ↔ _
  rw [Prod.mk.injEq]
  rcases eq_or_ne x a with rfl | hne
  · rw [Function.update_self, List.mem_insert_iff]
    tauto
  · rw [Function.update_of_ne hne]
    simp [hne]

section Edges

variable {g : FunctionGraph} {edges : List (InstructionId × InstructionId)} {x y : InstructionId}

theorem mem_vertices_foldl_addEdge :
    x ∈ (edges.foldl (fun g edge ↦ g.addEdge edge.1 edge.2) g).vertices ↔
      x ∈ g.vertices ∨ ∃ edge ∈ edges, x = edge.1 ∨ x = edge.2 := by
  induction edges generalizing g with
  | nil => simp
  | cons edge edges ih =>
    rw [List.foldl_cons, ih, mem_vertices_addEdge, List.exists_mem_cons_iff, or_assoc]

theorem mem_successors_foldl_addEdge :
    y ∈ (edges.foldl (fun g edge ↦ g.addEdge edge.1 edge.2) g).successors x ↔
      y ∈ g.successors x ∨ (x, y) ∈ edges := by
  induction edges generalizing g with
  | nil => simp
  | cons edge edges ih =>
    rw [List.foldl_cons, ih, mem_successors_addEdge, List.mem_cons, or_assoc]

end Edges

end FunctionGraph

/-! ### Neighbours in an ordered list -/

/-- The pairs of consecutive elements of a strictly ordered list are those between which no third
one lies. -/
theorem mem_zip_tail_iff {xs : List InstructionId} (h : xs.Pairwise (·.position < ·.position))
    {x y : InstructionId} :
    (x, y) ∈ xs.zip xs.tail ↔ x ∈ xs ∧ y ∈ xs ∧ x.position < y.position ∧
      ∀ z ∈ xs, ¬ (x.position < z.position ∧ z.position < y.position) := by
  induction xs with
  | nil => simp
  | cons a xs ih =>
    have hlt := (List.pairwise_cons.1 h).1
    have ih := ih (List.pairwise_cons.1 h).2
    cases xs with
    | nil =>
      simp only [List.tail_cons, List.zip_nil_right, List.not_mem_nil, List.mem_singleton,
        false_iff]
      rintro ⟨rfl, rfl, hxy, -⟩
      exact lt_irrefl _ hxy
    | cons b xs =>
      have hab : a.position < b.position := hlt b List.mem_cons_self
      simp only [List.tail_cons, List.zip_cons_cons, List.mem_cons (a := (x, y)), Prod.mk.injEq]
      rw [List.tail_cons] at ih
      rw [ih]
      constructor
      · rintro (⟨rfl, rfl⟩ | ⟨hx, hy, hxy, hbetween⟩)
        · refine ⟨List.mem_cons_self, by simp, hab, fun z hz hlies ↦ ?_⟩
          rcases List.mem_cons.1 hz with rfl | hz
          · exact lt_irrefl _ hlies.1
          · rcases List.mem_cons.1 hz with rfl | hz
            · exact lt_irrefl _ hlies.2
            · have := (List.pairwise_cons.1 (List.pairwise_cons.1 h).2).1 z hz
              omega
        · refine ⟨List.mem_cons_of_mem _ hx, List.mem_cons_of_mem _ hy, hxy, fun z hz hlies ↦ ?_⟩
          rcases List.mem_cons.1 hz with rfl | hz
          · have := hlt x hx
            omega
          · exact hbetween z hz hlies
      · rintro ⟨hx, hy, hxy, hbetween⟩
        rcases List.mem_cons.1 hx with rfl | hxs
        · left
          refine ⟨rfl, ?_⟩
          rcases List.mem_cons.1 hy with rfl | hy
          · exact absurd hxy (lt_irrefl _)
          · rcases List.mem_cons.1 hy with hy | hy
            · exact hy
            · have := (List.pairwise_cons.1 (List.pairwise_cons.1 h).2).1 y hy
              exact absurd ⟨hab, this⟩ (hbetween b (by simp))
        · right
          refine ⟨hxs, ?_, hxy, fun z hz ↦ hbetween z (List.mem_cons_of_mem _ hz)⟩
          rcases List.mem_cons.1 hy with rfl | hy
          · have := hlt x hxs
            omega
          · exact hy

/-! ### Visible instructions -/

namespace LlvmFunction

variable {f : LlvmFunction} {k : ℕ} {b : BasicBlock} {x y : InstructionId}

theorem instruction?_eq (hb : f.blocks[x.block]? = some b) :
    f.instruction? x = b.getAllInstructions[x.position]? := by
  rw [instruction?, hb, Option.bind_some]

theorem mem_handles : x ∈ f.handles k ↔ x.block = k ∧ (f.instruction? x).isSome := by
  rw [handles]
  obtain ⟨block, position⟩ := x
  split
  · rename_i b hb
    simp only [List.mem_map, List.mem_range, InstructionId.mk.injEq]
    constructor
    · rintro ⟨i, hi, rfl, rfl⟩
      refine ⟨rfl, ?_⟩
      rw [instruction?_eq hb]
      simpa using hi
    · rintro ⟨rfl, hsome⟩
      rw [instruction?_eq hb] at hsome
      exact ⟨position, by simpa using hsome, rfl, rfl⟩
  · rename_i hnone
    simp only [List.not_mem_nil, false_iff, not_and]
    rintro rfl
    simp [instruction?, hnone]

theorem isSome_of_isVisible (h : f.isVisible x) : (f.instruction? x).isSome := by
  rw [isVisible] at h
  split at h
  · rename_i i hi
    rw [hi]
    rfl
  · simp at h

theorem mem_visible : x ∈ f.visible k ↔ x.block = k ∧ f.isVisible x := by
  rw [visible, List.mem_filter, mem_handles]
  constructor
  · exact fun h ↦ ⟨h.1.1, h.2⟩
  · exact fun h ↦ ⟨⟨h.1, isSome_of_isVisible h.2⟩, h.2⟩

theorem visible_sorted (f : LlvmFunction) (k : ℕ) :
    (f.visible k).Pairwise (·.position < ·.position) := by
  refine List.Pairwise.filter _ ?_
  rw [handles]
  split
  · rw [List.pairwise_map]
    exact List.pairwise_lt_range
  · exact List.Pairwise.nil

theorem mem_windows : (x, y) ∈ f.windows k ↔ x ∈ f.visible k ∧ y ∈ f.visible k ∧
    x.position < y.position ∧
      ∀ z ∈ f.visible k, ¬ (x.position < z.position ∧ z.position < y.position) :=
  mem_zip_tail_iff (f.visible_sorted k)

theorem isVisible_of_instruction? {i : Instruction} (h : f.instruction? x = some i)
    (hi : shouldSkipInstruction i = false) : f.isVisible x := by
  rw [isVisible, h]
  simp [hi]

/-- Only the last instruction of a block is a terminator. -/
theorem getAllInstructions_eq_terminator {i : ℕ} {t : Terminator} :
    b.getAllInstructions[i]? = some (.terminator t) ↔
      i + 1 = b.getAllInstructions.length ∧ t = b.terminator := by
  have hlen : b.getAllInstructions.length = b.phis.length + (b.body.length + 1) := by
    simp [BasicBlock.getAllInstructions]
  rw [hlen, BasicBlock.getAllInstructions]
  rcases lt_or_ge i b.phis.length with hi | hi
  · rw [List.getElem?_append_left (by simpa using hi), List.getElem?_map,
      List.getElem?_eq_getElem hi]
    simp only [Option.map_some, Option.some.injEq, reduceCtorEq, false_iff]
    omega
  · rw [List.getElem?_append_right (by simpa using hi), List.length_map]
    rcases lt_trichotomy (i - b.phis.length) b.body.length with hbody | hlast | hpast
    · rw [List.getElem?_append_left (by simpa using hbody), List.getElem?_map,
        List.getElem?_eq_getElem hbody]
      simp only [Option.map_some, Option.some.injEq, reduceCtorEq, false_iff]
      omega
    · rw [List.getElem?_append_right (by simp [hlast]), List.length_map, hlast, Nat.sub_self]
      simp only [List.getElem?_cons_zero, Option.some.injEq, Instruction.terminator.injEq]
      constructor
      · intro h
        exact ⟨by omega, h.symm⟩
      · intro h
        exact h.2.symm
    · rw [List.getElem?_eq_none (by simp; omega)]
      simp only [reduceCtorEq, false_iff]
      omega

/-- The PHIs stand at the top of their block. -/
theorem getAllInstructions_eq_phi {i : ℕ} {phi : PhiInstruction} :
    b.getAllInstructions[i]? = some (.phi phi) ↔ b.phis[i]? = some phi := by
  rw [BasicBlock.getAllInstructions]
  rcases lt_or_ge i b.phis.length with hi | hi
  · rw [List.getElem?_append_left (by simpa using hi), List.getElem?_map,
      List.getElem?_eq_getElem hi]
    simp
  · rw [List.getElem?_append_right (by simpa using hi), List.getElem?_eq_none hi]
    simp only [reduceCtorEq, iff_false]
    intro h
    have hmem := List.mem_of_getElem? h
    simp at hmem

/-- The handle of a block's terminator. -/
theorem instruction?_eq_terminator {t : Terminator}
    (ht : f.instruction? x = some (.terminator t)) :
    ∃ b, f.blocks[x.block]? = some b ∧ x.position + 1 = b.getAllInstructions.length ∧
      t = b.terminator := by
  obtain ⟨b, hb, hat⟩ := Option.bind_eq_some_iff.1 ht
  exact ⟨b, hb, getAllInstructions_eq_terminator.1 hat⟩

/-- Handles of the terminator of one block are equal. -/
theorem eq_of_terminator {t t' : Terminator} (hx : f.instruction? x = some (.terminator t))
    (hy : f.instruction? y = some (.terminator t')) (h : x.block = y.block) : x = y := by
  obtain ⟨b, hb, hpos, -⟩ := instruction?_eq_terminator hx
  obtain ⟨c, hc, hpos', -⟩ := instruction?_eq_terminator hy
  rw [h, hc, Option.some.injEq] at hb
  subst hb
  cases x
  cases y
  simp only [InstructionId.mk.injEq]
  exact ⟨h, by simp only at hpos hpos'; omega⟩

/-- No instruction of the block stands behind its terminator. -/
theorem position_le_of_terminator {t : Terminator}
    (ht : f.instruction? x = some (.terminator t)) (hy : f.isVisible y)
    (h : y.block = x.block) : y.position ≤ x.position := by
  obtain ⟨b, hb, hpos, -⟩ := instruction?_eq_terminator ht
  have hsome := isSome_of_isVisible hy
  rw [instruction?_eq (h ▸ hb)] at hsome
  have hlt : y.position < b.getAllInstructions.length := by simpa using hsome
  omega

/-- The last visible instruction of a block is its terminator. -/
theorem getLast?_visible (hb : f.blocks[k]? = some b) : ∃ x,
    (f.visible k).getLast? = some x ∧ x.block = k ∧
      f.instruction? x = some (.terminator b.terminator) := by
  have hlen : b.getAllInstructions.length - 1 + 1 = b.getAllInstructions.length := by
    simp [BasicBlock.getAllInstructions, Nat.add_assoc]
  let x : InstructionId := ⟨k, b.getAllInstructions.length - 1⟩
  have hx : f.instruction? x = some (.terminator b.terminator) := by
    rw [instruction?_eq hb]
    exact getAllInstructions_eq_terminator.2 ⟨hlen, rfl⟩
  have hmem : x ∈ f.visible k := mem_visible.2 ⟨rfl, isVisible_of_instruction? hx rfl⟩
  obtain ⟨init, last, hsplit⟩ := List.eq_nil_or_concat' (f.visible k) |>.resolve_left
    (List.ne_nil_of_mem hmem)
  have hlast : last ∈ f.visible k := by rw [hsplit]; simp
  have hle := position_le_of_terminator hx (mem_visible.1 hlast).2 (mem_visible.1 hlast).1
  refine ⟨x, ?_, rfl, hx⟩
  rw [hsplit, List.getLast?_concat]
  rw [hsplit, List.mem_append, List.mem_singleton] at hmem
  rcases hmem with hinit | rfl
  · have hsorted := f.visible_sorted k
    rw [hsplit, List.pairwise_append] at hsorted
    have := hsorted.2.2 x hinit last List.mem_cons_self
    omega
  · rfl

/-- Every block has a first visible instruction. -/
theorem head?_visible (hk : k < f.blocks.length) :
    ∃ x, (f.visible k).head? = some x ∧ x.block = k := by
  obtain ⟨x, hx, -, -⟩ := getLast?_visible (List.getElem?_eq_getElem hk)
  have hne : f.visible k ≠ [] := by
    intro h
    simp [h] at hx
  refine ⟨(f.visible k).head hne, List.head?_eq_some_head hne, ?_⟩
  exact (mem_visible.1 (List.head_mem hne)).1

/-- What the inter-block pass links. -/
theorem mem_blockEdges : (x, y) ∈ f.blockIds.flatMap f.blockEdges ↔
    ∃ t target, f.instruction? x = some (.terminator t) ∧
      target ∈ t.kind.getSuccessorBlocks ∧ (f.visible target).head? = some y := by
  rw [List.mem_flatMap]
  constructor
  · rintro ⟨k, hk, hmem⟩
    obtain ⟨last, hlast, -, hterm⟩ :=
      getLast?_visible (List.getElem?_eq_getElem (List.mem_range.1 hk))
    rw [blockEdges, hlast] at hmem
    simp only [hterm, List.mem_filterMap, Option.map_eq_some_iff, Prod.mk.injEq] at hmem
    obtain ⟨target, htarget, first, hfirst, rfl, rfl⟩ := hmem
    exact ⟨_, target, hterm, htarget, hfirst⟩
  · rintro ⟨t, target, ht, htarget, hy⟩
    obtain ⟨b, hb, -, rfl⟩ := instruction?_eq_terminator ht
    obtain ⟨last, hlast, hblock, hterm⟩ := getLast?_visible hb
    obtain rfl := eq_of_terminator hterm ht hblock
    refine ⟨last.block, List.mem_range.2 (List.getElem?_eq_some_iff.1 hb).1, ?_⟩
    rw [blockEdges, hlast]
    simp only [ht, List.mem_filterMap, Option.map_eq_some_iff, Prod.mk.injEq]
    exact ⟨target, htarget, y, hy, trivial, rfl⟩

/-- A terminator is linked by no other pass. -/
theorem notMem_windows_of_terminator {t : Terminator}
    (ht : f.instruction? x = some (.terminator t)) : (x, y) ∉ f.windows k := by
  intro h
  obtain ⟨hx, hy, hlt, -⟩ := mem_windows.1 h
  have hle := position_le_of_terminator ht (mem_visible.1 hy).2
    ((mem_visible.1 hy).1.trans (mem_visible.1 hx).1.symm)
  omega

end LlvmFunction

namespace FunctionGraph

variable {f : LlvmFunction} {x y : InstructionId}

theorem mem_successors_new : y ∈ (new f).successors x ↔
    (x, y) ∈ f.blockIds.flatMap f.windows ∨ (x, y) ∈ f.blockIds.flatMap f.blockEdges := by
  rw [new, mem_successors_foldl_addEdge, successors_foldl_addInstruction, List.mem_append]
  simp [empty]

/-- The successors of a terminator are the first instructions of the blocks it may transfer
control to. -/
theorem mem_successors_of_terminator {t : Terminator}
    (ht : f.instruction? x = some (.terminator t)) : y ∈ (new f).successors x ↔
      ∃ target ∈ t.kind.getSuccessorBlocks, (f.visible target).head? = some y := by
  rw [mem_successors_new, LlvmFunction.mem_blockEdges, ht]
  have hwindows : (x, y) ∉ f.blockIds.flatMap f.windows := by
    rw [List.mem_flatMap]
    rintro ⟨k, -, h⟩
    exact LlvmFunction.notMem_windows_of_terminator ht h
  simp [hwindows]

/-- Any other instruction has the next visible one as its only successor. -/
theorem mem_successors_of_not_terminator
    (hx : ∀ t, f.instruction? x ≠ some (.terminator t)) :
    y ∈ (new f).successors x ↔ (x, y) ∈ f.windows x.block := by
  rw [mem_successors_new, LlvmFunction.mem_blockEdges]
  constructor
  · rintro (h | ⟨t, -, ht, -⟩)
    · obtain ⟨k, -, hk⟩ := List.mem_flatMap.1 h
      rwa [(LlvmFunction.mem_visible.1 (LlvmFunction.mem_windows.1 hk).1).1]
    · exact absurd ht (hx t)
  · intro h
    refine Or.inl (List.mem_flatMap.2 ⟨x.block, ?_, h⟩)
    have hmem := (LlvmFunction.mem_windows.1 h).1
    have hsome := LlvmFunction.isSome_of_isVisible (LlvmFunction.mem_visible.1 hmem).2
    obtain ⟨i, hi⟩ := Option.isSome_iff_exists.1 hsome
    obtain ⟨b, hb, -⟩ := Option.bind_eq_some_iff.1 hi
    exact List.mem_range.2 (List.getElem?_eq_some_iff.1 hb).1

/-- The vertices are the visible instructions. -/
theorem mem_vertices_new : x ∈ (new f).vertices ↔ f.isVisible x := by
  have hvisible : x ∈ f.blockIds.flatMap f.visible ↔ f.isVisible x := by
    rw [List.mem_flatMap]
    constructor
    · rintro ⟨k, -, h⟩
      exact (LlvmFunction.mem_visible.1 h).2
    · intro h
      obtain ⟨i, hi⟩ := Option.isSome_iff_exists.1 (LlvmFunction.isSome_of_isVisible h)
      obtain ⟨b, hb, -⟩ := Option.bind_eq_some_iff.1 hi
      exact ⟨x.block, List.mem_range.2 (List.getElem?_eq_some_iff.1 hb).1,
        LlvmFunction.mem_visible.2 ⟨rfl, h⟩⟩
  rw [new, mem_vertices_foldl_addEdge, mem_foldl_addInstruction, hvisible]
  constructor
  · rintro ((h | h) | ⟨⟨a, c⟩, hedge, hx⟩)
    · simp [empty] at h
    · exact h
    · rcases List.mem_append.1 hedge with hwin | hblock
      · obtain ⟨k, -, hk⟩ := List.mem_flatMap.1 hwin
        obtain ⟨ha, hc, -⟩ := LlvmFunction.mem_windows.1 hk
        rcases hx with rfl | rfl
        · exact (LlvmFunction.mem_visible.1 ha).2
        · exact (LlvmFunction.mem_visible.1 hc).2
      · obtain ⟨t, target, ht, -, hhead⟩ := LlvmFunction.mem_blockEdges.1 hblock
        rcases hx with rfl | rfl
        · exact LlvmFunction.isVisible_of_instruction? ht rfl
        · exact (LlvmFunction.mem_visible.1 (List.mem_of_mem_head? hhead)).2
  · exact fun h ↦ .inl (.inr h)

end FunctionGraph

/-! ### The handles of PHIs -/

namespace LlvmFunction

variable {f : LlvmFunction} {k i : ℕ} {b : BasicBlock} {phi : PhiInstruction} {x y : InstructionId}

theorem instruction?_phi (hb : f.blocks[k]? = some b) (hphi : b.phis[i]? = some phi) :
    f.instruction? ⟨k, i⟩ = some (.phi phi) := by
  rw [instruction?_eq hb]
  exact getAllInstructions_eq_phi.2 hphi

/-- The handle of a PHI. -/
theorem instruction?_eq_phi (h : f.instruction? x = some (.phi phi)) :
    ∃ b, f.blocks[x.block]? = some b ∧ b.phis[x.position]? = some phi := by
  obtain ⟨b, hb, hat⟩ := Option.bind_eq_some_iff.1 h
  exact ⟨b, hb, getAllInstructions_eq_phi.1 hat⟩

theorem phi_mem_visible (hb : f.blocks[k]? = some b) (hphi : b.phis[i]? = some phi) :
    ⟨k, i⟩ ∈ f.visible k :=
  mem_visible.2 ⟨rfl, isVisible_of_instruction? (instruction?_phi hb hphi) rfl⟩

/-- The first instruction of a block that has PHIs is the first PHI. -/
theorem head?_visible_of_phi (hb : f.blocks[k]? = some b) (hphi : b.phis[0]? = some phi) :
    (f.visible k).head? = some ⟨k, 0⟩ := by
  have hmem := phi_mem_visible hb hphi
  obtain ⟨first, rest, hsplit⟩ := List.exists_cons_of_ne_nil (List.ne_nil_of_mem hmem)
  rw [hsplit, List.head?_cons, Option.some.injEq]
  rw [hsplit] at hmem
  rcases List.mem_cons.1 hmem with heq | hrest
  · exact heq.symm
  · have hsorted := f.visible_sorted k
    rw [hsplit] at hsorted
    exact absurd ((List.pairwise_cons.1 hsorted).1 _ hrest) (Nat.not_lt_zero _)

/-- Control enters the first PHI of a block from the terminators of the block's predecessors. -/
theorem exists_terminator_of_phi (h : ⟨k, 0⟩ ∈ (FunctionGraph.new f).successors x) :
    ∃ t, f.instruction? x = some (.terminator t) ∧ k ∈ t.kind.getSuccessorBlocks := by
  rcases FunctionGraph.mem_successors_new.1 h with hwin | hblock
  · obtain ⟨l, -, hl⟩ := List.mem_flatMap.1 hwin
    exact absurd (mem_windows.1 hl).2.2.1 (Nat.not_lt_zero _)
  · obtain ⟨t, target, ht, htarget, hhead⟩ := mem_blockEdges.1 hblock
    have hk : k = target := (mem_visible.1 (List.mem_of_mem_head? hhead)).1
    exact ⟨t, ht, hk ▸ htarget⟩

/-- Control enters any other PHI of a block from the PHI before it. -/
theorem mem_successors_phi_succ (hb : f.blocks[k]? = some b) (hphi : b.phis[i + 1]? = some phi) :
    ⟨k, i + 1⟩ ∈ (FunctionGraph.new f).successors x ↔ x = ⟨k, i⟩ := by
  obtain ⟨first, hfirst⟩ : ∃ first, b.phis[0]? = some first := by
    rw [← Option.isSome_iff_exists]
    have := (List.getElem?_eq_some_iff.1 hphi).1
    simp
    omega
  obtain ⟨before, hbefore⟩ : ∃ before, b.phis[i]? = some before := by
    rw [← Option.isSome_iff_exists]
    have := (List.getElem?_eq_some_iff.1 hphi).1
    simp
    omega
  constructor
  · intro h
    rcases FunctionGraph.mem_successors_new.1 h with hwin | hblock
    · obtain ⟨l, -, hl⟩ := List.mem_flatMap.1 hwin
      obtain ⟨hx, hy, hlt, hbetween⟩ := mem_windows.1 hl
      obtain rfl : k = l := (mem_visible.1 hy).1
      have hnot := hbetween _ (phi_mem_visible hb hbefore)
      cases x
      obtain rfl := (mem_visible.1 hx).1
      simp only [InstructionId.mk.injEq, true_and] at hlt hnot ⊢
      omega
    · obtain ⟨t, target, -, -, hhead⟩ := mem_blockEdges.1 hblock
      obtain rfl : k = target := (mem_visible.1 (List.mem_of_mem_head? hhead)).1
      rw [head?_visible_of_phi hb hfirst] at hhead
      simp at hhead
  · rintro rfl
    have hx := instruction?_phi hb hbefore
    refine (FunctionGraph.mem_successors_of_not_terminator fun t ht ↦ ?_).2 (mem_windows.2
      ⟨phi_mem_visible hb hbefore, phi_mem_visible hb hphi, Nat.lt_succ_self i, ?_⟩)
    · rw [hx] at ht
      cases ht
    · intro z _ hlies
      simp only at hlies
      omega

end LlvmFunction

end Lowering

end MayMust
