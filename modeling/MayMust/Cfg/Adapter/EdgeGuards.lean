import MayMust.Cfg.Adapter.FunctionGraph
import MayMust.Library.Fallible

/-!
# Guards of the lowered edges

`lower_edge_guard` of the source gives the edge to a branch's first target the condition, the edge
to its second target the negation, and every other edge `True`. The successors of a branch are a
set, and a branch whose targets coincide has one edge, whose guard is the condition alone: where
the condition is false no edge is enabled (`guardsCover_iff`).
-/

namespace MayMust

namespace Lowering

open Library

/-- `lower_edge_guard`. -/
def lowerEdgeGuard (f : LlvmFunction) (source target : InstructionId) :
    Except AdapterError Formula :=
  match f.instruction? source with
  | some (.terminator t) =>
    if t.kind.isBranchInstruction then
      match t.kind.getBranchCondition, t.kind.getSuccessorBlocks with
      | none, _ => .ok .tru
      | some _, [_] => .ok .tru
      | some condition, [ifTrue, ifFalse] =>
        match lowerBoolValue f.name condition with
        | .error e => .error e
        | .ok predicate =>
          if ifTrue = target.block then .ok predicate
          else if ifFalse = target.block then .ok (.not predicate)
          else .error (.unsupportedInstruction t.printed)
      | some _, _ => .error (.unsupportedInstruction t.printed)
    else
      match t.kind with
      | .invoke .. => .error (.unsupportedInstruction t.printed)
      | _ => .ok .tru
  | _ => .ok .tru

/-- An edge of the lowered graph. -/
structure LoweredEdge where
  source : InstructionId
  target : InstructionId
  guard : Formula
  effects : List TransferEffect

/-- The edges of an instruction graph. -/
def FunctionGraph.edges (g : FunctionGraph) : List (InstructionId × InstructionId) :=
  g.vertices.flatMap fun x ↦ (g.successors x).map fun y ↦ (x, y)

/-- The edges which the adapter adds, with their guards. -/
def lowerEdges (f : LlvmFunction) : Except AdapterError (List LoweredEdge) :=
  (FunctionGraph.new f).edges.mapM fun edge ↦ do
    let guard ← lowerEdgeGuard f edge.1 edge.2
    return ⟨edge.1, edge.2, guard, []⟩

/-! ### Where control goes -/

/-- The condition is true in the state: a constant by itself, a variable by its value. -/
def ConditionTrue (function : String) (condition : LlvmValue) (s : State) : Prop :=
  match condition.constantInt with
  | some constant => constant ≠ 0
  | none => (s.lookup (.bool (localName function condition))).isTrue

/-- The terminator may transfer control to the block. Which case a switch takes, and which
destination an indirect branch, is left open. -/
def TerminatorKind.Takes (function : String) (s : State) : TerminatorKind → ℕ → Prop
  | .br _ target, k => k = target
  | .condBr condition ifTrue ifFalse, k =>
    ConditionTrue function condition s ∧ k = ifTrue ∨
      ¬ ConditionTrue function condition s ∧ k = ifFalse
  | .switch targets, k | .indirectBr targets, k | .other targets, k => k ∈ targets
  | .invoke normal unwind, k => k = normal ∨ k = unwind
  | .ret, _ | .unreachable, _ => False

/-- Execution may go from one visible instruction to another. -/
inductive Moves (f : LlvmFunction) (s : State) : InstructionId → InstructionId → Prop
  | next {x y : InstructionId} (h : (x, y) ∈ f.windows x.block) : Moves f s x y
  | jump {x y : InstructionId} {t : Terminator} {k : ℕ}
      (ht : f.instruction? x = some (.terminator t)) (hk : t.kind.Takes f.name s k)
      (hy : (f.visible k).head? = some y) : Moves f s x y

/-- In every state the guards of the edges that leave an instruction let execution go on where
the instruction may go, and no two edges of a conditional branch are enabled. -/
structure GuardsCover (f : LlvmFunction) (edges : List LoweredEdge) (x : InstructionId) : Prop where
  covers : ∀ s y, Moves f s x y → ∃ e ∈ edges, e.source = x ∧ e.target = y ∧ e.guard.Holds s
  exclusive : ∀ t condition ifTrue ifFalse, f.instruction? x = some (.terminator t) →
    t.kind = .condBr condition ifTrue ifFalse → ∀ e ∈ edges, ∀ e' ∈ edges,
      e.source = x → e'.source = x → e.target ≠ e'.target →
        ∀ s, ¬ (e.guard.Holds s ∧ e'.guard.Holds s)

/-- The instruction is a conditional branch with one target whose condition is not a constant that
is always true. -/
def DegenerateBranch (f : LlvmFunction) (x : InstructionId) : Prop :=
  ∃ t condition target, f.instruction? x = some (.terminator t) ∧
    t.kind = .condBr condition target target ∧
      ∀ constant, condition.constantInt = some constant → constant = 0

/-! ### The guards of an instruction's edges -/

theorem holds_of_lowerBoolValue {function : String} {condition : LlvmValue} {predicate : Formula}
    (h : lowerBoolValue function condition = .ok predicate) (s : State) :
    predicate.Holds s ↔ ConditionTrue function condition s := by
  rw [lowerBoolValue] at h
  rw [ConditionTrue]
  cases hconstant : condition.constantInt with
  | some constant =>
    simp only [hconstant] at h ⊢
    rw [← Except.ok.inj h]
    by_cases hzero : constant = 0 <;> simp [hzero]
  | none =>
    simp only [hconstant] at h ⊢
    split at h
    · cases h
    · rw [← Except.ok.inj h]
      exact Formula.holds_var s _
    · cases h

section Guards

variable {f : LlvmFunction} {edges : List LoweredEdge} {x y : InstructionId} {e : LoweredEdge}

theorem mem_edges : (x, y) ∈ (FunctionGraph.new f).edges ↔
    y ∈ (FunctionGraph.new f).successors x := by
  simp only [FunctionGraph.edges, List.mem_flatMap, List.mem_map, Prod.mk.injEq]
  constructor
  · rintro ⟨x, -, y, hy, rfl, rfl⟩
    exact hy
  · intro hy
    refine ⟨x, ?_, y, hy, rfl, rfl⟩
    by_contra hx
    simp [(FunctionGraph.new f).successors_eq_nil x hx] at hy

/-- Every lowered edge is an edge of the graph with the guard for it. -/
theorem of_mem_lowerEdges (h : lowerEdges f = .ok edges) (he : e ∈ edges) :
    e.target ∈ (FunctionGraph.new f).successors e.source ∧
      lowerEdgeGuard f e.source e.target = .ok e.guard ∧ e.effects = [] := by
  obtain ⟨edge, hmem, hedge⟩ := (mem_iff_of_mapM_eq_ok h).1 he
  obtain ⟨guard, hguard, hpure⟩ := bind_eq_ok.1 hedge
  obtain rfl := pure_eq_ok.1 hpure
  exact ⟨mem_edges.1 hmem, hguard, rfl⟩

/-- Every edge of the graph is lowered. -/
theorem exists_mem_lowerEdges (h : lowerEdges f = .ok edges)
    (hy : y ∈ (FunctionGraph.new f).successors x) :
    ∃ guard, lowerEdgeGuard f x y = .ok guard ∧ ⟨x, y, guard, []⟩ ∈ edges := by
  obtain ⟨e, he⟩ := exists_of_mapM_eq_ok h (mem_edges.2 hy)
  have hmem := (mem_iff_of_mapM_eq_ok h).2 ⟨(x, y), mem_edges.2 hy, he⟩
  obtain ⟨guard, hguard, hpure⟩ := bind_eq_ok.1 he
  obtain rfl := pure_eq_ok.1 hpure
  exact ⟨guard, hguard, hmem⟩

/-- The guard of an edge of a conditional branch. -/
theorem holds_guard_of_condBr {t : Terminator} {condition : LlvmValue} {ifTrue ifFalse : ℕ}
    {guard : Formula} (ht : f.instruction? x = some (.terminator t))
    (hkind : t.kind = .condBr condition ifTrue ifFalse)
    (hguard : lowerEdgeGuard f x y = .ok guard) (s : State) :
    (ifTrue = y.block ∨ ifFalse = y.block) ∧
      (guard.Holds s ↔
        if ifTrue = y.block then ConditionTrue f.name condition s
        else ¬ ConditionTrue f.name condition s) := by
  simp only [lowerEdgeGuard, ht, hkind, TerminatorKind.isBranchInstruction,
    TerminatorKind.getBranchCondition, TerminatorKind.getSuccessorBlocks, ↓reduceIte] at hguard
  split at hguard
  · cases hguard
  · rename_i predicate hpredicate
    have hholds := holds_of_lowerBoolValue hpredicate s
    by_cases htrue : ifTrue = y.block
    · rw [if_pos htrue] at hguard ⊢
      rw [← Except.ok.inj hguard]
      exact ⟨.inl htrue, hholds⟩
    · rw [if_neg htrue] at hguard ⊢
      by_cases hfalse : ifFalse = y.block
      · rw [if_pos hfalse] at hguard
        rw [← Except.ok.inj hguard, Formula.holds_not, hholds]
        exact ⟨.inr hfalse, Iff.rfl⟩
      · rw [if_neg hfalse] at hguard
        cases hguard

/-- The guard of any other edge is `True`. -/
theorem guard_eq_tru {guard : Formula}
    (hx : ∀ t condition ifTrue ifFalse, f.instruction? x = some (.terminator t) →
      t.kind ≠ .condBr condition ifTrue ifFalse)
    (hguard : lowerEdgeGuard f x y = .ok guard) : guard = .tru := by
  rw [lowerEdgeGuard] at hguard
  split at hguard
  · rename_i t ht
    rcases t with ⟨printed, kind⟩
    cases kind with
    | br reported target => cases reported <;> exact (Except.ok.inj hguard).symm
    | condBr condition ifTrue ifFalse => exact absurd rfl (hx _ _ _ _ ht)
    | invoke normal unwind => cases hguard
    | _ => exact (Except.ok.inj hguard).symm
  · exact (Except.ok.inj hguard).symm

/-- Where a terminator goes is one of its successor blocks. -/
theorem TerminatorKind.Takes.mem {function : String} {s : State} {kind : TerminatorKind} {k : ℕ}
    (h : kind.Takes function s k) : k ∈ kind.getSuccessorBlocks := by
  cases kind with
  | br reported target => exact List.mem_singleton.2 h
  | condBr condition ifTrue ifFalse =>
    rcases h with ⟨-, rfl⟩ | ⟨-, rfl⟩
    · exact List.mem_cons_self
    · exact List.mem_cons_of_mem _ List.mem_cons_self
  | switch targets => exact h
  | indirectBr targets => exact h
  | other targets => exact h
  | invoke normal unwind =>
    rcases h with rfl | rfl
    · exact List.mem_cons_self
    · exact List.mem_cons_of_mem _ List.mem_cons_self
  | ret => exact h.elim
  | unreachable => exact h.elim

/-- Where execution goes is an edge of the graph. -/
theorem Moves.mem_successors {s : State} (h : Moves f s x y) :
    y ∈ (FunctionGraph.new f).successors x := by
  cases h with
  | next h =>
    have hx : ∀ t, f.instruction? x ≠ some (.terminator t) := fun t ht ↦
      LlvmFunction.notMem_windows_of_terminator ht h
    exact (FunctionGraph.mem_successors_of_not_terminator hx).2 h
  | jump ht hk hy => exact (FunctionGraph.mem_successors_of_terminator ht).2 ⟨_, hk.mem, hy⟩

/-- The block of a branch's successor is one of its targets. -/
theorem block_of_mem_successors {t : Terminator}
    (ht : f.instruction? x = some (.terminator t))
    (hy : y ∈ (FunctionGraph.new f).successors x) : y.block ∈ t.kind.getSuccessorBlocks := by
  obtain ⟨target, htarget, hhead⟩ := (FunctionGraph.mem_successors_of_terminator ht).1 hy
  rwa [(LlvmFunction.mem_visible.1 (List.mem_of_mem_head? hhead)).1]

/-- Edges to one block are the same edge. -/
theorem eq_of_mem_successors {t : Terminator} {y' : InstructionId}
    (ht : f.instruction? x = some (.terminator t))
    (hy : y ∈ (FunctionGraph.new f).successors x)
    (hy' : y' ∈ (FunctionGraph.new f).successors x) (h : y.block = y'.block) : y = y' := by
  obtain ⟨target, -, hhead⟩ := (FunctionGraph.mem_successors_of_terminator ht).1 hy
  obtain ⟨target', -, hhead'⟩ := (FunctionGraph.mem_successors_of_terminator ht).1 hy'
  have hblock := (LlvmFunction.mem_visible.1 (List.mem_of_mem_head? hhead)).1
  have hblock' := (LlvmFunction.mem_visible.1 (List.mem_of_mem_head? hhead')).1
  rw [← hblock, h, hblock', hhead', Option.some.injEq] at hhead
  exact hhead.symm

/-- Two edges of a conditional branch are never both enabled. -/
theorem exclusive_of_lowerEdges (h : lowerEdges f = .ok edges) {t : Terminator}
    {condition : LlvmValue} {ifTrue ifFalse : ℕ} (ht : f.instruction? x = some (.terminator t))
    (hkind : t.kind = .condBr condition ifTrue ifFalse) {e' : LoweredEdge} (he : e ∈ edges)
    (he' : e' ∈ edges) (hsource : e.source = x) (hsource' : e'.source = x)
    (hne : e.target ≠ e'.target) (s : State) : ¬ (e.guard.Holds s ∧ e'.guard.Holds s) := by
  obtain ⟨hmem, hguard, -⟩ := of_mem_lowerEdges h he
  obtain ⟨hmem', hguard', -⟩ := of_mem_lowerEdges h he'
  rw [hsource] at hmem hguard
  rw [hsource'] at hmem' hguard'
  obtain ⟨hblock, hholds⟩ := holds_guard_of_condBr ht hkind hguard s
  obtain ⟨hblock', hholds'⟩ := holds_guard_of_condBr ht hkind hguard' s
  have hblocks : e.target.block ≠ e'.target.block := fun heq ↦
    hne (eq_of_mem_successors ht hmem hmem' heq)
  rw [hholds, hholds']
  rcases hblock with htrue | hfalse
  · rw [if_pos htrue, if_neg fun heq ↦ hblocks (htrue.symm.trans heq)]
    exact fun hboth ↦ hboth.2 hboth.1
  · rcases hblock' with htrue' | hfalse'
    · rw [if_pos htrue', if_neg fun heq ↦ hblocks (heq.symm.trans htrue')]
      exact fun hboth ↦ hboth.1 hboth.2
    · exact absurd (hfalse.symm.trans hfalse') hblocks

/-- A state in which a condition that is not always true is false. -/
theorem exists_condition_false {function : String} {condition : LlvmValue}
    (h : ∀ constant, condition.constantInt = some constant → constant = 0) :
    ∃ s, ¬ ConditionTrue function condition s := by
  refine ⟨.zero, ?_⟩
  rw [ConditionTrue]
  split
  · rename_i constant hconstant
    exact fun hne ↦ hne (h constant hconstant)
  · simp [State.zero, State.lookup, Var.bool]

/-- In a state where the condition of a degenerate branch is false, no edge is enabled. -/
theorem DegenerateBranch.not_guardsCover (h : lowerEdges f = .ok edges)
    (hx : DegenerateBranch f x) : ¬ GuardsCover f edges x := by
  obtain ⟨t, condition, target, ht, hkind, hconstant⟩ := hx
  intro hcover
  have hfalse : ∃ s, ¬ ConditionTrue f.name condition s := exists_condition_false hconstant
  obtain ⟨s, hs⟩ := hfalse
  obtain ⟨b, hb, -, hterm⟩ := LlvmFunction.instruction?_eq_terminator ht
  have hlt : target < f.blocks.length := by
    refine f.successor_lt b (List.mem_of_getElem? hb) target ?_
    rw [← hterm, hkind]
    exact List.mem_cons_self
  obtain ⟨y, hy, -⟩ := LlvmFunction.head?_visible hlt
  have hmove : Moves f s x y := .jump ht (by rw [hkind]; exact .inr ⟨hs, rfl⟩) hy
  obtain ⟨e, he, hsource, htarget, hholds⟩ := hcover.covers s y hmove
  obtain ⟨-, hguard, -⟩ := of_mem_lowerEdges h he
  rw [hsource] at hguard
  obtain ⟨hblock, hiff⟩ := holds_guard_of_condBr ht hkind hguard s
  rw [if_pos (hblock.elim id id)] at hiff
  exact hs (hiff.1 hholds)

/-- The guard of the edge to where execution goes on holds, unless the branch is degenerate. -/
theorem holds_guard_of_moves {s : State} {guard : Formula} (hx : ¬ DegenerateBranch f x)
    (hmove : Moves f s x y) (hguard : lowerEdgeGuard f x y = .ok guard) : guard.Holds s := by
  by_cases hbranch : ∃ t condition ifTrue ifFalse, f.instruction? x = some (.terminator t) ∧
      t.kind = .condBr condition ifTrue ifFalse
  · obtain ⟨t, condition, ifTrue, ifFalse, ht, hkind⟩ := hbranch
    rw [(holds_guard_of_condBr ht hkind hguard s).2]
    cases hmove with
    | next hnext => exact absurd hnext (LlvmFunction.notMem_windows_of_terminator ht)
    | jump ht' hk hy =>
      rw [ht, Option.some.injEq, Instruction.terminator.injEq] at ht'
      subst ht'
      have hblock := (LlvmFunction.mem_visible.1 (List.mem_of_mem_head? hy)).1
      rw [hkind] at hk
      rcases hk with ⟨htrue, rfl⟩ | ⟨hfalse, rfl⟩
      · rwa [if_pos hblock.symm]
      · rw [hblock]
        split
        · -- The targets coincide, and the branch is not degenerate.
          rename_i heq
          subst heq
          refine absurd ⟨t, condition, _, ht, hkind, ?_⟩ hx
          intro constant hconstant
          by_contra hne
          refine hfalse ?_
          rw [ConditionTrue, hconstant]
          exact hne
        · exact hfalse
  · rw [guard_eq_tru (fun t condition ifTrue ifFalse ht hkind ↦
      hbranch ⟨t, condition, ifTrue, ifFalse, ht, hkind⟩) hguard]
    exact Formula.holds_tru s

/-- The guards cover every instruction's continuations exactly where the instruction is not a
branch whose two targets coincide. -/
theorem guardsCover_iff (h : lowerEdges f = .ok edges) (x : InstructionId) :
    GuardsCover f edges x ↔ ¬ DegenerateBranch f x := by
  constructor
  · intro hcover hx
    exact hx.not_guardsCover h hcover
  · intro hx
    refine ⟨fun s y hmove ↦ ?_, fun t condition ifTrue ifFalse ht hkind e he e' he' hs hs' hne s ↦
      exclusive_of_lowerEdges h ht hkind he he' hs hs' hne s⟩
    obtain ⟨guard, hguard, hmem⟩ := exists_mem_lowerEdges h hmove.mem_successors
    exact ⟨_, hmem, rfl, rfl, holds_guard_of_moves hx hmove hguard⟩

end Guards

/-! ### A branch whose targets coincide -/

/-- `br i1 %c, label %1, label %1` and a return. -/
def sameTargetBranch : LlvmFunction where
  name := "f"
  blocks := [
    ⟨[], [], "br i1 %c, label %1, label %1", .condBr ⟨.integer 1, "%c", none, none, "i1 %c"⟩ 1 1⟩,
    ⟨[], [], "ret void", .ret⟩]
  successor_lt := by decide
  entry_notMem := by decide
  mem_incomings_iff k b hb phi hphi := by
    rcases List.mem_pair.1 (List.mem_of_getElem? hb) with rfl | rfl <;> cases hphi
  incoming_eq b hb phi hphi := by
    rcases List.mem_pair.1 hb with rfl | rfl <;> cases hphi
  incoming_kind b hb phi hphi := by
    rcases List.mem_pair.1 hb with rfl | rfl <;> cases hphi
  constant_kind b hb phi hphi := by
    rcases List.mem_pair.1 hb with rfl | rfl <;> cases hphi

/-- Its only edge carries the condition. -/
theorem lowerEdges_sameTargetBranch :
    lowerEdges sameTargetBranch = .ok [⟨⟨0, 0⟩, ⟨1, 0⟩, .var (.bool "f$%c"), []⟩] := rfl

theorem guardsCover_sameTargetBranch_iff :
    GuardsCover sameTargetBranch [⟨⟨0, 0⟩, ⟨1, 0⟩, .var (.bool "f$%c"), []⟩] ⟨0, 0⟩ ↔
      ¬ DegenerateBranch sameTargetBranch ⟨0, 0⟩ :=
  guardsCover_iff lowerEdges_sameTargetBranch ⟨0, 0⟩

/-- Where the condition is false, the branch goes to its target and no edge is enabled. -/
theorem not_guardsCover_sameTargetBranch : ∃ edges, lowerEdges sameTargetBranch = .ok edges ∧
    ¬ GuardsCover sameTargetBranch edges ⟨0, 0⟩ := by
  refine ⟨_, lowerEdges_sameTargetBranch, fun hcover ↦ ?_⟩
  have hmove : Moves sameTargetBranch .zero ⟨0, 0⟩ ⟨1, 0⟩ :=
    .jump rfl (.inr ⟨Bool.false_ne_true, rfl⟩) rfl
  obtain ⟨e, he, -, -, hholds⟩ := hcover.covers .zero _ hmove
  obtain rfl := List.mem_singleton.1 he
  exact Bool.false_ne_true hholds

end Lowering

end MayMust
