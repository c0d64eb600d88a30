import MayMust.Cfg.Adapter.EdgeGuards

/-!
# PHI assignments on edges

`lower_phi_edge_effects` of the source appends, for each incoming pair of a PHI, an assignment to
the edge by which control comes from the incoming block. It looks for an instruction of that block
which has the PHI as a successor. The instruction graph has one vertex for each instruction, so
only the first PHI of a block has the terminators of other blocks as predecessors; that of a
second PHI is the first. So the lowering fails on a function which has a block with two PHIs and
a predecessor other than itself (`phisAssigned_iff`).

Where it succeeds, each block that an execution can reach has at most one PHI, and the edge into
it assigns the value for the block it comes from.
-/

namespace MayMust

namespace Lowering

open Library

/-! ### The lowering -/

/-- The value that is assigned for an incoming operand. -/
def lowerIncomingValue (function : String) (value : LlvmValue) : Except AdapterError AssignValue :=
  match sortOfInstructionValue value with
  | .error e => .error e
  | .ok .bool => (lowerBoolValue function value).map .predicate
  | .ok _ => (lowerNumericValue function value).map .term

/-- The instruction of the incoming block that has the PHI as a successor. -/
def phiSource (g : FunctionGraph) (phi : InstructionId) (incomingBlock : ℕ) :
    Option InstructionId :=
  g.vertices.find? fun candidate ↦ candidate.block = incomingBlock ∧ phi ∈ g.successors candidate

/-- `append_edge_effects`, on the edge between two instructions. -/
def appendEdgeEffects (edges : List LoweredEdge) (source target : InstructionId)
    (effects : List TransferEffect) : List LoweredEdge :=
  edges.map fun e ↦
    if e.source = source ∧ e.target = target then { e with effects := e.effects ++ effects } else e

/-- The body of the loop over the incoming pairs of a PHI. -/
def lowerPhiIncoming (f : LlvmFunction) (phi : InstructionId) (instruction : PhiInstruction)
    (target : Var) (edges : List LoweredEdge) (incoming : ℕ × LlvmValue) :
    Except AdapterError (List LoweredEdge) :=
  match phiSource (.new f) phi incoming.1 with
  | none => .error
      (.phiPredecessorMismatch ("could not match PHI incoming for " ++ instruction.result.printed))
  | some source =>
    if edges.any fun e ↦ e.source = source ∧ e.target = phi then do
      let value ← lowerIncomingValue f.name incoming.2
      return appendEdgeEffects edges source phi [.assign target value]
    else .error (.phiPredecessorMismatch instruction.result.printed)

/-- The body of the loop over the vertices. -/
def lowerPhi (f : LlvmFunction) (edges : List LoweredEdge) (x : InstructionId) :
    Except AdapterError (List LoweredEdge) :=
  match f.instruction? x with
  | some (.phi instruction) => do
    let target ← assignedVar f.name instruction.result
    instruction.incomings.foldlM (lowerPhiIncoming f x instruction target) edges
  | _ => .ok edges

/-- `lower_phi_edge_effects`. -/
def lowerPhiEdgeEffects (f : LlvmFunction) (edges : List LoweredEdge) :
    Except AdapterError (List LoweredEdge) :=
  (FunctionGraph.new f).vertices.foldlM (lowerPhi f) edges

/-! ### Executions -/

/-- The transfer functions of the nodes: PHIs have none of their own. -/
def nodeTransfer (f : LlvmFunction) (transfer : InstructionId → TransferFn) (x : InstructionId) :
    TransferFn :=
  match f.instruction? x with
  | some (.phi _) => .identity
  | _ => transfer x

/-- An instruction and the state at its end. -/
structure AtEnd where
  instruction : InstructionId
  state : State

/-- Crossing an edge and executing the instruction it leads to. -/
def Crosses (f : LlvmFunction) (sem : Semantics) (transfer : InstructionId → TransferFn)
    (e : LoweredEdge) (p q : AtEnd) : Prop :=
  p.instruction = e.source ∧ q.instruction = e.target ∧ e.guard.Holds p.state ∧
    ∃ m, Effects.Run sem e.effects p.state m ∧
      (nodeTransfer f transfer e.target).Run sem m q.state

/-- An execution along edges of the lowered graph. -/
def Run (f : LlvmFunction) (sem : Semantics) (transfer : InstructionId → TransferFn)
    (edges : List LoweredEdge) (es : List LoweredEdge) (p q : AtEnd) : Prop :=
  (∀ e ∈ es, e ∈ edges) ∧ Path (Crosses f sem transfer) es p q

/-- Some execution from the first instruction of the function gets there. -/
def Reached (f : LlvmFunction) (sem : Semantics) (transfer : InstructionId → TransferFn)
    (edges : List LoweredEdge) (p : AtEnd) : Prop :=
  ∃ es start s, (f.visible 0).head? = some start ∧ Run f sem transfer edges es ⟨start, s⟩ p

/-- The value of an assignment in a state. -/
noncomputable def AssignValue.value (s : State) : AssignValue → Value
  | .term t => t.eval s
  | .predicate φ => .bool (φ.eval s)

/-- The operand has the value in the state. -/
def HasValue (function : String) (s : State) (operand : LlvmValue) (v : Value) : Prop :=
  ∃ a, lowerIncomingValue function operand = .ok a ∧ v = AssignValue.value s a

/-- The variables of a block's PHIs. -/
def IsPhiVar (f : LlvmFunction) (b : BasicBlock) (v : Var) : Prop :=
  ∃ phi ∈ b.phis, assignedVar f.name phi.result = .ok v

/-- The second state is the first with all PHIs of a block assigned in parallel their values for
an incoming block. -/
structure ParallelAssignment (f : LlvmFunction) (b : BasicBlock) (source : ℕ) (s s' : State) :
    Prop where
  assigned : ∀ phi ∈ b.phis, ∀ operand, (source, operand) ∈ phi.incomings →
    ∃ v, assignedVar f.name phi.result = .ok v ∧ HasValue f.name s operand (s'.lookup v)
  others : ∀ v, ¬ IsPhiVar f b v → s'.lookup v = s.lookup v
  memory : s'.memory = s.memory

/-- The PHIs are lowered, no edge's assignments are stuck, and every execution that enters a block
assigns its PHIs in parallel. -/
structure PhisAssigned (f : LlvmFunction) (sem : Semantics) (transfer : InstructionId → TransferFn)
    (edges : List LoweredEdge) : Prop where
  lowers : ∃ edges', lowerPhiEdgeEffects f edges = .ok edges'
  total : ∀ edges', lowerPhiEdgeEffects f edges = .ok edges' → ∀ e ∈ edges', ∀ s,
    ∃ m, Effects.Run sem e.effects s m
  parallel : ∀ edges', lowerPhiEdgeEffects f edges = .ok edges' → ∀ x s t k b,
    Reached f sem transfer edges' ⟨x, s⟩ → f.instruction? x = some (.terminator t) →
    k ∈ t.kind.getSuccessorBlocks → f.blocks[k]? = some b → b.phis ≠ [] →
    -- The PHIs are passed one after the other.
    ∀ es s', es.length = b.phis.length →
      Run f sem transfer edges' es ⟨x, s⟩ ⟨⟨k, b.phis.length - 1⟩, s'⟩ →
        ParallelAssignment f b x.block s s'

/-- The PHIs have supported types, and a block with more than one PHI is its own only
predecessor. -/
def SinglePhis (f : LlvmFunction) : Prop :=
  ∀ (k : ℕ) (b : BasicBlock), f.blocks[k]? = some b →
    (∀ phi ∈ b.phis, phi.result.kind ≠ .other) ∧
      (2 ≤ b.phis.length → ∀ (source : ℕ) (c : BasicBlock), f.blocks[source]? = some c →
        k ∈ c.terminator.kind.getSuccessorBlocks → source = k)

/-! ### Incoming operands -/

/-- What an operand of a sort is lowered to: a constant or a variable. -/
inductive IncomingValue : VarSort → AssignValue → Prop
  | tru : IncomingValue .bool (.predicate .tru)
  | fls : IncomingValue .bool (.predicate .fls)
  | boolVar (name : String) : IncomingValue .bool (.predicate (.var (.bool name)))
  | int (constant : Int64) : IncomingValue .int (.term (.int constant))
  | real (constant : Rational) : IncomingValue .real (.term (.real constant))
  | var (name : String) (sort : VarSort) (h : sort ≠ .bool) :
      IncomingValue sort (.term (.var ⟨name, sort⟩))

section Operands

variable {function : String} {operand : LlvmValue} {a : AssignValue} {σ : VarSort} {v : Var}
  {s s' : State} {sem : Semantics}

/-- Values of all supported types can be lowered. -/
theorem exists_incomingValue (hσ : sortOfInstructionValue operand = .ok σ)
    (hint : operand.constantInt.isSome → operand.kind ≠ .floating)
    (hreal : operand.constantReal.isSome → operand.kind = .floating) :
    ∃ a, lowerIncomingValue function operand = .ok a ∧ IncomingValue σ a := by
  rcases operand with ⟨kind, displayName, constantInt, constantReal, printed⟩
  cases kind with
  | other => cases hσ
  | pointer =>
    obtain rfl : VarSort.int = σ := Except.ok.inj hσ
    simp only [lowerIncomingValue, sortOfInstructionValue, lowerNumericValue, ↓reduceIte]
    split
    · exact ⟨_, rfl, .int 0⟩
    · exact ⟨_, rfl, .var _ .int (by decide)⟩
  | floating =>
    obtain rfl : VarSort.real = σ := Except.ok.inj hσ
    obtain rfl : constantInt = none := by simpa using hint
    cases constantReal with
    | some constant => exact ⟨_, rfl, .real constant⟩
    | none => exact ⟨_, rfl, .var _ .real (by decide)⟩
  | integer w =>
    obtain rfl : constantReal = none := by simpa using hreal
    rcases eq_or_ne w 1 with rfl | hw
    · obtain rfl : VarSort.bool = σ := Except.ok.inj hσ
      cases constantInt with
      | none => exact ⟨_, rfl, .boolVar _⟩
      | some constant =>
        refine ⟨_, rfl, ?_⟩
        split
        · exact .fls
        · exact .tru
    · have hsort : sortOfInstructionValue ⟨.integer w, displayName, constantInt, none, printed⟩ =
          .ok .int := by
        simp [sortOfInstructionValue]
      obtain rfl : VarSort.int = σ := Except.ok.inj (hsort.symm.trans hσ)
      rw [lowerIncomingValue, hsort]
      cases constantInt with
      | some constant => exact ⟨_, rfl, .int constant⟩
      | none =>
        refine ⟨_, ?_, .var (localName function ⟨.integer w, displayName, none, none, printed⟩) .int
          (by decide)⟩
        simp only [lowerNumericValue, reduceCtorEq, ↓reduceIte, hsort]
        rfl

theorem IncomingValue.sort_value (h : IncomingValue σ a) : (AssignValue.value s a).sort = σ := by
  cases h with
  | var name hne => exact State.sort_lookup s ⟨name, σ⟩
  | _ => rfl

/-- The assignment of an operand is never stuck. -/
theorem IncomingValue.step_iff (h : IncomingValue v.sort a) :
    (TransferEffect.assign v a).Step sem s s' ↔ s' = s.set v (AssignValue.value s a) := by
  have hsort := h.sort_value (s := s)
  cases a with
  | term t =>
    have hbool : v.sort ≠ .bool := by
      generalize v.sort = σ at h
      cases h with
      | var name sort hne => exact hne
      | _ => decide
    constructor
    · exact fun hstep ↦ hstep.2.2
    · exact fun heq ↦ ⟨hsort, hbool, heq⟩
  | predicate φ =>
    constructor
    · exact fun hstep ↦ hstep.2
    · exact fun heq ↦ ⟨hsort.symm, heq⟩

/-- Assigning an operand's value does not change the operand's value. -/
theorem IncomingValue.value_set (h : IncomingValue v.sort a) :
    AssignValue.value (s.set v (AssignValue.value s a)) a = AssignValue.value s a := by
  have hlookup (w : Var) (hw : w.sort = v.sort) :
      (s.set v (s.lookup w)).lookup w = s.lookup w := by
    rcases eq_or_ne w v with rfl | hne
    · exact State.lookup_set_self (State.sort_lookup s w)
    · exact State.lookup_set_of_ne hne
  generalize hσ : v.sort = σ at h
  cases h with
  | var name hne => exact hlookup ⟨name, σ⟩ hσ.symm
  | boolVar name =>
    show Value.bool ((s.set v (s.lookup (.bool name))).lookup (.bool name)).isTrue = _
    rw [hlookup (.bool name) hσ.symm]
    rfl
  | _ => rfl

end Operands

/-! ### Success of the lowering -/

section Lowering

variable {f : LlvmFunction} {edges edges' : List LoweredEdge} {x y : InstructionId}
  {phi : PhiInstruction} {target : Var} {incoming : ℕ × LlvmValue} {e : LoweredEdge}

/-- The edges are those of the graph. -/
structure EdgesOf (f : LlvmFunction) (edges : List LoweredEdge) : Prop where
  sound : ∀ e ∈ edges, e.target ∈ (FunctionGraph.new f).successors e.source
  complete : ∀ x y, y ∈ (FunctionGraph.new f).successors x →
    ∃ e ∈ edges, e.source = x ∧ e.target = y

theorem edgesOf_lowerEdges (h : lowerEdges f = .ok edges) : EdgesOf f edges where
  sound e he := (of_mem_lowerEdges h he).1
  complete x y hy := by
    obtain ⟨guard, -, hmem⟩ := exists_mem_lowerEdges h hy
    exact ⟨_, hmem, rfl, rfl⟩

/-- The edges after effects are appended to one of them. -/
theorem mem_appendEdgeEffects {effects : List TransferEffect} :
    e ∈ appendEdgeEffects edges x y effects ↔
      (e ∈ edges ∧ ¬ (e.source = x ∧ e.target = y)) ∨
        ∃ e' ∈ edges, e'.source = x ∧ e'.target = y ∧
          e = { e' with effects := e'.effects ++ effects } := by
  rw [appendEdgeEffects, List.mem_map]
  constructor
  · rintro ⟨e', he', rfl⟩
    split
    · rename_i hends
      exact .inr ⟨e', he', hends.1, hends.2, rfl⟩
    · rename_i hends
      exact .inl ⟨he', hends⟩
  · rintro (⟨he, hends⟩ | ⟨e', he', hsource, htarget, rfl⟩)
    · exact ⟨e, he, if_neg hends⟩
    · exact ⟨e', he', if_pos ⟨hsource, htarget⟩⟩

theorem EdgesOf.append (h : EdgesOf f edges) {effects : List TransferEffect} :
    EdgesOf f (appendEdgeEffects edges x y effects) where
  sound e he := by
    rcases mem_appendEdgeEffects.1 he with ⟨he, -⟩ | ⟨e', he', -, -, rfl⟩
    · exact h.sound e he
    · exact h.sound e' he'
  complete a b hb := by
    obtain ⟨e, he, hsource, htarget⟩ := h.complete a b hb
    by_cases hends : e.source = x ∧ e.target = y
    · exact ⟨_, mem_appendEdgeEffects.2 (.inr ⟨e, he, hends.1, hends.2, rfl⟩), hsource, htarget⟩
    · exact ⟨e, mem_appendEdgeEffects.2 (.inl ⟨he, hends⟩), hsource, htarget⟩

/-- The instruction that `phiSource` finds. -/
theorem of_phiSource_eq_some {k : ℕ} (h : phiSource (.new f) y k = some x) :
    x.block = k ∧ y ∈ (FunctionGraph.new f).successors x := by
  simpa using List.find?_some h

theorem exists_phiSource (h : y ∈ (FunctionGraph.new f).successors x) :
    ∃ source, phiSource (.new f) y x.block = some source := by
  rw [← Option.isSome_iff_exists, phiSource, List.find?_isSome]
  refine ⟨x, ?_, by simpa using h⟩
  by_contra hx
  rw [(FunctionGraph.new f).successors_eq_nil x hx] at h
  cases h

/-- What one incoming pair appends. -/
theorem lowerPhiIncoming_eq_ok : lowerPhiIncoming f y phi target edges incoming = .ok edges' ↔
    ∃ source a, phiSource (.new f) y incoming.1 = some source ∧
      (∃ e ∈ edges, e.source = source ∧ e.target = y) ∧
        lowerIncomingValue f.name incoming.2 = .ok a ∧
          edges' = appendEdgeEffects edges source y [.assign target a] := by
  rw [lowerPhiIncoming]
  constructor
  · intro h
    split at h
    · cases h
    · rename_i source hsource
      split_ifs at h with hany
      obtain ⟨a, ha, hpure⟩ := bind_eq_ok.1 h
      exact ⟨source, a, hsource, by simpa using hany, ha, (pure_eq_ok.1 hpure).symm⟩
  · rintro ⟨source, a, hsource, hany, ha, rfl⟩
    rw [hsource]
    simp only
    rw [if_pos (by simpa using hany), bind_eq_ok]
    exact ⟨a, ha, rfl⟩

/-- What a PHI appends. -/
theorem lowerPhi_eq_ok (hy : f.instruction? y = some (.phi phi)) :
    lowerPhi f edges y = .ok edges' ↔ ∃ target, assignedVar f.name phi.result = .ok target ∧
      phi.incomings.foldlM (lowerPhiIncoming f y phi target) edges = .ok edges' := by
  rw [lowerPhi, hy]
  exact bind_eq_ok

/-- What the steps for all incoming pairs of all PHIs keep, the lowering keeps. -/
theorem lowerPhiEdgeEffects_invariant {P : List LoweredEdge → Prop}
    (hstep : ∀ y phi target incoming, f.instruction? y = some (.phi phi) →
      assignedVar f.name phi.result = .ok target → incoming ∈ phi.incomings →
        ∀ edges edges', lowerPhiIncoming f y phi target edges incoming = .ok edges' →
          P edges → P edges')
    (h : lowerPhiEdgeEffects f edges = .ok edges') (hP : P edges) : P edges' := by
  refine Path.invariant (fun y _ m n hmn hm ↦ ?_) (foldlM_eq_ok_iff.1 h) hP
  by_cases hphi : ∃ phi, f.instruction? y = some (.phi phi)
  · obtain ⟨phi, hphi⟩ := hphi
    obtain ⟨target, htarget, hfold⟩ := (lowerPhi_eq_ok hphi).1 hmn
    exact Path.invariant (fun incoming hmem a b ↦ hstep y phi target incoming hphi htarget hmem a b)
      (foldlM_eq_ok_iff.1 hfold) hm
  · rw [lowerPhi] at hmn
    split at hmn
    · exact absurd ⟨_, ‹_›⟩ hphi
    · rwa [← Except.ok.inj hmn]

/-- A value has a sort unless its type is unsupported. -/
theorem exists_sort_iff {value : LlvmValue} :
    (∃ σ, sortOfInstructionValue value = .ok σ) ↔ value.kind ≠ .other := by
  constructor
  · rintro ⟨σ, hσ⟩ hkind
    simp [sortOfInstructionValue, hkind] at hσ
  · intro hkind
    rw [sortOfInstructionValue]
    split
    · exact ⟨_, rfl⟩
    · exact ⟨_, rfl⟩
    · exact ⟨_, rfl⟩
    · exact ⟨_, rfl⟩
    · exact absurd ‹_› hkind

theorem sort_congr {value value' : LlvmValue} {σ : VarSort} (h : value.kind = value'.kind)
    (hσ : sortOfInstructionValue value = .ok σ) : sortOfInstructionValue value' = .ok σ := by
  rw [sortOfInstructionValue, ← h]
  rw [sortOfInstructionValue] at hσ
  split at hσ
  all_goals simp_all

theorem assignedVar_eq_ok {value : LlvmValue} {v : Var} :
    assignedVar f.name value = .ok v ↔
      sortOfInstructionValue value = .ok v.sort ∧ v.name = localName f.name value := by
  rw [assignedVar, bind_eq_ok]
  constructor
  · rintro ⟨σ, hσ, hv⟩
    obtain rfl := pure_eq_ok.1 hv
    exact ⟨hσ, rfl⟩
  · rintro ⟨hσ, hname⟩
    exact ⟨v.sort, hσ, by rw [← hname]; rfl⟩

/-- The value for an incoming pair of a PHI. -/
theorem exists_incomingValue_of_mem (hy : f.instruction? y = some (.phi phi))
    (htarget : assignedVar f.name phi.result = .ok target) (hmem : incoming ∈ phi.incomings) :
    ∃ a, lowerIncomingValue f.name incoming.2 = .ok a ∧ IncomingValue target.sort a := by
  obtain ⟨b, hb, hphi⟩ := LlvmFunction.instruction?_eq_phi hy
  have hbmem := List.mem_of_getElem? hb
  have hphimem := List.mem_of_getElem? hphi
  have hkind := f.incoming_kind b hbmem phi hphimem incoming hmem
  obtain ⟨hint, hreal⟩ := f.constant_kind b hbmem phi hphimem incoming hmem
  exact exists_incomingValue (sort_congr hkind.symm (assignedVar_eq_ok.1 htarget).1) hint hreal

/-- The PHI of an incoming pair has an instruction of the incoming block as a predecessor, unless
it is not the first of its block and the pair is for another block. -/
theorem exists_phiSource_iff (hy : f.instruction? y = some (.phi phi))
    (hmem : incoming ∈ phi.incomings) :
    (∃ source, phiSource (.new f) y incoming.1 = some source) ↔
      (y.position ≠ 0 → incoming.1 = y.block) := by
  obtain ⟨k, i⟩ := y
  obtain ⟨b, hb, hphi⟩ := LlvmFunction.instruction?_eq_phi hy
  simp only at hb hphi ⊢
  cases i with
  | zero =>
    simp only [ne_eq, not_true_eq_false, false_implies, iff_true]
    obtain ⟨c, hc, hk⟩ := (f.mem_incomings_iff k b hb phi (List.mem_of_getElem? hphi) incoming.1).1
      (List.mem_map_of_mem hmem)
    obtain ⟨x, -, hblock, hterm⟩ := LlvmFunction.getLast?_visible hc
    have hsucc : ⟨k, 0⟩ ∈ (FunctionGraph.new f).successors x :=
      (FunctionGraph.mem_successors_of_terminator hterm).2
        ⟨k, hk, LlvmFunction.head?_visible_of_phi hb hphi⟩
    exact hblock ▸ exists_phiSource hsucc
  | succ i =>
    simp only [ne_eq, Nat.add_eq_zero_iff, one_ne_zero, and_false, not_false_eq_true,
      forall_const]
    have hsucc {x : InstructionId} :=
      LlvmFunction.mem_successors_phi_succ (x := x) hb hphi
    constructor
    · rintro ⟨source, hsource⟩
      obtain ⟨hblock, hmemsucc⟩ := of_phiSource_eq_some hsource
      rw [← hblock, hsucc.1 hmemsucc]
    · rintro rfl
      exact exists_phiSource (hsucc.2 rfl)

/-- The step for one PHI succeeds. -/
theorem exists_lowerPhi (hsingle : SinglePhis f) (hedges : EdgesOf f edges) (y : InstructionId) :
    ∃ edges', lowerPhi f edges y = .ok edges' ∧ EdgesOf f edges' := by
  by_cases hphi : ∃ phi, f.instruction? y = some (.phi phi)
  · obtain ⟨phi, hy⟩ := hphi
    obtain ⟨b, hb, hphi⟩ := LlvmFunction.instruction?_eq_phi hy
    obtain ⟨hkind, hpreds⟩ := hsingle y.block b hb
    obtain ⟨σ, hσ⟩ := exists_sort_iff.2 (hkind phi (List.mem_of_getElem? hphi))
    have htarget : assignedVar f.name phi.result = .ok ⟨localName f.name phi.result, σ⟩ :=
      assignedVar_eq_ok.2 ⟨hσ, rfl⟩
    have hstep : ∀ incoming ∈ phi.incomings, ∀ m, EdgesOf f m →
        ∃ n, lowerPhiIncoming f y phi ⟨localName f.name phi.result, σ⟩ m incoming = .ok n ∧
          EdgesOf f n := by
      intro incoming hmem m hm
      obtain ⟨a, ha, -⟩ := exists_incomingValue_of_mem hy htarget hmem
      have hown : y.position ≠ 0 → incoming.1 = y.block := by
        intro hpos
        have hlt := (List.getElem?_eq_some_iff.1 hphi).1
        obtain ⟨c, hc, hk⟩ := (f.mem_incomings_iff y.block b hb phi
          (List.mem_of_getElem? hphi) incoming.1).1 (List.mem_map_of_mem hmem)
        exact hpreds (by omega) incoming.1 c hc hk
      obtain ⟨source, hsource⟩ := (exists_phiSource_iff hy hmem).2 hown
      obtain ⟨e, he, hends⟩ := hm.complete source y (of_phiSource_eq_some hsource).2
      exact ⟨_, lowerPhiIncoming_eq_ok.2 ⟨source, a, hsource, ⟨e, he, hends⟩, ha, rfl⟩, hm.append⟩
    obtain ⟨n, hn, hP⟩ := exists_foldlM_eq_ok hstep hedges
    exact ⟨n, (lowerPhi_eq_ok hy).2 ⟨_, htarget, hn⟩, hP⟩
  · refine ⟨edges, ?_, hedges⟩
    rw [lowerPhi]
    split
    · exact absurd ⟨_, ‹_›⟩ hphi
    · rfl

/-- The lowering succeeds exactly on functions whose PHIs have supported types and whose blocks
have one PHI each, those with no other predecessor than themselves apart. -/
theorem exists_lowerPhiEdgeEffects_iff (hedges : EdgesOf f edges) :
    (∃ edges', lowerPhiEdgeEffects f edges = .ok edges') ↔ SinglePhis f := by
  have hvertex {k i : ℕ} {b : BasicBlock} {phi : PhiInstruction} (hb : f.blocks[k]? = some b)
      (hphi : b.phis[i]? = some phi) : ⟨k, i⟩ ∈ (FunctionGraph.new f).vertices :=
    FunctionGraph.mem_vertices_new.2
      (LlvmFunction.mem_visible.1 (LlvmFunction.phi_mem_visible hb hphi)).2
  constructor
  · rintro ⟨edges', h⟩ k b hb
    refine ⟨fun phi hphi ↦ ?_, fun hlen source c hc hk ↦ ?_⟩
    · obtain ⟨i, hi⟩ := List.getElem?_of_mem hphi
      obtain ⟨m, n, hmn⟩ := exists_of_foldlM_eq_ok h (hvertex hb hi)
      obtain ⟨target, htarget, -⟩ := (lowerPhi_eq_ok (LlvmFunction.instruction?_phi hb hi)).1 hmn
      exact exists_sort_iff.1 ⟨_, (assignedVar_eq_ok.1 htarget).1⟩
    · -- The pair of the second PHI for this block has been lowered.
      obtain ⟨phi, hphi⟩ : ∃ phi, b.phis[1]? = some phi :=
        ⟨b.phis[1], List.getElem?_eq_getElem (by omega)⟩
      have hy := LlvmFunction.instruction?_phi hb hphi
      obtain ⟨m, n, hmn⟩ := exists_of_foldlM_eq_ok h (hvertex hb hphi)
      obtain ⟨target, -, hfold⟩ := (lowerPhi_eq_ok hy).1 hmn
      obtain ⟨incoming, hmem, rfl⟩ := List.mem_map.1
        ((f.mem_incomings_iff k b hb phi (List.mem_of_getElem? hphi) source).2 ⟨c, hc, hk⟩)
      obtain ⟨m', n', hmn'⟩ := exists_of_foldlM_eq_ok hfold hmem
      obtain ⟨x, -, hx, -⟩ := lowerPhiIncoming_eq_ok.1 hmn'
      exact (exists_phiSource_iff hy hmem).1 ⟨x, hx⟩ one_ne_zero
  · intro hsingle
    obtain ⟨edges', h, -⟩ := exists_foldlM_eq_ok
      (fun y _ m hm ↦ exists_lowerPhi hsingle hm y) hedges
    exact ⟨edges', h⟩

end Lowering

/-! ### What the edges assign -/

section Assignments

variable {f : LlvmFunction} {edges edges' : List LoweredEdge} {x y : InstructionId}
  {phi : PhiInstruction} {v : Var} {a : AssignValue} {s s' : State} {sem : Semantics}

/-- An effect of the edge between two instructions: the second is a PHI, which is assigned its
value for the block of the first. -/
def PhiEffect (f : LlvmFunction) (x y : InstructionId) (effect : TransferEffect) : Prop :=
  ∃ phi v operand a, f.instruction? y = some (.phi phi) ∧
    assignedVar f.name phi.result = .ok v ∧ (x.block, operand) ∈ phi.incomings ∧
      lowerIncomingValue f.name operand = .ok a ∧ effect = .assign v a

theorem phiEffect_of_lowerPhiEdgeEffects (hedges : lowerEdges f = .ok edges)
    (h : lowerPhiEdgeEffects f edges = .ok edges') :
    ∀ e ∈ edges', ∀ effect ∈ e.effects, PhiEffect f e.source e.target effect := by
  refine lowerPhiEdgeEffects_invariant
    (P := fun m ↦ ∀ e ∈ m, ∀ effect ∈ e.effects, PhiEffect f e.source e.target effect)
    (fun y phi v incoming hy hv hmem m n hmn hm e he ↦ ?_) h fun e he ↦ ?_
  · obtain ⟨source, a, hsource, -, ha, rfl⟩ := lowerPhiIncoming_eq_ok.1 hmn
    rcases mem_appendEdgeEffects.1 he with ⟨he, -⟩ | ⟨e', he', rfl, rfl, rfl⟩
    · exact hm e he
    · intro effect heffect
      rcases List.mem_append.1 heffect with hold | hnew
      · exact hm e' he' effect hold
      · refine ⟨phi, v, incoming.2, a, hy, hv, ?_, ha, List.mem_singleton.1 hnew⟩
        rw [(of_phiSource_eq_some hsource).1]
        exact hmem
  · rw [(of_mem_lowerEdges hedges he).2.2]
    exact fun effect heffect ↦ absurd heffect List.not_mem_nil

theorem edgesOf_lowerPhiEdgeEffects (hedges : EdgesOf f edges)
    (h : lowerPhiEdgeEffects f edges = .ok edges') : EdgesOf f edges' := by
  refine lowerPhiEdgeEffects_invariant (fun y phi v incoming _ _ _ m n hmn hm ↦ ?_) h hedges
  obtain ⟨source, a, -, -, -, rfl⟩ := lowerPhiIncoming_eq_ok.1 hmn
  exact hm.append

/-- The edge found for an incoming pair has an effect. -/
theorem effects_ne_nil {incoming : ℕ × LlvmValue} (hy : f.instruction? y = some (.phi phi))
    (hmem : incoming ∈ phi.incomings) (hsource : phiSource (.new f) y incoming.1 = some x)
    (h : lowerPhiEdgeEffects f edges = .ok edges') :
    ∀ e ∈ edges', e.source = x → e.target = y → e.effects ≠ [] := by
  have hkeep : ∀ (z : InstructionId) (phi' : PhiInstruction) (w : Var) (incoming' : ℕ × LlvmValue)
      (m n : List LoweredEdge), lowerPhiIncoming f z phi' w m incoming' = .ok n →
        (∀ e ∈ m, e.source = x → e.target = y → e.effects ≠ []) →
          ∀ e ∈ n, e.source = x → e.target = y → e.effects ≠ [] := by
    intro z phi' w incoming' m n hmn hm e he
    obtain ⟨source, a, -, -, -, rfl⟩ := lowerPhiIncoming_eq_ok.1 hmn
    rcases mem_appendEdgeEffects.1 he with ⟨he, -⟩ | ⟨e', -, -, -, rfl⟩
    · exact hm e he
    · exact fun _ _ ↦ List.append_ne_nil_of_right_ne_nil _ (List.cons_ne_nil _ _)
  refine of_foldlM_eq_ok_of_mem
    (P := fun m ↦ ∀ e ∈ m, e.source = x → e.target = y → e.effects ≠ []) (fun z _ m n hmn hm ↦ ?_)
    (FunctionGraph.mem_vertices_new.2 (LlvmFunction.isVisible_of_instruction? hy rfl))
    (fun m n hmn ↦ ?_) h
  · rw [lowerPhi] at hmn
    split at hmn
    · obtain ⟨w, -, hfold⟩ := bind_eq_ok.1 hmn
      exact Path.invariant (fun incoming' _ m' n' ↦ hkeep z _ w incoming' m' n')
        (foldlM_eq_ok_iff.1 hfold) hm
    · rwa [← Except.ok.inj hmn]
  · obtain ⟨w, -, hfold⟩ := (lowerPhi_eq_ok hy).1 hmn
    refine of_foldlM_eq_ok_of_mem (fun incoming' _ m' n' ↦ hkeep y phi w incoming' m' n') hmem
      (fun m' n' hmn' e he hx hy' ↦ ?_) hfold
    obtain ⟨source, a, hfound, -, -, rfl⟩ := lowerPhiIncoming_eq_ok.1 hmn'
    obtain rfl : x = source := Option.some.inj (hsource.symm.trans hfound)
    rcases mem_appendEdgeEffects.1 he with ⟨-, hends⟩ | ⟨e', -, -, -, rfl⟩
    · exact absurd ⟨hx, hy'⟩ hends
    · exact List.append_ne_nil_of_right_ne_nil _ (List.cons_ne_nil _ _)

/-- Assigning a variable an operand's value several times is assigning it once. -/
theorem run_assigns (ha : IncomingValue v.sort a) {es : List TransferEffect} (hne : es ≠ [])
    (hes : ∀ effect ∈ es, effect = .assign v a) (h : Effects.Run sem es s s') :
    s' = s.set v (AssignValue.value s a) := by
  induction es generalizing s with
  | nil => exact absurd rfl hne
  | cons effect es ih =>
    rw [List.forall_mem_cons] at hes
    obtain ⟨m, hstep, hrest⟩ := h
    obtain rfl := hes.1
    obtain rfl := ha.step_iff.1 hstep
    rcases eq_or_ne es [] with rfl | hne
    · exact hrest.symm
    · have hlookup : (s.set v (AssignValue.value s a)).lookup v = AssignValue.value s a :=
        State.lookup_set_self ha.sort_value
      calc s' = (s.set v (AssignValue.value s a)).set v
            (AssignValue.value (s.set v (AssignValue.value s a)) a) := ih hne hes.2 hrest
        _ = (s.set v (AssignValue.value s a)).set v
            ((s.set v (AssignValue.value s a)).lookup v) := by rw [ha.value_set, hlookup]
        _ = s.set v (AssignValue.value s a) := State.set_lookup_self _ v

/-- No edge's assignments are stuck. -/
theorem exists_run_effects (hedges : lowerEdges f = .ok edges)
    (h : lowerPhiEdgeEffects f edges = .ok edges') {e : LoweredEdge} (he : e ∈ edges')
    (s : State) : ∃ m, Effects.Run sem e.effects s m := by
  refine Path.exists_of_total (fun effect heffect s ↦ ?_) s
  obtain ⟨phi, v, operand, a, hy, hv, hmem, ha, rfl⟩ :=
    phiEffect_of_lowerPhiEdgeEffects hedges h e he effect heffect
  obtain ⟨a', ha', hvalue⟩ := exists_incomingValue_of_mem hy hv hmem
  obtain rfl : a = a' := Except.ok.inj (ha.symm.trans ha')
  exact ⟨_, hvalue.step_iff.2 rfl⟩

end Assignments

/-! ### Parallel assignment -/

section Parallel

variable {f : LlvmFunction} {edges edges' : List LoweredEdge} {x y : InstructionId}
  {b : BasicBlock} {k : ℕ} {s s' : State} {sem : Semantics} {transfer : InstructionId → TransferFn}

/-- An edge stays in its block or leaves a terminator for one of its targets. -/
theorem block_eq_or_of_mem_successors (h : y ∈ (FunctionGraph.new f).successors x) :
    x.block = y.block ∨ ∃ c, f.blocks[x.block]? = some c ∧
      y.block ∈ c.terminator.kind.getSuccessorBlocks := by
  by_cases hterm : ∃ t, f.instruction? x = some (.terminator t)
  · obtain ⟨t, ht⟩ := hterm
    obtain ⟨c, hc, -, rfl⟩ := LlvmFunction.instruction?_eq_terminator ht
    exact .inr ⟨c, hc, block_of_mem_successors ht h⟩
  · left
    have hwin := (FunctionGraph.mem_successors_of_not_terminator
      fun t ht ↦ hterm ⟨t, ht⟩).1 h
    exact (LlvmFunction.mem_visible.1 (LlvmFunction.mem_windows.1 hwin).2.1).1.symm

/-- No execution reaches a block that is its own only predecessor. -/
theorem block_ne_of_reached (hedges : EdgesOf f edges) (hk : k ≠ 0)
    (hown : ∀ (source : ℕ) (c : BasicBlock), f.blocks[source]? = some c →
      k ∈ c.terminator.kind.getSuccessorBlocks → source = k)
    (h : Reached f sem transfer edges ⟨x, s⟩) : x.block ≠ k := by
  obtain ⟨es, start, s₀, hstart, hes, hpath⟩ := h
  refine Path.invariant (P := fun p ↦ p.instruction.block ≠ k)
    (fun e he p q hcross hp ↦ ?_) hpath ?_
  · obtain ⟨hsource, htarget, -, -⟩ := hcross
    rw [hsource] at hp
    rw [htarget]
    intro hq
    rcases block_eq_or_of_mem_successors (hedges.sound e (hes e he)) with heq | ⟨c, hc, hmem⟩
    · exact hp (heq.trans hq)
    · exact hp (hown _ c hc (hq ▸ hmem))
  · have hzero := (LlvmFunction.mem_visible.1 (List.mem_of_mem_head? hstart)).1
    simp only
    omega

/-- The edge from a terminator to the first PHI of a block assigns the PHI its value for the
terminator's block. -/
theorem eq_set_of_run_effects (hedges : lowerEdges f = .ok edges)
    (h : lowerPhiEdgeEffects f edges = .ok edges') {t : Terminator} {phi : PhiInstruction}
    (ht : f.instruction? x = some (.terminator t)) (hy : f.instruction? ⟨k, 0⟩ = some (.phi phi))
    {operand : LlvmValue} (hmem : (x.block, operand) ∈ phi.incomings) {e : LoweredEdge}
    (he : e ∈ edges') (hsource : e.source = x) (htarget : e.target = ⟨k, 0⟩)
    (hrun : Effects.Run sem e.effects s s') :
    ∃ v a, assignedVar f.name phi.result = .ok v ∧ IncomingValue v.sort a ∧
      lowerIncomingValue f.name operand = .ok a ∧ s' = s.set v (AssignValue.value s a) := by
  obtain ⟨b, hb, hphi⟩ := LlvmFunction.instruction?_eq_phi hy
  have hphimem := List.mem_of_getElem? hphi
  -- The instruction that the lowering finds for the block is the terminator.
  obtain ⟨source, hfound⟩ := (exists_phiSource_iff hy hmem).2 fun hne ↦ absurd rfl hne
  obtain ⟨hblock, hsucc⟩ := of_phiSource_eq_some hfound
  obtain ⟨t', ht', -⟩ := LlvmFunction.exists_terminator_of_phi hsucc
  obtain rfl := LlvmFunction.eq_of_terminator ht' ht hblock
  have hne := effects_ne_nil hy hmem hfound h e he hsource htarget
  -- All effects of the edge are the same assignment.
  obtain ⟨effect, rest, heffects⟩ := List.exists_cons_of_ne_nil hne
  have hspec := phiEffect_of_lowerPhiEdgeEffects hedges h e he
  rw [hsource, htarget] at hspec
  have hassign : ∀ effect ∈ e.effects, ∃ v a, assignedVar f.name phi.result = .ok v ∧
      lowerIncomingValue f.name operand = .ok a ∧ effect = .assign v a := by
    intro effect heffect
    obtain ⟨phi', v, operand', a, hy', hv, hmem', ha, rfl⟩ := hspec effect heffect
    rw [hy, Option.some.injEq, Instruction.phi.injEq] at hy'
    subst hy'
    obtain rfl := f.incoming_eq b (List.mem_of_getElem? hb) phi hphimem _ _ _ hmem hmem'
    exact ⟨v, a, hv, ha, rfl⟩
  obtain ⟨v, a, hv, ha, -⟩ := hassign effect (heffects ▸ List.mem_cons_self)
  obtain ⟨a', ha', hvalue⟩ := exists_incomingValue_of_mem hy hv hmem
  obtain rfl : a = a' := Except.ok.inj (ha.symm.trans ha')
  refine ⟨v, a, hv, hvalue, ha, run_assigns hvalue hne (fun effect heffect ↦ ?_) hrun⟩
  obtain ⟨v', a', hv', ha', rfl⟩ := hassign effect heffect
  rw [Except.ok.inj (hv'.symm.trans hv), Except.ok.inj (ha'.symm.trans ha)]

/-- Where the lowering succeeds, executions assign PHIs in parallel. -/
theorem parallelAssignment_of_run (hedges : lowerEdges f = .ok edges)
    (h : lowerPhiEdgeEffects f edges = .ok edges') {t : Terminator}
    (hreached : Reached f sem transfer edges' ⟨x, s⟩)
    (ht : f.instruction? x = some (.terminator t)) (hk : k ∈ t.kind.getSuccessorBlocks)
    (hb : f.blocks[k]? = some b) (hne : b.phis ≠ []) {es : List LoweredEdge}
    (hlen : es.length = b.phis.length)
    (hrun : Run f sem transfer edges' es ⟨x, s⟩ ⟨⟨k, b.phis.length - 1⟩, s'⟩) :
    ParallelAssignment f b x.block s s' := by
  have hsingle := (exists_lowerPhiEdgeEffects_iff (edgesOf_lowerEdges hedges)).1 ⟨edges', h⟩
  have hedges' := edgesOf_lowerPhiEdgeEffects (edgesOf_lowerEdges hedges) h
  obtain ⟨c, hc, -, rfl⟩ := LlvmFunction.instruction?_eq_terminator ht
  -- The block has one PHI, since it has a predecessor other than itself.
  have hone : b.phis.length < 2 := by
    by_contra htwo
    have hown := (hsingle k b hb).2 (not_lt.1 htwo)
    have hzero : k ≠ 0 := by
      rintro rfl
      exact f.entry_notMem c (List.mem_of_getElem? hc) hk
    exact block_ne_of_reached hedges' hzero hown hreached (hown x.block c hc hk)
  obtain ⟨phi, hphis⟩ : ∃ phi, b.phis = [phi] := by
    rw [← List.length_eq_one_iff]
    have := List.length_pos_iff.2 hne
    omega
  rw [hphis] at hlen hrun
  obtain ⟨e, rfl⟩ := List.length_eq_one_iff.1 hlen
  obtain ⟨hes, hpath⟩ := hrun
  obtain ⟨hsource, htarget, -, m, heffects, htransfer⟩ := Path.singleton_iff.1 hpath
  rw [List.length_singleton, Nat.sub_self] at htarget
  have hy : f.instruction? ⟨k, 0⟩ = some (.phi phi) :=
    LlvmFunction.instruction?_phi hb (by rw [hphis]; rfl)
  -- The PHI itself changes nothing.
  obtain rfl : m = s' := by
    rw [← htarget, nodeTransfer, hy] at htransfer
    exact htransfer
  -- The edge assigns the value for the predecessor's block.
  obtain ⟨⟨_, incoming⟩, hmem, rfl⟩ := List.mem_map.1
    ((f.mem_incomings_iff k b hb phi (by simp [hphis]) x.block).2 ⟨c, hc, hk⟩)
  have hedge {operand : LlvmValue} (hoperand : (x.block, operand) ∈ phi.incomings) :=
    eq_set_of_run_effects hedges h ht hy hoperand (hes e List.mem_cons_self) hsource.symm
      htarget.symm heffects
  refine ⟨fun phi' hphi' operand hoperand ↦ ?_, fun w hw ↦ ?_, ?_⟩
  · rw [hphis, List.mem_singleton] at hphi'
    subst hphi'
    obtain ⟨v, a, hv, hvalue, ha, rfl⟩ := hedge hoperand
    exact ⟨v, hv, a, ha, State.lookup_set_self hvalue.sort_value⟩
  · obtain ⟨v, a, hv, -, -, rfl⟩ := hedge hmem
    refine State.lookup_set_of_ne fun heq ↦ hw ⟨phi, by simp [hphis], ?_⟩
    rw [heq]
    exact hv
  · obtain ⟨v, a, -, -, -, rfl⟩ := hedge hmem
    exact State.memory_set s v _

/-- PHIs are lowered and assigned in parallel exactly in the functions whose PHIs have supported
types and whose blocks have one PHI each, those with no other predecessor than themselves
apart. -/
theorem phisAssigned_iff (hedges : lowerEdges f = .ok edges) (sem : Semantics)
    (transfer : InstructionId → TransferFn) :
    PhisAssigned f sem transfer edges ↔ SinglePhis f := by
  rw [← exists_lowerPhiEdgeEffects_iff (edgesOf_lowerEdges hedges)]
  constructor
  · exact PhisAssigned.lowers
  · intro h
    exact ⟨h, fun edges' h' e he ↦ exists_run_effects hedges h' he,
      fun edges' h' x s t k b hreached ht hk hb hne es s' hlen hrun ↦
        parallelAssignment_of_run hedges h' hreached ht hk hb hne hlen hrun⟩

end Parallel

/-! ### A block with two PHIs -/

/-- A 32-bit constant. -/
def word (printed : String) (constant : Int64) : LlvmValue :=
  ⟨.integer 32, printed, some constant, none, printed⟩

/-- `%x` is 0 or 1 and `%y` is 1 or 0, depending on which way control comes to the last block. -/
def crossedPhis : List PhiInstruction := [
  ⟨⟨.integer 32, "%x", none, none, "%x = phi i32 [ 0, %0 ], [ 1, %1 ]"⟩,
    [(0, word "0" 0), (1, word "1" 1)]⟩,
  ⟨⟨.integer 32, "%y", none, none, "%y = phi i32 [ 1, %0 ], [ 0, %1 ]"⟩,
    [(0, word "1" 1), (1, word "0" 0)]⟩]

/-- A conditional branch around an empty block, joined by the PHIs. -/
def crossedBlocks : List BasicBlock := [
  ⟨[], [], "br i1 %c, label %1, label %2", .condBr ⟨.integer 1, "%c", none, none, "i1 %c"⟩ 1 2⟩,
  ⟨[], [], "br label %2", .br none 2⟩,
  ⟨crossedPhis, [], "ret void", .ret⟩]

theorem phi_mem_crossedPhis {b : BasicBlock} (hb : b ∈ crossedBlocks) {phi : PhiInstruction}
    (hphi : phi ∈ b.phis) : phi ∈ crossedPhis := by
  simp only [crossedBlocks, List.mem_cons, List.not_mem_nil, or_false] at hb
  rcases hb with rfl | rfl | rfl
  · cases hphi
  · cases hphi
  · exact hphi

/-- The function of these blocks. -/
def crossedJoin : LlvmFunction where
  name := "f"
  blocks := crossedBlocks
  successor_lt := by decide
  entry_notMem := by decide
  mem_incomings_iff k b hb phi hphi source := by
    match k, hb with
    | 0, hb | 1, hb =>
      obtain rfl := Option.some.inj hb
      cases hphi
    | 2, hb =>
      obtain rfl := Option.some.inj hb
      rcases List.mem_pair.1 hphi with rfl | rfl <;>
        match source with
        | 0 | 1 | 2 | n + 3 => simp [crossedBlocks, TerminatorKind.getSuccessorBlocks]
    | n + 3, hb => cases hb
  incoming_eq b hb phi hphi source v w hv hw := by
    have hmem := phi_mem_crossedPhis hb hphi
    rcases List.mem_pair.1 hmem with rfl | rfl <;>
      rcases List.mem_pair.1 hv with hv | hv <;> rcases List.mem_pair.1 hw with hw | hw <;>
        simp_all
  incoming_kind b hb phi hphi incoming hincoming := by
    have hmem := phi_mem_crossedPhis hb hphi
    rcases List.mem_pair.1 hmem with rfl | rfl <;>
      rcases List.mem_pair.1 hincoming with rfl | rfl <;> rfl
  constant_kind b hb phi hphi incoming hincoming := by
    have hmem := phi_mem_crossedPhis hb hphi
    rcases List.mem_pair.1 hmem with rfl | rfl <;>
      rcases List.mem_pair.1 hincoming with rfl | rfl <;> simp [word]

/-- The edges of the branch and of the empty block. -/
def crossedEdges : List LoweredEdge := [
  ⟨⟨0, 0⟩, ⟨2, 0⟩, .not (.var (.bool "f$%c")), []⟩,
  ⟨⟨0, 0⟩, ⟨1, 0⟩, .var (.bool "f$%c"), []⟩,
  ⟨⟨1, 0⟩, ⟨2, 0⟩, .tru, []⟩,
  ⟨⟨2, 0⟩, ⟨2, 1⟩, .tru, []⟩,
  ⟨⟨2, 1⟩, ⟨2, 2⟩, .tru, []⟩]

theorem lowerEdges_crossedJoin : lowerEdges crossedJoin = .ok crossedEdges := rfl

theorem phisAssigned_crossedJoin_iff :
    PhisAssigned crossedJoin .unknownCallees (fun _ ↦ .identity) crossedEdges ↔
      SinglePhis crossedJoin :=
  phisAssigned_iff lowerEdges_crossedJoin .unknownCallees fun _ ↦ .identity

/-- No instruction of the entry block has the second PHI as a successor, and the lowering fails. -/
theorem not_phisAssigned_crossedJoin : ∃ edges, lowerEdges crossedJoin = .ok edges ∧
    ∀ sem transfer, ¬ PhisAssigned crossedJoin sem transfer edges := by
  refine ⟨_, lowerEdges_crossedJoin, fun sem transfer h ↦ ?_⟩
  have hfails : lowerPhiEdgeEffects crossedJoin crossedEdges = .error (.phiPredecessorMismatch
      "could not match PHI incoming for %y = phi i32 [ 1, %0 ], [ 0, %1 ]") := rfl
  obtain ⟨edges', hedges'⟩ := h.lowers
  rw [hfails] at hedges'
  cases hedges'

end Lowering

end MayMust
