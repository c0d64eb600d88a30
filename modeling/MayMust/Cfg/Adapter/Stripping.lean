import Mathlib.Data.List.Range
import MayMust.Cfg.Execution
import MayMust.Cfg.Frame

/-!
# Stripped calls and their anchors

The front end strips the calls of `may_assert`, `may_assume`, `may_type_bound` and the error
functions from the instruction graph and records, for each, its nearest visible neighbours in the
block. The adapter then anchors them: an assertion at the node that defines the asserted value or
else at a neighbour, an assumption at a neighbour.

The instructions are those of a path through a function: basic blocks one after the other, with the
guard and the effects of the edge by which each next block is entered. A block is a path that
enters none. An instruction is identified by its position on the path, and so is its node.
-/

namespace MayMust

open Library

/-! ### The source -/

/-- The first argument of a stripped call: the formula `lower_bool_value` gives for it, and the
position of the instruction that defines it. -/
structure CallOperand where
  displayName : String
  condition : Formula
  definer : Option ℕ
  deriving DecidableEq

/-- What stands on a path. -/
inductive PathItem
  /-- An instruction that gets a node, with the transfer function `lower_node_transfer` gives it. -/
  | visible (displayName : String) (transfer : TransferFn)
  | mayAssert (operand : CallOperand)
  | unconditionalFail (displayName : String)
  | mayAssume (operand : CallOperand)
  | mayTypeBound (operand : CallOperand)
  | noise
  /-- The next block is entered by an edge with this guard and these effects. -/
  | enter (guard : Formula) (effects : List TransferEffect)
  deriving DecidableEq

/-- A `may_assert` or error call site. -/
structure AssertSite where
  assertedValue : CallOperand
  predecessor : Option ℕ
  successor : Option ℕ
  isUnconditionalFail : Bool

/-- A `may_assume` or `may_type_bound` call site. -/
structure AssumeSite where
  assumedValue : CallOperand
  predecessor : Option ℕ
  successor : Option ℕ
  isTypeBound : Bool

section Source

variable (items : List PathItem)

/-- The transfer function of the instruction at a position, if it is visible. -/
def visibleAt (position : ℕ) : Option TransferFn :=
  match items[position]? with
  | some (.visible _ transfer) => some transfer
  | _ => none

/-- The name of the instruction at a position. -/
def displayNameAt (position : ℕ) : String :=
  match items[position]? with
  | some (.visible displayName _) => displayName
  | _ => ""

/-- `previous_visible_instruction`: the search does not leave the block. -/
def previousVisibleInstruction : ℕ → Option ℕ
  | 0 => none
  | position + 1 =>
    match items[position]? with
    | some (.visible ..) => some position
    | some (.enter ..) => none
    | _ => previousVisibleInstruction position

/-- The first visible instruction of a list that starts at a position. -/
def firstVisibleInstruction : List PathItem → ℕ → Option ℕ
  | [], _ => none
  | .visible .. :: _, position => some position
  | .enter .. :: _, _ => none
  | _ :: rest, position => firstVisibleInstruction rest (position + 1)

/-- `next_visible_instruction`. -/
def nextVisibleInstruction (position : ℕ) : Option ℕ :=
  firstVisibleInstruction (items.drop (position + 1)) (position + 1)

/-- The assertion site `FunctionGraph::new` records for a call. -/
def assertSiteAt (position : ℕ) : Option AssertSite :=
  let site (assertedValue : CallOperand) (isUnconditionalFail : Bool) : AssertSite :=
    { assertedValue
      predecessor := previousVisibleInstruction items position
      successor := nextVisibleInstruction items position
      isUnconditionalFail }
  match items[position]? with
  | some (.mayAssert operand) => some (site operand false)
  -- The asserted value is the call itself, which has no node.
  | some (.unconditionalFail displayName) => some (site ⟨displayName, .fls, none⟩ true)
  | _ => none

/-- The assumption site `FunctionGraph::new` records for a call. -/
def assumeSiteAt (position : ℕ) : Option AssumeSite :=
  let site (assumedValue : CallOperand) (isTypeBound : Bool) : AssumeSite :=
    { assumedValue
      predecessor := previousVisibleInstruction items position
      successor := nextVisibleInstruction items position
      isTypeBound }
  match items[position]? with
  | some (.mayAssume operand) => some (site operand false)
  | some (.mayTypeBound operand) => some (site operand true)
  | _ => none

/-- The node of an instruction. -/
def instructionNode (position : ℕ) : Option CfgNodeId :=
  (visibleAt items position).map fun _ ↦ position

/-- `choose_assert_node`. -/
def chooseAssertNode (site : AssertSite) : Option CfgNodeId :=
  (site.assertedValue.definer.bind (instructionNode items)).or <|
    (site.predecessor.bind (instructionNode items)).or <|
      site.successor.bind (instructionNode items)

/-- `choose_assume_node`. -/
def chooseAssumeNode (site : AssumeSite) : Option CfgNodeId :=
  (site.predecessor.bind (instructionNode items)).or <|
    site.successor.bind (instructionNode items)

/-- `assertion_location`. -/
def assertionLocation (site : AssertSite) : String :=
  match site.predecessor, site.successor with
  | some predecessor, _ => "after " ++ displayNameAt items predecessor
  | none, some successor => "before " ++ displayNameAt items successor
  | none, none => site.assertedValue.displayName

/-- What `lower_assertions` makes of one site. -/
def lowerAssertion (site : AssertSite) (index : ℕ) : Option AssertionSite := do
  let node ← chooseAssertNode items site
  return {
    id := index + 1
    node
    obligation := if site.isUnconditionalFail then .fls else site.assertedValue.condition
    location := assertionLocation items site }

/-- The effect that `lower_assumes` pushes for a site. -/
def AssumeSite.effect (site : AssumeSite) : TransferEffect :=
  if site.isTypeBound then .typeBound site.assumedValue.condition
  else .assume site.assumedValue.condition

/-- The calls that are anchored at a node, in the order in which `lower_assumes` visits them. -/
def anchoredAt (node : CfgNodeId) : List ℕ :=
  (List.range items.length).filter fun position ↦
    (assumeSiteAt items position).bind (chooseAssumeNode items) = some node

/-- The effects `lower_assumes` pushes to a node. -/
def pushedEffects (node : CfgNodeId) : List TransferEffect :=
  (anchoredAt items node).filterMap fun position ↦
    (assumeSiteAt items position).map AssumeSite.effect

/-- The next position with a node, in this block or a later one. -/
def nextNode (position : ℕ) : Option ℕ :=
  (List.range items.length).find? fun next ↦ position < next ∧ (visibleAt items next).isSome

/-- The guard and the effects of the edge that leaves an instruction. -/
def edgeOf (position : ℕ) : Formula × List TransferEffect :=
  match items[position + 1]? with
  | some (.enter guard effects) => (guard, effects)
  | _ => (.tru, [])

/-- The nodes of the path. -/
def pathNodes : List AbstractNode :=
  (List.range items.length).filterMap fun position ↦
    (visibleAt items position).map fun transfer ↦
      ⟨position, displayNameAt items position, .normal,
        ⟨transfer.effects ++ pushedEffects items position⟩⟩

/-- The edges of the path. -/
def pathEdges : List AbstractEdge :=
  (List.range items.length).filterMap fun position ↦
    (visibleAt items position).bind fun _ ↦
      (nextNode items position).map fun next ↦
        ⟨position, position, next, (edgeOf items position).1, (edgeOf items position).2⟩

end Source

/-! ### Paths of blocks -/

namespace PathItem

/-- What an item does when it is executed where it stands. -/
def effects : PathItem → List TransferEffect
  | .visible _ transfer => transfer.effects
  | .mayAssume operand => [.assume operand.condition]
  | .mayTypeBound operand => [.typeBound operand.condition]
  | .enter guard effects => .assume guard :: effects
  | .mayAssert _ | .unconditionalFail _ | .noise => []

/-- The item moves the execution on: it is an instruction or the edge to the next block. -/
def isMove : PathItem → Bool
  | .visible .. | .enter .. => true
  | _ => false

/-- The condition of an assumption. -/
def test : PathItem → Formula
  | .mayAssume operand => operand.condition
  | _ => .tru

/-- The operand of a stripped call. -/
def operand? : PathItem → Option CallOperand
  | .mayAssert operand | .mayAssume operand | .mayTypeBound operand => some operand
  | _ => none

/-- The item may change the scalar. -/
def Writes (x : PathItem) (v : Var) : Prop := ∃ e ∈ x.effects, e.Writes v

/-- The item reads or writes the scalar. -/
def Mentions (x : PathItem) (v : Var) : Prop :=
  (∃ e ∈ x.effects, e.Mentions v) ∨ ∃ operand, x.operand? = some operand ∧
    operand.condition = .var v

/-- The item can stop an execution. -/
def Constrains : PathItem → Prop
  | .visible _ transfer => ∃ e ∈ transfer.effects, e.Constrains
  | .mayAssume _ | .enter .. => True
  | _ => False

instance : DecidablePred Constrains := fun x ↦ by cases x <;> unfold Constrains <;> infer_instance

/-- One item takes a state to another. -/
def Step (x : PathItem) (s s' : State) : Prop := Effects.Run .unknownCallees x.effects s s'

end PathItem

/-- A path of basic blocks, in the form in which the front end gets it. -/
structure BlockPath where
  items : List PathItem
  /-- A `lower_bool_value` is a constant or a Boolean variable. -/
  condition_form : ∀ x ∈ items, ∀ operand, x.operand? = some operand →
    operand.condition = .tru ∨ operand.condition = .fls ∨
      ∃ name, operand.condition = .var (.bool name)
  transfer_form : ∀ x ∈ items, ∀ displayName transfer, x = .visible displayName transfer →
    transfer.OfInstruction
  /-- A block ends with an instruction, and only then the next one is entered. -/
  enter_after : ∀ j guard effects, items[j]? = some (.enter guard effects) →
    ∃ i, j = i + 1 ∧ (visibleAt items i).isSome
  nonempty : ∃ j, (visibleAt items j).isSome
  /-- A value is defined before it is used, by an instruction. -/
  definer_lt : ∀ (k : ℕ) (x : PathItem) (operand : CallOperand) (d : ℕ), items[k]? = some x →
    x.operand? = some operand → operand.definer = some d → d < k ∧ (visibleAt items d).isSome
  /-- A value is not written after its definition. -/
  definer_last : ∀ (k : ℕ) (x : PathItem) (operand : CallOperand) (d : ℕ) (v : Var),
    items[k]? = some x → x.operand? = some operand → operand.definer = some d →
      operand.condition = .var v →
        ∀ (j : ℕ) (y : PathItem), d < j → items[j]? = some y → ¬ y.Writes v
  /-- Nothing is written after it has been read or written. -/
  ssa : items.Pairwise fun x y ↦ ∀ v, x.Mentions v → ¬ y.Writes v

section Nodes

variable {items : List PathItem} {j : ℕ} {transfer : TransferFn}

theorem visibleAt_eq_some_iff :
    visibleAt items j = some transfer ↔ ∃ displayName,
      items[j]? = some (.visible displayName transfer) := by
  rw [visibleAt]
  rcases items[j]? with _ | (_ | _ | _ | _ | _ | _ | _) <;> simp

theorem lt_length_of_visibleAt (h : (visibleAt items j).isSome) : j < items.length := by
  obtain ⟨transfer, htransfer⟩ := Option.isSome_iff_exists.1 h
  obtain ⟨displayName, hitem⟩ := visibleAt_eq_some_iff.1 htransfer
  exact (List.getElem?_eq_some_iff.1 hitem).1

theorem nextNode_spec {next : ℕ} (h : nextNode items j = some next) :
    j < next ∧ (visibleAt items next).isSome ∧ ∀ i, j < i → i < next →
      visibleAt items i = none := by
  rw [nextNode] at h
  rw [List.find?_range_eq_some] at h
  obtain ⟨hfound, -, hfirst⟩ := h
  simp only [decide_eq_true_eq] at hfound
  refine ⟨hfound.1, hfound.2, fun i hji hi ↦ ?_⟩
  have hnot := hfirst i hi
  simpa [hji] using hnot

theorem exists_nextNode {a : ℕ} (hja : j < a) (ha : (visibleAt items a).isSome) :
    ∃ next, nextNode items j = some next ∧ next ≤ a := by
  rcases hnext : nextNode items j with _ | next
  · rw [nextNode] at hnext
    have hnone := List.find?_eq_none.1 hnext a (List.mem_range.2 (lt_length_of_visibleAt ha))
    exact absurd (decide_eq_true ⟨hja, ha⟩) hnone
  · refine ⟨next, rfl, ?_⟩
    by_contra hlt
    have hnot := (nextNode_spec hnext).2.2 a hja (by omega)
    rw [hnot] at ha
    cases ha

theorem mem_pathNodes {n : AbstractNode} : n ∈ pathNodes items ↔
    ∃ transfer, visibleAt items n.id = some transfer ∧
      n = ⟨n.id, displayNameAt items n.id, .normal,
        ⟨transfer.effects ++ pushedEffects items n.id⟩⟩ := by
  rw [pathNodes]
  simp only [List.mem_filterMap, List.mem_range, Option.map_eq_some_iff]
  constructor
  · rintro ⟨position, -, transfer, htransfer, rfl⟩
    exact ⟨transfer, htransfer, rfl⟩
  · rintro ⟨transfer, htransfer, hn⟩
    have hlt := lt_length_of_visibleAt (Option.isSome_iff_exists.2 ⟨transfer, htransfer⟩)
    exact ⟨n.id, hlt, transfer, htransfer, hn.symm⟩

theorem mem_pathEdges {e : AbstractEdge} : e ∈ pathEdges items ↔
    (visibleAt items e.source).isSome ∧ nextNode items e.source = some e.target ∧
      e = ⟨e.source, e.source, e.target, (edgeOf items e.source).1, (edgeOf items e.source).2⟩ := by
  rw [pathEdges]
  simp only [List.mem_filterMap, List.mem_range, Option.bind_eq_some_iff, Option.map_eq_some_iff]
  constructor
  · rintro ⟨position, -, transfer, htransfer, next, hnext, rfl⟩
    exact ⟨Option.isSome_iff_exists.2 ⟨transfer, htransfer⟩, hnext, rfl⟩
  · rintro ⟨hvisible, hnext, he⟩
    obtain ⟨transfer, htransfer⟩ := Option.isSome_iff_exists.1 hvisible
    exact ⟨e.source, lt_length_of_visibleAt hvisible, transfer, htransfer, e.target, hnext, he.symm⟩

theorem mem_ids_pathNodes : j ∈ (pathNodes items).map (·.id) ↔ (visibleAt items j).isSome := by
  rw [List.mem_map, Option.isSome_iff_exists]
  constructor
  · rintro ⟨n, hn, rfl⟩
    obtain ⟨transfer, htransfer, -⟩ := mem_pathNodes.1 hn
    exact ⟨transfer, htransfer⟩
  · rintro ⟨transfer, htransfer⟩
    exact ⟨⟨j, displayNameAt items j, .normal, ⟨transfer.effects ++ pushedEffects items j⟩⟩,
      mem_pathNodes.2 ⟨transfer, htransfer, rfl⟩, rfl⟩

end Nodes

namespace BlockPath

variable (path : BlockPath)

/-- The lowered path. -/
def cfg : AbstractCfg where
  nodes := pathNodes path.items
  edges := pathEdges path.items
  entry := Nat.find path.nonempty
  concreteExits := []
  exit := none
  nextNode := path.items.length
  nextEdge := path.items.length
  nodes_sorted := by
    refine List.pairwise_filterMap.2 (List.pairwise_lt_range.imp fun {i j} hij n hn m hm ↦ ?_)
    simp only [Option.map_eq_some_iff] at hn hm
    obtain ⟨-, -, rfl⟩ := hn
    obtain ⟨-, -, rfl⟩ := hm
    exact hij
  edges_sorted := by
    refine List.pairwise_filterMap.2 (List.pairwise_lt_range.imp fun {i j} hij e he f hf ↦ ?_)
    simp only [Option.bind_eq_some_iff, Option.map_eq_some_iff] at he hf
    obtain ⟨-, -, -, -, rfl⟩ := he
    obtain ⟨-, -, -, -, rfl⟩ := hf
    exact hij
  node_lt n hn := lt_length_of_visibleAt (mem_ids_pathNodes.1 (List.mem_map.2 ⟨n, hn, rfl⟩))
  edge_lt e he := by
    obtain ⟨hvisible, -, heq⟩ := mem_pathEdges.1 he
    rw [heq]
    exact lt_length_of_visibleAt hvisible
  entry_mem := mem_ids_pathNodes.2 (Nat.find_spec path.nonempty)
  source_mem e he := mem_ids_pathNodes.2 (mem_pathEdges.1 he).1
  target_mem e he := mem_ids_pathNodes.2 (nextNode_spec (mem_pathEdges.1 he).2.1).2.1

theorem transferAt_cfg {j : ℕ} {transfer : TransferFn}
    (h : visibleAt path.items j = some transfer) :
    path.cfg.transferAt j = ⟨transfer.effects ++ pushedEffects path.items j⟩ := by
  have hmem : ⟨j, displayNameAt path.items j, .normal,
      ⟨transfer.effects ++ pushedEffects path.items j⟩⟩ ∈ path.cfg.nodes :=
    mem_pathNodes.2 ⟨transfer, h, rfl⟩
  exact AbstractCfg.transferAt_eq (AbstractCfg.node_eq_ok hmem)

end BlockPath

end MayMust
