import Mathlib.Data.Finset.Card
import Mathlib.Data.Finset.Dedup
import Mathlib.Data.Finset.Image
import Mathlib.Tactic.SplitIfs

/-!
# Inference of memory-pure functions

`infer_memory_pure_functions` of the source: functions with a `store` are impure, and so is every
caller of an impure function; the others are pure, and calls to them leave the memory of their
caller alone. What the inference computes is the reachability of a store along the calls it sees
(`mem_inferMemoryPureFunctions_iff`).

A function may write memory also where the inference does not look (`GraphInstruction.Overlooked`):
by an atomic instruction, through a function pointer, in a function without a body, or behind an
`invoke`. The inferred functions are free of writes exactly if every function with such an
instruction reaches a store as well.
-/

namespace MayMust

namespace Purity

/-! ### Program graphs -/

/-- The called value of a call: a function or a pointer, with its name. -/
structure CalledValue where
  name : String
  isFunction : Bool
  deriving DecidableEq

/-- A visible instruction, as far as writes to memory are concerned. -/
inductive GraphInstruction
  | store
  /-- An atomic read-modify-write; whether the caller can see the memory it writes. -/
  | atomic (escapes : Bool)
  | call (called : CalledValue)
  /-- A call by another opcode (`invoke`, `callbr`). -/
  | invoke (called : CalledValue)
  | other
  deriving DecidableEq

/-- A function with a body: its name and its visible instructions. -/
structure FunctionGraph where
  name : String
  vertices : List GraphInstruction

/-- `get_called_function`: the name of the called value, for the call opcode only. -/
def GraphInstruction.getCalledFunction : GraphInstruction → Option String
  | call called => if called.name = "" then none else some called.name
  | _ => none

/-- The function a call names directly. -/
def GraphInstruction.directCallee : GraphInstruction → Option String
  | call called | invoke called => if called.isFunction then some called.name else none
  | _ => none

/-- A call through a pointer. -/
def GraphInstruction.Indirect : GraphInstruction → Prop
  | call called | invoke called => called.isFunction = false
  | _ => False

/-! ### The inference -/

/-- `str::starts_with`. -/
def startsWith (name start : String) : Bool := decide (start.toList <+: name.toList)

/-- `is_known_pure_external`. -/
def isKnownPureExternal (name : String) : Bool :=
  startsWith name "__may_nondet_" ||
    (name == "llvm.stacksave" || name == "llvm.stackrestore" ||
      startsWith name "llvm.stacksave." || startsWith name "llvm.stackrestore.")

/-- The instruction calls a function already found impure. -/
def callsImpure (impure : Finset String) (i : GraphInstruction) : Bool :=
  match i.getCalledFunction with
  | some callee =>
    if callee = "may_assert" ∨ isKnownPureExternal callee then false else decide (callee ∈ impure)
  | none => false

/-- The functions with a store. -/
def storingFunctions (graphs : List FunctionGraph) : Finset String :=
  ((graphs.filter fun g ↦ g.vertices.any (· = .store)).map FunctionGraph.name).toFinset

/-- One function of a round; the flag says whether the round has added a function. -/
def visitFunction (found : Finset String × Bool) (g : FunctionGraph) : Finset String × Bool :=
  if g.name ∈ found.1 then found
  else if g.vertices.any (callsImpure found.1) then (insert g.name found.1, true)
  else found

/-- One round of the loop. -/
def round (graphs : List FunctionGraph) (impure : Finset String) : Finset String × Bool :=
  graphs.foldl visitFunction (impure, false)

variable {graphs : List FunctionGraph} {g : FunctionGraph} {i : GraphInstruction}
  {impure : Finset String} {found : Finset String × Bool} {f : String}

theorem subset_visitFunction : found.1 ⊆ (visitFunction found g).1 := by
  rw [visitFunction]
  split_ifs
  · exact Finset.Subset.refl _
  · exact Finset.subset_insert _ _
  · exact Finset.Subset.refl _

theorem subset_foldl_visitFunction : found.1 ⊆ (graphs.foldl visitFunction found).1 := by
  induction graphs generalizing found with
  | nil => exact Finset.Subset.refl _
  | cons g graphs ih => exact subset_visitFunction.trans ih

/-- A round that reports a change adds the name of a function. -/
theorem exists_new_of_changed (hnot : found.2 = false)
    (h : (graphs.foldl visitFunction found).2 = true) :
    ∃ g ∈ graphs, g.name ∉ found.1 ∧ g.name ∈ (graphs.foldl visitFunction found).1 := by
  induction graphs generalizing found with
  | nil => simp [hnot] at h
  | cons g graphs ih =>
    rw [List.foldl_cons] at h ⊢
    by_cases hg : g.name ∉ found.1 ∧ g.vertices.any (callsImpure found.1) = true
    · refine ⟨g, List.mem_cons_self, hg.1, subset_foldl_visitFunction ?_⟩
      rw [visitFunction, if_neg hg.1, if_pos hg.2]
      exact Finset.mem_insert_self _ _
    · have hsame : visitFunction found g = found := by
        rw [visitFunction]
        split_ifs with hmem hany
        · rfl
        · exact absurd ⟨hmem, hany⟩ hg
        · rfl
      rw [hsame] at h ⊢
      obtain ⟨g', hg', hnew⟩ := ih hnot h
      exact ⟨g', List.mem_cons_of_mem _ hg', hnew⟩

/-- The loop `while changed`. A round that changes something adds one of the finitely many
functions. -/
def propagate (graphs : List FunctionGraph) (impure : Finset String) : Finset String :=
  let found := round graphs impure
  if _h : found.2 = true then propagate graphs found.1 else found.1
termination_by ((graphs.map FunctionGraph.name).toFinset \ impure).card
decreasing_by
  obtain ⟨g, hg, hnew, hadded⟩ := @exists_new_of_changed graphs (impure, false) rfl _h
  refine Finset.card_lt_card ⟨Finset.sdiff_subset_sdiff (Finset.Subset.refl _) ?_, fun hsub ↦ ?_⟩
  · exact @subset_foldl_visitFunction graphs (impure, false)
  · have hname : g.name ∈ (graphs.map FunctionGraph.name).toFinset :=
      List.mem_toFinset.2 (List.mem_map.2 ⟨g, hg, rfl⟩)
    exact (Finset.mem_sdiff.1 (hsub (Finset.mem_sdiff.2 ⟨hname, hnew⟩))).2 hadded

/-- The known pure externals that are called somewhere. -/
def calledPureExternals (graphs : List FunctionGraph) : Finset String :=
  ((graphs.flatMap fun g ↦ g.vertices.filterMap GraphInstruction.getCalledFunction).filter
    fun callee ↦ isKnownPureExternal callee).toFinset

/-- `infer_memory_pure_functions`. -/
def inferMemoryPureFunctions (graphs : List FunctionGraph) : Finset String :=
  let impure := propagate graphs (storingFunctions graphs)
  ((graphs.map FunctionGraph.name).filter (· ∉ impure)).toFinset ∪ calledPureExternals graphs

/-! ### What it computes -/

/-- The function reaches a store along the calls the inference follows. -/
inductive Storing (graphs : List FunctionGraph) : String → Prop
  | store {g : FunctionGraph} (hg : g ∈ graphs) (hi : .store ∈ g.vertices) : Storing graphs g.name
  | call {g : FunctionGraph} {i : GraphInstruction} {callee : String} (hg : g ∈ graphs)
    (hi : i ∈ g.vertices) (hcallee : i.getCalledFunction = some callee)
    (hassert : callee ≠ "may_assert") (hpure : isKnownPureExternal callee = false)
    (h : Storing graphs callee) : Storing graphs g.name

theorem callsImpure_eq_true_iff : callsImpure impure i = true ↔
    ∃ callee, i.getCalledFunction = some callee ∧ callee ≠ "may_assert" ∧
      isKnownPureExternal callee = false ∧ callee ∈ impure := by
  rw [callsImpure]
  cases i.getCalledFunction with
  | none => simp
  | some callee => simp [and_assoc]

theorem mem_storingFunctions :
    f ∈ storingFunctions graphs ↔ ∃ g ∈ graphs, .store ∈ g.vertices ∧ g.name = f := by
  simp [storingFunctions, and_assoc]

/-- A function visited in a round is found only if it reaches a store. -/
theorem storing_of_mem_visitFunction (hg : g ∈ graphs) (h : ∀ f ∈ found.1, Storing graphs f)
    (hf : f ∈ (visitFunction found g).1) : Storing graphs f := by
  rw [visitFunction] at hf
  split_ifs at hf with hmem hany
  · exact h f hf
  · rcases Finset.mem_insert.1 hf with rfl | hf
    · obtain ⟨i, hi, hcalls⟩ := List.any_eq_true.1 hany
      obtain ⟨callee, hcallee, hassert, hpure, himpure⟩ := callsImpure_eq_true_iff.1 hcalls
      exact .call hg hi hcallee hassert hpure (h callee himpure)
    · exact h f hf
  · exact h f hf

/-- A round finds only functions that reach a store. -/
theorem storing_of_mem_round (h : ∀ f ∈ impure, Storing graphs f)
    (hf : f ∈ (round graphs impure).1) : Storing graphs f := by
  refine List.foldlRecOn (motive := fun found ↦ ∀ f ∈ found.1, Storing graphs f)
    graphs visitFunction h ?_ f hf
  exact fun _ hfound _ hg _ hf ↦ storing_of_mem_visitFunction hg hfound hf

/-- A round without a change has found every function that calls a found one. -/
theorem mem_of_unchanged (h : (graphs.foldl visitFunction found).2 = false) :
    (graphs.foldl visitFunction found).1 = found.1 ∧ found.2 = false ∧
      ∀ g ∈ graphs, g.vertices.any (callsImpure found.1) = true → g.name ∈ found.1 := by
  induction graphs generalizing found with
  | nil => exact ⟨rfl, h, fun g hg ↦ (List.not_mem_nil hg).elim⟩
  | cons g graphs ih =>
    rw [List.foldl_cons] at h ⊢
    obtain ⟨heq, hnot, hcalls⟩ := ih h
    by_cases hg : g.name ∉ found.1 ∧ g.vertices.any (callsImpure found.1) = true
    · rw [visitFunction, if_neg hg.1, if_pos hg.2] at hnot
      cases hnot
    · have hsame : visitFunction found g = found := by
        rw [visitFunction]
        split_ifs with hmem hany
        · rfl
        · exact absurd ⟨hmem, hany⟩ hg
        · rfl
      rw [hsame] at heq hnot hcalls
      rw [hsame]
      refine ⟨heq, hnot, fun g' hg' hany ↦ ?_⟩
      rcases List.mem_cons.1 hg' with rfl | hg'
      · by_contra hmem
        exact hg ⟨hmem, hany⟩
      · exact hcalls g' hg' hany

/-- The loop finds exactly the functions that reach a store. -/
theorem mem_propagate_iff (hstart : ∀ f ∈ impure, Storing graphs f)
    (hstores : storingFunctions graphs ⊆ impure) :
    f ∈ propagate graphs impure ↔ Storing graphs f := by
  induction impure using propagate.induct graphs with
  | case1 impure found hchanged ih =>
    rw [propagate, dif_pos hchanged]
    exact ih (fun f ↦ storing_of_mem_round hstart)
      (hstores.trans (@subset_foldl_visitFunction graphs (impure, false)))
  | case2 impure found hunchanged =>
    rw [propagate, dif_neg hunchanged]
    have hfixed := @mem_of_unchanged graphs (impure, false) (Bool.eq_false_iff.2 hunchanged)
    obtain ⟨heq, -, hclosed⟩ := hfixed
    refine ⟨storing_of_mem_round hstart, fun hf ↦ ?_⟩
    rw [round, heq]
    induction hf with
    | store hg hi => exact hstores (mem_storingFunctions.2 ⟨_, hg, hi, rfl⟩)
    | call hg hi hcallee hassert hpure _ ih =>
      refine hclosed _ hg (List.any_eq_true.2 ⟨_, hi, ?_⟩)
      exact callsImpure_eq_true_iff.2 ⟨_, hcallee, hassert, hpure, ih⟩

/-- The inferred functions: those with a body that reach no store, and the known pure externals
that are called. -/
theorem mem_inferMemoryPureFunctions_iff : f ∈ inferMemoryPureFunctions graphs ↔
    ((∃ g ∈ graphs, g.name = f) ∧ ¬ Storing graphs f) ∨
      (isKnownPureExternal f = true ∧
        ∃ g ∈ graphs, ∃ i ∈ g.vertices, i.getCalledFunction = some f) := by
  have hstoring : ∀ f ∈ storingFunctions graphs, Storing graphs f := by
    intro f hf
    obtain ⟨g, hg, hi, rfl⟩ := mem_storingFunctions.1 hf
    exact .store hg hi
  have himpure (f : String) := @mem_propagate_iff graphs _ f hstoring (Finset.Subset.refl _)
  simp only [inferMemoryPureFunctions, calledPureExternals, Finset.mem_union, List.mem_toFinset,
    List.mem_filter, List.mem_map, List.mem_flatMap, List.mem_filterMap, himpure,
    decide_eq_true_eq]
  refine or_congr Iff.rfl ⟨?_, ?_⟩
  · rintro ⟨⟨g, hg, i, hi, hcallee⟩, hpure⟩
    exact ⟨hpure, g, hg, i, hi, hcallee⟩
  · rintro ⟨hpure, g, hg, i, hi, hcallee⟩
    exact ⟨⟨g, hg, i, hi, hcallee⟩, hpure⟩

/-! ### What may write memory -/

/-- The function may write memory that its caller sees, itself or in a function it may call. Nothing
is known about what a pointer calls, nor about a function without a body that is not one of the
known pure externals. -/
inductive MayWrite (graphs : List FunctionGraph) : String → Prop
  | store {g : FunctionGraph} (hg : g ∈ graphs) (hi : .store ∈ g.vertices) : MayWrite graphs g.name
  | atomic {g : FunctionGraph} (hg : g ∈ graphs) (hi : .atomic true ∈ g.vertices) :
    MayWrite graphs g.name
  | indirect {g : FunctionGraph} {i : GraphInstruction} (hg : g ∈ graphs) (hi : i ∈ g.vertices)
    (hindirect : i.Indirect) : MayWrite graphs g.name
  | external {g : FunctionGraph} {i : GraphInstruction} {callee : String} (hg : g ∈ graphs)
    (hi : i ∈ g.vertices) (hcallee : i.directCallee = some callee) (hassert : callee ≠ "may_assert")
    (hpure : isKnownPureExternal callee = false) (hbody : ∀ g' ∈ graphs, g'.name ≠ callee) :
    MayWrite graphs g.name
  | call {g : FunctionGraph} {i : GraphInstruction} {callee : String} (hg : g ∈ graphs)
    (hi : i ∈ g.vertices) (hcallee : i.directCallee = some callee) (hassert : callee ≠ "may_assert")
    (h : MayWrite graphs callee) : MayWrite graphs g.name

/-- The instruction may write memory in a way the inference does not look at. -/
inductive GraphInstruction.Overlooked (graphs : List FunctionGraph) : GraphInstruction → Prop
  /-- An atomic write to memory the caller sees. -/
  | atomic : Overlooked graphs (.atomic true)
  /-- A call through a pointer. -/
  | indirect {i : GraphInstruction} (h : i.Indirect) : Overlooked graphs i
  /-- A call of a function without a body that is not known to be pure. -/
  | external {i : GraphInstruction} {callee : String} (hcallee : i.directCallee = some callee)
    (hassert : callee ≠ "may_assert") (hpure : isKnownPureExternal callee = false)
    (hbody : ∀ g ∈ graphs, g.name ≠ callee) : Overlooked graphs i
  /-- A call of a storing function by another opcode, or of one without a name. -/
  | unseen {i : GraphInstruction} {callee : String} (hcallee : i.directCallee = some callee)
    (hassert : callee ≠ "may_assert") (hunseen : i.getCalledFunction ≠ some callee)
    (h : Storing graphs callee) : Overlooked graphs i

/-- Every function with an overlooked instruction reaches a store, and no called function with the
name of a known pure external does. -/
structure Covered (graphs : List FunctionGraph) : Prop where
  overlooked : ∀ g ∈ graphs, ∀ i ∈ g.vertices, i.Overlooked graphs → Storing graphs g.name
  pureExternal : ∀ g ∈ graphs, ∀ i ∈ g.vertices, ∀ callee, i.getCalledFunction = some callee →
    isKnownPureExternal callee = true → ¬ Storing graphs callee

/-- A seen call names the called function, unless it calls through a pointer. -/
theorem directCallee_or_indirect {callee : String} (h : i.getCalledFunction = some callee) :
    i.directCallee = some callee ∨ i.Indirect := by
  cases i with
  | call called =>
    obtain ⟨-, hname⟩ : called.name ≠ "" ∧ called.name = callee := by
      simpa [GraphInstruction.getCalledFunction] using h
    cases hfunction : called.isFunction with
    | true => exact Or.inl (by simp [GraphInstruction.directCallee, hfunction, hname])
    | false => exact Or.inr hfunction
  | _ => cases h

/-- Reaching a store is a way to write memory. -/
theorem Storing.mayWrite (h : Storing graphs f) : MayWrite graphs f := by
  induction h with
  | store hg hi => exact .store hg hi
  | call hg hi hcallee hassert _ _ ih =>
    rcases directCallee_or_indirect hcallee with hdirect | hindirect
    · exact .call hg hi hdirect hassert ih
    · exact .indirect hg hi hindirect

theorem GraphInstruction.Overlooked.mayWrite (hg : g ∈ graphs) (hi : i ∈ g.vertices)
    (h : i.Overlooked graphs) : MayWrite graphs g.name := by
  cases h with
  | atomic => exact .atomic hg hi
  | indirect h => exact .indirect hg hi h
  | external hcallee hassert hpure hbody => exact .external hg hi hcallee hassert hpure hbody
  | unseen hcallee hassert _ h => exact .call hg hi hcallee hassert h.mayWrite

/-- Where nothing is overlooked, every function that may write memory reaches a store. -/
theorem MayWrite.storing (hcovered : Covered graphs) (h : MayWrite graphs f) :
    Storing graphs f := by
  induction h with
  | store hg hi => exact .store hg hi
  | atomic hg hi => exact hcovered.overlooked _ hg _ hi .atomic
  | indirect hg hi hindirect => exact hcovered.overlooked _ hg _ hi (.indirect hindirect)
  | external hg hi hcallee hassert hpure hbody =>
    exact hcovered.overlooked _ hg _ hi (.external hcallee hassert hpure hbody)
  | @call g i callee hg hi hcallee hassert _ ih =>
    by_cases hseen : i.getCalledFunction = some callee
    · cases hpure : isKnownPureExternal callee with
      | true => exact absurd ih (hcovered.pureExternal _ hg _ hi _ hseen hpure)
      | false => exact .call hg hi hseen hassert hpure ih
    · exact hcovered.overlooked _ hg _ hi (.unseen hcallee hassert hseen ih)

/-- Without a store there is none to be reached. -/
theorem not_storing (h : ∀ g ∈ graphs, .store ∉ g.vertices) : ¬ Storing graphs f := by
  intro hf
  induction hf with
  | store hg hi => exact h _ hg hi
  | call _ _ _ _ _ _ ih => exact ih

/-- **The inferred functions write no memory exactly if nothing is overlooked.** For every program
graph, none of the functions in the result may write memory, itself or in a function it may call,
if and only if every function with an overlooked instruction also reaches a store along the calls
the inference follows, and no called function with the name of a known pure external does. -/
theorem not_mayWrite_of_mem_infer_iff (graphs : List FunctionGraph) :
    (∀ f ∈ inferMemoryPureFunctions graphs, ¬ MayWrite graphs f) ↔ Covered graphs := by
  constructor
  · intro h
    refine ⟨fun g hg i hi hover ↦ ?_, fun g hg i hi callee hcallee hpure hstoring ↦ ?_⟩
    · by_contra hstoring
      exact h g.name (mem_inferMemoryPureFunctions_iff.2 (Or.inl ⟨⟨g, hg, rfl⟩, hstoring⟩))
        (hover.mayWrite hg hi)
    · exact h callee
        (mem_inferMemoryPureFunctions_iff.2 (Or.inr ⟨hpure, g, hg, i, hi, hcallee⟩))
        hstoring.mayWrite
  · intro hcovered f hf hwrite
    have hstoring := hwrite.storing hcovered
    rcases mem_inferMemoryPureFunctions_iff.1 hf with ⟨-, hnot⟩ | ⟨hpure, g, hg, i, hi, hcallee⟩
    · exact hnot hstoring
    · exact hcovered.pureExternal g hg i hi f hcallee hpure hstoring

/-- A function that does nothing but call an external one. -/
def callsExternal : List FunctionGraph := [⟨"wrap", [.call ⟨"write_global", true⟩]⟩]

/-- A function that calls an unknown external function is inferred to be pure. -/
theorem not_not_mayWrite_of_mem_infer :
    ¬ ∀ graphs, ∀ f ∈ inferMemoryPureFunctions graphs, ¬ MayWrite graphs f := by
  intro h
  have hwrite : MayWrite callsExternal "wrap" :=
    .external (i := .call ⟨"write_global", true⟩) List.mem_cons_self List.mem_cons_self rfl
      (by decide) (by decide) (by decide)
  have hstoring : ¬ Storing callsExternal "wrap" := not_storing (by decide)
  exact h callsExternal "wrap"
    (mem_inferMemoryPureFunctions_iff.2 (Or.inl ⟨⟨_, List.mem_cons_self, rfl⟩, hstoring⟩)) hwrite

end Purity

end MayMust
