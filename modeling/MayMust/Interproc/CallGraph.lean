import Mathlib.Data.Finset.Sort
import Mathlib.Data.String.Basic
import MayMust.Cfg.Adapter.Purity
import MayMust.Library.TargetSearch

/-!
# Recursive functions

`recursive_functions` of the source flags the functions of a module that lead back to themselves in
the call graph. The graph has the functions with a body as its nodes, and its edges are the direct
calls between them. For each function a depth-first search looks for a way back, and all branches of
one search share what has been seen. The flags are right (`mem_recursiveFunctions_iff`), so a module
without flags has no cycle of calls at all (`recursiveFunctions_eq_empty_iff`).

The source keeps the callees of a function under its name. Functions of a module have different
names, and that is assumed where it matters.
-/

namespace MayMust

namespace Purity

open Library Relation

/-! ### The source -/

/-- The names of the functions with a body. -/
def functionNames (graphs : List FunctionGraph) : Finset String :=
  (graphs.map (·.name)).toFinset

/-- The order of a sorted set of names. -/
def inOrder (names : Finset String) : List String := names.sort

/-- The callees of a function that have a body. -/
def calleesAmong (inGraph : Finset String) (g : FunctionGraph) : List String :=
  inOrder ((g.vertices.filterMap (·.getCalledFunction)).filter fun callee ↦
    callee ≠ "may_assert" ∧ callee ∈ inGraph).toFinset

/-- The map of the callees. A name that is not in the map has no callees. -/
def callMap (graphs : List FunctionGraph) : String → List String :=
  graphs.foldl
    (fun calls g ↦ Function.update calls g.name (calleesAmong (functionNames graphs) g)) fun _ ↦ []

/-- `reaches`, as it is called for a function and itself. -/
def reachesItself (graphs : List FunctionGraph) (name : String) : Bool :=
  (searchFrom (callMap graphs) name ((functionNames graphs).card + 1) name ∅).1

/-- `recursive_functions`. -/
def recursiveFunctions (graphs : List FunctionGraph) : Finset String :=
  (functionNames graphs).filter fun name ↦ reachesItself graphs name

/-! ### What is flagged -/

/-- A function calls another one directly, and both have a body. -/
def Calls (graphs : List FunctionGraph) (caller callee : String) : Prop :=
  ∃ g ∈ graphs, g.name = caller ∧ (∃ i ∈ g.vertices, i.getCalledFunction = some callee) ∧
    callee ≠ "may_assert" ∧ ∃ g' ∈ graphs, g'.name = callee

section CallGraph

variable {graphs rest : List FunctionGraph} {g : FunctionGraph} {inGraph : Finset String}
  {calls : String → List String} {name caller callee : String}

theorem mem_functionNames : name ∈ functionNames graphs ↔ ∃ g ∈ graphs, g.name = name := by
  rw [functionNames, List.mem_toFinset, List.mem_map]

theorem mem_calleesAmong : callee ∈ calleesAmong inGraph g ↔
    (∃ i ∈ g.vertices, i.getCalledFunction = some callee) ∧ callee ≠ "may_assert" ∧
      callee ∈ inGraph := by
  rw [calleesAmong, inOrder, Finset.mem_sort, List.mem_toFinset, List.mem_filter, List.mem_filterMap,
    decide_eq_true_iff]

theorem foldl_update_of_notMem (hname : ∀ g ∈ rest, g.name ≠ name) :
    rest.foldl (fun calls g ↦ Function.update calls g.name (calleesAmong inGraph g)) calls name =
      calls name := by
  induction rest generalizing calls with
  | nil => rfl
  | cons g rest ih =>
    rw [List.forall_mem_cons] at hname
    rw [List.foldl_cons, ih hname.2, Function.update_of_ne hname.1.symm]

theorem foldl_update_of_mem (hnodup : (rest.map (·.name)).Nodup) (hg : g ∈ rest) :
    rest.foldl (fun calls g ↦ Function.update calls g.name (calleesAmong inGraph g)) calls g.name =
      calleesAmong inGraph g := by
  induction rest generalizing calls with
  | nil => cases hg
  | cons g' rest ih =>
    rw [List.map_cons, List.nodup_cons] at hnodup
    rcases List.mem_cons.1 hg with rfl | hg
    · rw [List.foldl_cons, foldl_update_of_notMem, Function.update_self]
      exact fun g' hg' heq ↦ hnodup.1 (heq ▸ List.mem_map_of_mem hg')
    · exact ih hnodup.2 hg

/-- The map is that of the direct calls. -/
theorem succeeds_callMap_iff (hnodup : (graphs.map (·.name)).Nodup) :
    Succeeds (callMap graphs) caller callee ↔ Calls graphs caller callee := by
  rw [Succeeds, callMap]
  constructor
  · intro hmem
    by_cases hcaller : ∃ g ∈ graphs, g.name = caller
    · obtain ⟨g, hg, rfl⟩ := hcaller
      rw [foldl_update_of_mem hnodup hg, mem_calleesAmong, mem_functionNames] at hmem
      exact ⟨g, hg, rfl, hmem⟩
    · rw [foldl_update_of_notMem fun g hg heq ↦ hcaller ⟨g, hg, heq⟩] at hmem
      cases hmem
  · rintro ⟨g, hg, rfl, hcalls⟩
    rw [foldl_update_of_mem hnodup hg, mem_calleesAmong, mem_functionNames]
    exact hcalls

theorem mem_functionNames_of_calls (h : Calls graphs caller callee) :
    caller ∈ functionNames graphs ∧ callee ∈ functionNames graphs := by
  obtain ⟨g, hg, rfl, -, -, hcallee⟩ := h
  exact ⟨mem_functionNames.2 ⟨g, hg, rfl⟩, mem_functionNames.2 hcallee⟩

/-- A function is flagged exactly if a chain of direct calls leads from it
back to it. -/
theorem mem_recursiveFunctions_iff (hnodup : (graphs.map (·.name)).Nodup) :
    name ∈ recursiveFunctions graphs ↔ TransGen (Calls graphs) name name := by
  have hcalls : Succeeds (callMap graphs) = Calls graphs :=
    funext₂ fun _ _ ↦ propext (succeeds_callMap_iff hnodup)
  have hsearch : reachesItself graphs name = true ↔ TransGen (Calls graphs) name name := by
    rw [reachesItself, ← hcalls]
    refine searchFrom_eq_true_iff (fun caller callee hcallee ↦ ?_) (Nat.lt_succ_self _)
    exact (mem_functionNames_of_calls ((succeeds_callMap_iff hnodup).1 hcallee)).2
  rw [recursiveFunctions, Finset.mem_filter, hsearch, and_iff_right_iff_imp]
  intro hcycle
  obtain ⟨_, _, hlast⟩ := TransGen.tail'_iff.1 hcycle
  exact (mem_functionNames_of_calls hlast).2

/-- Without flags no function leads back to itself. -/
theorem recursiveFunctions_eq_empty_iff (hnodup : (graphs.map (·.name)).Nodup) :
    recursiveFunctions graphs = ∅ ↔ ∀ name, ¬ TransGen (Calls graphs) name name := by
  simp only [Finset.eq_empty_iff_forall_notMem, mem_recursiveFunctions_iff hnodup]

end CallGraph

end Purity

end MayMust
