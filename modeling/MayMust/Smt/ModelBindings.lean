import Mathlib.Data.List.Destutter
import MayMust.Formula.Rationals
import MayMust.Smt.Oracle
import MayMust.Smt.Solver

/-!
# Reading a model

`SmtScope::model_bindings` reads off a solver model the values of all declared constants. A memory
region is sampled at some indices. If all values read are equal, the region is summarised by that
value; otherwise each index gets a binding `name[index]`.

The values are collected by a pass that drops those that cannot be read as a 64-bit integer, and
are then matched with the indices by position. So the bindings of a region are right when the
unreadable indices come last, and only then (`forall_mem_zip_filterMap_iff`), unless there are no
bindings because the values are equal.
-/

namespace MayMust

open Library

/-! ### The model of the solver -/

/-- What the code asks of a solver model: expressions evaluated with completion and read as a
Boolean, as a 64-bit integer, or as a fraction. -/
structure Z3Model where
  asBool : Z3Bool → Option Bool
  asI64 : Z3Int → Option Int64
  asRational : Z3Real → Option (Int64 × Int64)

/-- The model assigns the values of the state: an integer expression is read as its value, if that
fits in 64 bits. -/
def Z3Model.Describes (model : Z3Model) (s : State) : Prop :=
  ∀ e k, model.asI64 e = some k ↔ k.toInt = e.eval s

theorem Z3Model.Describes.isSome_iff {model : Z3Model} {s : State} (h : model.Describes s)
    (e : Z3Int) : (model.asI64 e).isSome ↔ FitsInt64 (e.eval s) := by
  rw [Option.isSome_iff_exists]
  constructor
  · rintro ⟨k, hk⟩
    rw [← (h e k).1 hk]
    exact fitsInt64_toInt k
  · rintro ⟨hlo, hhi⟩
    exact ⟨.ofInt (e.eval s), (h e _).2 (Int64.toInt_ofInt_of_le hlo hhi)⟩

/-! ### The bindings -/

/-- The name under which the value of one cell is bound. -/
def cellKey (region : String) (index : ℤ) : String := region ++ "[" ++ toString index ++ "]"

example : cellKey "stack0" (-2) = "stack0[-2]" := rfl

/-- The indices at which memory is sampled: `0` and the extra ones, sorted, without repetitions. -/
def sampleIndices (extraIndices : List Int64) : List Int64 :=
  ((0 :: extraIndices).mergeSort fun i j ↦ decide (i ≤ j)).destutter (· ≠ ·)

/-- The value bound to one cell. -/
structure CellBinding where
  region : String
  index : Int64
  value : Int64

/-- The scalar binding that stands for a cell. -/
def CellBinding.toScalar (binding : CellBinding) : Var × ModelValue :=
  (Var.int (cellKey binding.region binding.index.toInt), .int binding.value)

namespace Z3Model

variable (model : Z3Model)

/-- The values read at the indices, without those that cannot be read. -/
def values (array : Z3Array) (indices : List Int64) : List Int64 :=
  indices.filterMap fun index ↦ model.asI64 (.select array (.ofInt64 index))

/-- The cells of one region that are bound: none if the values read are all equal. -/
def cells (indices : List Int64) (entry : String × Z3Array) : List CellBinding :=
  match model.values entry.2 indices with
  | [] => []
  | first :: rest =>
    if (first :: rest).all (· = first) then []
    else (indices.zip (first :: rest)).map fun p ↦ ⟨entry.1, p.1, p.2⟩

/-- The default of one region, if all values read are equal. -/
def arrayDefault (indices : List Int64) (entry : String × Z3Array) : List (String × ModelValue) :=
  match model.values entry.2 indices with
  | [] => []
  | first :: rest =>
    if (first :: rest).all (· = first) then [(entry.1, .arrayDefault (.int first))] else []

end Z3Model

/-- The bindings of the declared scalar constants that can be read. -/
def SmtScope.constants (scope : SmtScope) (model : Z3Model) : List (Var × ModelValue) :=
  scope.boolVars.entries.filterMap (fun e ↦ (model.asBool e.2).map fun b ↦
    (Var.bool e.1, .bool b)) ++
  scope.intVars.entries.filterMap (fun e ↦ (model.asI64 e.2).map fun n ↦ (Var.int e.1, .int n)) ++
  scope.realVars.entries.filterMap (fun e ↦ do
    let (num, den) ← model.asRational e.2
    return (Var.real e.1, .real (← Rational.new .wraps num den)))

/-- The cells bound for all declared regions. -/
def SmtScope.cells (scope : SmtScope) (model : Z3Model) (extraIndices : List Int64) :
    List CellBinding :=
  scope.memoryVars.entries.flatMap (model.cells (sampleIndices extraIndices))

/-- `SmtScope::model_bindings`, after a query that left the model, if any. -/
def modelBindings (scope : SmtScope) (model : Option Z3Model) (extraIndices : List Int64) :
    Option SmtModel := do
  let model ← model
  return {
    scalar := scope.constants model ++ (scope.cells model extraIndices).map CellBinding.toScalar
    memory := scope.memoryVars.entries.flatMap (model.arrayDefault (sampleIndices extraIndices)) }

/-! ### Matching by position -/

/-- Matching a list with the values of a partial function on it, by position, gives each element
its value just if the elements without a value come last. -/
theorem forall_mem_zip_filterMap_iff {α β : Type} (f : α → Option β) (l : List α) :
    (∀ p ∈ l.zip (l.filterMap f), f p.1 = some p.2) ↔
      l.Pairwise fun i j ↦ (f j).isSome → (f i).isSome := by
  induction l with
  | nil => simp
  | cons a l ih =>
    rw [List.pairwise_cons]
    cases ha : f a with
    | some b =>
      rw [List.filterMap_cons_some ha, List.zip_cons_cons, List.forall_mem_cons, ih]
      simp [ha]
    | none =>
      rw [List.filterMap_cons_none ha]
      cases hrest : l.filterMap f with
      | nil =>
        have hnone : ∀ i ∈ l, f i = none := List.filterMap_eq_nil_iff.1 hrest
        simp only [List.zip_nil_right, List.not_mem_nil, false_implies, implies_true, true_iff]
        refine ⟨fun i hi ↦ by simp [hnone i hi], ?_⟩
        exact List.pairwise_of_forall_mem_list fun i _ j hj ↦ by simp [hnone j hj]
      | cons b bs =>
        obtain ⟨j, hj, hb⟩ := List.mem_filterMap.1 (hrest ▸ List.mem_cons_self)
        constructor
        · intro h
          have hab := h (a, b) (by simp)
          simp [ha] at hab
        · rintro ⟨hfirst, -⟩
          have hsome := hfirst j hj (by simp [hb])
          simp at hsome

theorem pairwise_sampleIndices (extraIndices : List Int64) :
    (sampleIndices extraIndices).Pairwise (· < ·) := by
  have hsorted : ((0 :: extraIndices).mergeSort fun i j ↦ decide (i ≤ j)).Pairwise (· ≤ ·) := by
    refine (List.pairwise_mergeSort (fun i j k hij hjk ↦ ?_) (fun i j ↦ ?_) _).imp of_decide_eq_true
    · exact decide_eq_true (Int64.le_trans (of_decide_eq_true hij) (of_decide_eq_true hjk))
    · rw [Bool.or_eq_true, decide_eq_true_iff, decide_eq_true_iff]
      exact Int64.le_total i j
  have hle : (sampleIndices extraIndices).Pairwise (· ≤ ·) :=
    hsorted.sublist (List.destutter_sublist _ _)
  have hne : (sampleIndices extraIndices).IsChain (· ≠ ·) := List.isChain_destutter _ _
  have hlt : (sampleIndices extraIndices).IsChain (· < ·) :=
    List.isChain_iff_getElem.2 fun k hk ↦ Int64.lt_of_le_of_ne
      (List.pairwise_iff_getElem.1 hle k (k + 1) _ hk k.lt_succ_self)
      (List.isChain_iff_getElem.1 hne k hk)
  have : Trans (α := Int64) (· < ·) (· < ·) (· < ·) := ⟨Int64.lt_trans⟩
  exact List.isChain_iff_pairwise.1 hlt

/-- In a sorted list the order of positions is the order of the elements. -/
theorem pairwise_iff_forall_lt {R : Int64 → Int64 → Prop} {l : List Int64}
    (hl : l.Pairwise (· < ·)) : l.Pairwise R ↔ ∀ i ∈ l, ∀ j ∈ l, i < j → R i j := by
  constructor
  · intro h
    induction l with
    | nil => simp
    | cons a l ih =>
      rw [List.pairwise_cons] at h hl
      intro i hi j hj hij
      rcases List.mem_cons.1 hi with rfl | hi' <;> rcases List.mem_cons.1 hj with rfl | hj'
      · exact (Int64.lt_irrefl hij).elim
      · exact h.1 j hj'
      · exact absurd hij (Int64.not_lt.2 (Int64.le_of_lt (hl.1 i hi')))
      · exact ih hl.2 h.2 i hi' j hj' hij
  · intro h
    exact hl.imp_of_mem fun hi hj hij ↦ h _ hi _ hj hij

section Exact

variable {model : Z3Model} {s : State}

/-- What is read of a sampled cell. -/
theorem asI64_select_eq_some_iff (hmodel : model.Describes s) (region : String)
    (index k : Int64) :
    model.asI64 (.select (.const region) (.ofInt64 index)) = some k ↔
      k.toInt = s.memory region index.toInt := by
  rw [hmodel, Z3Int.eval, Z3Array.eval, Z3Int.eval]

theorem isSome_asI64_select_iff (hmodel : model.Describes s) (region : String) (index : Int64) :
    (model.asI64 (.select (.const region) (.ofInt64 index))).isSome ↔
      FitsInt64 (s.memory region index.toInt) := by
  rw [hmodel.isSome_iff, Z3Int.eval, Z3Array.eval, Z3Int.eval]

/-- The values read of a region are all equal just if the cells that can be read are. -/
theorem forall_mem_values_eq_iff (hmodel : model.Describes s) (region : String)
    (indices : List Int64) :
    (∀ v ∈ model.values (.const region) indices, ∀ w ∈ model.values (.const region) indices,
        v = w) ↔
      ∀ i ∈ indices, ∀ j ∈ indices, FitsInt64 (s.memory region i.toInt) →
        FitsInt64 (s.memory region j.toInt) →
          s.memory region i.toInt = s.memory region j.toInt := by
  constructor
  · intro h i hi j hj hfi hfj
    obtain ⟨v, hv⟩ := Option.isSome_iff_exists.1 ((isSome_asI64_select_iff hmodel region i).2 hfi)
    obtain ⟨w, hw⟩ := Option.isSome_iff_exists.1 ((isSome_asI64_select_iff hmodel region j).2 hfj)
    rw [← (asI64_select_eq_some_iff hmodel region i v).1 hv,
      ← (asI64_select_eq_some_iff hmodel region j w).1 hw,
      h v (List.mem_filterMap.2 ⟨i, hi, hv⟩) w (List.mem_filterMap.2 ⟨j, hj, hw⟩)]
  · intro h v hv w hw
    obtain ⟨i, hi, hv⟩ := List.mem_filterMap.1 hv
    obtain ⟨j, hj, hw⟩ := List.mem_filterMap.1 hw
    have hvi := (asI64_select_eq_some_iff hmodel region i v).1 hv
    have hwj := (asI64_select_eq_some_iff hmodel region j w).1 hw
    refine Int64.toInt_inj.1 ?_
    rw [hvi, hwj]
    exact h i hi j hj (hvi ▸ fitsInt64_toInt v) (hwj ▸ fitsInt64_toInt w)

theorem cells_eq_nil {indices : List Int64} {entry : String × Z3Array}
    (h : ∀ v ∈ model.values entry.2 indices, ∀ w ∈ model.values entry.2 indices, v = w) :
    model.cells indices entry = [] := by
  rw [Z3Model.cells]
  split
  · rfl
  · rename_i first rest hvalues
    rw [hvalues] at h
    exact if_pos (List.all_eq_true.2 fun v hv ↦ decide_eq_true (h v hv first (by simp)))

theorem cells_eq_zip {indices : List Int64} {entry : String × Z3Array}
    (h : ¬ ∀ v ∈ model.values entry.2 indices, ∀ w ∈ model.values entry.2 indices, v = w) :
    model.cells indices entry =
      (indices.zip (model.values entry.2 indices)).map fun p ↦ ⟨entry.1, p.1, p.2⟩ := by
  rw [Z3Model.cells]
  split
  · rename_i hvalues
    simp [hvalues] at h
  · rename_i first rest hvalues
    rw [hvalues] at h ⊢
    refine if_neg fun hall ↦ h fun v hv w hw ↦ ?_
    rw [List.all_eq_true] at hall
    rw [of_decide_eq_true (hall v hv), of_decide_eq_true (hall w hw)]

/-- The bindings of one region are right if its readable values are all equal, or if the indices
whose values cannot be read come last; and only then. -/
theorem forall_mem_cells_iff (hmodel : model.Describes s) (region : String)
    {indices : List Int64} (hindices : indices.Pairwise (· < ·)) :
    (∀ b ∈ model.cells indices (region, .const region),
        b.value.toInt = s.memory b.region b.index.toInt) ↔
      (∀ i ∈ indices, ∀ j ∈ indices, FitsInt64 (s.memory region i.toInt) →
        FitsInt64 (s.memory region j.toInt) →
          s.memory region i.toInt = s.memory region j.toInt) ∨
      ∀ i ∈ indices, ∀ j ∈ indices, i < j → FitsInt64 (s.memory region j.toInt) →
        FitsInt64 (s.memory region i.toInt) := by
  rw [← forall_mem_values_eq_iff hmodel]
  by_cases hequal : ∀ v ∈ model.values (.const region) indices,
      ∀ w ∈ model.values (.const region) indices, v = w
  · rw [cells_eq_nil hequal]
    exact iff_of_true (by simp) (Or.inl hequal)
  · rw [cells_eq_zip hequal, or_iff_right hequal, ← pairwise_iff_forall_lt hindices]
    simp only [← isSome_asI64_select_iff hmodel, List.forall_mem_map,
      ← asI64_select_eq_some_iff hmodel]
    exact forall_mem_zip_filterMap_iff _ indices

end Exact

/-- **Which cell bindings are right.** All bindings of cells that a model is read as are the values
of the model just if in each region the values that can be read are equal, or no index that
cannot be read is before one that can. -/
theorem forall_mem_scope_cells_iff (scope : SmtScope) {model : Z3Model} {s : State}
    (hmodel : model.Describes s) (extraIndices : List Int64) :
    (∀ b ∈ scope.cells model extraIndices, b.value.toInt = s.memory b.region b.index.toInt) ↔
      ∀ entry ∈ scope.memoryVars.entries,
        (∀ i ∈ sampleIndices extraIndices, ∀ j ∈ sampleIndices extraIndices,
          FitsInt64 (s.memory entry.1 i.toInt) → FitsInt64 (s.memory entry.1 j.toInt) →
            s.memory entry.1 i.toInt = s.memory entry.1 j.toInt) ∨
        ∀ i ∈ sampleIndices extraIndices, ∀ j ∈ sampleIndices extraIndices, i < j →
          FitsInt64 (s.memory entry.1 j.toInt) → FitsInt64 (s.memory entry.1 i.toInt) := by
  simp only [SmtScope.cells, List.mem_flatMap, forall_exists_index, and_imp]
  rw [forall_comm]
  refine forall_congr' fun entry ↦ ?_
  rw [forall_comm]
  refine forall_congr' fun hentry ↦ ?_
  obtain ⟨region, array⟩ := entry
  obtain rfl : array = .const region := scope.memoryVars.declared _ hentry
  exact forall_mem_cells_iff hmodel region (pairwise_sampleIndices extraIndices)

/-! ### A region with a value that cannot be read -/

/-- The model that assigns the values of the state. It gives no fractions. -/
noncomputable def State.z3Model (s : State) : Z3Model where
  asBool e := some (e.eval s)
  asI64 e := if FitsInt64 (e.eval s) then some (.ofInt (e.eval s)) else none
  asRational _ := none

theorem State.describes_z3Model (s : State) : s.z3Model.Describes s := by
  intro e k
  show (if FitsInt64 (e.eval s) then some (Int64.ofInt (e.eval s)) else none) = some k ↔ _
  by_cases hfits : FitsInt64 (e.eval s)
  · rw [if_pos hfits, Option.some.injEq, ← Int64.toInt_inj,
      Int64.toInt_ofInt_of_le hfits.1 hfits.2]
    exact eq_comm
  · rw [if_neg hfits]
    refine iff_of_false (by simp) fun hk ↦ hfits ?_
    exact hk ▸ fitsInt64_toInt k

/-- A scope that has declared one region. -/
def SmtScope.withRegion (region : String) : SmtScope :=
  { SmtScope.new with memoryVars := Declarations.empty.insert region }

theorem forall_mem_scope_cells_iff_withRegion :
    State.zero.z3Model.Describes .zero ∧
      ((∀ b ∈ (SmtScope.withRegion "a").cells State.zero.z3Model [],
          b.value.toInt = State.zero.memory b.region b.index.toInt) ↔
        ∀ entry ∈ (SmtScope.withRegion "a").memoryVars.entries,
          (∀ i ∈ sampleIndices [], ∀ j ∈ sampleIndices [],
            FitsInt64 (State.zero.memory entry.1 i.toInt) →
              FitsInt64 (State.zero.memory entry.1 j.toInt) →
                State.zero.memory entry.1 i.toInt = State.zero.memory entry.1 j.toInt) ∨
          ∀ i ∈ sampleIndices [], ∀ j ∈ sampleIndices [], i < j →
            FitsInt64 (State.zero.memory entry.1 j.toInt) →
              FitsInt64 (State.zero.memory entry.1 i.toInt)) :=
  ⟨State.zero.describes_z3Model,
    forall_mem_scope_cells_iff (.withRegion "a") State.zero.describes_z3Model []⟩

/-- Three cells of a region, the middle one of which does not fit in 64 bits. -/
def wideCell : State :=
  State.zero.setRegion "a" fun i ↦ if i = 0 then 5 else if i = 1 then 2 ^ 63 else 7

/-- The value of the third cell is bound to the second, whose value cannot be read. -/
theorem not_forall_mem_scope_cells : ¬ ∀ (scope : SmtScope) (model : Z3Model) (s : State)
    (extraIndices : List Int64), model.Describes s →
      ∀ b ∈ scope.cells model extraIndices, b.value.toInt = s.memory b.region b.index.toInt := by
  intro h
  have hindices : sampleIndices [1, 2] = [0, 1, 2] := by
    rw [sampleIndices, List.mergeSort_of_pairwise (by decide)]
    decide
  have hcells := h (.withRegion "a") wideCell.z3Model wideCell [1, 2] wideCell.describes_z3Model
  have hregion : ∀ b ∈ wideCell.z3Model.cells [0, 1, 2] ("a", .const "a"),
      b.value.toInt = wideCell.memory b.region b.index.toInt := fun b hb ↦
    hcells b (List.mem_flatMap.2 ⟨("a", .const "a"), List.mem_singleton_self _, hindices ▸ hb⟩)
  have hmemory (i : ℤ) : wideCell.memory "a" i = if i = 0 then 5 else if i = 1 then 2 ^ 63 else 7 :=
    congrFun (State.memory_setRegion_self ..) i
  rcases (forall_mem_cells_iff wideCell.describes_z3Model "a" (by decide)).1 hregion with
    hequal | hlast
  · have h02 := hequal 0 (by decide) 2 (by decide)
    simp [hmemory, FitsInt64] at h02
  · have h12 := hlast 1 (by decide) 2 (by decide) (by decide)
    simp [hmemory, FitsInt64] at h12

end MayMust
