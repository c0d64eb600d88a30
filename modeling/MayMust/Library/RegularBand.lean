import Mathlib.Algebra.BigOperators.Group.List.Basic
import Mathlib.Algebra.GroupWithZero.WithZero
import Mathlib.Data.List.Nodup

/-!
# Products that keep first occurrences

In a *left regular band* a factor that has occurred is absorbed where it occurs again:
`x * y * x = x * y`. The free such monoid on a type consists of the lists without repetition
(`FirstOccurrences`), multiplied by appending to the first what it lacks of the second. A map into
a left regular band extends to a homomorphism (`FirstOccurrences.lift`); as a product over a list is
one over its first occurrences (`lift_ofList`), a computation that normalises by dropping
repetitions may do so before or after the map is applied.
-/

namespace Library

variable {α M : Type*}

/-- A monoid in which a repeated factor is absorbed. -/
class IsLeftRegularBand (M : Type*) [Monoid M] : Prop where
  mul_mul_self (x y : M) : x * y * x = x * y

open IsLeftRegularBand

section Band

variable [Monoid M] [IsLeftRegularBand M]

theorem prod_mul_of_mem {l : List M} {x : M} (hx : x ∈ l) : l.prod * x = l.prod := by
  obtain ⟨before, after, rfl⟩ := List.append_of_mem hx
  rw [List.prod_append, List.prod_cons, mul_assoc, mul_mul_self]

instance : IsLeftRegularBand (WithZero M) where
  mul_mul_self x y := by
    induction x using WithZero.recZeroCoe with
    | zero => simp
    | coe x =>
      induction y using WithZero.recZeroCoe with
      | zero => simp
      | coe y => simp only [← WithZero.coe_mul, mul_mul_self]

end Band

/-- A list without repetition. -/
@[ext] structure FirstOccurrences (α : Type*) where
  toList : List α
  nodup : toList.Nodup

namespace FirstOccurrences

variable [DecidableEq α]

/-- Append an element unless it is there. -/
def push (l : FirstOccurrences α) (x : α) : FirstOccurrences α where
  toList := if x ∈ l.toList then l.toList else l.toList ++ [x]
  nodup := by
    split
    · exact l.nodup
    · exact List.nodup_append.2 ⟨l.nodup, List.nodup_singleton x, by grind⟩

/-- No element. -/
def empty : FirstOccurrences α := ⟨[], List.nodup_nil⟩

/-- The first occurrences of a list. -/
def ofList (l : List α) : FirstOccurrences α := l.foldl push empty

theorem push_of_mem {l : FirstOccurrences α} {x : α} (h : x ∈ l.toList) : l.push x = l :=
  FirstOccurrences.ext (if_pos h)

theorem toList_push_of_notMem {l : FirstOccurrences α} {x : α} (h : x ∉ l.toList) :
    (l.push x).toList = l.toList ++ [x] :=
  if_neg h

@[simp] theorem mem_push {l : FirstOccurrences α} {x y : α} :
    y ∈ (l.push x).toList ↔ y ∈ l.toList ∨ y = x := by
  unfold push
  grind

@[simp] theorem mem_foldl_push {l : FirstOccurrences α} {xs : List α} {y : α} :
    y ∈ (xs.foldl push l).toList ↔ y ∈ l.toList ∨ y ∈ xs := by
  induction xs generalizing l with
  | nil => simp
  | cons x xs ih => rw [List.foldl_cons, ih, mem_push, List.mem_cons, or_assoc]

theorem foldl_push_of_subset {l : FirstOccurrences α} {xs : List α} (h : ∀ x ∈ xs, x ∈ l.toList) :
    xs.foldl push l = l := by
  induction xs with
  | nil => rfl
  | cons x xs ih =>
    rw [List.forall_mem_cons] at h
    rw [List.foldl_cons, push_of_mem h.1, ih h.2]

/-- Elements that are new and distinct are all kept. -/
theorem toList_foldl_push_of_nodup {l : FirstOccurrences α} {xs : List α} (hxs : xs.Nodup)
    (h : ∀ x ∈ xs, x ∉ l.toList) : (xs.foldl push l).toList = l.toList ++ xs := by
  induction xs generalizing l with
  | nil => rw [List.foldl_nil, List.append_nil]
  | cons x xs ih =>
    rw [List.nodup_cons] at hxs
    rw [List.forall_mem_cons] at h
    rw [List.foldl_cons, ih hxs.2, toList_push_of_notMem h.1, List.append_assoc,
      List.singleton_append]
    intro y hy
    rw [mem_push, not_or]
    exact ⟨h.2 y hy, fun hyx ↦ hxs.1 (hyx ▸ hy)⟩

@[simp] theorem ofList_toList (l : FirstOccurrences α) : ofList l.toList = l :=
  FirstOccurrences.ext (toList_foldl_push_of_nodup l.nodup fun _ _ ↦ List.not_mem_nil)

@[simp] theorem mem_ofList {xs : List α} {y : α} : y ∈ (ofList xs).toList ↔ y ∈ xs := by
  rw [ofList, mem_foldl_push, empty, List.mem_nil_iff, false_or]

/-- Appending one list after another, the second already freed of repetitions. -/
theorem foldl_push_push (l m : FirstOccurrences α) (x : α) :
    (m.push x).toList.foldl push l = (m.toList.foldl push l).push x := by
  by_cases hx : x ∈ m.toList
  · rw [push_of_mem hx, push_of_mem (mem_foldl_push.2 (.inr hx))]
  · rw [toList_push_of_notMem hx, List.foldl_append]
    rfl

theorem foldl_push_foldl_push (l m : FirstOccurrences α) (xs : List α) :
    (xs.foldl push m).toList.foldl push l = xs.foldl push (m.toList.foldl push l) := by
  induction xs generalizing m with
  | nil => rfl
  | cons x xs ih => rw [List.foldl_cons, List.foldl_cons, ih, foldl_push_push]

instance : Monoid (FirstOccurrences α) where
  one := empty
  mul l m := m.toList.foldl push l
  one_mul l := ofList_toList l
  mul_one _ := rfl
  mul_assoc l m n := (foldl_push_foldl_push l m n.toList).symm

theorem mul_eq_foldl (l m : FirstOccurrences α) : l * m = m.toList.foldl push l := rfl

@[simp] theorem toList_one : (1 : FirstOccurrences α).toList = [] := rfl

@[simp] theorem mem_mul {l m : FirstOccurrences α} {x : α} :
    x ∈ (l * m).toList ↔ x ∈ l.toList ∨ x ∈ m.toList := by
  rw [mul_eq_foldl, mem_foldl_push]

theorem foldl_push_eq_mul (l : FirstOccurrences α) (xs : List α) :
    xs.foldl push l = l * ofList xs := by
  rw [mul_eq_foldl, ofList, foldl_push_foldl_push]
  rfl

instance : IsLeftRegularBand (FirstOccurrences α) where
  mul_mul_self l m := by
    rw [mul_eq_foldl (l * m) l]
    exact foldl_push_of_subset fun x hx ↦ mem_mul.2 (.inl hx)

/-! ### Maps into a band -/

section Lift

variable [Monoid M] [IsLeftRegularBand M] (f : α → M)

theorem prod_map_push (l : FirstOccurrences α) (x : α) :
    ((l.push x).toList.map f).prod = (l.toList.map f).prod * f x := by
  by_cases hx : x ∈ l.toList
  · rw [push_of_mem hx, prod_mul_of_mem (List.mem_map_of_mem hx)]
  · rw [toList_push_of_notMem hx, List.map_append, List.prod_append, List.map_singleton,
      List.prod_singleton]

theorem prod_map_foldl_push (l : FirstOccurrences α) (xs : List α) :
    ((xs.foldl push l).toList.map f).prod = (l.toList.map f).prod * (xs.map f).prod := by
  induction xs generalizing l with
  | nil => rw [List.foldl_nil, List.map_nil, List.prod_nil, mul_one]
  | cons x xs ih => rw [List.foldl_cons, ih, prod_map_push, List.map_cons, List.prod_cons, mul_assoc]

/-- The homomorphism that extends a map into a left regular band. -/
def lift : FirstOccurrences α →* M where
  toFun l := (l.toList.map f).prod
  map_one' := List.prod_nil
  map_mul' l m := prod_map_foldl_push f l m.toList

theorem lift_apply (l : FirstOccurrences α) : lift f l = (l.toList.map f).prod := rfl

/-- Repetitions do not matter under a map into a left regular band. -/
theorem lift_ofList (xs : List α) : lift f (ofList xs) = (xs.map f).prod := by
  rw [lift_apply, ofList, prod_map_foldl_push]
  exact one_mul _

end Lift

end FirstOccurrences

end Library
