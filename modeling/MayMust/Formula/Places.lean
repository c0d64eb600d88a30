import MayMust.Formula.Positions
import MayMust.Formula.WellSorted

/-!
# Two places of a region

A region can stand directly below a `select`, or bare: below a `store` or on a side of a memory
equality. A pass that rewrites the index of a read treats the two places differently. To say what
such a pass does, a formula is evaluated here with a second memory for the bare places
(`Formula.evalPlaces`); where that memory is the state's own at every bare region of the formula,
the value is the ordinary one (`Formula.evalPlaces_eq_eval`).
-/

namespace MayMust

/-- A place of a region in a formula. -/
inductive RegionPlace
  /-- Directly below a `select` with the given index. -/
  | read (region : String) (index : Term)
  /-- Below a `store` or in a memory equality. -/
  | bare (region : String)

mutual

/-- The places of regions in a memory expression. -/
def Memory.places : Memory → List RegionPlace
  | .var region => [.bare region]
  | .store inner index value => inner.places ++ index.places ++ value.places
termination_by structural m => m

/-- The places of regions in a term. -/
def Term.places : Term → List RegionPlace
  | .var _ | .int _ | .real _ => []
  | .boolToInt value => value.places
  | .select (.var region) index => .read region index :: index.places
  | .select (.store inner i v) index => inner.places ++ i.places ++ v.places ++ index.places
  | .add lhs rhs | .sub lhs rhs | .mul lhs rhs | .div lhs rhs | .rem lhs rhs =>
    lhs.places ++ rhs.places
  | .neg inner => inner.places
termination_by structural t => t

/-- The places of regions in a formula. -/
def Formula.places : Formula → List RegionPlace
  | .tru | .fls | .var _ => []
  | .not inner => inner.places
  | .and items | .or items => Formula.placesList items
  | .implies lhs rhs => lhs.places ++ rhs.places
  | .memoryEq lhs rhs => lhs.places ++ rhs.places
  | .eq lhs rhs | .lt lhs rhs | .le lhs rhs | .gt lhs rhs | .ge lhs rhs => lhs.places ++ rhs.places
termination_by structural φ => φ

/-- `Formula.places` on a list of formulas. -/
def Formula.placesList : List Formula → List RegionPlace
  | [] => []
  | item :: rest => item.places ++ Formula.placesList rest
termination_by structural items => items

end

open Classical in
mutual

/-- The contents of a memory expression whose bare regions are read in a second memory. -/
noncomputable def Memory.evalPlaces (s : State) (bare : String → ℤ → ℤ) : Memory → ℤ → ℤ
  | .var region => bare region
  | .store inner index value =>
    Function.update (inner.evalPlaces s bare) (index.evalPlaces s bare).toInt
      (value.evalPlaces s bare).toInt
termination_by structural m => m

/-- The value of a term whose bare regions are read in a second memory. -/
noncomputable def Term.evalPlaces (s : State) (bare : String → ℤ → ℤ) : Term → Value
  | .var v => s.lookup v
  | .int value => .int value.toInt
  | .real value => .real value.toReal
  | .boolToInt value => .int (if value.evalPlaces s bare then 1 else 0)
  | .select (.var region) index => .int (s.memory region (index.evalPlaces s bare).toInt)
  | .select (.store inner i v) index =>
    .int (Function.update (inner.evalPlaces s bare) (i.evalPlaces s bare).toInt
      (v.evalPlaces s bare).toInt (index.evalPlaces s bare).toInt)
  | .add lhs rhs => Value.arith (· + ·) (· + ·) (lhs.evalPlaces s bare) (rhs.evalPlaces s bare)
  | .sub lhs rhs => Value.arith (· - ·) (· - ·) (lhs.evalPlaces s bare) (rhs.evalPlaces s bare)
  | .mul lhs rhs => Value.arith (· * ·) (· * ·) (lhs.evalPlaces s bare) (rhs.evalPlaces s bare)
  | .div lhs rhs => Value.arith s.intDiv s.realDiv (lhs.evalPlaces s bare) (rhs.evalPlaces s bare)
  | .rem lhs rhs =>
    Value.arith s.intRem (fun _ _ ↦ 0) (lhs.evalPlaces s bare) (rhs.evalPlaces s bare)
  | .neg inner => (inner.evalPlaces s bare).neg
termination_by structural t => t

/-- The truth value of a formula whose bare regions are read in a second memory. -/
noncomputable def Formula.evalPlaces (s : State) (bare : String → ℤ → ℤ) : Formula → Bool
  | .tru => true
  | .fls => false
  | .var v => (s.lookup v).isTrue
  | .not inner => !inner.evalPlaces s bare
  | .and items => Formula.evalPlacesAll s bare items
  | .or items => Formula.evalPlacesAny s bare items
  | .implies lhs rhs => !lhs.evalPlaces s bare || rhs.evalPlaces s bare
  | .eq lhs rhs =>
    Value.compare (· == ·) (fun a b ↦ decide (a = b)) (lhs.evalPlaces s bare)
      (rhs.evalPlaces s bare)
  | .memoryEq lhs rhs => decide (lhs.evalPlaces s bare = rhs.evalPlaces s bare)
  | .lt lhs rhs =>
    Value.compare (fun a b ↦ decide (a < b)) (fun a b ↦ decide (a < b)) (lhs.evalPlaces s bare)
      (rhs.evalPlaces s bare)
  | .le lhs rhs =>
    Value.compare (fun a b ↦ decide (a ≤ b)) (fun a b ↦ decide (a ≤ b)) (lhs.evalPlaces s bare)
      (rhs.evalPlaces s bare)
  | .gt lhs rhs =>
    Value.compare (fun a b ↦ decide (b < a)) (fun a b ↦ decide (b < a)) (lhs.evalPlaces s bare)
      (rhs.evalPlaces s bare)
  | .ge lhs rhs =>
    Value.compare (fun a b ↦ decide (b ≤ a)) (fun a b ↦ decide (b ≤ a)) (lhs.evalPlaces s bare)
      (rhs.evalPlaces s bare)
termination_by structural φ => φ

/-- Whether all formulas of a list hold. -/
noncomputable def Formula.evalPlacesAll (s : State) (bare : String → ℤ → ℤ) : List Formula → Bool
  | [] => true
  | item :: rest => item.evalPlaces s bare && Formula.evalPlacesAll s bare rest
termination_by structural items => items

/-- Whether some formula of a list holds. -/
noncomputable def Formula.evalPlacesAny (s : State) (bare : String → ℤ → ℤ) : List Formula → Bool
  | [] => false
  | item :: rest => item.evalPlaces s bare || Formula.evalPlacesAny s bare rest
termination_by structural items => items

end

/-- The formula holds if its bare regions are read in the second memory. -/
def Formula.HoldsPlaces (s : State) (bare : String → ℤ → ℤ) (φ : Formula) : Prop :=
  φ.evalPlaces s bare = true

variable {s : State} {bare : String → ℤ → ℤ}

theorem Formula.evalPlacesAll_eq_all (items : List Formula) :
    Formula.evalPlacesAll s bare items = items.all (·.evalPlaces s bare) := by
  induction items with
  | nil => rfl
  | cons item rest ih => exact congrArg (item.evalPlaces s bare && ·) ih

theorem Formula.evalPlacesAny_eq_any (items : List Formula) :
    Formula.evalPlacesAny s bare items = items.any (·.evalPlaces s bare) := by
  induction items with
  | nil => rfl
  | cons item rest ih => exact congrArg (item.evalPlaces s bare || ·) ih

theorem Formula.logical_holdsPlaces (s : State) (bare : String → ℤ → ℤ) :
    Formula.Logical (Formula.HoldsPlaces s bare) where
  tru := rfl
  fls := Bool.false_ne_true
  and_iff items := by
    show Formula.evalPlacesAll s bare items = true ↔ _
    rw [Formula.evalPlacesAll_eq_all, List.all_eq_true]
    exact Iff.rfl
  or_iff items := by
    show Formula.evalPlacesAny s bare items = true ↔ _
    rw [Formula.evalPlacesAny_eq_any, List.any_eq_true]
    exact Iff.rfl
  implies_iff φ ψ := by
    show (!φ.evalPlaces s bare || ψ.evalPlaces s bare) = true ↔
      (φ.evalPlaces s bare = true → ψ.evalPlaces s bare = true)
    cases φ.evalPlaces s bare <;> simp

/-- The second memory does not change the sort of a term's value. -/
theorem Term.sort_evalPlaces : ∀ (t : Term) {σ : VarSort}, t.sort = .ok σ →
    (t.evalPlaces s bare).sort = σ
  | .var v, σ, h => by
    obtain rfl : v.sort = σ := by simpa [Term.sort] using h
    simp [Term.evalPlaces]
  | .int n, σ, h => by
    obtain rfl : VarSort.int = σ := by simpa [Term.sort] using h
    simp [Term.evalPlaces]
  | .real q, σ, h => by
    obtain rfl : VarSort.real = σ := by simpa [Term.sort] using h
    simp [Term.evalPlaces]
  | .boolToInt φ, σ, h => by
    obtain rfl : VarSort.int = σ := by
      rw [← Term.sort_eval s _ h, Term.eval, Value.sort_int]
    simp [Term.evalPlaces]
  | .select (.var r) i, σ, h => by
    obtain rfl : VarSort.int = σ := by
      rw [← Term.sort_eval s _ h, Term.eval, Value.sort_int]
    simp [Term.evalPlaces]
  | .select (.store inner i v) index, σ, h => by
    obtain rfl : VarSort.int = σ := by
      rw [← Term.sort_eval s _ h, Term.eval, Value.sort_int]
    simp [Term.evalPlaces]
  | .add l r, σ, h | .sub l r, σ, h | .mul l r, σ, h | .div l r, σ, h | .rem l r, σ, h => by
    rw [Term.sort] at h
    obtain ⟨hl, hr, hσ⟩ := numericOperands_eq_ok h
    rw [Term.evalPlaces]
    exact Value.sort_arith (Term.sort_evalPlaces l hl) (Term.sort_evalPlaces r hr) hσ
  | .neg t, σ, h => by
    rw [Term.sort] at h
    obtain ⟨τ, ht, h⟩ := Library.bind_eq_ok.1 h
    split_ifs at h with hτ
    · obtain rfl : τ = σ := Library.pure_eq_ok.1 h
      have hsort := Term.sort_evalPlaces t ht
      rw [Term.evalPlaces]
      cases hv : t.evalPlaces s bare <;> simp_all [Value.neg]

/-- The second memory is the state's own at the bare regions. -/
def Agrees (s : State) (bare : String → ℤ → ℤ) (places : List RegionPlace) : Prop :=
  ∀ region, .bare region ∈ places → bare region = s.memory region

theorem agrees_append {xs ys : List RegionPlace} :
    Agrees s bare (xs ++ ys) ↔ Agrees s bare xs ∧ Agrees s bare ys := by
  simp only [Agrees, List.mem_append, or_imp, forall_and]

theorem agrees_read {region : String} {index : Term} {xs : List RegionPlace} :
    Agrees s bare (.read region index :: xs) ↔ Agrees s bare xs := by
  simp [Agrees]

mutual

theorem Memory.evalPlaces_eq_eval : ∀ m : Memory, Agrees s bare m.places →
    m.evalPlaces s bare = m.eval s
  | .var region, h => by
    rw [Memory.evalPlaces, Memory.eval]
    exact h region List.mem_cons_self
  | .store inner index value, h => by
    simp only [Memory.places, agrees_append] at h
    rw [Memory.evalPlaces, Memory.eval, Memory.evalPlaces_eq_eval inner h.1.1,
      Term.evalPlaces_eq_eval index h.1.2, Term.evalPlaces_eq_eval value h.2]

theorem Term.evalPlaces_eq_eval : ∀ t : Term, Agrees s bare t.places →
    t.evalPlaces s bare = t.eval s
  | .var _, _ | .int _, _ | .real _, _ => by rw [Term.evalPlaces, Term.eval]
  | .boolToInt value, h => by
    rw [Term.evalPlaces, Term.eval, Formula.evalPlaces_eq_eval value h]
  | .select (.var region) index, h => by
    simp only [Term.places, agrees_read] at h
    rw [Term.evalPlaces, Term.eval, Memory.eval, Term.evalPlaces_eq_eval index h]
  | .select (.store inner i v) index, h => by
    simp only [Term.places, agrees_append] at h
    rw [Term.evalPlaces, Term.eval, Memory.eval, Memory.evalPlaces_eq_eval inner h.1.1.1,
      Term.evalPlaces_eq_eval i h.1.1.2, Term.evalPlaces_eq_eval v h.1.2,
      Term.evalPlaces_eq_eval index h.2]
  | .add lhs rhs, h | .sub lhs rhs, h | .mul lhs rhs, h | .div lhs rhs, h | .rem lhs rhs, h => by
    simp only [Term.places, agrees_append] at h
    rw [Term.evalPlaces, Term.eval, Term.evalPlaces_eq_eval lhs h.1,
      Term.evalPlaces_eq_eval rhs h.2]
  | .neg inner, h => by rw [Term.evalPlaces, Term.eval, Term.evalPlaces_eq_eval inner h]

/-- Where the second memory is the state's own at the bare regions, it changes nothing. -/
theorem Formula.evalPlaces_eq_eval : ∀ φ : Formula, Agrees s bare φ.places →
    φ.evalPlaces s bare = φ.eval s
  | .tru, _ | .fls, _ | .var _, _ => by rw [Formula.evalPlaces, Formula.eval]
  | .not inner, h => by rw [Formula.evalPlaces, Formula.eval, Formula.evalPlaces_eq_eval inner h]
  | .and items, h => by
    rw [Formula.evalPlaces, Formula.eval, Formula.evalPlacesAll_eq_all, Formula.evalAll_eq_all]
    exact Formula.all_congr_mem (Formula.evalPlacesList_eq_eval items h)
  | .or items, h => by
    rw [Formula.evalPlaces, Formula.eval, Formula.evalPlacesAny_eq_any, Formula.evalAny_eq_any]
    exact Formula.any_congr_mem (Formula.evalPlacesList_eq_eval items h)
  | .implies lhs rhs, h => by
    simp only [Formula.places, agrees_append] at h
    rw [Formula.evalPlaces, Formula.eval, Formula.evalPlaces_eq_eval lhs h.1,
      Formula.evalPlaces_eq_eval rhs h.2]
  | .memoryEq lhs rhs, h => by
    simp only [Formula.places, agrees_append] at h
    rw [Formula.evalPlaces, Formula.eval, Memory.evalPlaces_eq_eval lhs h.1,
      Memory.evalPlaces_eq_eval rhs h.2]
  | .eq lhs rhs, h | .lt lhs rhs, h | .le lhs rhs, h | .gt lhs rhs, h | .ge lhs rhs, h => by
    simp only [Formula.places, agrees_append] at h
    rw [Formula.evalPlaces, Formula.eval, Term.evalPlaces_eq_eval lhs h.1,
      Term.evalPlaces_eq_eval rhs h.2]

theorem Formula.evalPlacesList_eq_eval : ∀ items : List Formula,
    Agrees s bare (Formula.placesList items) →
    ∀ φ ∈ items, φ.evalPlaces s bare = φ.eval s
  | [], _ => by simp
  | item :: rest, h => by
    simp only [Formula.placesList, agrees_append] at h
    rw [List.forall_mem_cons]
    exact ⟨Formula.evalPlaces_eq_eval item h.1, Formula.evalPlacesList_eq_eval rest h.2⟩

end

end MayMust
