import Mathlib.Algebra.Order.Monoid.WithTop
import Mathlib.Order.Lattice.Nat
import MayMust.Formula.Normal

/-!
# Regions below updates

A region is read below the updates (`Memory.store`) on the way to it. `Formula.nesting` counts them
for the deepest reading; it is `⊥` where the region is not read. To replace a region by a memory
expression adds what the expression itself contributes (`Formula.nesting_rebuild`): simplification
drops repetitions and constants, and a formula is not made a constant by other regions
(`Formula.rebuild_eq_const_iff`). So a region that is read and whose replacement changes nothing is
replaced by itself (`Memory.eq_var_of_rebuild_eq`).
-/

namespace MayMust

open Library

section Nesting

variable (region : String)

mutual

/-- The most updates above a reading of the region. -/
def Memory.nesting : Memory → WithBot ℕ
  | .var name => if name = region then 0 else ⊥
  | .store memory index value => max (max memory.nesting index.nesting) value.nesting + 1
termination_by structural m => m

/-- The most updates above a reading of the region. -/
def Term.nesting : Term → WithBot ℕ
  | .var _ | .int _ | .real _ => ⊥
  | .boolToInt value => value.nesting
  | .select memory index => max memory.nesting index.nesting
  | .add lhs rhs | .sub lhs rhs | .mul lhs rhs | .div lhs rhs | .rem lhs rhs =>
    max lhs.nesting rhs.nesting
  | .neg inner => inner.nesting
termination_by structural t => t

/-- The most updates above a reading of the region. -/
def Formula.nesting : Formula → WithBot ℕ
  | .tru | .fls | .var _ => ⊥
  | .not inner => inner.nesting
  | .and items | .or items => Formula.nestingList items
  | .implies lhs rhs => max lhs.nesting rhs.nesting
  | .eq lhs rhs | .lt lhs rhs | .le lhs rhs | .gt lhs rhs | .ge lhs rhs =>
    max lhs.nesting rhs.nesting
  | .memoryEq lhs rhs => max lhs.nesting rhs.nesting
termination_by structural f => f

/-- The most updates above a reading of the region in a list of formulas. -/
def Formula.nestingList : List Formula → WithBot ℕ
  | [] => ⊥
  | item :: rest => max item.nesting (Formula.nestingList rest)
termination_by structural items => items

end

mutual

theorem Memory.nesting_eq_bot_iff : ∀ mem : Memory,
    mem.nesting region = ⊥ ↔ .region region ∉ mem.leaves
  | .var name => by
    show (if name = region then (0 : WithBot ℕ) else ⊥) = ⊥ ↔
      Leaf.region region ∉ [Leaf.region name]
    rw [List.mem_singleton, Leaf.region.injEq]
    by_cases h : name = region
    · simp [h]
    · simp [h, Ne.symm h]
  | .store inner index value => by
    simp [Memory.nesting, Memory.leaves, Memory.nesting_eq_bot_iff inner,
      Term.nesting_eq_bot_iff index, Term.nesting_eq_bot_iff value, and_assoc]

theorem Term.nesting_eq_bot_iff : ∀ t : Term, t.nesting region = ⊥ ↔ .region region ∉ t.leaves
  | .var _ | .int _ | .real _ => by simp [Term.nesting, Term.leaves]
  | .boolToInt value => Formula.nesting_eq_bot_iff value
  | .select memory index => by
    simp [Term.nesting, Term.leaves, Memory.nesting_eq_bot_iff memory,
      Term.nesting_eq_bot_iff index]
  | .add l r | .sub l r | .mul l r | .div l r | .rem l r => by
    simp [Term.nesting, Term.leaves, Term.nesting_eq_bot_iff l, Term.nesting_eq_bot_iff r]
  | .neg inner => Term.nesting_eq_bot_iff inner

/-- The region is not read. -/
theorem Formula.nesting_eq_bot_iff : ∀ φ : Formula,
    φ.nesting region = ⊥ ↔ .region region ∉ φ.leaves
  | .tru | .fls | .var _ => by simp [Formula.nesting, Formula.leaves]
  | .not inner => Formula.nesting_eq_bot_iff inner
  | .and items | .or items => Formula.nestingList_eq_bot_iff items
  | .implies l r => by
    simp [Formula.nesting, Formula.leaves, Formula.nesting_eq_bot_iff l,
      Formula.nesting_eq_bot_iff r]
  | .eq l r | .lt l r | .le l r | .gt l r | .ge l r => by
    simp [Formula.nesting, Formula.leaves, Term.nesting_eq_bot_iff l, Term.nesting_eq_bot_iff r]
  | .memoryEq l r => by
    simp [Formula.nesting, Formula.leaves, Memory.nesting_eq_bot_iff l,
      Memory.nesting_eq_bot_iff r]

theorem Formula.nestingList_eq_bot_iff : ∀ items : List Formula,
    Formula.nestingList region items = ⊥ ↔ .region region ∉ Formula.leavesList items
  | [] => by simp [Formula.nestingList, Formula.leavesList]
  | item :: rest => by
    simp [Formula.nestingList, Formula.leavesList, Formula.nesting_eq_bot_iff item,
      Formula.nestingList_eq_bot_iff rest]

end

variable {region}

theorem Formula.nestingList_le_iff {items : List Formula} {b : WithBot ℕ} :
    Formula.nestingList region items ≤ b ↔ ∀ φ ∈ items, φ.nesting region ≤ b := by
  induction items with
  | nil => simp [Formula.nestingList]
  | cons item rest ih => simp [Formula.nestingList, ih]

theorem hereditary_nesting_le (b : WithBot ℕ) :
    Hereditary fun φ ↦ φ.nesting region ≤ b where
  tru := bot_le
  fls := bot_le
  not_iff _ := Iff.rfl
  and_iff _ := Formula.nestingList_le_iff
  or_iff _ := Formula.nestingList_le_iff
  implies_iff _ _ := max_le_iff

namespace Connective

variable {c : Connective}

theorem nesting_absorber : c.absorber.nesting region = ⊥ := by cases c <;> rfl

/-- Simplification drops no reading, unless an absorber is met. -/
theorem nesting_simplify {items : List Formula} (hitems : ∀ φ ∈ items, φ.Normal)
    (habsorber : c.absorber ∉ items) :
    (c.simplify items).nesting region = Formula.nestingList region items :=
  eq_of_forall_ge_iff fun b ↦
    (simplify_iff_of_normal (hereditary_nesting_le b) hitems habsorber).trans
      Formula.nestingList_le_iff.symm

end Connective

/-! ### Rebuilding -/

theorem Formula.mkImplies_eq_tru_iff {φ ψ : Formula} :
    Formula.mkImplies φ ψ = .tru ↔ φ = .fls ∨ ψ = .tru := by
  unfold Formula.mkImplies
  grind

theorem Formula.mkImplies_eq_fls_iff {φ ψ : Formula} :
    Formula.mkImplies φ ψ = .fls ↔ φ = .tru ∧ ψ = .fls := by
  unfold Formula.mkImplies
  grind

/-- The formulas are the same constant, if one of them is one. -/
structure SameConstant (φ ψ : Formula) : Prop where
  tru : φ = .tru ↔ ψ = .tru
  fls : φ = .fls ↔ ψ = .fls

theorem SameConstant.of_ne {φ ψ : Formula} (h : φ ≠ .tru ∧ φ ≠ .fls) (h' : ψ ≠ .tru ∧ ψ ≠ .fls) :
    SameConstant φ ψ :=
  ⟨iff_of_false h.1 h'.1, iff_of_false h.2 h'.2⟩

namespace Connective

variable {c : Connective} {items : List Formula} {f g : Formula → Formula}
  (hf : ∀ φ, (f φ).Normal) (hg : ∀ φ, (g φ).Normal)
  (hsame : ∀ φ ∈ items, SameConstant (f φ) (g φ))
include hf hg hsame

omit hf hg in
theorem absorber_mem_map_iff : c.absorber ∈ items.map f ↔ c.absorber ∈ items.map g := by
  simp only [List.mem_map]
  refine exists_congr fun φ ↦ and_congr_right fun hφ ↦ ?_
  cases c
  · exact (hsame φ hφ).fls
  · exact (hsame φ hφ).tru

theorem sameConstant_simplify :
    SameConstant (c.simplify (items.map f)) (c.simplify (items.map g)) := by
  have hnf : ∀ φ ∈ items.map f, φ.Normal := List.forall_mem_map.2 fun φ _ ↦ hf φ
  have hng : ∀ φ ∈ items.map g, φ.Normal := List.forall_mem_map.2 fun φ _ ↦ hg φ
  have habsorber :
      c.simplify (items.map f) = c.absorber ↔ c.simplify (items.map g) = c.absorber := by
    rw [simplify_eq_absorber_iff hnf, simplify_eq_absorber_iff hng]
    exact absorber_mem_map_iff hsame
  have hunit : c.simplify (items.map f) = c.unit ↔ c.simplify (items.map g) = c.unit := by
    rw [simplify_eq_unit_iff hnf, simplify_eq_unit_iff hng, List.forall_mem_map,
      List.forall_mem_map]
    refine forall₂_congr fun φ hφ ↦ ?_
    cases c
    · exact (hsame φ hφ).tru
    · exact (hsame φ hφ).fls
  cases c
  · exact ⟨hunit, habsorber⟩
  · exact ⟨habsorber, hunit⟩

end Connective

section Constants

variable {m m' : LeafMap}

theorem LeafMap.normalAtoms_of_eq (hm : m.boolVar = .var) : m.NormalAtoms := fun v ↦ by
  rw [hm]
  exact .single fun c ↦ by cases c <;> rfl

mutual

/-- Whether a rebuilt formula is a constant does not depend on its terms and regions. -/
theorem Formula.sameConstant_rebuild (hm : m.boolVar = .var) (hm' : m'.boolVar = .var) :
    ∀ φ : Formula, SameConstant (φ.rebuild m) (φ.rebuild m')
  | .tru | .fls => ⟨Iff.rfl, Iff.rfl⟩
  | .var v => by
    show SameConstant (m.boolVar v) (m'.boolVar v)
    rw [hm, hm']
    exact ⟨Iff.rfl, Iff.rfl⟩
  | .and items | .or items => by
    simp only [Formula.rebuild, Formula.rebuildList_eq_map]
    exact Connective.sameConstant_simplify (Formula.normal_rebuild (m.normalAtoms_of_eq hm))
      (Formula.normal_rebuild (m'.normalAtoms_of_eq hm'))
      (Formula.sameConstant_rebuildList hm hm' items)
  | .implies l r => by
    have hl := Formula.sameConstant_rebuild hm hm' l
    have hr := Formula.sameConstant_rebuild hm hm' r
    constructor
    · rw [Formula.rebuild, Formula.rebuild, Formula.mkImplies_eq_tru_iff,
        Formula.mkImplies_eq_tru_iff, hl.fls, hr.tru]
    · rw [Formula.rebuild, Formula.rebuild, Formula.mkImplies_eq_fls_iff,
        Formula.mkImplies_eq_fls_iff, hl.tru, hr.fls]
  | .not _ | .eq _ _ | .memoryEq _ _ | .lt _ _ | .le _ _ | .gt _ _ | .ge _ _ =>
    .of_ne ⟨Formula.noConfusion, Formula.noConfusion⟩ ⟨Formula.noConfusion, Formula.noConfusion⟩

theorem Formula.sameConstant_rebuildList (hm : m.boolVar = .var) (hm' : m'.boolVar = .var) :
    ∀ items : List Formula, ∀ φ ∈ items, SameConstant (φ.rebuild m) (φ.rebuild m')
  | [] => fun _ hφ ↦ absurd hφ List.not_mem_nil
  | item :: rest => List.forall_mem_cons.2
      ⟨Formula.sameConstant_rebuild hm hm' item, Formula.sameConstant_rebuildList hm hm' rest⟩

end

end Constants

/-! ### Replacing a region -/

section Replace

variable (region : String) (contents : Memory)

theorem max_add_nesting (a b n : WithBot ℕ) : max (a + n) (b + n) = max a b + n :=
  (max_add_add_right a b n)

theorem Connective.nesting_simplify_rebuild (c : Connective) {items : List Formula}
    (hitems : ∀ φ ∈ items, (φ.rebuild (.replaceRegion region contents)).nesting region =
      (φ.rebuild .keep).nesting region + contents.nesting region) :
    (c.simplify (items.map (Formula.rebuild (.replaceRegion region contents)))).nesting region =
      (c.simplify (items.map (Formula.rebuild .keep))).nesting region +
        contents.nesting region := by
  have hnormal : ∀ (m : LeafMap), m.boolVar = .var →
      ∀ φ ∈ items.map (Formula.rebuild m), φ.Normal := fun m hm ↦
    List.forall_mem_map.2 fun φ _ ↦ Formula.normal_rebuild (m.normalAtoms_of_eq hm) φ
  have hiff : c.absorber ∈ items.map (Formula.rebuild (.replaceRegion region contents)) ↔
      c.absorber ∈ items.map (Formula.rebuild .keep) :=
    absorber_mem_map_iff fun φ _ ↦ Formula.sameConstant_rebuild rfl rfl φ
  by_cases h : c.absorber ∈ items.map (Formula.rebuild .keep)
  · rw [(simplify_eq_absorber_iff (hnormal _ rfl)).2 h,
      (simplify_eq_absorber_iff (hnormal _ rfl)).2 (hiff.2 h), nesting_absorber, WithBot.bot_add]
  · rw [nesting_simplify (hnormal _ rfl) h, nesting_simplify (hnormal _ rfl) (mt hiff.1 h)]
    clear h hiff hnormal
    induction items with
    | nil => exact (WithBot.bot_add _).symm
    | cons φ items ih =>
      rw [List.forall_mem_cons] at hitems
      rw [List.map_cons, List.map_cons, Formula.nestingList, Formula.nestingList, hitems.1,
        ih hitems.2, max_add_nesting]

mutual

theorem Memory.nesting_rebuild : ∀ mem : Memory,
    (mem.rebuild (.replaceRegion region contents)).nesting region =
      (mem.rebuild .keep).nesting region + contents.nesting region
  | .var name => by
    show (if name = region then contents else Memory.var name).nesting region =
      (if name = region then (0 : WithBot ℕ) else ⊥) + contents.nesting region
    split_ifs with h
    · rw [zero_add]
    · rw [WithBot.bot_add, Memory.nesting, if_neg h]
  | .store inner index value => by
    simp only [Memory.rebuild, Memory.nesting, Memory.nesting_rebuild inner,
      Term.nesting_rebuild index, Term.nesting_rebuild value, max_add_nesting]
    exact add_right_comm _ _ _

theorem Term.nesting_rebuild : ∀ t : Term,
    (t.rebuild (.replaceRegion region contents)).nesting region =
      (t.rebuild .keep).nesting region + contents.nesting region
  | .var _ | .int _ | .real _ => (WithBot.bot_add _).symm
  | .boolToInt value => Formula.nesting_rebuild value
  | .select memory index => by
    simp only [Term.rebuild, Term.nesting, Memory.nesting_rebuild memory,
      Term.nesting_rebuild index, max_add_nesting]
  | .add l r | .sub l r | .mul l r | .div l r | .rem l r => by
    simp only [Term.rebuild, Term.nesting, Term.nesting_rebuild l, Term.nesting_rebuild r,
      max_add_nesting]
  | .neg inner => Term.nesting_rebuild inner

/-- Every reading of the region becomes a reading in what replaces it. -/
theorem Formula.nesting_rebuild : ∀ φ : Formula,
    (φ.rebuild (.replaceRegion region contents)).nesting region =
      (φ.rebuild .keep).nesting region + contents.nesting region
  | .tru | .fls | .var _ => (WithBot.bot_add _).symm
  | .not inner => Formula.nesting_rebuild inner
  | .and items => by
    simp only [Formula.rebuild, Formula.rebuildList_eq_map]
    exact Connective.conj.nesting_simplify_rebuild region contents
      (Formula.nesting_rebuildList items)
  | .or items => by
    simp only [Formula.rebuild, Formula.rebuildList_eq_map]
    exact Connective.disj.nesting_simplify_rebuild region contents
      (Formula.nesting_rebuildList items)
  | .implies l r => by
    have hl : SameConstant (l.rebuild (.replaceRegion region contents)) (l.rebuild .keep) :=
      Formula.sameConstant_rebuild rfl rfl l
    have hr : SameConstant (r.rebuild (.replaceRegion region contents)) (r.rebuild .keep) :=
      Formula.sameConstant_rebuild rfl rfl r
    simp only [Formula.rebuild, Formula.mkImplies, hl.tru, hl.fls, hr.tru]
    split_ifs
    · exact (WithBot.bot_add _).symm
    · exact Formula.nesting_rebuild r
    · simp only [Formula.nesting, Formula.nesting_rebuild l, Formula.nesting_rebuild r,
        max_add_nesting]
  | .eq l r | .lt l r | .le l r | .gt l r | .ge l r => by
    simp only [Formula.rebuild, Formula.nesting, Term.nesting_rebuild l, Term.nesting_rebuild r,
      max_add_nesting]
  | .memoryEq l r => by
    simp only [Formula.rebuild, Formula.nesting, Memory.nesting_rebuild l,
      Memory.nesting_rebuild r, max_add_nesting]

theorem Formula.nesting_rebuildList : ∀ items : List Formula, ∀ φ ∈ items,
    (φ.rebuild (.replaceRegion region contents)).nesting region =
      (φ.rebuild .keep).nesting region + contents.nesting region
  | [] => fun _ hφ ↦ absurd hφ List.not_mem_nil
  | item :: rest => List.forall_mem_cons.2
      ⟨Formula.nesting_rebuild item, Formula.nesting_rebuildList rest⟩

end

variable {region contents}

theorem Memory.eq_var_of_nesting_eq_zero (h : contents.nesting region = 0) :
    contents = .var region := by
  cases contents with
  | var name =>
    rw [Memory.nesting] at h
    split_ifs at h with hname
    · rw [hname]
    · exact absurd h WithBot.bot_ne_zero
  | store inner index value =>
    rw [Memory.nesting] at h
    cases hmax : max (max (inner.nesting region) (index.nesting region)) (value.nesting region) with
    | bot => simp [hmax] at h
    | coe n =>
      rw [hmax] at h
      exact absurd (WithBot.coe_injective h : n + 1 = 0) (Nat.succ_ne_zero n)

/-- A region that is read, and whose replacement changes nothing, is replaced by itself. -/
theorem Memory.eq_var_of_rebuild_eq {mem : Memory}
    (h : mem.rebuild (.replaceRegion region contents) = mem.simplified)
    (hread : .region region ∈ mem.simplified.leaves) : contents = .var region := by
  refine Memory.eq_var_of_nesting_eq_zero ?_
  have hne : mem.simplified.nesting region ≠ ⊥ := fun hbot ↦
    (Memory.nesting_eq_bot_iff region mem.simplified).1 hbot hread
  have hsum := Memory.nesting_rebuild region contents mem
  rw [h] at hsum
  exact (WithBot.add_left_cancel hne ((add_zero _).trans hsum)).symm

end Replace

end Nesting

end MayMust
