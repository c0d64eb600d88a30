import MayMust.Formula.Normal

/-!
# Formulas made by the constructors

A formula is *built* when it comes from atoms by the simplifying constructors, the formulas below
the terms of its atoms too (`Built`). Beside the formula, `Built` says what the plain connectives
mean that were applied.

The constructors change what is there: a nested node is dissolved, an identity is dropped, a list of
one child becomes this child. None of this changes the meaning, and every node that is left, at any
depth, has two or more distinct children that are no constants and no nodes of its own connective
(`holds_iff_and_tidy_of_built`).
-/

namespace MayMust

open Library

/-! ### What is inside a formula -/

mutual

/-- The formulas directly below the terms in a memory expression. -/
def Memory.coerced : Memory → List Formula
  | .var _ => []
  | .store inner index value => inner.coerced ++ index.coerced ++ value.coerced
termination_by structural m => m

/-- The formulas directly below a term. -/
def Term.coerced : Term → List Formula
  | .var _ | .int _ | .real _ => []
  | .boolToInt value => [value]
  | .select memory index => memory.coerced ++ index.coerced
  | .add lhs rhs | .sub lhs rhs | .mul lhs rhs | .div lhs rhs | .rem lhs rhs =>
    lhs.coerced ++ rhs.coerced
  | .neg inner => inner.coerced
termination_by structural t => t

end

namespace Formula

/-- The formulas directly inside a formula, below its connective or below the terms it compares. -/
def parts : Formula → List Formula
  | .tru | .fls | .var _ => []
  | .not inner => [inner]
  | .and items | .or items => items
  | .implies lhs rhs => [lhs, rhs]
  | .eq lhs rhs | .lt lhs rhs | .le lhs rhs | .gt lhs rhs | .ge lhs rhs => lhs.coerced ++ rhs.coerced
  | .memoryEq lhs rhs => lhs.coerced ++ rhs.coerced

/-- The formula occurs in another one, at any depth. -/
inductive OccursIn (ψ : Formula) : Formula → Prop
  | self : OccursIn ψ ψ
  | part {φ χ : Formula} (hχ : χ ∈ φ.parts) (h : OccursIn ψ χ) : OccursIn ψ φ

/-- The formula has no connective on top. -/
def IsAtom : Formula → Prop
  | .tru | .fls | .var _ | .eq _ _ | .memoryEq _ _ | .lt _ _ | .le _ _ | .gt _ _ | .ge _ _ => True
  | .not _ | .and _ | .or _ | .implies _ _ => False

end Formula

/-- Two or more distinct children, no constants and no nodes of the connective itself. -/
structure Connective.Proper (c : Connective) (items : List Formula) : Prop where
  length : 2 ≤ items.length
  nodup : items.Nodup
  plain : ∀ φ ∈ items, c.Plain φ

/-- Every node in the formula, at any depth, has proper children. -/
def Formula.Tidy (φ : Formula) : Prop :=
  ∀ (c : Connective) (items : List Formula), (c.node items).OccursIn φ → c.Proper items

/-! ### The constructors -/

/-- The formula comes from atoms by the constructors, and the plain connectives that were applied
have the given meaning. -/
inductive Built : Formula → (State → Prop) → Prop
  | atom {φ : Formula} {meaning : Formula → State → Prop} (hatom : φ.IsAtom)
      (inside : ∀ ψ ∈ φ.parts, Built ψ (meaning ψ)) : Built φ fun s ↦ φ.Holds s
  | not {φ : Formula} {P : State → Prop} (h : Built φ P) : Built (.not φ) fun s ↦ ¬ P s
  | mkAnd {φ ψ : Formula} {P Q : State → Prop} (hφ : Built φ P) (hψ : Built ψ Q) :
      Built (.mkAnd φ ψ) fun s ↦ P s ∧ Q s
  | andMany {items : List (Formula × (State → Prop))} (h : ∀ item ∈ items, Built item.1 item.2) :
      Built (.andMany (items.map (·.1))) fun s ↦ ∀ item ∈ items, item.2 s
  | mkOr {φ ψ : Formula} {P Q : State → Prop} (hφ : Built φ P) (hψ : Built ψ Q) :
      Built (.mkOr φ ψ) fun s ↦ P s ∨ Q s
  | orMany {items : List (Formula × (State → Prop))} (h : ∀ item ∈ items, Built item.1 item.2) :
      Built (.orMany (items.map (·.1))) fun s ↦ ∃ item ∈ items, item.2 s
  | mkImplies {φ ψ : Formula} {P Q : State → Prop} (hφ : Built φ P) (hψ : Built ψ Q) :
      Built (.mkImplies φ ψ) fun s ↦ P s → Q s
  | mkIff {φ ψ : Formula} {P Q : State → Prop} (hφ : Built φ P) (hψ : Built ψ Q) :
      Built (.mkIff φ ψ) fun s ↦ (P s ↔ Q s)

/-- What is built means what the plain connectives mean. -/
theorem Built.holds_iff {φ : Formula} {P : State → Prop} (h : Built φ P) (s : State) :
    φ.Holds s ↔ P s := by
  induction h with
  | atom _ _ _ => exact Iff.rfl
  | not _ ih => rw [Formula.holds_not, ih]
  | mkAnd _ _ ihφ ihψ => rw [Formula.holds_mkAnd, ihφ, ihψ]
  | andMany _ ih =>
    rw [Formula.holds_andMany, List.forall_mem_map]
    exact forall₂_congr ih
  | mkOr _ _ ihφ ihψ => rw [Formula.holds_mkOr, ihφ, ihψ]
  | orMany _ ih =>
    rw [Formula.holds_orMany]
    simp only [List.mem_map, exists_exists_and_eq_and]
    exact exists_congr fun item ↦ and_congr_right (ih item)
  | mkImplies _ _ ihφ ihψ => rw [Formula.holds_mkImplies, ihφ, ihψ]
  | mkIff _ _ ihφ ihψ => rw [Formula.holds_mkIff, ihφ, ihψ]

/-! ### Normal and tidy -/

theorem Formula.tidy_of_parts {φ : Formula}
    (hself : ∀ (c : Connective) (items : List Formula), φ = c.node items → c.Proper items)
    (hparts : ∀ χ ∈ φ.parts, χ.Tidy) : φ.Tidy := by
  intro c items h
  generalize hnode : c.node items = ψ at h
  cases h with
  | self => exact hself c items hnode.symm
  | part hχ h => exact hparts _ hχ c items (hnode ▸ h)

theorem Formula.Tidy.part {φ χ : Formula} (h : φ.Tidy) (hχ : χ ∈ φ.parts) : χ.Tidy :=
  fun c items hχ' ↦ h c items (.part hχ hχ')

/-- The children of a normal formula are proper. -/
theorem Formula.Normal.tidy {φ : Formula} (h : φ.Normal) (hparts : ∀ χ ∈ φ.parts, χ.Tidy) :
    φ.Tidy := by
  refine tidy_of_parts (fun c items heq ↦ ?_) hparts
  obtain ⟨length, nodup, plain, -⟩ := c.normal_node_iff.1 (heq ▸ h)
  exact ⟨length, nodup, plain⟩

theorem Formula.IsAtom.normal {φ : Formula} (h : φ.IsAtom) : φ.Normal :=
  .single fun c ↦ by cases c <;> cases φ <;> first | rfl | exact False.elim h

namespace Connective

variable {c : Connective} {items : List Formula} {φ ψ : Formula}

theorem parts_node (c : Connective) (items : List Formula) : (c.node items).parts = items := by
  cases c <;> rfl

/-- What a formula brings to a node is the formula itself or directly inside it. -/
theorem eq_or_mem_parts_of_mem_content (h : ψ ∈ members (c.content φ)) :
    ψ = φ ∨ ψ ∈ φ.parts := by
  induction φ using c.cases_of_connective with
  | hunit => rw [content_unit] at h; exact absurd h List.not_mem_nil
  | habsorber => rw [content_absorber] at h; exact absurd h List.not_mem_nil
  | hnode inner =>
    rw [content_node] at h
    rw [parts_node]
    exact .inr (FirstOccurrences.mem_ofList.1 h)
  | hplain φ hφ =>
    rw [content_of_plain c hφ] at h
    exact .inl (List.mem_singleton.1 (FirstOccurrences.mem_ofList.1 h))

theorem tidy_of_mem_members (hitems : ∀ φ ∈ items, φ.Tidy)
    (h : ψ ∈ members (items.map c.content).prod) : ψ.Tidy := by
  by_cases hzero : (0 : Content) ∈ items.map c.content
  · rw [List.prod_eq_zero hzero] at h
    exact absurd h List.not_mem_nil
  · obtain ⟨w, hw, hψ⟩ := (mem_members_prod hzero).1 h
    obtain ⟨φ, hφ, rfl⟩ := List.mem_map.1 hw
    obtain rfl | hpart := eq_or_mem_parts_of_mem_content hψ
    · exact hitems _ hφ
    · exact (hitems φ hφ).part hpart

/-- What is directly inside a packed formula is tidy if the members are. -/
theorem tidy_parts_pack {w : Content} (h : ∀ φ ∈ members w, φ.Tidy) :
    ∀ χ ∈ (c.pack w).parts, χ.Tidy := by
  induction w using WithZero.recZeroCoe with
  | zero =>
    rw [pack_zero]
    cases c <;> exact fun χ hχ ↦ absurd hχ List.not_mem_nil
  | coe l =>
    rw [members_coe] at h
    rw [pack_coe]
    generalize l.toList = items at h ⊢
    rcases items with _ | ⟨φ, _ | ⟨ψ, rest⟩⟩
    · cases c <;> exact fun χ hχ ↦ absurd hχ List.not_mem_nil
    · exact fun χ hχ ↦ (h φ List.mem_cons_self).part hχ
    · show ∀ χ ∈ (c.node (φ :: ψ :: rest)).parts, χ.Tidy
      rw [parts_node]
      exact h

theorem tidy_simplify (hnormal : ∀ φ ∈ items, φ.Normal) (htidy : ∀ φ ∈ items, φ.Tidy) :
    (c.simplify items).Tidy := by
  refine (normal_simplify hnormal).tidy ?_
  rw [simplify_eq_pack]
  exact tidy_parts_pack fun ψ hψ ↦ tidy_of_mem_members htidy hψ

end Connective

theorem Formula.forall_mem_pair {φ ψ : Formula} {P : Formula → Prop} :
    (∀ χ ∈ [φ, ψ], P χ) ↔ P φ ∧ P ψ := by
  simp

theorem Formula.Tidy.mkImplies {φ ψ : Formula} (hφ : φ.Tidy) (hψ : ψ.Tidy) (hnormal : ψ.Normal) :
    (Formula.mkImplies φ ψ).Tidy := by
  refine (Normal.mkImplies hnormal).tidy ?_
  unfold Formula.mkImplies
  split_ifs
  · exact fun χ hχ ↦ absurd hχ List.not_mem_nil
  · exact fun χ hχ ↦ hψ.part hχ
  · exact Formula.forall_mem_pair.2 ⟨hφ, hψ⟩

/-- What is built is normal, and tidy at any depth. -/
theorem Built.normal_and_tidy {φ : Formula} {P : State → Prop} (h : Built φ P) :
    φ.Normal ∧ φ.Tidy := by
  induction h with
  | atom hatom _ ih => exact ⟨hatom.normal, hatom.normal.tidy fun χ hχ ↦ (ih χ hχ).2⟩
  | @not φ P _ ih =>
    have hnormal : (Formula.not φ).Normal := .single fun c ↦ by cases c <;> rfl
    exact ⟨hnormal, hnormal.tidy (List.forall_mem_singleton.2 ih.2)⟩
  | mkAnd _ _ ihφ ihψ | mkOr _ _ ihφ ihψ =>
    have hnormal := Formula.forall_mem_pair.2 ⟨ihφ.1, ihψ.1⟩
    exact ⟨Connective.normal_simplify hnormal,
      Connective.tidy_simplify hnormal (Formula.forall_mem_pair.2 ⟨ihφ.2, ihψ.2⟩)⟩
  | andMany _ ih | orMany _ ih =>
    have hnormal := List.forall_mem_map.2 fun item hitem ↦ (ih item hitem).1
    exact ⟨Connective.normal_simplify hnormal,
      Connective.tidy_simplify hnormal (List.forall_mem_map.2 fun item hitem ↦ (ih item hitem).2)⟩
  | mkImplies _ _ ihφ ihψ => exact ⟨ihψ.1.mkImplies, ihφ.2.mkImplies ihψ.2 ihψ.1⟩
  | @mkIff φ ψ _ _ _ _ ihφ ihψ =>
    have hthere : (Formula.mkImplies φ ψ).Normal ∧ (Formula.mkImplies φ ψ).Tidy :=
      ⟨ihψ.1.mkImplies, ihφ.2.mkImplies ihψ.2 ihψ.1⟩
    have hback : (Formula.mkImplies ψ φ).Normal ∧ (Formula.mkImplies ψ φ).Tidy :=
      ⟨ihφ.1.mkImplies, ihψ.2.mkImplies ihφ.2 ihφ.1⟩
    have hnormal := Formula.forall_mem_pair.2 ⟨hthere.1, hback.1⟩
    exact ⟨Connective.normal_simplify hnormal,
      Connective.tidy_simplify hnormal (Formula.forall_mem_pair.2 ⟨hthere.2, hback.2⟩)⟩

/-- **What the constructors make of atoms** means, in every state, what the plain connectives mean,
and all nodes in it have proper children. -/
theorem holds_iff_and_tidy_of_built {φ : Formula} {P : State → Prop} (h : Built φ P) :
    (∀ s, φ.Holds s ↔ P s) ∧ φ.Tidy :=
  ⟨h.holds_iff, h.normal_and_tidy.2⟩

/-- `p`, `q || p` and the constant, with what they mean. -/
def nestedItems : List (Formula × (State → Prop)) :=
  [(.boolVar "p", fun s ↦ (Formula.boolVar "p").Holds s),
    (.mkOr (.boolVar "q") (.boolVar "p"),
      fun s ↦ (Formula.boolVar "q").Holds s ∨ (Formula.boolVar "p").Holds s),
    (.fls, fun s ↦ Formula.fls.Holds s)]

theorem holds_iff_and_tidy_of_built_nested :
    (∀ s, (Formula.orMany (nestedItems.map (·.1))).Holds s ↔ ∃ item ∈ nestedItems, item.2 s) ∧
      (Formula.orMany (nestedItems.map (·.1))).Tidy := by
  have hatom (φ : Formula) (hφ : φ.IsAtom) (hparts : φ.parts = []) :
      Built φ fun s ↦ φ.Holds s :=
    @Built.atom φ (fun _ _ ↦ True) hφ fun ψ hψ ↦ absurd (hparts ▸ hψ) List.not_mem_nil
  refine holds_iff_and_tidy_of_built (.orMany fun item hitem ↦ ?_)
  simp only [nestedItems, List.mem_cons, List.not_mem_nil, or_false] at hitem
  rcases hitem with rfl | rfl | rfl
  · exact hatom _ trivial rfl
  · exact (hatom (.boolVar "q") trivial rfl).mkOr (hatom (.boolVar "p") trivial rfl)
  · exact hatom _ trivial rfl

/-- The nested node is dissolved, the constant and the second `p` are dropped. -/
example : Formula.orMany (nestedItems.map (·.1)) = .or [.boolVar "p", .boolVar "q"] := by decide

end MayMust
