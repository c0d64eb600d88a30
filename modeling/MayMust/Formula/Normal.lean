import Mathlib.Algebra.BigOperators.Ring.List
import MayMust.Formula.Substitution
import MayMust.Library.RegularBand

/-!
# Rebuilding a rebuilt formula

The simplifying constructors flatten nested nodes of one connective, drop identities, stop at an
absorber and keep the first of equal children. Each of these is multiplication in one monoid: a
formula contributes its *content* (`Connective.content`), the list of the children it brings or the
zero of an absorber, and the simplified node packs the product (`Connective.simplify_eq_pack`).

A formula that went through the constructors is *normal* (`Formula.Normal`): packing its content
gives it back. Two substitutions of terms and regions in a row are then one substitution with the
leaves of the first substituted by the second (`Formula.rebuild_rebuild`), although each of the two
simplifies what it meets.
-/

namespace MayMust

open Library

namespace Connective

variable (c : Connective)

/-- What a formula brings to an n-ary node: zero, or a list of distinct children. -/
abbrev Content := WithZero (FirstOccurrences Formula)

/-- The content of a child. -/
def content (φ : Formula) : Content :=
  if φ = c.unit then 1
  else if φ = c.absorber then 0
  else ((FirstOccurrences.ofList ((c.children? φ).getD [φ]) : FirstOccurrences Formula) : Content)

/-- The formula with the given children. -/
def packList : List Formula → Formula
  | [] => c.unit
  | [φ] => φ
  | items => c.node items

/-- The formula of a content. -/
def pack (w : Content) : Formula :=
  WithZero.recZeroCoe c.absorber (fun l ↦ c.packList l.toList) w

/-- The children in a content. -/
def members (w : Content) : List Formula :=
  WithZero.recZeroCoe [] FirstOccurrences.toList w

@[simp] theorem pack_zero : c.pack 0 = c.absorber := rfl

@[simp] theorem pack_one : c.pack 1 = c.unit := rfl

@[simp] theorem pack_coe (l : FirstOccurrences Formula) :
    c.pack (l : Content) = c.packList l.toList := rfl

@[simp] theorem members_zero : members 0 = [] := rfl

@[simp] theorem members_one : members 1 = [] := rfl

@[simp] theorem members_coe (l : FirstOccurrences Formula) :
    members (l : Content) = l.toList := rfl

theorem mem_members_mul {x y : Content} (hx : x ≠ 0) (hy : y ≠ 0) {φ : Formula} :
    φ ∈ members (x * y) ↔ φ ∈ members x ∨ φ ∈ members y := by
  obtain ⟨l, rfl⟩ := WithZero.ne_zero_iff_exists.1 hx
  obtain ⟨l', rfl⟩ := WithZero.ne_zero_iff_exists.1 hy
  rw [← WithZero.coe_mul]
  exact FirstOccurrences.mem_mul

theorem mem_members_prod {ws : List Content} (hws : 0 ∉ ws) {φ : Formula} :
    φ ∈ members ws.prod ↔ ∃ w ∈ ws, φ ∈ members w := by
  induction ws with
  | nil => simp
  | cons w ws ih =>
    rw [List.mem_cons, not_or] at hws
    rw [List.prod_cons, mem_members_mul (Ne.symm hws.1) (List.prod_ne_zero hws.2), ih hws.2,
      List.exists_mem_cons_iff]

theorem content_unit : c.content c.unit = 1 := if_pos rfl

theorem unit_ne_absorber : c.unit ≠ c.absorber := by cases c <;> decide

theorem content_absorber : c.content c.absorber = 0 := by
  rw [content, if_neg c.unit_ne_absorber.symm, if_pos rfl]

theorem children?_eq_some_iff {φ : Formula} {items : List Formula} :
    c.children? φ = some items ↔ φ = c.node items := by
  cases c <;> cases φ <;> simp [children?, node]

theorem children?_node (items : List Formula) : c.children? (c.node items) = some items :=
  c.children?_eq_some_iff.2 rfl

theorem node_ne_unit (items : List Formula) : c.node items ≠ c.unit := by
  cases c <;> simp [node, unit]

theorem node_ne_absorber (items : List Formula) : c.node items ≠ c.absorber := by
  cases c <;> simp [node, absorber]

theorem content_node (items : List Formula) :
    c.content (c.node items) = (FirstOccurrences.ofList items : FirstOccurrences Formula) := by
  rw [content, if_neg (c.node_ne_unit items), if_neg (c.node_ne_absorber items), children?_node]
  rfl

/-- A child that the constructors would keep as it is. -/
structure Plain (φ : Formula) : Prop where
  ne_unit : φ ≠ c.unit
  ne_absorber : φ ≠ c.absorber
  not_node : c.children? φ = none

theorem content_of_plain {φ : Formula} (h : c.Plain φ) :
    c.content φ = (FirstOccurrences.ofList [φ] : FirstOccurrences Formula) := by
  rw [content, if_neg h.ne_unit, if_neg h.ne_absorber, h.not_node]
  rfl

/-- A formula is the identity, the absorber, a node or a plain child. -/
theorem cases_of_connective {P : Formula → Prop} (hunit : P c.unit) (habsorber : P c.absorber)
    (hnode : ∀ items, P (c.node items)) (hplain : ∀ φ, c.Plain φ → P φ) (φ : Formula) : P φ := by
  by_cases hu : φ = c.unit
  · exact hu ▸ hunit
  by_cases ha : φ = c.absorber
  · exact ha ▸ habsorber
  cases hn : c.children? φ with
  | none => exact hplain φ ⟨hu, ha, hn⟩
  | some items => exact c.children?_eq_some_iff.1 hn ▸ hnode items

theorem content_eq_zero_iff {φ : Formula} : c.content φ = 0 ↔ φ = c.absorber := by
  constructor
  · intro h
    induction φ using c.cases_of_connective with
    | hunit => rw [content_unit] at h; exact absurd h one_ne_zero
    | habsorber => rfl
    | hnode items => rw [content_node] at h; exact absurd h WithZero.coe_ne_zero
    | hplain φ hφ => rw [c.content_of_plain hφ] at h; exact absurd h WithZero.coe_ne_zero
  · rintro rfl
    exact c.content_absorber

/-! ### Simplification multiplies -/

theorem toList_foldl_push (l : FirstOccurrences Formula) (items : List Formula) :
    (items.foldl FirstOccurrences.push l).toList = items.foldl pushNew l.toList := by
  induction items generalizing l with
  | nil => rfl
  | cons φ items ih => exact ih (l.push φ)

/-- The accumulator of `flatten` is a product. -/
theorem flatten_eq (l : FirstOccurrences Formula) (items : List Formula) :
    c.flatten l.toList items =
      WithZero.recZeroCoe none (fun l ↦ some l.toList)
        ((l : Content) * (items.map c.content).prod) := by
  induction items generalizing l with
  | nil => rw [List.map_nil, List.prod_nil, mul_one]; rfl
  | cons φ items ih =>
    rw [flatten, List.map_cons, List.prod_cons]
    induction φ using c.cases_of_connective with
    | hunit => rw [if_pos rfl, content_unit, one_mul, ih]
    | habsorber =>
      rw [if_neg c.unit_ne_absorber.symm, if_pos rfl, content_absorber, zero_mul, mul_zero]
      rfl
    | hnode inner =>
      rw [if_neg (c.node_ne_unit inner), if_neg (c.node_ne_absorber inner), children?_node,
        content_node, ← mul_assoc, ← WithZero.coe_mul, ← FirstOccurrences.foldl_push_eq_mul, ← ih,
        toList_foldl_push]
    | hplain φ hφ =>
      rw [if_neg hφ.ne_unit, if_neg hφ.ne_absorber, hφ.not_node, c.content_of_plain hφ, ← mul_assoc,
        ← WithZero.coe_mul, ← FirstOccurrences.foldl_push_eq_mul, ← ih]
      rfl

theorem simplify_eq_pack (items : List Formula) :
    c.simplify items = c.pack (items.map c.content).prod := by
  have hflat := c.flatten_eq 1 items
  rw [WithZero.coe_one, one_mul] at hflat
  rw [simplify, show c.flatten [] items = _ from hflat]
  induction (items.map c.content).prod using WithZero.recZeroCoe with
  | zero => rfl
  | coe l =>
    obtain ⟨items, hnodup⟩ := l
    rcases items with _ | ⟨φ, _ | ⟨ψ, rest⟩⟩ <;> rfl

/-! ### Normal formulas -/

end Connective

/-- A formula the simplifying constructors leave as it is, as far down as nodes are nested. -/
inductive Formula.Normal : Formula → Prop
  | single {φ : Formula} (h : ∀ c : Connective, c.children? φ = none) : Normal φ
  | node (c : Connective) {items : List Formula} (length : 2 ≤ items.length) (nodup : items.Nodup)
      (plain : ∀ φ ∈ items, c.Plain φ) (normal : ∀ φ ∈ items, Normal φ) : Normal (c.node items)

namespace Connective

variable (c : Connective)

/-- The content of a normal formula: distinct plain children, normal themselves. -/
def Clean (w : Content) : Prop := ∀ φ ∈ members w, c.Plain φ ∧ φ.Normal

variable {c}

theorem Clean.prod {ws : List Content} (h : ∀ w ∈ ws, c.Clean w) : c.Clean ws.prod := by
  by_cases hws : 0 ∈ ws
  · rw [List.prod_eq_zero hws]
    exact fun φ hφ ↦ absurd hφ List.not_mem_nil
  · intro φ hφ
    obtain ⟨w, hw, hφw⟩ := (mem_members_prod hws).1 hφ
    exact h w hw φ hφw

theorem content_packList {items : List Formula} (h : ∀ φ ∈ items, c.Plain φ) :
    c.content (c.packList items) = (FirstOccurrences.ofList items : FirstOccurrences Formula) := by
  rcases items with _ | ⟨φ, _ | ⟨ψ, rest⟩⟩
  · exact c.content_unit
  · exact c.content_of_plain (h φ List.mem_cons_self)
  · exact c.content_node _

theorem Clean.content_pack {w : Content} (h : c.Clean w) : c.content (c.pack w) = w := by
  induction w using WithZero.recZeroCoe with
  | zero => exact c.content_absorber
  | coe l =>
    have hplain : ∀ φ ∈ l.toList, c.Plain φ := fun φ hφ ↦ (h φ hφ).1
    rw [pack_coe, content_packList hplain, FirstOccurrences.ofList_toList]

variable (c)

theorem normal_unit : c.unit.Normal := .single fun c' ↦ by cases c <;> cases c' <;> rfl

theorem normal_absorber : c.absorber.Normal := .single fun c' ↦ by cases c <;> cases c' <;> rfl

theorem node_injective {c' : Connective} {items items' : List Formula}
    (h : c.node items = c'.node items') : c = c' ∧ items = items' := by
  cases c <;> cases c' <;> simp_all [node]

theorem normal_node_iff {items : List Formula} :
    (c.node items).Normal ↔
      2 ≤ items.length ∧ items.Nodup ∧ (∀ φ ∈ items, c.Plain φ) ∧ ∀ φ ∈ items, φ.Normal := by
  constructor
  · intro h
    generalize hx : c.node items = x at h
    cases h with
    | single h => exact absurd (h c) (by rw [← hx, children?_node]; exact Option.some_ne_none _)
    | node c' length nodup plain normal =>
      obtain ⟨rfl, rfl⟩ := c.node_injective hx
      exact ⟨length, nodup, plain, normal⟩
  · rintro ⟨length, nodup, plain, normal⟩
    exact .node c length nodup plain normal

variable {c}

theorem Clean.normal_pack {w : Content} (h : c.Clean w) : (c.pack w).Normal := by
  induction w using WithZero.recZeroCoe with
  | zero => exact c.normal_absorber
  | coe l =>
    obtain ⟨items, hnodup⟩ := l
    have hitems : ∀ φ ∈ items, c.Plain φ ∧ φ.Normal := h
    rcases items with _ | ⟨φ, _ | ⟨ψ, rest⟩⟩
    · exact c.normal_unit
    · exact (hitems φ List.mem_cons_self).2
    · exact .node c (by simp) hnodup (fun χ hχ ↦ (hitems χ hχ).1) fun χ hχ ↦ (hitems χ hχ).2

theorem toList_ofList_of_nodup {items : List Formula} (h : items.Nodup) :
    (FirstOccurrences.ofList items).toList = items :=
  FirstOccurrences.toList_foldl_push_of_nodup h fun _ _ ↦ List.not_mem_nil

theorem clean_content {φ : Formula} (h : φ.Normal) : c.Clean (c.content φ) := by
  induction φ using c.cases_of_connective with
  | hunit => rw [content_unit]; exact fun ψ hψ ↦ absurd hψ List.not_mem_nil
  | habsorber => rw [content_absorber]; exact fun ψ hψ ↦ absurd hψ List.not_mem_nil
  | hnode items =>
    obtain ⟨-, -, plain, normal⟩ := c.normal_node_iff.1 h
    rw [content_node]
    intro ψ hψ
    have hmem := FirstOccurrences.mem_ofList.1 hψ
    exact ⟨plain ψ hmem, normal ψ hmem⟩
  | hplain φ hφ =>
    rw [content_of_plain c hφ]
    intro ψ hψ
    obtain rfl := List.mem_singleton.1 (FirstOccurrences.mem_ofList.1 hψ)
    exact ⟨hφ, h⟩

variable (c) in
/-- A normal formula is what its content packs. -/
theorem pack_content {φ : Formula} (h : φ.Normal) : c.pack (c.content φ) = φ := by
  induction φ using c.cases_of_connective with
  | hunit => rw [content_unit]; rfl
  | habsorber => rw [content_absorber]; rfl
  | hnode items =>
    obtain ⟨length, nodup, -, -⟩ := c.normal_node_iff.1 h
    rw [content_node, pack_coe, toList_ofList_of_nodup nodup]
    rcases items with _ | ⟨ψ, _ | ⟨χ, rest⟩⟩
    · exact absurd length (by simp)
    · exact absurd length (by simp)
    · rfl
  | hplain φ hφ => rw [content_of_plain c hφ]; rfl

theorem clean_prod_content {items : List Formula} (h : ∀ φ ∈ items, φ.Normal) :
    c.Clean (items.map c.content).prod :=
  .prod (List.forall_mem_map.2 fun φ hφ ↦ clean_content (h φ hφ))

theorem normal_simplify {items : List Formula} (h : ∀ φ ∈ items, φ.Normal) :
    (c.simplify items).Normal := by
  rw [simplify_eq_pack]
  exact (clean_prod_content h).normal_pack

theorem content_simplify {items : List Formula} (h : ∀ φ ∈ items, φ.Normal) :
    c.content (c.simplify items) = (items.map c.content).prod := by
  rw [simplify_eq_pack]
  exact (clean_prod_content h).content_pack

/-- What is hereditary holds of a packed formula if it holds of its children. -/
theorem pack_iff {P : Formula → Prop} (hP : Hereditary P) (w : Content) :
    P (c.pack w) ↔ ∀ φ ∈ members w, P φ := by
  induction w using WithZero.recZeroCoe with
  | zero => exact iff_of_true (hP.absorber c) fun φ hφ ↦ absurd hφ List.not_mem_nil
  | coe l =>
    rw [pack_coe, members_coe]
    rcases l.toList with _ | ⟨φ, _ | ⟨ψ, rest⟩⟩
    · exact iff_of_true (hP.unit c) fun φ hφ ↦ absurd hφ List.not_mem_nil
    · exact List.forall_mem_singleton.symm
    · exact hP.node_iff c _

/-- Simplification loses no child, unless an absorber is met. -/
theorem simplify_iff_of_normal {P : Formula → Prop} (hP : Hereditary P) {items : List Formula}
    (hitems : ∀ φ ∈ items, φ.Normal) (habsorber : c.absorber ∉ items) :
    P (c.simplify items) ↔ ∀ φ ∈ items, P φ := by
  have hzero : (0 : Content) ∉ items.map c.content := by
    intro h
    obtain ⟨φ, hφ, hzero⟩ := List.mem_map.1 h
    exact habsorber (c.content_eq_zero_iff.1 hzero ▸ hφ)
  have hpack : ∀ φ ∈ items, P φ ↔ ∀ ψ ∈ members (c.content φ), P ψ := fun φ hφ ↦ by
    rw [← pack_iff hP, pack_content c (hitems φ hφ)]
  rw [simplify_eq_pack, pack_iff hP]
  constructor
  · intro h φ hφ
    rw [hpack φ hφ]
    exact fun ψ hψ ↦ h ψ ((mem_members_prod hzero).2 ⟨_, List.mem_map_of_mem hφ, hψ⟩)
  · intro h ψ hψ
    obtain ⟨w, hw, hψw⟩ := (mem_members_prod hzero).1 hψ
    obtain ⟨φ, hφ, rfl⟩ := List.mem_map.1 hw
    exact (hpack φ hφ).1 (h φ hφ) ψ hψw

/-- When a simplified node is the absorber. -/
theorem simplify_eq_absorber_iff {items : List Formula} (hitems : ∀ φ ∈ items, φ.Normal) :
    c.simplify items = c.absorber ↔ c.absorber ∈ items := by
  rw [← c.content_eq_zero_iff, content_simplify hitems, List.prod_eq_zero_iff, List.mem_map]
  simp [content_eq_zero_iff]

theorem members_eq_nil_iff {w : Content} (hw : w ≠ 0) : members w = [] ↔ w = 1 := by
  obtain ⟨l, rfl⟩ := WithZero.ne_zero_iff_exists.1 hw
  constructor
  · intro h
    exact congrArg _ (FirstOccurrences.ext h)
  · intro h
    rw [h, members_one]

theorem content_eq_one_iff {φ : Formula} (h : φ.Normal) : c.content φ = 1 ↔ φ = c.unit := by
  constructor
  · intro hone
    rw [← pack_content c h, hone, pack_one]
  · rintro rfl
    exact c.content_unit

/-- When a simplified node is the identity. -/
theorem simplify_eq_unit_iff {items : List Formula} (hitems : ∀ φ ∈ items, φ.Normal) :
    c.simplify items = c.unit ↔ ∀ φ ∈ items, φ = c.unit := by
  rw [← content_eq_one_iff (normal_simplify hitems), content_simplify hitems]
  constructor
  · intro h φ hφ
    have hzero : (0 : Content) ∉ items.map c.content := fun hz ↦ by
      rw [List.prod_eq_zero hz] at h
      exact zero_ne_one h
    have hne : c.content φ ≠ 0 := fun hz ↦ hzero (hz ▸ List.mem_map_of_mem hφ)
    rw [← content_eq_one_iff (hitems φ hφ), ← members_eq_nil_iff hne, List.eq_nil_iff_forall_not_mem]
    intro ψ hψ
    have hmem := (mem_members_prod hzero).2 ⟨_, List.mem_map_of_mem hφ, hψ⟩
    rw [h] at hmem
    exact List.not_mem_nil hmem
  · intro h
    refine List.prod_eq_one fun w hw ↦ ?_
    obtain ⟨φ, hφ, rfl⟩ := List.mem_map.1 hw
    rw [h φ hφ, content_unit]

/-! ### Maps that simplify nodes -/

section Map

/-- A map of formulas that commutes with the nodes of a connective up to simplification. -/
structure Rebuilds (c : Connective) (R : Formula → Formula) : Prop where
  unit : R c.unit = c.unit
  absorber : R c.absorber = c.absorber
  node (items : List Formula) : R (c.node items) = c.simplify (items.map R)
  normal (φ : Formula) : (R φ).Normal

variable {R : Formula → Formula} (hR : c.Rebuilds R)
include hR

/-- Packing commutes with such a map, the children replaced in the content. -/
theorem Rebuilds.pack {w : Content} :
    R (c.pack w) =
      c.pack (WithZero.lift' (FirstOccurrences.lift fun φ ↦ c.content (R φ)) w) := by
  induction w using WithZero.recZeroCoe with
  | zero => rw [map_zero]; exact hR.absorber
  | coe l =>
    rw [WithZero.lift'_coe, FirstOccurrences.lift_apply, pack_coe]
    rcases l.toList with _ | ⟨φ, _ | ⟨ψ, rest⟩⟩
    · exact hR.unit
    · rw [List.map_singleton, List.prod_singleton]
      exact (pack_content c (hR.normal φ)).symm
    · show R (c.node _) = _
      rw [hR.node, simplify_eq_pack, List.map_map]
      rfl

theorem Rebuilds.content (φ : Formula) :
    c.content (R φ) =
      WithZero.lift' (FirstOccurrences.lift fun φ ↦ c.content (R φ)) (c.content φ) := by
  induction φ using c.cases_of_connective with
  | hunit => rw [hR.unit, content_unit, map_one]
  | habsorber => rw [hR.absorber, content_absorber, map_zero]
  | hnode items =>
    rw [hR.node, content_simplify (List.forall_mem_map.2 fun φ _ ↦ hR.normal φ), content_node,
      WithZero.lift'_coe, FirstOccurrences.lift_ofList, List.map_map]
    rfl
  | hplain φ hφ =>
    rw [content_of_plain c hφ, WithZero.lift'_coe, FirstOccurrences.lift_ofList, List.map_singleton,
      List.prod_singleton]

/-- Simplifying before the map is simplifying after it. -/
theorem Rebuilds.simplify (items : List Formula) :
    R (c.simplify items) = c.simplify (items.map R) := by
  rw [simplify_eq_pack, simplify_eq_pack, hR.pack, map_list_prod, List.map_map, List.map_map]
  exact congrArg (fun ws ↦ c.pack (List.prod ws)) (List.map_congr_left fun φ _ ↦
    (hR.content φ).symm)

end Map

end Connective

/-! ### Two rebuildings in a row -/

namespace LeafMap

/-- Rebuild with the first map, then with the second. -/
def comp (m m' : LeafMap) : LeafMap where
  boolVar v := (m.boolVar v).rebuild m'
  termVar v := (m.termVar v).rebuild m'
  region name := (m.region name).rebuild m'

/-- Boolean variables are replaced by normal formulas. -/
def NormalAtoms (m : LeafMap) : Prop := ∀ v, (m.boolVar v).Normal

end LeafMap

theorem Formula.Normal.mkImplies {φ ψ : Formula} (hψ : ψ.Normal) :
    (Formula.mkImplies φ ψ).Normal := by
  unfold Formula.mkImplies
  split
  · exact Connective.disj.normal_absorber
  split
  · exact hψ
  · exact .single fun c ↦ by cases c <;> rfl

section Rebuild

variable {m : LeafMap}

mutual

theorem Formula.normal_rebuild (hm : m.NormalAtoms) : ∀ φ : Formula, (φ.rebuild m).Normal
  | .var v => hm v
  | .and items | .or items => Connective.normal_simplify (Formula.normal_rebuildList hm items)
  | .implies _ rhs => (Formula.normal_rebuild hm rhs).mkImplies
  | .tru | .fls | .not _ | .eq _ _ | .memoryEq _ _ | .lt _ _ | .le _ _ | .gt _ _ | .ge _ _ =>
    .single fun c ↦ by cases c <;> rfl

theorem Formula.normal_rebuildList (hm : m.NormalAtoms) : ∀ items : List Formula,
    ∀ φ ∈ Formula.rebuildList m items, φ.Normal
  | [] => fun _ hφ ↦ absurd hφ List.not_mem_nil
  | item :: rest => List.forall_mem_cons.2
      ⟨Formula.normal_rebuild hm item, Formula.normal_rebuildList hm rest⟩

end

theorem Connective.rebuilds (c : Connective) (hm : m.NormalAtoms) :
    c.Rebuilds (Formula.rebuild m) where
  unit := by cases c <;> rfl
  absorber := by cases c <;> rfl
  node items := by rw [← Formula.rebuildList_eq_map]; cases c <;> rfl
  normal := Formula.normal_rebuild hm

theorem Formula.rebuild_mkImplies (φ ψ : Formula) :
    (Formula.mkImplies φ ψ).rebuild m = Formula.mkImplies (φ.rebuild m) (ψ.rebuild m) := by
  by_cases h : φ = .fls ∨ ψ = .tru
  · rw [Formula.mkImplies, if_pos h, Formula.mkImplies, if_pos]
    · rfl
    · obtain rfl | rfl := h
      · exact .inl rfl
      · exact .inr rfl
  · rw [Formula.mkImplies, if_neg h]
    split
    · rename_i h'
      subst h'
      show _ = Formula.mkImplies .tru (ψ.rebuild m)
      unfold Formula.mkImplies
      split
      · rename_i h'
        obtain h' | h' := h'
        · cases h'
        · exact h'
      · rfl
    · rfl

end Rebuild

section RebuildRebuild

variable {m m' : LeafMap}

mutual

theorem Memory.rebuild_rebuild (hm : m.NormalAtoms) (hm' : m'.NormalAtoms) : ∀ mem : Memory,
    (mem.rebuild m).rebuild m' = mem.rebuild (m.comp m')
  | .var _ => rfl
  | .store inner index value => by
    simp only [Memory.rebuild, Memory.rebuild_rebuild hm hm' inner,
      Term.rebuild_rebuild hm hm' index, Term.rebuild_rebuild hm hm' value]

theorem Term.rebuild_rebuild (hm : m.NormalAtoms) (hm' : m'.NormalAtoms) : ∀ t : Term,
    (t.rebuild m).rebuild m' = t.rebuild (m.comp m')
  | .var _ | .int _ | .real _ => rfl
  | .boolToInt value => by
    simp only [Term.rebuild, Formula.rebuild_rebuild hm hm' value]
  | .select memory index => by
    simp only [Term.rebuild, Memory.rebuild_rebuild hm hm' memory,
      Term.rebuild_rebuild hm hm' index]
  | .add l r | .sub l r | .mul l r | .div l r | .rem l r => by
    simp only [Term.rebuild, Term.rebuild_rebuild hm hm' l, Term.rebuild_rebuild hm hm' r]
  | .neg inner => by simp only [Term.rebuild, Term.rebuild_rebuild hm hm' inner]

/-- Two rebuildings in a row are one, whose leaves are those of the first rebuilt by the second. -/
theorem Formula.rebuild_rebuild (hm : m.NormalAtoms) (hm' : m'.NormalAtoms) : ∀ φ : Formula,
    (φ.rebuild m).rebuild m' = φ.rebuild (m.comp m')
  | .tru | .fls | .var _ => rfl
  | .not inner => by simp only [Formula.rebuild, Formula.rebuild_rebuild hm hm' inner]
  | .and items => by
    show (Connective.conj.simplify (Formula.rebuildList m items)).rebuild m' =
      Connective.conj.simplify (Formula.rebuildList (m.comp m') items)
    rw [(Connective.conj.rebuilds hm').simplify, Formula.map_rebuildList hm hm' items]
  | .or items => by
    show (Connective.disj.simplify (Formula.rebuildList m items)).rebuild m' =
      Connective.disj.simplify (Formula.rebuildList (m.comp m') items)
    rw [(Connective.disj.rebuilds hm').simplify, Formula.map_rebuildList hm hm' items]
  | .implies lhs rhs => by
    simp only [Formula.rebuild, Formula.rebuild_mkImplies, Formula.rebuild_rebuild hm hm' lhs,
      Formula.rebuild_rebuild hm hm' rhs]
  | .eq l r | .lt l r | .le l r | .gt l r | .ge l r => by
    simp only [Formula.rebuild, Term.rebuild_rebuild hm hm' l, Term.rebuild_rebuild hm hm' r]
  | .memoryEq l r => by
    simp only [Formula.rebuild, Memory.rebuild_rebuild hm hm' l, Memory.rebuild_rebuild hm hm' r]

theorem Formula.map_rebuildList (hm : m.NormalAtoms) (hm' : m'.NormalAtoms) :
    ∀ items : List Formula,
    (Formula.rebuildList m items).map (Formula.rebuild m') = Formula.rebuildList (m.comp m') items
  | [] => rfl
  | item :: rest => by
    simp only [Formula.rebuildList, List.map_cons, Formula.rebuild_rebuild hm hm' item,
      Formula.map_rebuildList hm hm' rest]

end

end RebuildRebuild

/-! ### What rebuilding depends on -/

/-- The two maps put the same in the place of a leaf. -/
def LeafMap.SameAt (m m' : LeafMap) : Leaf → Prop
  | .boolVar v => m.boolVar v = m'.boolVar v
  | .termVar v => m.termVar v = m'.termVar v
  | .region name => m.region name = m'.region name

section Congr

variable {m m' : LeafMap}

mutual

theorem Memory.rebuild_congr : ∀ mem : Memory,
    (∀ x ∈ mem.leaves, m.SameAt m' x) → mem.rebuild m = mem.rebuild m'
  | .var name, h => h (.region name) List.mem_cons_self
  | .store inner index value, h => by
    simp only [Memory.leaves, List.mem_append, or_imp, forall_and] at h
    simp only [Memory.rebuild, Memory.rebuild_congr inner h.1.1, Term.rebuild_congr index h.1.2,
      Term.rebuild_congr value h.2]

theorem Term.rebuild_congr : ∀ t : Term,
    (∀ x ∈ t.leaves, m.SameAt m' x) → t.rebuild m = t.rebuild m'
  | .var v, h => h (.termVar v) List.mem_cons_self
  | .int _, _ | .real _, _ => rfl
  | .boolToInt value, h => by simp only [Term.rebuild, Formula.rebuild_congr value h]
  | .select memory index, h => by
    simp only [Term.leaves, List.mem_append, or_imp, forall_and] at h
    simp only [Term.rebuild, Memory.rebuild_congr memory h.1, Term.rebuild_congr index h.2]
  | .add l r, h | .sub l r, h | .mul l r, h | .div l r, h | .rem l r, h => by
    simp only [Term.leaves, List.mem_append, or_imp, forall_and] at h
    simp only [Term.rebuild, Term.rebuild_congr l h.1, Term.rebuild_congr r h.2]
  | .neg inner, h => by simp only [Term.rebuild, Term.rebuild_congr inner h]

/-- Rebuilding depends on what is put in the place of the leaves. -/
theorem Formula.rebuild_congr : ∀ φ : Formula,
    (∀ x ∈ φ.leaves, m.SameAt m' x) → φ.rebuild m = φ.rebuild m'
  | .tru, _ | .fls, _ => rfl
  | .var v, h => h (.boolVar v) List.mem_cons_self
  | .not inner, h => by simp only [Formula.rebuild, Formula.rebuild_congr inner h]
  | .and items, h | .or items, h => by
    simp only [Formula.rebuild, Formula.rebuildList_congr items h]
  | .implies l r, h => by
    simp only [Formula.leaves, List.mem_append, or_imp, forall_and] at h
    simp only [Formula.rebuild, Formula.rebuild_congr l h.1, Formula.rebuild_congr r h.2]
  | .eq l r, h | .lt l r, h | .le l r, h | .gt l r, h | .ge l r, h => by
    simp only [Formula.leaves, List.mem_append, or_imp, forall_and] at h
    simp only [Formula.rebuild, Term.rebuild_congr l h.1, Term.rebuild_congr r h.2]
  | .memoryEq l r, h => by
    simp only [Formula.leaves, List.mem_append, or_imp, forall_and] at h
    simp only [Formula.rebuild, Memory.rebuild_congr l h.1, Memory.rebuild_congr r h.2]

theorem Formula.rebuildList_congr : ∀ items : List Formula,
    (∀ x ∈ Formula.leavesList items, m.SameAt m' x) →
    Formula.rebuildList m items = Formula.rebuildList m' items
  | [], _ => rfl
  | item :: rest, h => by
    simp only [Formula.leavesList, List.mem_append, or_imp, forall_and] at h
    simp only [Formula.rebuildList, Formula.rebuild_congr item h.1,
      Formula.rebuildList_congr rest h.2]

end

end Congr

/-! ### Simplification -/

/-- The formula rebuilt with the leaves it has. -/
def Formula.simplified (φ : Formula) : Formula := φ.rebuild .keep

/-- The term rebuilt with the leaves it has. -/
def Term.simplified (t : Term) : Term := t.rebuild .keep

/-- The memory expression rebuilt with the leaves it has. -/
def Memory.simplified (mem : Memory) : Memory := mem.rebuild .keep

end MayMust
