import MayMust.Formula.AlphaRename
import MayMust.Formula.Normal

/-!
# Renaming commutes with building

`rename_formula` keeps the shape of a formula. Simplification looks at the shape and at which
children are equal, so a renaming that keeps different formulas different commutes with the
simplifying constructors (`Connective.Equivariant.simplify`), and with the substitution passes that
use them (`renameFormula_rebuild`, `renameFormula_substituteBoolVar`). A renaming by injective
functions keeps different formulas different, since it can be undone (`renameFormula_injective`).
-/

namespace MayMust

/-! ### Renaming back -/

section Inverse

variable {varRename regionRename varBack regionBack : String → String}

theorem Var.rename_rename (hvar : Function.LeftInverse varBack varRename) (v : Var) :
    (v.rename varRename).rename varBack = v := by
  obtain ⟨name, sort⟩ := v
  exact congrArg (Var.mk · sort) (hvar name)

mutual

theorem renameMemory_leftInverse (hvar : Function.LeftInverse varBack varRename)
    (hregion : Function.LeftInverse regionBack regionRename) : ∀ mem : Memory,
    renameMemory varBack regionBack (renameMemory varRename regionRename mem) = mem
  | .var name => congrArg Memory.var (hregion name)
  | .store inner index value => by
    simp only [renameMemory]
    rw [renameMemory_leftInverse hvar hregion inner, renameTerm_leftInverse hvar hregion index,
      renameTerm_leftInverse hvar hregion value]

theorem renameTerm_leftInverse (hvar : Function.LeftInverse varBack varRename)
    (hregion : Function.LeftInverse regionBack regionRename) : ∀ t : Term,
    renameTerm varBack regionBack (renameTerm varRename regionRename t) = t
  | .var v => congrArg Term.var (v.rename_rename hvar)
  | .int _ | .real _ => by simp only [renameTerm]
  | .boolToInt value => by
    simp only [renameTerm]
    rw [renameFormula_leftInverse hvar hregion value]
  | .select memory index => by
    simp only [renameTerm]
    rw [renameMemory_leftInverse hvar hregion memory, renameTerm_leftInverse hvar hregion index]
  | .add lhs rhs | .sub lhs rhs | .mul lhs rhs | .div lhs rhs | .rem lhs rhs => by
    simp only [renameTerm]
    rw [renameTerm_leftInverse hvar hregion lhs, renameTerm_leftInverse hvar hregion rhs]
  | .neg inner => by
    simp only [renameTerm]
    rw [renameTerm_leftInverse hvar hregion inner]

theorem renameFormula_leftInverse (hvar : Function.LeftInverse varBack varRename)
    (hregion : Function.LeftInverse regionBack regionRename) : ∀ φ : Formula,
    renameFormula varBack regionBack (renameFormula varRename regionRename φ) = φ
  | .tru | .fls => by simp only [renameFormula]
  | .var v => congrArg Formula.var (v.rename_rename hvar)
  | .not inner => by
    simp only [renameFormula]
    rw [renameFormula_leftInverse hvar hregion inner]
  | .and items | .or items => by
    simp only [renameFormula]
    rw [renameFormulas_leftInverse hvar hregion items]
  | .implies lhs rhs => by
    simp only [renameFormula]
    rw [renameFormula_leftInverse hvar hregion lhs, renameFormula_leftInverse hvar hregion rhs]
  | .eq lhs rhs | .lt lhs rhs | .le lhs rhs | .gt lhs rhs | .ge lhs rhs => by
    simp only [renameFormula]
    rw [renameTerm_leftInverse hvar hregion lhs, renameTerm_leftInverse hvar hregion rhs]
  | .memoryEq lhs rhs => by
    simp only [renameFormula]
    rw [renameMemory_leftInverse hvar hregion lhs, renameMemory_leftInverse hvar hregion rhs]

theorem renameFormulas_leftInverse (hvar : Function.LeftInverse varBack varRename)
    (hregion : Function.LeftInverse regionBack regionRename) : ∀ items : List Formula,
    renameFormulas varBack regionBack (renameFormulas varRename regionRename items) = items
  | [] => rfl
  | item :: rest => by
    simp only [renameFormulas]
    rw [renameFormula_leftInverse hvar hregion item, renameFormulas_leftInverse hvar hregion rest]

end

/-- Injective renaming keeps different formulas different. -/
theorem renameFormula_injective (hvar : Function.Injective varRename)
    (hregion : Function.Injective regionRename) :
    Function.Injective (renameFormula varRename regionRename) :=
  Function.LeftInverse.injective
    (renameFormula_leftInverse (Function.leftInverse_invFun hvar)
      (Function.leftInverse_invFun hregion))

theorem Var.rename_injective (hvar : Function.Injective varRename) :
    Function.Injective (Var.rename varRename) :=
  Function.LeftInverse.injective (Var.rename_rename (Function.leftInverse_invFun hvar))

end Inverse

theorem renameFormulas_eq_map (varRename regionRename : String → String) (items : List Formula) :
    renameFormulas varRename regionRename items =
      items.map (renameFormula varRename regionRename) := by
  induction items with
  | nil => rfl
  | cons item rest ih => rw [renameFormulas, ih, List.map_cons]

/-! ### Simplification -/

namespace Connective

/-- A function on formulas that simplification does not notice. -/
structure Equivariant (c : Connective) (f : Formula → Formula) : Prop where
  injective : Function.Injective f
  unit : f c.unit = c.unit
  absorber : f c.absorber = c.absorber
  node : ∀ items, f (c.node items) = c.node (items.map f)
  not_node : ∀ φ, c.children? φ = none → c.children? (f φ) = none

variable {c : Connective} {f : Formula → Formula}

theorem pushNew_map (hf : Function.Injective f) (flat : List Formula) (item : Formula) :
    pushNew (flat.map f) (f item) = (pushNew flat item).map f := by
  simp only [pushNew, List.mem_map_of_injective hf]
  split_ifs
  · rfl
  · rw [List.map_append, List.map_singleton]

theorem foldl_pushNew_map (hf : Function.Injective f) (flat items : List Formula) :
    (items.map f).foldl pushNew (flat.map f) = (items.foldl pushNew flat).map f := by
  induction items generalizing flat with
  | nil => rfl
  | cons item items ih => rw [List.map_cons, List.foldl_cons, pushNew_map hf, ih, List.foldl_cons]

theorem Equivariant.flatten (h : c.Equivariant f) (flat items : List Formula) :
    c.flatten (flat.map f) (items.map f) = (c.flatten flat items).map (List.map f) := by
  induction items generalizing flat with
  | nil => rfl
  | cons item items ih =>
    rw [List.map_cons, Connective.flatten, Connective.flatten]
    induction item using c.cases_of_connective with
    | hunit => rw [h.unit, if_pos rfl, if_pos rfl, ih]
    | habsorber =>
      rw [h.absorber, if_neg c.unit_ne_absorber.symm, if_pos rfl, if_neg c.unit_ne_absorber.symm,
        if_pos rfl]
      rfl
    | hnode inner =>
      rw [h.node, if_neg (c.node_ne_unit _), if_neg (c.node_ne_absorber _), children?_node,
        if_neg (c.node_ne_unit _), if_neg (c.node_ne_absorber _), children?_node]
      show c.flatten ((inner.map f).foldl pushNew (flat.map f)) (items.map f) = _
      rw [← ih, foldl_pushNew_map h.injective]
    | hplain φ hφ =>
      have hunit : f φ ≠ c.unit := fun heq ↦ hφ.ne_unit (h.injective (heq.trans h.unit.symm))
      have habsorber : f φ ≠ c.absorber := fun heq ↦
        hφ.ne_absorber (h.injective (heq.trans h.absorber.symm))
      rw [if_neg hunit, if_neg habsorber, h.not_node φ hφ.not_node, if_neg hφ.ne_unit,
        if_neg hφ.ne_absorber, hφ.not_node]
      show c.flatten (pushNew (flat.map f) (f φ)) (items.map f) = _
      rw [← ih, pushNew_map h.injective]

theorem Equivariant.simplify (h : c.Equivariant f) (items : List Formula) :
    c.simplify (items.map f) = f (c.simplify items) := by
  have hflat := h.flatten [] items
  rw [List.map_nil] at hflat
  rw [Connective.simplify, Connective.simplify, hflat]
  cases c.flatten [] items with
  | none => exact h.absorber.symm
  | some flat =>
    obtain _ | ⟨φ, _ | ⟨ψ, rest⟩⟩ := flat
    · exact h.unit.symm
    · rfl
    · exact (h.node (φ :: ψ :: rest)).symm

end Connective

section Building

variable {varRename regionRename : String → String}

theorem equivariant_renameFormula (hvar : Function.Injective varRename)
    (hregion : Function.Injective regionRename) (c : Connective) :
    c.Equivariant (renameFormula varRename regionRename) where
  injective := renameFormula_injective hvar hregion
  unit := by cases c <;> simp only [Connective.unit, renameFormula]
  absorber := by cases c <;> simp only [Connective.absorber, renameFormula]
  node items := by
    rw [← renameFormulas_eq_map]
    cases c <;> simp only [Connective.node, renameFormula]
  not_node φ h := by
    cases c <;> cases φ <;> first | rfl | cases h

theorem renameFormula_mkAnd (hvar : Function.Injective varRename)
    (hregion : Function.Injective regionRename) (φ ψ : Formula) :
    renameFormula varRename regionRename (.mkAnd φ ψ) =
      .mkAnd (renameFormula varRename regionRename φ) (renameFormula varRename regionRename ψ) :=
  ((equivariant_renameFormula hvar hregion .conj).simplify [φ, ψ]).symm

theorem renameFormula_andMany (hvar : Function.Injective varRename)
    (hregion : Function.Injective regionRename) (items : List Formula) :
    renameFormula varRename regionRename (.andMany items) =
      .andMany (items.map (renameFormula varRename regionRename)) :=
  ((equivariant_renameFormula hvar hregion .conj).simplify items).symm

theorem renameFormula_orMany (hvar : Function.Injective varRename)
    (hregion : Function.Injective regionRename) (items : List Formula) :
    renameFormula varRename regionRename (.orMany items) =
      .orMany (items.map (renameFormula varRename regionRename)) :=
  ((equivariant_renameFormula hvar hregion .disj).simplify items).symm

theorem renameFormula_mkImplies (hvar : Function.Injective varRename)
    (hregion : Function.Injective regionRename) (φ ψ : Formula) :
    renameFormula varRename regionRename (.mkImplies φ ψ) =
      .mkImplies (renameFormula varRename regionRename φ)
        (renameFormula varRename regionRename ψ) := by
  have hinjective := renameFormula_injective hvar hregion
  have htru : ∀ χ, renameFormula varRename regionRename χ = .tru ↔ χ = .tru := fun χ ↦
    hinjective.eq_iff' (by simp only [renameFormula])
  have hfls : ∀ χ, renameFormula varRename regionRename χ = .fls ↔ χ = .fls := fun χ ↦
    hinjective.eq_iff' (by simp only [renameFormula])
  simp only [Formula.mkImplies, htru, hfls]
  split_ifs <;> simp only [renameFormula]

/-! ### Substitution -/

/-- Renaming the new leaf of a leaf gives the new leaf of the renamed one. -/
structure LeafMap.Renames (varRename regionRename : String → String) (m m' : LeafMap) : Prop where
  boolVar : ∀ v, renameFormula varRename regionRename (m.boolVar v) =
    m'.boolVar (v.rename varRename)
  termVar : ∀ v, renameTerm varRename regionRename (m.termVar v) = m'.termVar (v.rename varRename)
  region : ∀ name, renameMemory varRename regionRename (m.region name) =
    m'.region (regionRename name)

variable {m m' : LeafMap}

mutual

theorem renameMemory_rebuild (hvar : Function.Injective varRename)
    (hregion : Function.Injective regionRename) (h : m.Renames varRename regionRename m') :
    ∀ mem : Memory, renameMemory varRename regionRename (mem.rebuild m) =
      (renameMemory varRename regionRename mem).rebuild m'
  | .var name => h.region name
  | .store inner index value => by
    simp only [Memory.rebuild, renameMemory]
    rw [renameMemory_rebuild hvar hregion h inner, renameTerm_rebuild hvar hregion h index,
      renameTerm_rebuild hvar hregion h value]

theorem renameTerm_rebuild (hvar : Function.Injective varRename)
    (hregion : Function.Injective regionRename) (h : m.Renames varRename regionRename m') :
    ∀ t : Term, renameTerm varRename regionRename (t.rebuild m) =
      (renameTerm varRename regionRename t).rebuild m'
  | .var v => h.termVar v
  | .int _ | .real _ => by simp only [renameTerm, Term.rebuild]
  | .boolToInt value => by
    simp only [renameTerm, Term.rebuild]
    rw [renameFormula_rebuild hvar hregion h value]
  | .select memory index => by
    simp only [renameTerm, Term.rebuild]
    rw [renameMemory_rebuild hvar hregion h memory, renameTerm_rebuild hvar hregion h index]
  | .add lhs rhs | .sub lhs rhs | .mul lhs rhs | .div lhs rhs | .rem lhs rhs => by
    simp only [renameTerm, Term.rebuild]
    rw [renameTerm_rebuild hvar hregion h lhs, renameTerm_rebuild hvar hregion h rhs]
  | .neg inner => by
    simp only [renameTerm, Term.rebuild]
    rw [renameTerm_rebuild hvar hregion h inner]

/-- Renaming commutes with a substitution of terms and regions. -/
theorem renameFormula_rebuild (hvar : Function.Injective varRename)
    (hregion : Function.Injective regionRename) (h : m.Renames varRename regionRename m') :
    ∀ φ : Formula, renameFormula varRename regionRename (φ.rebuild m) =
      (renameFormula varRename regionRename φ).rebuild m'
  | .tru | .fls => by simp only [renameFormula, Formula.rebuild]
  | .var v => h.boolVar v
  | .not inner => by
    simp only [renameFormula, Formula.rebuild]
    rw [renameFormula_rebuild hvar hregion h inner]
  | .and items => by
    rw [Formula.rebuild, renameFormula_andMany hvar hregion, ← renameFormulas_eq_map,
      renameFormulas_rebuild hvar hregion h items]
    simp only [renameFormula, Formula.rebuild]
  | .or items => by
    rw [Formula.rebuild, renameFormula_orMany hvar hregion, ← renameFormulas_eq_map,
      renameFormulas_rebuild hvar hregion h items]
    simp only [renameFormula, Formula.rebuild]
  | .implies lhs rhs => by
    rw [Formula.rebuild, renameFormula_mkImplies hvar hregion,
      renameFormula_rebuild hvar hregion h lhs, renameFormula_rebuild hvar hregion h rhs]
    simp only [renameFormula, Formula.rebuild]
  | .eq lhs rhs | .lt lhs rhs | .le lhs rhs | .gt lhs rhs | .ge lhs rhs => by
    simp only [renameFormula, Formula.rebuild]
    rw [renameTerm_rebuild hvar hregion h lhs, renameTerm_rebuild hvar hregion h rhs]
  | .memoryEq lhs rhs => by
    simp only [renameFormula, Formula.rebuild]
    rw [renameMemory_rebuild hvar hregion h lhs, renameMemory_rebuild hvar hregion h rhs]

theorem renameFormulas_rebuild (hvar : Function.Injective varRename)
    (hregion : Function.Injective regionRename) (h : m.Renames varRename regionRename m') :
    ∀ items : List Formula,
      renameFormulas varRename regionRename (Formula.rebuildList m items) =
        Formula.rebuildList m' (renameFormulas varRename regionRename items)
  | [] => rfl
  | item :: rest => by
    simp only [renameFormulas, Formula.rebuildList]
    rw [renameFormula_rebuild hvar hregion h item, renameFormulas_rebuild hvar hregion h rest]

end

theorem LeafMap.renames_replaceVar (hvar : Function.Injective varRename) (v : Var) (t : Term) :
    (LeafMap.replaceVar v t).Renames varRename regionRename
      (.replaceVar (v.rename varRename) (renameTerm varRename regionRename t)) where
  boolVar _ := rfl
  termVar w := by
    simp only [LeafMap.replaceVar, (Var.rename_injective hvar).eq_iff]
    split_ifs
    · rfl
    · simp only [renameTerm]
  region _ := rfl

theorem LeafMap.renames_replaceRegion (hregion : Function.Injective regionRename) (r : String)
    (mem : Memory) :
    (LeafMap.replaceRegion r mem).Renames varRename regionRename
      (.replaceRegion (regionRename r) (renameMemory varRename regionRename mem)) where
  boolVar _ := rfl
  termVar _ := rfl
  region name := by
    simp only [LeafMap.replaceRegion, hregion.eq_iff]
    split_ifs
    · rfl
    · simp only [renameMemory]

mutual

/-- Renaming commutes with the substitution of a Boolean variable. -/
theorem renameFormula_substituteBoolVar (hvar : Function.Injective varRename)
    (hregion : Function.Injective regionRename) (b : Var) (p : Formula) : ∀ φ : Formula,
    renameFormula varRename regionRename (substituteBoolVarInFormula b p φ) =
      substituteBoolVarInFormula (b.rename varRename) (renameFormula varRename regionRename p)
        (renameFormula varRename regionRename φ)
  | .tru | .fls | .eq _ _ | .lt _ _ | .le _ _ | .gt _ _ | .ge _ _ | .memoryEq _ _ => by
    simp only [substituteBoolVarInFormula, renameFormula]
  | .var v => by
    simp only [substituteBoolVarInFormula, renameFormula, (Var.rename_injective hvar).eq_iff]
    split_ifs
    · rfl
    · simp only [renameFormula]
  | .not inner => by
    simp only [substituteBoolVarInFormula, renameFormula]
    rw [renameFormula_substituteBoolVar hvar hregion b p inner]
  | .and items => by
    rw [substituteBoolVarInFormula, renameFormula_andMany hvar hregion, ← renameFormulas_eq_map,
      renameFormulas_substituteBoolVar hvar hregion b p items]
    simp only [renameFormula, substituteBoolVarInFormula]
  | .or items => by
    rw [substituteBoolVarInFormula, renameFormula_orMany hvar hregion, ← renameFormulas_eq_map,
      renameFormulas_substituteBoolVar hvar hregion b p items]
    simp only [renameFormula, substituteBoolVarInFormula]
  | .implies lhs rhs => by
    rw [substituteBoolVarInFormula, renameFormula_mkImplies hvar hregion,
      renameFormula_substituteBoolVar hvar hregion b p lhs,
      renameFormula_substituteBoolVar hvar hregion b p rhs]
    simp only [renameFormula, substituteBoolVarInFormula]

theorem renameFormulas_substituteBoolVar (hvar : Function.Injective varRename)
    (hregion : Function.Injective regionRename) (b : Var) (p : Formula) : ∀ items : List Formula,
    renameFormulas varRename regionRename (substituteBoolVarInList b p items) =
      substituteBoolVarInList (b.rename varRename) (renameFormula varRename regionRename p)
        (renameFormulas varRename regionRename items)
  | [] => rfl
  | item :: rest => by
    simp only [renameFormulas, substituteBoolVarInList]
    rw [renameFormula_substituteBoolVar hvar hregion b p item,
      renameFormulas_substituteBoolVar hvar hregion b p rest]

end

end Building

end MayMust
