import MayMust.Cfg.Faithful
import MayMust.Formula.Equivariance

/-!
# Renaming effects

`rename_effect` renames what an effect reads and writes, for the effects that the backward
transformer computes with. All others are copied, `HavocRegions` with its list of regions too.

Renaming commutes with the transformer on the renamed effects, as the names may differ but not what
is equal to what (`renameFormula_wpOne`). A copied `HavocRegions` forgets the old regions, which a
renamed formula does not mention if the new names are fresh. So it forgets nothing, where the
original forgets what mentions its regions: the two agree just where the original forgets nothing
either (`renameFormula_wp_iff`).
-/

namespace MayMust

/-- `rename_effect`. -/
def renameEffect (varRename regionRename : String → String) : TransferEffect → TransferEffect
  | .assign target (.term value) =>
    .assign (target.rename varRename) (.term (renameTerm varRename regionRename value))
  | .assign target (.predicate value) =>
    .assign (target.rename varRename) (.predicate (renameFormula varRename regionRename value))
  | .memoryStore region offset value =>
    .memoryStore (regionRename region) (renameTerm varRename regionRename offset)
      (renameTerm varRename regionRename value)
  | .assume condition => .assume (renameFormula varRename regionRename condition)
  | .typeBound condition => .typeBound (renameFormula varRename regionRename condition)
  | .obligation condition => .obligation (renameFormula varRename regionRename condition)
  | other => other

/-- `rename_transfer_fn`. -/
def renameTransferFn (varRename regionRename : String → String) (t : TransferFn) : TransferFn :=
  ⟨t.effects.map (renameEffect varRename regionRename)⟩

/-- The effect names the region. -/
def TransferEffect.NamesRegion (r : String) : TransferEffect → Prop
  | .assign _ (.term value) | .store _ value | .getElementPtr _ _ value => .region r ∈ value.leaves
  | .assign _ (.predicate value) => .region r ∈ value.leaves
  | .memoryStore region offset value =>
    r = region ∨ .region r ∈ offset.leaves ∨ .region r ∈ value.leaves
  | .assume condition | .typeBound condition | .obligation condition =>
    .region r ∈ condition.leaves
  | .havocRegions regions => r ∈ regions
  | .alloca _ region | .heapAlloc _ region => r = region
  | _ => False

/-- The effects or the formula name the region. -/
def NamesRegion (effects : List TransferEffect) (φ : Formula) (r : String) : Prop :=
  .region r ∈ φ.leaves ∨ ∃ e ∈ effects, e.NamesRegion r

/-- The new names of regions are none of the old ones. -/
def FreshRegions (regionRename : String → String) (effects : List TransferEffect) (φ : Formula) :
    Prop :=
  ∀ r r', NamesRegion effects φ r → NamesRegion effects φ r' → regionRename r ≠ r'

section Rename

variable {varRename regionRename : String → String} {effects later : List TransferEffect}
  {φ : Formula} {e : TransferEffect} {r : String}

theorem namesRegion_of_mem_leaves (h : .region r ∈ e.leaves) : e.NamesRegion r := by
  cases e with
  | assign target value => cases value <;> exact h
  | memoryStore region offset value => exact .inr (List.mem_append.1 h)
  | assume condition | obligation condition => exact h
  | _ => exact absurd h List.not_mem_nil

/-- The computed formula mentions regions that are named. -/
theorem namesRegion_of_mem_wp (h : .region r ∈ (TransferFn.wp ⟨effects⟩ φ).leaves) :
    NamesRegion effects φ r := by
  have hleaves := @forall_leaves_wp (fun x ↦ ∀ r, x = .region r → NamesRegion effects φ r) φ effects
    (fun x hx r hr ↦ .inl (hr ▸ hx))
    (fun e he x hx r hr ↦ .inr ⟨e, he, namesRegion_of_mem_leaves (hr ▸ hx)⟩)
  exact hleaves _ h r rfl

theorem NamesRegion.mono (hsuffix : later <:+ effects) (h : NamesRegion later φ r) :
    NamesRegion effects φ r := by
  obtain h | ⟨e, he, hr⟩ := h
  · exact .inl h
  · exact .inr ⟨e, hsuffix.mem he, hr⟩

/-- Renaming commutes with the transformer, for all effects that are renamed or transparent. -/
theorem renameFormula_wpOne (hvar : Function.Injective varRename)
    (hregion : Function.Injective regionRename) (hhavocs : ¬ e.Havocs) (φ : Formula) :
    renameFormula varRename regionRename (wpOne e φ) =
      wpOne (renameEffect varRename regionRename e) (renameFormula varRename regionRename φ) := by
  cases e with
  | assign target value =>
    cases value with
    | term value =>
      exact renameFormula_rebuild hvar hregion (LeafMap.renames_replaceVar hvar target value) φ
    | predicate value => exact renameFormula_substituteBoolVar hvar hregion target value φ
  | memoryStore region offset value =>
    have h := renameFormula_rebuild hvar hregion
      (LeafMap.renames_replaceRegion hregion region (.store (.var region) offset value)) φ
    simp only [renameMemory] at h
    exact h
  | assume condition | obligation condition => exact renameFormula_mkAnd hvar hregion condition φ
  | havocRegions regions => exact absurd trivial hhavocs
  | _ => rfl

/-- A copied `HavocRegions` forgets nothing of a renamed formula. -/
theorem wpOne_havocRegions_rename {regions : List String}
    (hfresh : ∀ r', .region r' ∈ φ.leaves → regionRename r' ∉ regions) :
    wpOne (.havocRegions regions) (renameFormula varRename regionRename φ) =
      renameFormula varRename regionRename φ := by
  refine foldl_havocRegionInFormula_eq fun r hr hmem ↦ ?_
  rw [leaves_renameFormula, List.mem_map] at hmem
  obtain ⟨x, hx, heq⟩ := hmem
  cases x with
  | boolVar v | termVar v => cases heq
  | region r' => exact hfresh r' hx (Leaf.region.inj heq ▸ hr)

/-- The original forgets nothing just if the formula mentions none of its regions. -/
theorem wpOne_havocRegions_eq_iff {regions : List String} :
    wpOne (.havocRegions regions) φ = φ ↔ ∀ r ∈ regions, .region r ∉ φ.leaves := by
  refine ⟨fun h r hr ↦ ?_, foldl_havocRegionInFormula_eq⟩
  rw [← h]
  exact region_notMem_leaves_foldl_havoc hr φ

/-- **Renaming commutes with the transformer along the whole pass just if, at every `HavocRegions`,
the formula that is reached mentions none of its regions.** -/
theorem renameFormula_wp_iff (hvar : Function.Injective varRename)
    (hregion : Function.Injective regionRename) (hfresh : FreshRegions regionRename effects φ) :
    (∀ later, later <:+ effects →
      renameFormula varRename regionRename (TransferFn.wp ⟨later⟩ φ) =
        (renameTransferFn varRename regionRename ⟨later⟩).wp
          (renameFormula varRename regionRename φ)) ↔
      ∀ regions later, .havocRegions regions :: later <:+ effects →
        ∀ r ∈ regions, .region r ∉ (TransferFn.wp ⟨later⟩ φ).leaves := by
  have hcopied : ∀ regions later, .havocRegions regions :: later <:+ effects →
      wpOne (.havocRegions regions)
          (renameFormula varRename regionRename (TransferFn.wp ⟨later⟩ φ)) =
        renameFormula varRename regionRename (TransferFn.wp ⟨later⟩ φ) := by
    intro regions later hsuffix
    refine wpOne_havocRegions_rename fun r' hr' hr ↦ hfresh r' (regionRename r') ?_ ?_ rfl
    · exact (namesRegion_of_mem_wp hr').mono ((List.suffix_cons _ _).trans hsuffix)
    · exact .inr ⟨.havocRegions regions, hsuffix.mem List.mem_cons_self, hr⟩
  constructor
  · intro h regions later hsuffix
    have htail := h later ((List.suffix_cons _ _).trans hsuffix)
    have hcons := h (.havocRegions regions :: later) hsuffix
    refine wpOne_havocRegions_eq_iff.1 (renameFormula_injective hvar hregion ?_)
    calc renameFormula varRename regionRename
          (wpOne (.havocRegions regions) (TransferFn.wp ⟨later⟩ φ))
        = wpOne (.havocRegions regions)
            ((renameTransferFn varRename regionRename ⟨later⟩).wp
              (renameFormula varRename regionRename φ)) := by
          rw [TransferFn.wp_cons] at hcons
          exact hcons.trans (TransferFn.wp_cons _ _ _)
      _ = renameFormula varRename regionRename (TransferFn.wp ⟨later⟩ φ) := by
          rw [← htail, hcopied regions later hsuffix]
  · intro h later hsuffix
    induction later with
    | nil => rfl
    | cons e later ih =>
      have htail := ih ((List.suffix_cons _ _).trans hsuffix)
      have hcons : (renameTransferFn varRename regionRename ⟨e :: later⟩).wp
          (renameFormula varRename regionRename φ) =
          wpOne (renameEffect varRename regionRename e)
            (renameFormula varRename regionRename (TransferFn.wp ⟨later⟩ φ)) := by
        rw [htail]
        exact TransferFn.wp_cons _ _ _
      rw [hcons, TransferFn.wp_cons]
      by_cases hhavocs : e.Havocs
      · cases e with
        | havocRegions regions =>
          rw [wpOne_havocRegions_eq_iff.2 (h regions later hsuffix)]
          exact (hcopied regions later hsuffix).symm
        | _ => exact absurd hhavocs id
      · exact renameFormula_wpOne hvar hregion hhavocs _

end Rename

/-! ### A callee that forgets a region -/

/-- The name in the caller. -/
def inlinedName (name : String) : String := "callee$" ++ name

theorem inlinedName_injective : Function.Injective inlinedName := fun name name' h ↦ by
  have htoList : "callee$".toList ++ name.toList = "callee$".toList ++ name'.toList := by
    rw [← String.toList_append, ← String.toList_append]
    exact congrArg String.toList h
  exact String.toList_inj.1 (List.append_cancel_left htoList)

/-- A read of the region. -/
def readsRegion : Formula := .eq (.select (.var "a") (.int 0)) (.int 0)

theorem namesRegion_readsRegion {regions : List String} {r : String}
    (h : NamesRegion [.havocRegions regions] readsRegion r) : r = "a" ∨ r ∈ regions := by
  obtain h | ⟨e, he, hr⟩ := h
  · simp only [readsRegion, Formula.leaves, Term.leaves, Memory.leaves, List.mem_cons,
      List.append_nil, List.not_mem_nil, or_false, Leaf.region.injEq] at h
    exact .inl h
  · rw [List.mem_singleton.1 he] at hr
    exact .inr hr

theorem freshRegions_readsRegion {region : String} (hregion : region = "a" ∨ region = "b") :
    FreshRegions inlinedName [.havocRegions [region]] readsRegion := by
  intro r r' hr hr'
  have hname : ∀ r, NamesRegion [.havocRegions [region]] readsRegion r → r = "a" ∨ r = "b" :=
    fun r hr ↦ (namesRegion_readsRegion hr).elim .inl fun hmem ↦ List.mem_singleton.1 hmem ▸ hregion
  obtain rfl | rfl := hname r hr <;> obtain rfl | rfl := hname r' hr' <;> decide

/-- The callee forgets another region. -/
theorem renameFormula_wp_otherRegion :
    renameFormula inlinedName inlinedName (TransferFn.wp ⟨[.havocRegions ["b"]]⟩ readsRegion) =
      (renameTransferFn inlinedName inlinedName ⟨[.havocRegions ["b"]]⟩).wp
        (renameFormula inlinedName inlinedName readsRegion) := by
  refine (renameFormula_wp_iff inlinedName_injective inlinedName_injective
    (freshRegions_readsRegion (.inr rfl))).2 (fun regions later hsuffix ↦ ?_) _ (List.suffix_refl _)
  obtain heq | hnil := List.suffix_cons_iff.1 hsuffix
  · cases heq
    decide
  · exact absurd (List.suffix_nil.1 hnil) (List.cons_ne_nil _ _)

/-- The callee forgets the region of the formula: the renamed effect keeps what it should forget. -/
theorem not_renameFormula_wp_forgotten :
    Function.Injective inlinedName ∧ FreshRegions inlinedName [.havocRegions ["a"]] readsRegion ∧
      (renameTransferFn inlinedName inlinedName ⟨[.havocRegions ["a"]]⟩).wp
          (renameFormula inlinedName inlinedName readsRegion) =
        .eq (.select (.var "callee$a") (.int 0)) (.int 0) ∧
      renameFormula inlinedName inlinedName (TransferFn.wp ⟨[.havocRegions ["a"]]⟩ readsRegion) ≠
        (renameTransferFn inlinedName inlinedName ⟨[.havocRegions ["a"]]⟩).wp
          (renameFormula inlinedName inlinedName readsRegion) :=
  ⟨inlinedName_injective, freshRegions_readsRegion (.inl rfl), by decide, by decide⟩

end MayMust
