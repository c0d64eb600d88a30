import MayMust.Analysis.Dart.PathCondition
import MayMust.Cfg.Faithful
import MayMust.Formula.Nesting

/-!
# Is the substitution of the walk simultaneous?

`subst_formula_walk` and `subst_term_walk` are to substitute the current contents of all regions in
one pass. They apply the entries of the map one after another, in the order of the hash map, so
what one entry inserts is rewritten by the entries that come after it.

In a row the entries are one substitution, in which the contents of a region went through the
entries after its own (`LeafMap.afterEntries`). It is the simultaneous one exactly where no contents
mention another region that has an entry (`substitutesAtOnce_iff`). Each pass simplifies the whole
formula, so formulas are compared once they are simplified.
-/

namespace MayMust

open Library

/-- All entries of the map at once. -/
def LeafMap.replaceRegions (memoryState : NameMap Memory) : LeafMap where
  boolVar := .var
  termVar := .var
  region name := (memoryState.lookup name).getD (.var name)

/-- The substitution of the walk is that of all entries at once, in all formulas and terms that
read only the given regions, and the order of the entries is irrelevant. -/
structure SubstitutesAtOnce (memoryState : NameMap Memory) (regions : String → Prop) : Prop where
  formula : ∀ (order : HashOrder) (currentVersion : NameMap String) (φ : Formula),
    (∀ x ∈ φ.leaves, x.RegionIn regions) →
    (substFormulaWalk order φ currentVersion memoryState).simplified =
      ((substFormulaWalk order φ currentVersion ∅).rebuild
        (.replaceRegions memoryState)).simplified
  term : ∀ (order : HashOrder) (currentVersion : NameMap String) (t : Term),
    (∀ x ∈ t.leaves, x.RegionIn regions) →
    (substTermWalk order t currentVersion memoryState).simplified =
      ((substTermWalk order t currentVersion ∅).rebuild (.replaceRegions memoryState)).simplified
  order_irrelevant : ∀ (order order' : HashOrder) (currentVersion : NameMap String) (φ : Formula),
    order.versions = order'.versions → (∀ x ∈ φ.leaves, x.RegionIn regions) →
    (substFormulaWalk order φ currentVersion memoryState).simplified =
      (substFormulaWalk order' φ currentVersion memoryState).simplified

/-! ### Entries in a row -/

namespace LeafMap

/-- The entries one after another, and a last simplification. -/
def afterEntries (entries : List (Σ _ : String, Memory)) : LeafMap :=
  entries.foldr (fun entry m ↦ (replaceRegion entry.1 entry.2).comp m) keep

variable {entries : List (Σ _ : String, Memory)}

@[simp] theorem boolVar_afterEntries : (afterEntries entries).boolVar = .var := by
  induction entries with
  | nil => rfl
  | cons entry entries ih => exact ih

@[simp] theorem termVar_afterEntries : (afterEntries entries).termVar = .var := by
  induction entries with
  | nil => rfl
  | cons entry entries ih => exact ih

theorem normalAtoms_afterEntries : (afterEntries entries).NormalAtoms :=
  normalAtoms_of_eq boolVar_afterEntries

theorem normalAtoms_replaceRegion (region : String) (contents : Memory) :
    (replaceRegion region contents).NormalAtoms :=
  normalAtoms_of_eq rfl

theorem region_afterEntries_of_notMem {r : String} (h : r ∉ entries.map (·.1)) :
    (afterEntries entries).region r = .var r := by
  induction entries with
  | nil => rfl
  | cons entry entries ih =>
    rw [List.map_cons, List.mem_cons, not_or] at h
    show (if r = entry.1 then entry.2 else Memory.var r).rebuild (afterEntries entries) = .var r
    rw [if_neg h.1]
    exact ih h.2

/-- The contents of a region go through the entries after its own. -/
theorem region_afterEntries {before after : List (Σ _ : String, Memory)} {r : String}
    {contents : Memory} (h : r ∉ before.map (·.1)) :
    (afterEntries (before ++ ⟨r, contents⟩ :: after)).region r =
      contents.rebuild (afterEntries after) := by
  induction before with
  | nil =>
    show (if r = r then contents else Memory.var r).rebuild (afterEntries after) = _
    rw [if_pos rfl]
  | cons entry before ih =>
    rw [List.map_cons, List.mem_cons, not_or] at h
    show (if r = entry.1 then entry.2 else Memory.var r).rebuild _ = _
    rw [if_neg h.1]
    exact ih h.2

end LeafMap

theorem Formula.simplified_foldl (entries : List (Σ _ : String, Memory)) (φ : Formula) :
    (entries.foldl (fun φ entry ↦ substituteMemoryVarInFormula entry.1 entry.2 φ) φ).simplified =
      φ.rebuild (.afterEntries entries) := by
  induction entries generalizing φ with
  | nil => rfl
  | cons entry entries ih =>
    rw [List.foldl_cons, ih]
    exact Formula.rebuild_rebuild (LeafMap.normalAtoms_replaceRegion _ _)
      LeafMap.normalAtoms_afterEntries φ

theorem Term.simplified_foldl (entries : List (Σ _ : String, Memory)) (t : Term) :
    (entries.foldl (fun t entry ↦ substituteMemoryVarInTerm entry.1 entry.2 t) t).simplified =
      t.rebuild (.afterEntries entries) := by
  induction entries generalizing t with
  | nil => rfl
  | cons entry entries ih =>
    rw [List.foldl_cons, ih]
    exact Term.rebuild_rebuild (LeafMap.normalAtoms_replaceRegion _ _)
      LeafMap.normalAtoms_afterEntries t

section Walk

variable (order : HashOrder) (currentVersion : NameMap String) (memoryState : NameMap Memory)

theorem HashOrder.regions_nil : order.regions [] = [] := (order.regions_perm []).eq_nil

/-- The loop over the regions follows the renaming. -/
theorem simplified_substFormulaWalk (φ : Formula) :
    (substFormulaWalk order φ currentVersion memoryState).simplified =
      (substFormulaWalk order φ currentVersion ∅).rebuild
        (.afterEntries (order.regions memoryState.entries)) := by
  have hempty : order.regions (∅ : NameMap Memory).entries = [] := order.regions_nil
  rw [substFormulaWalk, Formula.simplified_foldl, substFormulaWalk, hempty, List.foldl_nil]

theorem simplified_substTermWalk (t : Term) :
    (substTermWalk order t currentVersion memoryState).simplified =
      (substTermWalk order t currentVersion ∅).rebuild
        (.afterEntries (order.regions memoryState.entries)) := by
  have hempty : order.regions (∅ : NameMap Memory).entries = [] := order.regions_nil
  rw [substTermWalk, Term.simplified_foldl, substTermWalk, hempty, List.foldl_nil]

variable {order currentVersion} {regions : String → Prop}

theorem forall_leaves_renameStep {φ : Formula} (h : ∀ x ∈ φ.leaves, x.RegionIn regions)
    (entry : Σ _ : String, String) : ∀ x ∈ (renameStep φ entry).leaves, x.RegionIn regions := by
  refine (hereditary_leaves _).substituteBoolVar ?_ _
    (Formula.forall_leaves_rebuild φ fun l hl ↦ forall_leavesAt_replaceVar (h l hl) ?_)
  · exact List.forall_mem_singleton.2 trivial
  · exact List.forall_mem_singleton.2 trivial

/-- Renaming reads no new region. -/
theorem forall_leaves_substFormulaWalk {φ : Formula} (h : ∀ x ∈ φ.leaves, x.RegionIn regions) :
    ∀ x ∈ (substFormulaWalk order φ currentVersion ∅).leaves, x.RegionIn regions := by
  have hempty : order.regions (∅ : NameMap Memory).entries = [] := order.regions_nil
  rw [substFormulaWalk, hempty, List.foldl_nil]
  induction order.versions currentVersion.entries generalizing φ with
  | nil => exact h
  | cons entry entries ih => exact ih (forall_leaves_renameStep h entry)

theorem forall_leaves_substTermWalk {t : Term} (h : ∀ x ∈ t.leaves, x.RegionIn regions) :
    ∀ x ∈ (substTermWalk order t currentVersion ∅).leaves, x.RegionIn regions := by
  have hempty : order.regions (∅ : NameMap Memory).entries = [] := order.regions_nil
  rw [substTermWalk, hempty, List.foldl_nil]
  induction order.versions currentVersion.entries generalizing t with
  | nil => exact h
  | cons entry entries ih =>
    exact ih (Term.forall_leaves_rebuild t fun l hl ↦ forall_leavesAt_replaceVar (h l hl)
      (List.forall_mem_singleton.2 trivial))

end Walk

/-! ### The condition -/

/-- The contents of the given regions mention no other region that has an entry, unless the entry
is the region itself. -/
def Detached (memoryState : NameMap Memory) (regions : String → Prop) : Prop :=
  ∀ r, regions r → ∀ contents, memoryState.lookup r = some contents →
    ∀ r', r' ≠ r → ∀ contents', memoryState.lookup r' = some contents' →
      .region r' ∈ contents.simplified.leaves → contents' = .var r'

section Condition

variable {memoryState : NameMap Memory} {regions : String → Prop}

/-- Entries after its own leave detached contents as they are. -/
theorem rebuild_afterEntries_eq {contents : Memory} {after : List (Σ _ : String, Memory)}
    (hnodup : (after.map (·.1)).Nodup)
    (h : ∀ entry ∈ after, .region entry.1 ∈ contents.simplified.leaves →
      entry.2 = .var entry.1) :
    contents.rebuild (.afterEntries after) = contents.simplified := by
  have hkeep : ∀ m : LeafMap, m.NormalAtoms →
      contents.simplified.rebuild m = contents.rebuild m := fun m hm ↦
    Memory.rebuild_rebuild (LeafMap.normalAtoms_of_eq rfl) hm contents
  rw [← hkeep _ LeafMap.normalAtoms_afterEntries]
  refine Eq.trans ?_ (hkeep _ (LeafMap.normalAtoms_of_eq rfl))
  refine Memory.rebuild_congr _ fun x hx ↦ ?_
  cases x with
  | boolVar v => exact congrFun LeafMap.boolVar_afterEntries v
  | termVar v => exact congrFun LeafMap.termVar_afterEntries v
  | region r =>
    show (LeafMap.afterEntries after).region r = .var r
    by_cases hr : r ∈ after.map (·.1)
    · obtain ⟨⟨r, contents'⟩, hentry, rfl⟩ := List.mem_map.1 hr
      obtain ⟨before, rest, rfl⟩ := List.append_of_mem hentry
      have hvar := h _ hentry hx
      dsimp only at hvar
      rw [List.map_append, List.map_cons, List.nodup_append] at hnodup
      have hbefore : r ∉ before.map (·.1) := fun hmem ↦
        hnodup.2.2 r hmem r List.mem_cons_self rfl
      rw [LeafMap.region_afterEntries hbefore, hvar]
      exact LeafMap.region_afterEntries_of_notMem (List.nodup_cons.1 hnodup.2.1).1
    · exact LeafMap.region_afterEntries_of_notMem hr

/-- In a row or at once, the contents of the given regions are the same. -/
theorem Detached.region_afterEntries (h : Detached memoryState regions)
    {entries : List (Σ _ : String, Memory)} (hperm : entries.Perm memoryState.entries) {r : String}
    (hr : regions r) :
    (LeafMap.afterEntries entries).region r =
      ((LeafMap.replaceRegions memoryState).region r).simplified := by
  show _ = ((memoryState.lookup r).getD (.var r)).simplified
  have hnodup : (entries.map (·.1)).Nodup := (hperm.map _).nodup_iff.2 memoryState.keys_nodup
  cases hlookup : memoryState.lookup r with
  | none =>
    have hkey : r ∉ entries.map (·.1) := fun hmem ↦
      AList.lookup_eq_none.1 hlookup ((hperm.map _).mem_iff.1 hmem)
    exact LeafMap.region_afterEntries_of_notMem hkey
  | some contents =>
    have hmem : ⟨r, contents⟩ ∈ entries := hperm.mem_iff.2 (AList.mem_lookup_iff.1 hlookup)
    obtain ⟨before, after, rfl⟩ := List.append_of_mem hmem
    rw [List.map_append, List.map_cons, List.nodup_append, List.nodup_cons] at hnodup
    obtain ⟨-, ⟨hafter, hnodup⟩, hdisjoint⟩ := hnodup
    have hbefore : r ∉ before.map (·.1) := fun hmem ↦
      hdisjoint r hmem r List.mem_cons_self rfl
    rw [LeafMap.region_afterEntries hbefore]
    refine rebuild_afterEntries_eq hnodup fun entry hentry hread ↦ ?_
    have hne : entry.1 ≠ r := by
      rintro rfl
      exact hafter (List.mem_map.2 ⟨entry, hentry, rfl⟩)
    have hentry' : memoryState.lookup entry.1 = some entry.2 :=
      AList.mem_lookup_iff.2 (hperm.mem_iff.1 (by simp [hentry]))
    exact h r hr contents hlookup entry.1 hne entry.2 hentry' hread

theorem Detached.sameAt (h : Detached memoryState regions) {entries : List (Σ _ : String, Memory)}
    (hperm : entries.Perm memoryState.entries) {x : Leaf} (hx : x.RegionIn regions) :
    (LeafMap.afterEntries entries).SameAt ((LeafMap.replaceRegions memoryState).comp .keep) x := by
  cases x with
  | boolVar v => exact congrFun LeafMap.boolVar_afterEntries v
  | termVar v => exact congrFun LeafMap.termVar_afterEntries v
  | region r => exact h.region_afterEntries hperm hx

/-- Some order visits the entries of the map in the given arrangement. -/
theorem HashOrder.exists_regions_eq {entries entries' : List (Σ _ : String, Memory)}
    (hperm : entries'.Perm entries) : ∃ order : HashOrder, order.regions entries = entries' := by
  classical
  refine ⟨⟨id, fun l ↦ if l = entries then entries' else l, fun _ ↦ .refl _, fun l ↦ ?_⟩,
    if_pos rfl⟩
  split_ifs with h
  · exact h ▸ hperm
  · exact .refl l

/-- Two entries of a map can come last, in either order. -/
theorem exists_perm_append_pair {r r' : String} {contents contents' : Memory} (hne : r' ≠ r)
    (hr : memoryState.lookup r = some contents) (hr' : memoryState.lookup r' = some contents') :
    ∃ before, (before ++ [⟨r, contents⟩, ⟨r', contents'⟩]).Perm memoryState.entries ∧
      r ∉ before.map (·.1) := by
  obtain ⟨front, back, hsplit⟩ := List.append_of_mem (AList.mem_lookup_iff.1 hr)
  have hfirst : memoryState.entries.Perm (⟨r, contents⟩ :: (front ++ back)) := by
    rw [hsplit]
    exact List.perm_middle
  have hmem : (⟨r', contents'⟩ : Σ _ : String, Memory) ∈ front ++ back := by
    obtain h | h := List.mem_cons.1 (hfirst.mem_iff.1 (AList.mem_lookup_iff.1 hr'))
    · exact absurd (congrArg Sigma.fst h) hne
    · exact h
  obtain ⟨front', back', hsplit'⟩ := List.append_of_mem hmem
  have hboth : memoryState.entries.Perm (⟨r, contents⟩ :: ⟨r', contents'⟩ :: (front' ++ back')) := by
    refine hfirst.trans (.cons _ ?_)
    rw [hsplit']
    exact List.perm_middle
  refine ⟨front' ++ back', List.perm_append_comm.trans hboth.symm, ?_⟩
  have hnodup := (hboth.map (Sigma.fst)).nodup_iff.1 memoryState.keys_nodup
  rw [List.map_cons, List.map_cons, List.nodup_cons] at hnodup
  exact fun h ↦ hnodup.1 (List.mem_cons_of_mem _ h)

/-- An entry that is visited last reaches into the contents of all others. -/
theorem SubstitutesAtOnce.detached (h : SubstitutesAtOnce memoryState regions) :
    Detached memoryState regions := by
  intro r hr contents hlookup r' hne contents' hlookup' hread
  obtain ⟨before, hperm, hbefore⟩ := exists_perm_append_pair hne hlookup hlookup'
  obtain ⟨order, horder⟩ := HashOrder.exists_regions_eq hperm
  let read : Formula := .eq (.select (.var r) (.int 0)) (.int 0)
  have hread' : ∀ x ∈ read.leaves, x.RegionIn regions := List.forall_mem_singleton.2 hr
  have hwalk := h.formula order ∅ read hread'
  have hrename : substFormulaWalk order read ∅ ∅ = read := by
    have hversions : order.versions (∅ : NameMap String).entries = [] :=
      (order.versions_perm []).eq_nil
    have hregions : order.regions (∅ : NameMap Memory).entries = [] := order.regions_nil
    rw [substFormulaWalk, hversions, hregions]
    rfl
  rw [simplified_substFormulaWalk, hrename, horder] at hwalk
  have hregion : (LeafMap.afterEntries (before ++ [⟨r, contents⟩, ⟨r', contents'⟩])).region r =
      ((memoryState.lookup r).getD (.var r)).simplified :=
    (Term.select.inj (Formula.eq.inj hwalk).1).1
  rw [LeafMap.region_afterEntries hbefore, hlookup, Option.getD_some] at hregion
  have hlast : LeafMap.afterEntries [⟨r', contents'⟩] = .replaceRegion r' contents'.simplified := by
    refine congrArg (LeafMap.mk .var .var) (funext fun name ↦ ?_)
    show (if name = r' then contents' else Memory.var name).rebuild .keep = _
    split_ifs <;> rfl
  rw [hlast] at hregion
  have hvar := Memory.eq_var_of_rebuild_eq hregion hread
  cases contents' with
  | var name => exact hvar
  | store inner index value => cases hvar

end Condition

/-- The substitution of the walk is simultaneous exactly where no contents mention another region
that has an entry. -/
theorem substitutesAtOnce_iff (memoryState : NameMap Memory) (regions : String → Prop) :
    SubstitutesAtOnce memoryState regions ↔ Detached memoryState regions := by
  refine ⟨SubstitutesAtOnce.detached, fun h ↦ ?_⟩
  have hperm (order : HashOrder) := order.regions_perm memoryState.entries
  have hformula : ∀ (order : HashOrder) (currentVersion : NameMap String) (φ : Formula),
      (∀ x ∈ φ.leaves, x.RegionIn regions) →
      (substFormulaWalk order φ currentVersion memoryState).simplified =
        ((substFormulaWalk order φ currentVersion ∅).rebuild
          (.replaceRegions memoryState)).simplified := fun order currentVersion φ hφ ↦ by
    rw [simplified_substFormulaWalk, Formula.simplified,
      Formula.rebuild_rebuild (LeafMap.normalAtoms_of_eq rfl) (LeafMap.normalAtoms_of_eq rfl)]
    exact Formula.rebuild_congr _ fun x hx ↦
      h.sameAt (hperm order) (forall_leaves_substFormulaWalk hφ x hx)
  refine ⟨hformula, fun order currentVersion t ht ↦ ?_,
    fun order order' currentVersion φ heq hφ ↦ ?_⟩
  · rw [simplified_substTermWalk, Term.simplified,
      Term.rebuild_rebuild (LeafMap.normalAtoms_of_eq rfl) (LeafMap.normalAtoms_of_eq rfl)]
    exact Term.rebuild_congr _ fun x hx ↦
      h.sameAt (hperm order) (forall_leaves_substTermWalk ht x hx)
  · have hrename : substFormulaWalk order φ currentVersion ∅ =
        substFormulaWalk order' φ currentVersion ∅ := by
      have hregions : order.regions (∅ : NameMap Memory).entries = [] := order.regions_nil
      have hregions' : order'.regions (∅ : NameMap Memory).entries = [] := order'.regions_nil
      rw [substFormulaWalk, substFormulaWalk, hregions, hregions', heq]
    rw [hformula order _ φ hφ, hformula order' _ φ hφ, hrename]

/-- The contents along `a[0] := b[0]; b[0] := 1`. -/
def copyThenWrite : NameMap Memory :=
  ([.memoryStore "a" (.int 0) (.select (.var "b") (.int 0)),
    .memoryStore "b" (.int 0) (.int 1)].foldl (applyPathEffect .stored ⟨0, 1⟩)
    (.start .tru)).memoryState

/-- The entries in the order they were inserted. -/
def HashOrder.oldestFirst : HashOrder :=
  { HashOrder.stored with regions := List.reverse, regions_perm := List.reverse_perm }

/-- The contents of `a` mention `b`, and a later entry rewrites what was copied. -/
theorem not_substitutesAtOnce_copyThenWrite :
    ¬ SubstitutesAtOnce copyThenWrite fun _ ↦ True := by
  intro h
  have hread : ∀ x ∈ (Formula.eq (.select (.var "a") (.int 0)) (.int 0)).leaves,
      x.RegionIn fun _ ↦ True := List.forall_mem_singleton.2 trivial
  exact absurd (h.formula .oldestFirst ∅ _ hread) (by decide)

end MayMust
