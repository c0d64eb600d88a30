import Mathlib.Data.List.AList
import MayMust.Analysis.Dart.Enumerate
import MayMust.Formula.Positions

/-!
# Path conditions

`compute_path_condition_with_state` of the source walks the edges of a path forward and conjoins a
constraint for every effect and guard it meets. Two maps translate what the program names into what
the formula names: `current_version` maps a variable to its current version, `memory_state` maps a
region to its current contents. Both are hash maps, and every substitution goes through their
entries in the order of the map, which the source does not determine; here the order is a parameter
(`HashOrder`).

What a substitution does is stated without side conditions: the result, evaluated in a state, is
the formula read in two states, in which the atoms and the integer variables have the values of
their versions and the regions have their current contents (`eval_substFormulaWalk`).
-/

namespace MayMust

open Library

/-! ### The walk -/

/-- A hash map from names. -/
abbrev NameMap (β : Type) := AList fun _ : String ↦ β

/-- The order in which the entries of the two maps are visited. -/
structure HashOrder where
  versions : List (Σ _ : String, String) → List (Σ _ : String, String)
  regions : List (Σ _ : String, Memory) → List (Σ _ : String, Memory)
  versions_perm : ∀ entries, (versions entries).Perm entries
  regions_perm : ∀ entries, (regions entries).Perm entries

/-- The entries as they are stored. -/
def HashOrder.stored : HashOrder := ⟨id, id, fun _ ↦ .refl _, fun _ ↦ .refl _⟩

/-- One round of the renaming loop of `subst_formula_walk`. -/
def renameStep (φ : Formula) (entry : Σ _ : String, String) : Formula :=
  substituteBoolVarInFormula (.bool entry.1) (.var (.bool entry.2))
    (substituteVarInFormula (.int entry.1) (.var (.int entry.2)) φ)

/-- `subst_formula_walk`. -/
def substFormulaWalk (order : HashOrder) (φ : Formula) (currentVersion : NameMap String)
    (memoryState : NameMap Memory) : Formula :=
  (order.regions memoryState.entries).foldl
    (fun φ entry ↦ substituteMemoryVarInFormula entry.1 entry.2 φ)
    ((order.versions currentVersion.entries).foldl renameStep φ)

/-- `subst_term_walk`. -/
def substTermWalk (order : HashOrder) (t : Term) (currentVersion : NameMap String)
    (memoryState : NameMap Memory) : Term :=
  (order.regions memoryState.entries).foldl
    (fun t entry ↦ substituteMemoryVarInTerm entry.1 entry.2 t)
    ((order.versions currentVersion.entries).foldl
      (fun t entry ↦ substituteVarInTerm (.int entry.1) (.var (.int entry.2)) t) t)

/-- The state of the walk but for the visit counts. -/
structure PathState where
  formula : Formula
  currentVersion : NameMap String
  memoryState : NameMap Memory
  defined : Finset String

/-- A place of the walk that effects are applied at: the node whose names they define, and which
visit to it this is. -/
structure Place where
  node : CfgNodeId
  visitCount : ℕ
  deriving DecidableEq

/-- The fresh name of `version_var`. -/
def Place.freshName (place : Place) (orig : String) : String :=
  orig ++ "$n" ++ toString place.node ++ "v" ++ toString place.visitCount

namespace PathState

/-- The first definition of a name keeps it. -/
def FirstDefinition (st : PathState) (place : Place) (orig : String) : Prop :=
  place.visitCount = 1 ∧ orig ∉ st.defined

instance (st : PathState) (place : Place) (orig : String) :
    Decidable (st.FirstDefinition place orig) :=
  inferInstanceAs (Decidable (_ ∧ _))

/-- The variable `version_var` returns. -/
def versioned (st : PathState) (place : Place) (target : Var) : Var :=
  if st.FirstDefinition place target.name then target
  else ⟨place.freshName target.name, target.sort⟩

/-- What `version_var` does to the maps. -/
def versionVar (st : PathState) (place : Place) (target : Var) : PathState :=
  if st.FirstDefinition place target.name then
    { st with
      defined := insert target.name st.defined
      currentVersion := st.currentVersion.erase target.name }
  else
    { st with
      defined := insert (place.freshName target.name) st.defined
      currentVersion := st.currentVersion.insert target.name (place.freshName target.name) }

/-- `conjoin`, on the formula of the walk. -/
def conjoin (st : PathState) (φ : Formula) : PathState :=
  { st with formula := Formula.mkAnd st.formula φ }

/-- The current contents of a region. -/
def regionAt (st : PathState) (region : String) : Memory :=
  (st.memoryState.lookup region).getD (.var region)

end PathState

/-- `apply_path_effect`. The right-hand side is translated before its target gets a version. -/
def applyPathEffect (order : HashOrder) (place : Place) (st : PathState) :
    TransferEffect → PathState
  | .assign target (.term t) =>
    (st.versionVar place target).conjoin
      (.eq (.var (st.versioned place target))
        (substTermWalk order t st.currentVersion st.memoryState))
  | .assign target (.predicate p) =>
    (st.versionVar place target).conjoin
      (Formula.mkIff (.var (st.versioned place target))
        (substFormulaWalk order p st.currentVersion st.memoryState))
  | .assume c | .obligation c | .typeBound c =>
    st.conjoin (substFormulaWalk order c st.currentVersion st.memoryState)
  | .memoryStore region offset value =>
    { st with
      memoryState := st.memoryState.insert region
        (.store (st.regionAt region) (substTermWalk order offset st.currentVersion st.memoryState)
          (substTermWalk order value st.currentVersion st.memoryState)) }
  | _ => st

/-- The state of the walk. -/
structure PathWalk extends PathState where
  nodeVisitCount : CfgNodeId → ℕ

/-- The body of the loop of `compute_path_condition_with_state`: the effects of the source node, the
guard, the effects of the edge. What an edge defines belongs to the coming visit of its target. -/
def walkEdge (order : HashOrder) (cfg : AbstractCfg) (walk : PathWalk) (edgeId : CfgEdgeId) :
    PathWalk :=
  match cfg.edge edgeId with
  | .error _ => walk
  | .ok edge =>
    let counts := visit walk.nodeVisitCount edge.source
    let left := (cfg.transferAt edge.source).effects.foldl
      (applyPathEffect order ⟨edge.source, counts edge.source⟩) walk.toPathState
    let guarded := left.conjoin
      (substFormulaWalk order edge.guard left.currentVersion left.memoryState)
    let crossed := edge.effects.foldl
      (applyPathEffect order ⟨edge.target, counts edge.target + 1⟩) guarded
    ⟨crossed, counts⟩

/-- The walk before the first edge. -/
def PathState.start (phi1 : Formula) : PathState := ⟨phi1, ∅, ∅, ∅⟩

/-- `compute_path_condition_with_state`: the source returns the formula and the two maps of the
last state. -/
def computePathConditionWithState (order : HashOrder) (cfg : AbstractCfg) (path : List CfgEdgeId)
    (phi1 : Formula) : PathWalk :=
  path.foldl (walkEdge order cfg) ⟨.start phi1, fun _ ↦ 0⟩

/-! ### What the substitutions do -/

namespace State

/-- Give every renamed variable the value of its version, last entry first. -/
def renameBy (mk : String → Var) (entries : List (Σ _ : String, String)) (s : State) : State :=
  entries.foldr (fun entry s ↦ s.set (mk entry.1) (s.lookup (mk entry.2))) s

/-- Give every region with an entry the contents stated there, last entry first. -/
noncomputable def storeBy (entries : List (Σ _ : String, Memory)) (s : State) : State :=
  entries.foldr (fun entry s ↦ s.setRegion entry.1 (entry.2.eval s)) s

variable {mk : String → Var} {entries : List (Σ _ : String, String)}
  {stores : List (Σ _ : String, Memory)} {s : State}

theorem sameUndefined_renameBy : s.SameUndefined (s.renameBy mk entries) := by
  induction entries with
  | nil => exact .refl s
  | cons entry entries ih => exact ih.trans (sameUndefined_set _ _ _)

theorem sameUndefined_storeBy : s.SameUndefined (s.storeBy stores) := by
  induction stores with
  | nil => exact .refl s
  | cons entry stores ih => exact ih.trans (sameUndefined_setRegion _ _ _)

@[simp] theorem memory_renameBy : (s.renameBy mk entries).memory = s.memory := by
  induction entries with
  | nil => rfl
  | cons entry entries ih =>
    rw [renameBy, List.foldr_cons, memory_set]
    exact ih

@[simp] theorem lookup_storeBy (v : Var) : (s.storeBy stores).lookup v = s.lookup v := by
  induction stores with
  | nil => rfl
  | cons entry stores ih =>
    rw [storeBy, List.foldr_cons, lookup_setRegion]
    exact ih

theorem lookup_renameBy_of_forall_ne {v : Var} (h : ∀ entry ∈ entries, mk entry.1 ≠ v) :
    (s.renameBy mk entries).lookup v = s.lookup v := by
  induction entries with
  | nil => rfl
  | cons entry entries ih =>
    rw [List.forall_mem_cons] at h
    rw [renameBy, List.foldr_cons, lookup_set_of_ne (Ne.symm h.1)]
    exact ih h.2

/-- A renamed variable has the value of its version, provided the version is not renamed itself. -/
theorem lookup_renameBy_of_mem (hmk : ∀ a b, mk a = mk b → a = b)
    (hsort : ∀ a b, (mk a).sort = (mk b).sort) {orig fresh : String}
    (hnodup : (entries.map (·.1)).Nodup) (hmem : ⟨orig, fresh⟩ ∈ entries)
    (hfresh : fresh ∉ entries.map (·.1)) :
    (s.renameBy mk entries).lookup (mk orig) = s.lookup (mk fresh) := by
  induction entries with
  | nil => exact absurd hmem List.not_mem_nil
  | cons entry entries ih =>
    rw [List.map_cons, List.nodup_cons] at hnodup
    rw [List.map_cons, List.mem_cons, not_or] at hfresh
    rw [renameBy, List.foldr_cons]
    rcases List.mem_cons.1 hmem with rfl | hmem
    · rw [lookup_set_self (by simpa using hsort _ _)]
      refine lookup_renameBy_of_forall_ne fun entry hentry heq ↦ hfresh.2 ?_
      have hname : entry.1 = fresh := hmk _ _ heq
      exact hname ▸ List.mem_map_of_mem hentry
    · have hne : mk orig ≠ mk entry.1 := fun heq ↦
        hnodup.1 (hmk _ _ heq ▸ List.mem_map_of_mem hmem)
      rw [lookup_set_of_ne hne]
      exact ih hnodup.2 hmem hfresh.2

theorem memory_storeBy_of_notMem {region : String} (h : region ∉ stores.map (·.1)) :
    (s.storeBy stores).memory region = s.memory region := by
  induction stores with
  | nil => rfl
  | cons entry stores ih =>
    rw [List.map_cons, List.mem_cons, not_or] at h
    rw [storeBy, List.foldr_cons, memory_setRegion_of_ne h.1]
    exact ih h.2

/-- A region with an entry has the contents stated there, provided these mention no other region
with an entry. -/
theorem memory_storeBy_of_mem {region : String} {mem : Memory} (hnodup : (stores.map (·.1)).Nodup)
    (hmem : ⟨region, mem⟩ ∈ stores)
    (hplain : ∀ r, .region r ∈ mem.leaves → r ∈ stores.map (·.1) → r = region) :
    (s.storeBy stores).memory region = mem.eval s := by
  induction stores with
  | nil => exact absurd hmem List.not_mem_nil
  | cons entry stores ih =>
    rw [List.map_cons, List.nodup_cons] at hnodup
    rw [storeBy, List.foldr_cons]
    rcases List.mem_cons.1 hmem with rfl | hmem
    · rw [memory_setRegion_self]
      refine Memory.eval_congr (State.SameUndefined.symm sameUndefined_storeBy) fun x hx ↦ ?_
      cases x with
      | boolVar v => exact lookup_storeBy v
      | termVar v => exact lookup_storeBy v
      | region r =>
        refine memory_storeBy_of_notMem fun hr ↦ ?_
        have hself : r = region := hplain r hx (List.mem_cons_of_mem _ hr)
        exact hnodup.1 (hself ▸ hr)
    · have hne : region ≠ entry.1 := fun heq ↦ hnodup.1 (heq ▸ List.mem_map_of_mem hmem)
      rw [memory_setRegion_of_ne hne]
      exact ih hnodup.2 hmem fun r hr hkey ↦ hplain r hr (List.mem_cons_of_mem _ hkey)

end State

section Substitutions

variable {a t s : State} {φ : Formula} {u : Term}

theorem evalSplit_foldl_renameStep (entries : List (Σ _ : String, String)) :
    (entries.foldl renameStep φ).evalSplit a t =
      φ.evalSplit (a.renameBy Var.bool entries) (t.renameBy Var.int entries) := by
  induction entries generalizing φ with
  | nil => rfl
  | cons entry entries ih =>
    have hsort : ∀ s : State, ((Term.var (.int entry.2)).eval s).sort = (Var.int entry.1).sort :=
      fun s ↦ State.sort_lookup s (.int entry.2)
    rw [List.foldl_cons, ih, renameStep, Formula.evalSplit_substituteBoolVarInFormula rfl,
      Formula.evalSplit_substituteVarInFormula (hsort _) (by simp [Var.int])]
    rfl

theorem evalSplit_foldl_substituteMemoryVar (stores : List (Σ _ : String, Memory)) :
    (stores.foldl (fun φ entry ↦ substituteMemoryVarInFormula entry.1 entry.2 φ) φ).evalSplit a t =
      φ.evalSplit a (t.storeBy stores) := by
  induction stores generalizing φ with
  | nil => rfl
  | cons entry stores ih =>
    rw [List.foldl_cons, ih, Formula.evalSplit_substituteMemoryVarInFormula]
    rfl

theorem eval_foldl_substituteVarInTerm (entries : List (Σ _ : String, String)) :
    (entries.foldl (fun t entry ↦ substituteVarInTerm (.int entry.1) (.var (.int entry.2)) t)
      u).eval s = u.eval (s.renameBy Var.int entries) := by
  induction entries generalizing u with
  | nil => rfl
  | cons entry entries ih =>
    have hsort : ∀ s : State, ((Term.var (.int entry.2)).eval s).sort = (Var.int entry.1).sort :=
      fun s ↦ State.sort_lookup s (.int entry.2)
    rw [List.foldl_cons, ih, eval_substituteVarInTerm (hsort _) (by simp [Var.int])]
    rfl

theorem eval_foldl_substituteMemoryVarInTerm (stores : List (Σ _ : String, Memory)) :
    (stores.foldl (fun t entry ↦ substituteMemoryVarInTerm entry.1 entry.2 t) u).eval s =
      u.eval (s.storeBy stores) := by
  induction stores generalizing u with
  | nil => rfl
  | cons entry stores ih =>
    rw [List.foldl_cons, ih, eval_substituteMemoryVarInTerm]
    rfl

variable (order : HashOrder) (st : PathState)

/-- The state in which a translated formula reads its atoms. -/
def PathState.atomsView (s : State) : State :=
  s.renameBy Var.bool (order.versions st.currentVersion.entries)

/-- The state in which a translated formula, or a translated term, reads its terms. -/
noncomputable def PathState.termsView (s : State) : State :=
  (s.storeBy (order.regions st.memoryState.entries)).renameBy Var.int
    (order.versions st.currentVersion.entries)

/-- What `subst_formula_walk` does. -/
theorem eval_substFormulaWalk (φ : Formula) (s : State) :
    (substFormulaWalk order φ st.currentVersion st.memoryState).eval s =
      φ.evalSplit (st.atomsView order s) (st.termsView order s) := by
  rw [← Formula.evalSplit_self, substFormulaWalk, evalSplit_foldl_substituteMemoryVar,
    evalSplit_foldl_renameStep]
  rfl

/-- What `subst_term_walk` does. -/
theorem eval_substTermWalk (u : Term) (s : State) :
    (substTermWalk order u st.currentVersion st.memoryState).eval s =
      u.eval (st.termsView order s) := by
  rw [substTermWalk, eval_foldl_substituteMemoryVarInTerm, eval_foldl_substituteVarInTerm]
  rfl

end Substitutions

/-! ### Reads that reach the current value -/

namespace PathState

variable (st : PathState) (versions : Var → Var)

/-- A variable that is renamed if it has the given sort, and not otherwise, is read in its current
version. -/
def ReadsVersion (sort : VarSort) (v : Var) : Prop :=
  if v.sort = sort then
    match st.currentVersion.lookup v.name with
    | none => versions v = v
    | some fresh => fresh ∉ st.currentVersion ∧ versions v = ⟨fresh, v.sort⟩
  else versions v = v

/-- What a term reads is read in its current version: the walk renames the integer variables below
terms and nothing else there, and replaces a region by contents that must not mention another
region with contents of its own. -/
def ReachesLeaf : Leaf → Prop
  | .boolVar v | .termVar v => st.ReadsVersion versions .int v
  | .region r => ∀ mem, st.memoryState.lookup r = some mem →
    ∀ r', .region r' ∈ mem.leaves → r' ∈ st.memoryState → r' = r

instance (sort : VarSort) (v : Var) : Decidable (st.ReadsVersion versions sort v) :=
  if hsort : v.sort = sort then
    match hlookup : st.currentVersion.lookup v.name with
    | none => decidable_of_iff (versions v = v) (by simp [ReadsVersion, hsort, hlookup])
    | some fresh =>
      decidable_of_iff (fresh ∉ st.currentVersion ∧ versions v = ⟨fresh, v.sort⟩)
        (by simp [ReadsVersion, hsort, hlookup])
  else decidable_of_iff (versions v = v) (by simp [ReadsVersion, hsort])

/-- The regions of a list of leaves that have contents of their own are the given one. -/
def OwnRegions (r : String) (xs : List Leaf) : Prop :=
  ∀ x ∈ xs, ∀ r' ∈ st.memoryState.keys, x = .region r' → r' = r

instance (r : String) (xs : List Leaf) : Decidable (st.OwnRegions r xs) :=
  inferInstanceAs (Decidable (∀ x ∈ xs, ∀ r' ∈ st.memoryState.keys, x = .region r' → r' = r))

instance (x : Leaf) : Decidable (st.ReachesLeaf versions x) :=
  match x with
  | .boolVar v | .termVar v => inferInstanceAs (Decidable (st.ReadsVersion versions .int v))
  | .region r =>
    match hlookup : st.memoryState.lookup r with
    | none => isTrue fun mem hmem ↦ by simp [hlookup] at hmem
    | some mem => decidable_of_iff (st.OwnRegions r mem.leaves) <| by
      simp only [ReachesLeaf, hlookup, Option.some.injEq, forall_eq', OwnRegions]
      exact ⟨fun h r' hr' hkey ↦ h _ hr' r' hkey rfl, fun h x hx r' hkey hxr ↦ h r' (hxr ▸ hx) hkey⟩

/-- Everything the term reads is read in its current version. -/
def ReachesTerm (t : Term) : Prop := ∀ x ∈ t.leaves, st.ReachesLeaf versions x

/-- Everything the formula reads is read in its current version. -/
def ReachesFormula (φ : Formula) : Prop :=
  (∀ v ∈ φ.atoms, st.ReadsVersion versions .bool v) ∧ ∀ x ∈ φ.termLeaves, st.ReachesLeaf versions x

/-- Everything the effect reads, on the walk, is read in its current version. -/
def ReachesEffect : TransferEffect → Prop
  | .assign _ (.term t) => st.ReachesTerm versions t
  | .assign _ (.predicate p) => st.ReachesFormula versions p
  | .assume c | .obligation c | .typeBound c => st.ReachesFormula versions c
  | .memoryStore _ offset value => st.ReachesTerm versions offset ∧ st.ReachesTerm versions value
  | _ => True

instance (t : Term) : Decidable (st.ReachesTerm versions t) :=
  inferInstanceAs (Decidable (∀ x ∈ t.leaves, st.ReachesLeaf versions x))

instance (φ : Formula) : Decidable (st.ReachesFormula versions φ) :=
  inferInstanceAs (Decidable (_ ∧ _))

instance (e : TransferEffect) : Decidable (st.ReachesEffect versions e) :=
  match e with
  | .assign _ (.term t) => inferInstanceAs (Decidable (st.ReachesTerm versions t))
  | .assign _ (.predicate p) => inferInstanceAs (Decidable (st.ReachesFormula versions p))
  | .assume c | .obligation c | .typeBound c =>
    inferInstanceAs (Decidable (st.ReachesFormula versions c))
  | .memoryStore _ offset value => inferInstanceAs
    (Decidable (st.ReachesTerm versions offset ∧ st.ReachesTerm versions value))
  | .alloca .. | .getElementPtr .. | .load .. | .store .. | .pointerStore .. | .pointerLoad ..
  | .pointerAlias .. | .structFieldGep .. | .nop | .ptrToInt .. | .intToPtr .. | .call ..
  | .havocRegions _ | .heapAlloc .. | .indirectCall .. => instDecidableTrue

/-- A model of the formula stands for a concrete state: the variables in `K` have the values of
their versions, the regions have their current contents. -/
structure Tracks (K : Var → Prop) (s σ : State) : Prop where
  undefined : s.SameUndefined σ
  scalars : ∀ v, K v → s.lookup (versions v) = σ.lookup v
  memory : ∀ r, (st.regionAt r).eval s = σ.memory r

variable {st versions} {order : HashOrder} {K : Var → Prop} {s σ : State}

theorem keys_versions (order : HashOrder) (m : NameMap String) {name : String} :
    name ∈ (order.versions m.entries).map (·.1) ↔ name ∈ m :=
  ((order.versions_perm m.entries).map _).mem_iff

theorem keys_regions (order : HashOrder) (m : NameMap Memory) {name : String} :
    name ∈ (order.regions m.entries).map (·.1) ↔ name ∈ m :=
  ((order.regions_perm m.entries).map _).mem_iff

theorem nodup_versions (order : HashOrder) (m : NameMap String) :
    ((order.versions m.entries).map (·.1)).Nodup :=
  ((order.versions_perm m.entries).map _).nodup_iff.2 m.keys_nodup

theorem nodup_regions (order : HashOrder) (m : NameMap Memory) :
    ((order.regions m.entries).map (·.1)).Nodup :=
  ((order.regions_perm m.entries).map _).nodup_iff.2 m.keys_nodup

/-- A variable that is read in its current version has the value of that version. -/
theorem ReadsVersion.lookup_eq {mk : String → Var} {sort : VarSort} {v : Var}
    (hmk : ∀ name, mk name = ⟨name, sort⟩) (h : st.ReadsVersion versions sort v) (s : State) :
    (s.renameBy mk (order.versions st.currentVersion.entries)).lookup v = s.lookup
      (versions v) := by
  have hname : ∀ name name', mk name = mk name' → name = name' := fun name name' heq ↦ by
    rw [hmk, hmk] at heq
    exact congrArg Var.name heq
  rw [ReadsVersion] at h
  split at h
  · rename_i hsort
    have hv : mk v.name = v := by rw [hmk, ← hsort]
    split at h
    · rename_i hnone
      rw [h]
      refine State.lookup_renameBy_of_forall_ne fun entry hentry heq ↦ ?_
      have hkey : v.name ∈ st.currentVersion :=
        (keys_versions order _).1 (hname _ _ (hv.trans heq.symm) ▸ List.mem_map_of_mem hentry)
      exact AList.lookup_eq_none.1 hnone hkey
    · rename_i fresh hfresh
      have hmem : ⟨v.name, fresh⟩ ∈ order.versions st.currentVersion.entries :=
        (order.versions_perm _).mem_iff.2 (AList.mem_lookup_iff.1 hfresh)
      have hlookup := @State.lookup_renameBy_of_mem mk _ s hname (fun _ _ ↦ by rw [hmk, hmk]) _ _
        (nodup_versions order st.currentVersion) hmem (mt (keys_versions order _).1 h.1)
      rw [hv] at hlookup
      rw [hlookup, h.2, hmk, hsort]
  · rename_i hsort
    rw [h]
    refine State.lookup_renameBy_of_forall_ne fun entry _ heq ↦ hsort ?_
    rw [← heq, hmk]

theorem regionAt_of_none {r : String} (h : st.memoryState.lookup r = none) :
    st.regionAt r = .var r := by simp [regionAt, h]

theorem regionAt_of_some {r : String} {mem : Memory} (h : st.memoryState.lookup r = some mem) :
    st.regionAt r = mem := by simp [regionAt, h]

/-- A leaf that is read in its current version has the value of the concrete state. -/
theorem Tracks.same (h : st.Tracks versions K s σ) {x : Leaf} (hK : x.VarIn K)
    (hx : st.ReachesLeaf versions x) : x.Same (st.termsView order s) σ := by
  have hvar (v : Var) (hv : st.ReadsVersion versions .int v) (hvK : K v) :
      (st.termsView order s).lookup v = σ.lookup v := by
    have hint : ∀ name, Var.int name = ⟨name, .int⟩ := fun _ ↦ rfl
    rw [termsView, ReadsVersion.lookup_eq hint hv, State.lookup_storeBy, h.scalars v hvK]
  cases x with
  | boolVar v => exact hvar v hx hK
  | termVar v => exact hvar v hx hK
  | region r =>
    show (st.termsView order s).memory r = σ.memory r
    rw [termsView, State.memory_renameBy, ← h.memory r]
    cases hmem : st.memoryState.lookup r with
    | none =>
      rw [regionAt_of_none hmem, Memory.eval]
      exact State.memory_storeBy_of_notMem
        (mt (keys_regions order _).1 (AList.lookup_eq_none.1 hmem))
    | some mem =>
      rw [regionAt_of_some hmem]
      refine State.memory_storeBy_of_mem (nodup_regions order _)
        ((order.regions_perm _).mem_iff.2 (AList.mem_lookup_iff.1 hmem)) fun r' hr' hkey ↦ ?_
      exact hx mem hmem r' hr' ((keys_regions order _).1 hkey)

theorem Tracks.sameUndefined_termsView (h : st.Tracks versions K s σ) :
    (st.termsView order s).SameUndefined σ :=
  ((State.sameUndefined_storeBy.trans State.sameUndefined_renameBy).symm).trans h.undefined

theorem Tracks.eval_term (h : st.Tracks versions K s σ) {t : Term}
    (hK : ∀ x ∈ t.leaves, x.VarIn K) (ht : st.ReachesTerm versions t) :
    (substTermWalk order t st.currentVersion st.memoryState).eval s = t.eval σ := by
  rw [eval_substTermWalk]
  exact Term.eval_congr h.sameUndefined_termsView fun x hx ↦ h.same (hK x hx) (ht x hx)

theorem Tracks.eval_formula (h : st.Tracks versions K s σ) {φ : Formula}
    (hatoms : ∀ v ∈ φ.atoms, K v) (hterms : ∀ x ∈ φ.termLeaves, x.VarIn K)
    (hφ : st.ReachesFormula versions φ) :
    (substFormulaWalk order φ st.currentVersion st.memoryState).eval s = φ.eval σ := by
  rw [eval_substFormulaWalk, ← Formula.evalSplit_self]
  refine Formula.evalSplit_congr h.sameUndefined_termsView φ (fun v hv ↦ ?_) fun x hx ↦
    h.same (hterms x hx) (hφ.2 x hx)
  have hbool : ∀ name, Var.bool name = ⟨name, .bool⟩ := fun _ ↦ rfl
  rw [atomsView, ReadsVersion.lookup_eq hbool (hφ.1 v hv), h.scalars v (hatoms v hv)]

end PathState

end MayMust
