import Mathlib.Data.Finset.Sort
import Mathlib.Data.String.Basic
import MayMust.Library.Saturation

/-!
# The Andersen solver

`solve` of the source: inclusion constraints between points-to sets are applied from a worklist
until nothing changes. The maps from names to sets are total functions here; a name without an
entry has the empty set, and every entry of the source is created by an insertion, so an entry is
present exactly if its set is not empty. A set is visited in the order of its elements, and the
worklist is filled in the order of a hash map, which the source does not determine (`KeyOrder`).

Whenever `solve` returns, the result is the least solution of the constraints
(`solve_isLeast`). The solver is an instance of saturation with a worklist: the facts are the
elements of the sets, and the constraints that are queued because of a new fact are those that
read the set it is added to.
-/

namespace MayMust

open Library

namespace Andersen

/-! ### Locations, results and constraints -/

/-- An abstract memory location, identified by its region name. -/
structure AbstractLoc where
  name : String
  deriving DecidableEq

namespace AbstractLoc

theorem name_injective : Function.Injective name := fun ⟨_⟩ ⟨_⟩ h ↦ congrArg mk h

instance : LinearOrder AbstractLoc := LinearOrder.lift' name name_injective

/-- The location of a struct field. -/
def field (l : AbstractLoc) (n : UInt32) : AbstractLoc := ⟨l.name ++ "$f" ++ toString n⟩

/-- The name of a field is longer than the name of its struct. -/
theorem length_name_lt_field (l : AbstractLoc) (n : UInt32) :
    l.name.length < (l.field n).name.length := by
  have hsuffix : "$f".length = 2 := by decide
  simp only [field, String.length_append, hsuffix]
  omega

end AbstractLoc

/-- The two maps of the analysis: what each pointer may point to, and which pointers each region
may hold. -/
structure AliasResult where
  pts : String → Finset AbstractLoc
  ptsMem : String → Finset AbstractLoc

/-- An inclusion constraint. -/
inductive Constraint
  | seed (target : String) (loc : AbstractLoc)
  | copy (target source : String)
  | structField (target source : String) (field : UInt32)
  | loadPtr (target sourceSlot : String)
  | storePtr (targetSlot valuePtr : String)
  deriving DecidableEq

/-- The pointers whose sets the constraint reads. -/
def Constraint.sources : Constraint → List String
  | seed _ _ => []
  | copy _ source | structField _ source _ => [source]
  | loadPtr _ sourceSlot => [sourceSlot]
  | storePtr targetSlot valuePtr => [targetSlot, valuePtr]

/-! ### The solver -/

/-- `AliasResult::default`. -/
def AliasResult.empty : AliasResult := ⟨fun _ ↦ ∅, fun _ ↦ ∅⟩

/-- `insert_pts`, without the answer. -/
def AliasResult.insertPts (result : AliasResult) (target : String) (loc : AbstractLoc) :
    AliasResult :=
  { result with pts := Function.update result.pts target (insert loc (result.pts target)) }

/-- `insert_pts_mem`, without the answer. -/
def AliasResult.insertPtsMem (result : AliasResult) (region : String) (loc : AbstractLoc) :
    AliasResult :=
  { result with
    ptsMem := Function.update result.ptsMem region (insert loc (result.ptsMem region)) }

/-- `source_to_constraints` at a pointer: the indices of the constraints that read its set, once
for each occurrence. -/
def sourceToConstraints (constraints : List Constraint) (p : String) : List ℕ :=
  constraints.zipIdx.flatMap fun (c, idx) ↦ (c.sources.filter (· = p)).map fun _ ↦ idx

/-- The pointers that have an entry in `source_to_constraints`. -/
def sourceKeys (constraints : List Constraint) : List String :=
  (constraints.flatMap Constraint.sources).dedup

/-- The order in which the entries of a hash map are visited. -/
structure KeyOrder where
  visit : List String → List String
  perm : ∀ keys, (visit keys).Perm keys

/-- The entries as they are stored. -/
def KeyOrder.stored : KeyOrder := ⟨id, fun _ ↦ .refl _⟩

/-- The indices of the loads whose slot may point to a location. -/
def loadsThrough (constraints : List Constraint) (result : AliasResult) (slotLoc : AbstractLoc) :
    List ℕ :=
  constraints.zipIdx.filterMap fun (c, idx) ↦
    match c with
    | .loadPtr _ sourceSlot => if slotLoc ∈ result.pts sourceSlot then some idx else none
    | _ => none

/-- `insert_pts`; if the set grew, the constraints that read it are queued. -/
def growPts (constraints : List Constraint) (target : String) (s : Solving ℕ AliasResult)
    (loc : AbstractLoc) : Solving ℕ AliasResult :=
  if loc ∈ s.state.pts target then s
  else ⟨s.state.insertPts target loc, s.worklist.pushAll (sourceToConstraints constraints target)⟩

/-- `insert_pts_mem`; if the set grew, the loads through the location are queued. -/
def growPtsMem (constraints : List Constraint) (slotLoc : AbstractLoc) (s : Solving ℕ AliasResult)
    (loc : AbstractLoc) : Solving ℕ AliasResult :=
  if loc ∈ s.state.ptsMem slotLoc.name then s
  else
    let result := s.state.insertPtsMem slotLoc.name loc
    ⟨result, s.worklist.pushAll (loadsThrough constraints result slotLoc)⟩

/-- The elements of a set in the order in which it is visited. -/
def locs (set : Finset AbstractLoc) : List AbstractLoc := set.sort (· ≤ ·)

/-- The body of the worklist loop. -/
def applyConstraint (constraints : List Constraint) (s : Solving ℕ AliasResult) :
    Constraint → Solving ℕ AliasResult
  | .seed _ _ => s
  | .copy target source =>
    (locs (s.state.pts source)).foldl (growPts constraints target) s
  | .structField target source field =>
    (locs (s.state.pts source)).foldl
      (fun s loc ↦ growPts constraints target s (loc.field field)) s
  | .loadPtr target sourceSlot =>
    (locs (s.state.pts sourceSlot)).foldl
      (fun s slotLoc ↦ (locs (s.state.ptsMem slotLoc.name)).foldl (growPts constraints target) s) s
  | .storePtr targetSlot valuePtr =>
    let valLocs := locs (s.state.pts valuePtr)
    (locs (s.state.pts targetSlot)).foldl
      (fun s slotLoc ↦ valLocs.foldl (growPtsMem constraints slotLoc) s) s

/-- The worklist loop, for a number of rounds at most. -/
def solveLoop (constraints : List Constraint) : ℕ → Solving ℕ AliasResult → Option AliasResult
  | 0, _ => none
  | fuel + 1, s =>
    match s.worklist.pop with
    | none => some s.state
    | some (idx, worklist) =>
      match constraints[idx]? with
      | none => solveLoop constraints fuel ⟨s.state, worklist⟩
      | some c => solveLoop constraints fuel (applyConstraint constraints ⟨s.state, worklist⟩ c)

/-- The seeded sets. -/
def seeded (constraints : List Constraint) : AliasResult :=
  constraints.foldl (fun result c ↦
    match c with
    | .seed target loc => result.insertPts target loc
    | _ => result) .empty

/-- The worklist with the readers of the seeded pointers. -/
def initialWorklist (order : KeyOrder) (constraints : List Constraint) (result : AliasResult) :
    Worklist ℕ :=
  (order.visit (sourceKeys constraints)).foldl (fun worklist p ↦
    if (result.pts p).Nonempty then worklist.pushAll (sourceToConstraints constraints p)
    else worklist) .empty

/-- `solve`, for a number of rounds of its loop at most. -/
def solve (order : KeyOrder) (constraints : List Constraint) (fuel : ℕ) : Option AliasResult :=
  let result := seeded constraints
  solveLoop constraints fuel ⟨result, initialWorklist order constraints result⟩

/-! ### Solutions -/

/-- A pair of points-to maps. -/
structure PointsTo where
  pointers : String → Set AbstractLoc
  cells : String → Set AbstractLoc

/-- What a constraint demands of the maps. -/
def Constraint.SatisfiedBy (m : PointsTo) : Constraint → Prop
  | seed target loc => loc ∈ m.pointers target
  | copy target source => m.pointers source ⊆ m.pointers target
  | structField target source field => ∀ r ∈ m.pointers source, r.field field ∈ m.pointers target
  | loadPtr target sourceSlot => ∀ r ∈ m.pointers sourceSlot, m.cells r.name ⊆ m.pointers target
  | storePtr targetSlot valuePtr =>
    ∀ r ∈ m.pointers targetSlot, m.pointers valuePtr ⊆ m.cells r.name

/-- The maps satisfy all constraints. -/
def PointsTo.Solves (m : PointsTo) (constraints : List Constraint) : Prop :=
  ∀ c ∈ constraints, c.SatisfiedBy m

instance : LE PointsTo :=
  ⟨fun m m' ↦ (∀ p, m.pointers p ⊆ m'.pointers p) ∧ ∀ r, m.cells r ⊆ m'.cells r⟩

/-- The maps of a result. -/
def AliasResult.pointsTo (result : AliasResult) : PointsTo :=
  ⟨fun p ↦ result.pts p, fun r ↦ result.ptsMem r⟩

/-! ### The solver as a saturation -/

/-- An element of one of the sets. -/
inductive Fact
  | pointer (p : String) (loc : AbstractLoc)
  | cell (region : String) (loc : AbstractLoc)
  deriving DecidableEq

/-- The set of the fact contains its location. -/
def AliasResult.Has (result : AliasResult) : Fact → Prop
  | .pointer p loc => loc ∈ result.pts p
  | .cell region loc => loc ∈ result.ptsMem region

instance (result : AliasResult) : (F : Fact) → Decidable (result.Has F)
  | .pointer p loc => inferInstanceAs (Decidable (loc ∈ result.pts p))
  | .cell region loc => inferInstanceAs (Decidable (loc ∈ result.ptsMem region))

/-- Add the location of the fact to its set. -/
def AliasResult.insert (result : AliasResult) : Fact → AliasResult
  | .pointer p loc => result.insertPts p loc
  | .cell region loc => result.insertPtsMem region loc

/-- What applying a constraint adds, in the order of the source. -/
def Constraint.consequences (result : AliasResult) : Constraint → List Fact
  | seed _ _ => []
  | copy target source => (locs (result.pts source)).map (.pointer target)
  | structField target source field =>
    (locs (result.pts source)).map fun loc ↦ .pointer target (loc.field field)
  | loadPtr target sourceSlot =>
    (locs (result.pts sourceSlot)).flatMap fun slotLoc ↦
      (locs (result.ptsMem slotLoc.name)).map (.pointer target)
  | storePtr targetSlot valuePtr =>
    (locs (result.pts targetSlot)).flatMap fun slotLoc ↦
      (locs (result.pts valuePtr)).map (.cell slotLoc.name)

/-- The constraints that are queued because of a new fact. -/
def readers (constraints : List Constraint) (result : AliasResult) : Fact → List ℕ
  | .pointer p _ => sourceToConstraints constraints p
  | .cell region _ => loadsThrough constraints result ⟨region⟩

variable {constraints : List Constraint} {result result' : AliasResult} {c : Constraint}
  {F G : Fact} {idx : ℕ} {p : String}

theorem AliasResult.has_insert : (result.insert F).Has G ↔ G = F ∨ result.Has G := by
  cases F with
  | pointer p loc =>
    cases G with
    | pointer q loc' =>
      by_cases hq : q = p
      · simp [AliasResult.insert, AliasResult.insertPts, AliasResult.Has, hq]
      · simp [AliasResult.insert, AliasResult.insertPts, AliasResult.Has, hq]
    | cell r loc' => simp [AliasResult.insert, AliasResult.insertPts, AliasResult.Has]
  | cell region loc =>
    cases G with
    | pointer q loc' => simp [AliasResult.insert, AliasResult.insertPtsMem, AliasResult.Has]
    | cell r loc' =>
      by_cases hr : r = region
      · simp [AliasResult.insert, AliasResult.insertPtsMem, AliasResult.Has, hr]
      · simp [AliasResult.insert, AliasResult.insertPtsMem, AliasResult.Has, hr]

@[simp] theorem mem_locs {set : Finset AbstractLoc} {l : AbstractLoc} : l ∈ locs set ↔ l ∈ set :=
  Finset.mem_sort _

/-- What a constraint adds, as a rule. -/
theorem Constraint.mem_consequences : G ∈ c.consequences result ↔
    match c with
    | seed _ _ => False
    | copy target source => ∃ l ∈ result.pts source, .pointer target l = G
    | structField target source field =>
      ∃ l ∈ result.pts source, .pointer target (l.field field) = G
    | loadPtr target sourceSlot =>
      ∃ r ∈ result.pts sourceSlot, ∃ l ∈ result.ptsMem r.name, .pointer target l = G
    | storePtr targetSlot valuePtr =>
      ∃ r ∈ result.pts targetSlot, ∃ l ∈ result.pts valuePtr, .cell r.name l = G := by
  cases c <;> simp [Constraint.consequences]

theorem Constraint.consequences_mono (h : ∀ F, result.Has F → result'.Has F) :
    c.consequences result ⊆ c.consequences result' := by
  have hpts {p : String} {l : AbstractLoc} (hl : l ∈ result.pts p) : l ∈ result'.pts p :=
    h (.pointer p l) hl
  have hmem {r : String} {l : AbstractLoc} (hl : l ∈ result.ptsMem r) : l ∈ result'.ptsMem r :=
    h (.cell r l) hl
  intro G hG
  rw [Constraint.mem_consequences] at hG ⊢
  cases c with
  | seed target loc => exact hG
  | copy target source =>
    obtain ⟨l, hl, rfl⟩ := hG
    exact ⟨l, hpts hl, rfl⟩
  | structField target source field =>
    obtain ⟨l, hl, rfl⟩ := hG
    exact ⟨l, hpts hl, rfl⟩
  | loadPtr target sourceSlot =>
    obtain ⟨r, hr, l, hl, rfl⟩ := hG
    exact ⟨r, hpts hr, l, hmem hl, rfl⟩
  | storePtr targetSlot valuePtr =>
    obtain ⟨r, hr, l, hl, rfl⟩ := hG
    exact ⟨r, hpts hr, l, hpts hl, rfl⟩

/-! #### Which constraints read a set -/

theorem mem_sourceToConstraints :
    idx ∈ sourceToConstraints constraints p ↔ ∃ c, constraints[idx]? = some c ∧ p ∈ c.sources := by
  simp only [sourceToConstraints, List.mem_flatMap, Prod.exists, List.mk_mem_zipIdx_iff_getElem?,
    List.mem_map, List.mem_filter, decide_eq_true_eq]
  constructor
  · rintro ⟨c, i, hc, q, ⟨hq, rfl⟩, rfl⟩
    exact ⟨c, hc, hq⟩
  · rintro ⟨c, hc, hp⟩
    exact ⟨c, idx, hc, p, ⟨hp, rfl⟩, rfl⟩

theorem mem_loadsThrough {r : AbstractLoc} : idx ∈ loadsThrough constraints result r ↔
    ∃ target slot, constraints[idx]? = some (.loadPtr target slot) ∧ r ∈ result.pts slot := by
  simp only [loadsThrough, List.mem_filterMap, Prod.exists, List.mk_mem_zipIdx_iff_getElem?]
  constructor
  · rintro ⟨c, i, hc, h⟩
    cases c with
    | loadPtr target slot =>
      obtain ⟨hr, rfl⟩ : r ∈ result.pts slot ∧ i = idx := by simpa using h
      exact ⟨target, slot, hc, hr⟩
    | _ => cases h
  · rintro ⟨target, slot, hc, hr⟩
    exact ⟨_, idx, hc, by simp [hr]⟩

/-- A constraint adds nothing more because of a new fact, unless it is a reader of the fact. The
cells a load reads are not in `source_to_constraints`; the loads through a region are found by
their slots. -/
theorem Constraint.mem_consequences_insert (hc : constraints[idx]? = some c)
    (hG : G ∈ c.consequences (result.insert F)) :
    G ∈ c.consequences result ∨ idx ∈ readers constraints (result.insert F) F := by
  have hpts {q : String} {l : AbstractLoc} (hq : q ∈ c.sources)
      (hl : l ∈ (result.insert F).pts q) :
      l ∈ result.pts q ∨ idx ∈ readers constraints (result.insert F) F := by
    rcases AliasResult.has_insert.1 (show (result.insert F).Has (.pointer q l) from hl) with
      heq | hl
    · subst heq
      exact Or.inr (mem_sourceToConstraints.2 ⟨c, hc, hq⟩)
    · exact Or.inl hl
  rw [Constraint.mem_consequences] at hG ⊢
  cases c with
  | seed target loc => exact hG.elim
  | copy target source =>
    obtain ⟨l, hl, rfl⟩ := hG
    exact (hpts List.mem_cons_self hl).imp_left fun hl ↦ ⟨l, hl, rfl⟩
  | structField target source field =>
    obtain ⟨l, hl, rfl⟩ := hG
    exact (hpts List.mem_cons_self hl).imp_left fun hl ↦ ⟨l, hl, rfl⟩
  | loadPtr target sourceSlot =>
    obtain ⟨r, hr, l, hl, rfl⟩ := hG
    rcases AliasResult.has_insert.1 (show (result.insert F).Has (.cell r.name l) from hl) with
      heq | hl
    · subst heq
      exact Or.inr (mem_loadsThrough.2 ⟨target, sourceSlot, hc, hr⟩)
    · exact (hpts List.mem_cons_self hr).imp_left fun hr ↦ ⟨r, hr, l, hl, rfl⟩
  | storePtr targetSlot valuePtr =>
    obtain ⟨r, hr, l, hl, rfl⟩ := hG
    rcases hpts List.mem_cons_self hr with hr | hidx
    · exact (hpts (List.mem_cons_of_mem _ List.mem_cons_self) hl).imp_left
        fun hl ↦ ⟨r, hr, l, hl, rfl⟩
    · exact Or.inr hidx

/-- The constraints as rules of a saturation. -/
def system (constraints : List Constraint) : Saturation ℕ Fact AliasResult where
  has := AliasResult.Has
  decidableHas := inferInstance
  insert := AliasResult.insert
  consequences idx result := (constraints[idx]?.map (Constraint.consequences result)).getD []
  readers := readers constraints
  has_insert _ _ _ := AliasResult.has_insert
  consequences_mono idx result result' h := by
    cases constraints[idx]? with
    | none => exact List.Subset.refl _
    | some c => exact Constraint.consequences_mono h
  mem_consequences_insert idx result F G hG := by
    cases hc : constraints[idx]? with
    | none => simp [hc] at hG
    | some c =>
      rw [hc] at hG
      exact Constraint.mem_consequences_insert hc hG

variable {s : Solving ℕ AliasResult} {order order' : KeyOrder} {fuel fuel' : ℕ}
  {constraints' : List Constraint} {m : PointsTo}

theorem growPts_eq (l : AbstractLoc) :
    growPts constraints p s l = (system constraints).insertFact s (.pointer p l) := by
  unfold growPts Saturation.insertFact
  exact if_congr Iff.rfl rfl rfl

theorem growPtsMem_eq (r l : AbstractLoc) :
    growPtsMem constraints r s l = (system constraints).insertFact s (.cell r.name l) := by
  unfold growPtsMem Saturation.insertFact
  exact if_congr Iff.rfl rfl rfl

/-- Adding to the set of a pointer leaves the regions alone. -/
theorem ptsMem_foldl_growPts (ls : List AbstractLoc) :
    (ls.foldl (growPts constraints p) s).state.ptsMem = s.state.ptsMem := by
  induction ls generalizing s with
  | nil => rfl
  | cons l ls ih =>
    rw [List.foldl_cons, ih, growPts]
    split_ifs <;> rfl

/-- The nested loop of a load adds what the regions held when it started. -/
theorem foldl_growPts_eq (slotLocs : List AbstractLoc) :
    slotLocs.foldl (fun s slotLoc ↦
        (locs (s.state.ptsMem slotLoc.name)).foldl (growPts constraints p) s) s =
      (slotLocs.flatMap fun slotLoc ↦ locs (s.state.ptsMem slotLoc.name)).foldl
        (growPts constraints p) s := by
  induction slotLocs generalizing s with
  | nil => rfl
  | cons slotLoc slotLocs ih =>
    rw [List.foldl_cons, ih, List.flatMap_cons, List.foldl_append, ptsMem_foldl_growPts]

/-- Applying a constraint records its consequences. -/
theorem applyConstraint_eq : applyConstraint constraints s c =
    (c.consequences s.state).foldl (system constraints).insertFact s := by
  have hpts : growPts constraints = fun p s l ↦ (system constraints).insertFact s
    (.pointer p l) := by
    funext p s l
    exact growPts_eq l
  have hmem : growPtsMem constraints =
      fun r s l ↦ (system constraints).insertFact s (.cell r.name l) := by
    funext r s l
    exact growPtsMem_eq r l
  cases c with
  | seed target loc => rfl
  | copy target source => rw [applyConstraint, Constraint.consequences, List.foldl_map, hpts]
  | structField target source field =>
    rw [applyConstraint, Constraint.consequences, List.foldl_map, hpts]
  | loadPtr target sourceSlot =>
    rw [applyConstraint, foldl_growPts_eq, Constraint.consequences, ← List.map_flatMap,
      List.foldl_map, hpts]
  | storePtr targetSlot valuePtr =>
    rw [applyConstraint, Constraint.consequences, List.foldl_flatMap, hmem]
    simp only [List.foldl_map]

/-- The worklist loop is the saturation. -/
theorem solveLoop_eq_drain :
    solveLoop constraints fuel s = (system constraints).drain fuel s := by
  induction fuel generalizing s with
  | zero => rfl
  | succ fuel ih =>
    rw [solveLoop, Saturation.drain]
    cases s.worklist.pop with
    | none => rfl
    | some next =>
      obtain ⟨idx, worklist⟩ := next
      show (match constraints[idx]? with
        | none => solveLoop constraints fuel ⟨s.state, worklist⟩
        | some c =>
          solveLoop constraints fuel (applyConstraint constraints ⟨s.state, worklist⟩ c)) =
        (system constraints).drain fuel ((system constraints).process ⟨s.state, worklist⟩ idx)
      cases hc : constraints[idx]? with
      | none =>
        have hnone : (system constraints).consequences idx s.state = [] := by simp [system, hc]
        rw [Saturation.process, hnone]
        exact ih
      | some c =>
        have hsome : (system constraints).consequences idx s.state = c.consequences s.state := by
          simp [system, hc]
        rw [Saturation.process, hsome, ← applyConstraint_eq]
        exact ih

/-! ### The start of the loop -/

theorem AliasResult.not_has_empty : ¬ AliasResult.empty.Has F := by
  cases F <;> simp [AliasResult.Has, AliasResult.empty]

/-- Seeding records the seeds and nothing else. -/
theorem has_seeded : (seeded constraints).Has F ↔
    ∃ target loc, .seed target loc ∈ constraints ∧ F = .pointer target loc := by
  suffices hgen : ∀ result : AliasResult,
      (constraints.foldl (fun result c ↦
        match c with
        | .seed target loc => result.insertPts target loc
        | _ => result) result).Has F ↔
      result.Has F ∨ ∃ target loc, .seed target loc ∈ constraints ∧ F = .pointer target loc by
    rw [seeded, hgen]
    exact or_iff_right AliasResult.not_has_empty
  induction constraints with
  | nil => simp
  | cons c constraints ih =>
    intro result
    rw [List.foldl_cons, ih]
    cases c with
    | seed target loc =>
      have hinsert : (result.insertPts target loc).Has F ↔ F = .pointer target loc ∨ result.Has F :=
        AliasResult.has_insert (F := .pointer target loc)
      simp only [hinsert, List.mem_cons, Constraint.seed.injEq]
      constructor
      · rintro ((rfl | hF) | ⟨t, l, hmem, rfl⟩)
        · exact Or.inr ⟨target, loc, Or.inl ⟨rfl, rfl⟩, rfl⟩
        · exact Or.inl hF
        · exact Or.inr ⟨t, l, Or.inr hmem, rfl⟩
      · rintro (hF | ⟨t, l, ⟨rfl, rfl⟩ | hmem, rfl⟩)
        · exact Or.inl (Or.inr hF)
        · exact Or.inl (Or.inl rfl)
        · exact Or.inr ⟨t, l, hmem, rfl⟩
    | _ => simp

/-- The readers of every seeded pointer are queued at the start. -/
theorem mem_initialWorklist : idx ∈ initialWorklist order constraints result ↔
    ∃ p, (result.pts p).Nonempty ∧ idx ∈ sourceToConstraints constraints p := by
  suffices hgen : ∀ (keys : List String) (worklist : Worklist ℕ),
      idx ∈ keys.foldl (fun worklist p ↦
        if (result.pts p).Nonempty then worklist.pushAll (sourceToConstraints constraints p)
        else worklist) worklist ↔
      idx ∈ worklist ∨ ∃ p ∈ keys, (result.pts p).Nonempty ∧
        idx ∈ sourceToConstraints constraints p by
    have hempty : idx ∉ (Worklist.empty : Worklist ℕ) := List.not_mem_nil
    rw [initialWorklist, hgen, or_iff_right hempty]
    refine exists_congr fun p ↦ and_iff_right_of_imp fun ⟨_, hidx⟩ ↦ ?_
    obtain ⟨c, hc, hp⟩ := mem_sourceToConstraints.1 hidx
    have hkeys : p ∈ sourceKeys constraints :=
      List.mem_dedup.2 (List.mem_flatMap.2 ⟨c, List.mem_of_getElem? hc, hp⟩)
    exact (order.perm _).mem_iff.2 hkeys
  intro keys
  induction keys with
  | nil => simp
  | cons q keys ih =>
    intro worklist
    rw [List.foldl_cons, ih]
    split_ifs with hq
    · rw [Worklist.mem_pushAll, or_assoc]
      simp [hq]
    · simp [hq]

/-- A constraint none of whose sets has an element adds nothing. -/
theorem Constraint.consequences_eq_nil (h : ∀ p ∈ c.sources, result.pts p = ∅) :
    c.consequences result = [] := by
  refine List.eq_nil_iff_forall_not_mem.2 fun G hG ↦ ?_
  rw [Constraint.mem_consequences] at hG
  cases c with
  | seed target loc => exact hG
  | copy target source | structField target source field =>
    obtain ⟨l, hl, -⟩ := hG
    rw [h source List.mem_cons_self] at hl
    exact Finset.notMem_empty _ hl
  | loadPtr target slot | storePtr slot valuePtr =>
    obtain ⟨r, hr, -⟩ := hG
    rw [h slot List.mem_cons_self] at hr
    exact Finset.notMem_empty _ hr

/-- Every constraint is closed or queued at the start. -/
theorem closed_or_mem_initialWorklist (idx : ℕ) :
    (system constraints).Closed result idx ∨ idx ∈ initialWorklist order constraints result := by
  by_cases hidx : idx ∈ initialWorklist order constraints result
  · exact Or.inr hidx
  refine Or.inl fun F hF ↦ ?_
  cases hc : constraints[idx]? with
  | none => simp [system, hc] at hF
  | some c =>
    have hF' : F ∈ c.consequences result := by simpa [system, hc] using hF
    rw [Constraint.consequences_eq_nil fun p hp ↦ ?_] at hF'
    · cases hF'
    · by_contra hne
      exact hidx (mem_initialWorklist.2
        ⟨p, Finset.nonempty_iff_ne_empty.2 hne, mem_sourceToConstraints.2 ⟨c, hc, hp⟩⟩)

/-! ### The least solution -/

/-- The facts of a pair of maps. -/
def PointsTo.facts (m : PointsTo) : Set Fact
  | .pointer p loc => loc ∈ m.pointers p
  | .cell region loc => loc ∈ m.cells region

theorem PointsTo.le_iff {m m' : PointsTo} : m ≤ m' ↔ m.facts ⊆ m'.facts := by
  constructor
  · rintro ⟨hpointers, hcells⟩ (⟨p, l⟩ | ⟨r, l⟩) hF
    · exact hpointers p hF
    · exact hcells r hF
  · intro h
    exact ⟨fun p l hl ↦ h (show .pointer p l ∈ m.facts from hl),
      fun r l hl ↦ h (show .cell r l ∈ m.facts from hl)⟩

theorem AliasResult.mem_facts : F ∈ result.pointsTo.facts ↔ result.Has F := by
  cases F <;> rfl

/-- The facts of a solution bound the rules. -/
theorem PointsTo.Solves.bounds (hm : m.Solves constraints) :
    (system constraints).Bounds m.facts := by
  intro idx result h F hF
  cases hc : constraints[idx]? with
  | none => simp [system, hc] at hF
  | some c =>
    have hF' : F ∈ c.consequences result := by simpa [system, hc] using hF
    have hsat := hm c (List.mem_of_getElem? hc)
    have hpts {p : String} {l : AbstractLoc} (hl : l ∈ result.pts p) : l ∈ m.pointers p :=
      h (.pointer p l) hl
    have hmem {r : String} {l : AbstractLoc} (hl : l ∈ result.ptsMem r) : l ∈ m.cells r :=
      h (.cell r l) hl
    rw [Constraint.mem_consequences] at hF'
    cases c with
    | seed target loc => exact hF'.elim
    | copy target source =>
      obtain ⟨l, hl, rfl⟩ := hF'
      exact hsat (hpts hl)
    | structField target source field =>
      obtain ⟨l, hl, rfl⟩ := hF'
      exact hsat l (hpts hl)
    | loadPtr target sourceSlot =>
      obtain ⟨r, hr, l, hl, rfl⟩ := hF'
      exact hsat r (hpts hr) (hmem hl)
    | storePtr targetSlot valuePtr =>
      obtain ⟨r, hr, l, hl, rfl⟩ := hF'
      exact hsat r (hpts hr) (hpts hl)

/-- A state that has the seeds and is closed is a solution. -/
theorem solves_of_closed
    (hseed : ∀ target loc, .seed target loc ∈ constraints → result.Has (.pointer target loc))
    (hclosed : ∀ idx, (system constraints).Closed result idx) :
    result.pointsTo.Solves constraints := by
  intro c hc
  obtain ⟨idx, hidx⟩ := List.mem_iff_getElem?.1 hc
  have hadd {G : Fact} (hG : G ∈ c.consequences result) : result.Has G :=
    hclosed idx G (by simpa [system, hidx] using hG)
  cases c with
  | seed target loc => exact hseed target loc hc
  | copy target source =>
    exact fun l hl ↦ hadd (Constraint.mem_consequences.2 ⟨l, hl, rfl⟩)
  | structField target source field =>
    exact fun l hl ↦ hadd (Constraint.mem_consequences.2 ⟨l, hl, rfl⟩)
  | loadPtr target sourceSlot =>
    exact fun r hr l hl ↦ hadd (Constraint.mem_consequences.2 ⟨r, hr, l, hl, rfl⟩)
  | storePtr targetSlot valuePtr =>
    exact fun r hr l hl ↦ hadd (Constraint.mem_consequences.2 ⟨r, hr, l, hl, rfl⟩)

theorem solves_of_solve (h : solve order constraints fuel = some result) :
    result.pointsTo.Solves constraints := by
  rw [solve, solveLoop_eq_drain] at h
  refine solves_of_closed (fun target loc hseed ↦ ?_)
    (Saturation.closed_of_drain closed_or_mem_initialWorklist h)
  exact Saturation.has_of_drain h (has_seeded.2 ⟨target, loc, hseed, rfl⟩)

/-- The seeds belong to every solution. -/
theorem PointsTo.Solves.seeded_subset (hm : m.Solves constraints) (F : Fact)
    (hF : (seeded constraints).Has F) : F ∈ m.facts := by
  obtain ⟨target, loc, hseed, rfl⟩ := has_seeded.1 hF
  exact hm _ hseed

theorem le_of_solve (h : solve order constraints fuel = some result)
    (hm : m.Solves constraints) : result.pointsTo ≤ m := by
  rw [solve, solveLoop_eq_drain] at h
  have hsubset := Saturation.subset_of_drain hm.bounds (z := result)
    (s := ⟨seeded constraints, initialWorklist order constraints _⟩) hm.seeded_subset h
  exact PointsTo.le_iff.2 fun F hF ↦ hsubset F (AliasResult.mem_facts.1 hF)

theorem AliasResult.eq_of_le (h : result.pointsTo ≤ result'.pointsTo)
    (h' : result'.pointsTo ≤ result.pointsTo) : result = result' := by
  obtain ⟨pts, ptsMem⟩ := result
  obtain ⟨pts', ptsMem'⟩ := result'
  have hpts : pts = pts' := funext fun p ↦ Finset.Subset.antisymm (h.1 p) (h'.1 p)
  have hmem : ptsMem = ptsMem' := funext fun r ↦ Finset.Subset.antisymm (h.2 r) (h'.2 r)
  rw [hpts, hmem]

/-- **The result is the least solution.** Whenever the solver returns, its maps satisfy every
constraint and are contained in all other maps that do; hence every run on the same constraints,
listed in any order and with the worklist filled in any order, returns the same maps. -/
theorem solve_isLeast (h : solve order constraints fuel = some result) :
    result.pointsTo.Solves constraints ∧
      (∀ m : PointsTo, m.Solves constraints → result.pointsTo ≤ m) ∧
      ∀ (order' : KeyOrder) (constraints' : List Constraint) (fuel' : ℕ) (result' : AliasResult),
        (∀ c, c ∈ constraints' ↔ c ∈ constraints) →
          solve order' constraints' fuel' = some result' → result' = result := by
  refine ⟨solves_of_solve h, fun m hm ↦ le_of_solve h hm,
    fun order' constraints' fuel' result' hsame h' ↦ ?_⟩
  have hsolves : result.pointsTo.Solves constraints' :=
    fun c hc ↦ solves_of_solve h c ((hsame c).1 hc)
  have hsolves' : result'.pointsTo.Solves constraints :=
    fun c hc ↦ solves_of_solve h' c ((hsame c).2 hc)
  exact AliasResult.eq_of_le (le_of_solve h' hsolves) (le_of_solve h hsolves')

/-- A heap object is stored into a local variable, loaded from there, and its second field is
addressed. -/
def loadedField : List Constraint :=
  [.structField "f$q" "f$p" 1, .loadPtr "f$p" "f$s", .storePtr "f$s" "f$h",
    .seed "f$s" ⟨"f$stack0"⟩, .seed "f$h" ⟨"heap$call0"⟩]

/-- The general statement for these constraints. -/
theorem solve_isLeast_loadedField :
    ∃ result, solve .stored loadedField 10 = some result ∧
      result.pointsTo.Solves loadedField ∧
        ∀ m : PointsTo, m.Solves loadedField → result.pointsTo ≤ m := by
  have hreturns : (solve .stored loadedField 10).isSome := by decide +kernel
  obtain ⟨result, hresult⟩ := Option.isSome_iff_exists.1 hreturns
  exact ⟨result, hresult, (solve_isLeast hresult).1, (solve_isLeast hresult).2.1⟩

example : (solve .stored loadedField 10).map (fun result ↦ result.pts "f$q") =
    some {⟨"heap$call0$f1"⟩} := by
  decide +kernel

end Andersen

end MayMust
