import MayMust.Cfg.Adapter.Instantiation
import MayMust.Formula.Places

/-!
# Substitution of external regions

What `substitute_ext_regions` should do is a reading of the formula in another memory
(`RegionMap.Reading`): an external region is the actual region from the base offset on, a field of
it is the same field of the actual region, and everything else is unchanged. What it does differs
at bare places. A read directly from an external region moves by the offset, but below a store and
in a memory equality only the name changes, as if the offset were zero. The result is therefore the
formula whose bare regions are read in a second memory (`eval_substituteExtRegions`).
-/

namespace MayMust

open Library

namespace RegionMap

/-- The memory in which external regions are the actual regions, moved by the given offset of their
base. -/
structure Reading (m : RegionMap) (offset : Term → ℤ) (s s' : State) : Prop where
  scalars : s'.scalars = s.scalars
  /-- Cell `i` of an external region is the actual region's cell at the offset plus `i`. -/
  mapped : ∀ {key actual base}, (key, actual, base) ∈ m → ∀ i,
    s'.memory key i = s.memory actual (offset base + i)
  /-- A field of an external region is the actual region's own field. -/
  field : ∀ {key actual base suffix}, (key, actual, base) ∈ m → suffix.toList.head? = some '$' →
    s'.memory (key ++ suffix) = s.memory (actual ++ suffix)
  other : ∀ {region}, (∀ key actual base, (key, actual, base) ∈ m → region ≠ key ∧
    ∀ suffix, suffix.toList.head? = some '$' → region ≠ key ++ suffix) →
      s'.memory region = s.memory region

/-- The value of a base offset in a state. -/
noncomputable def offsetIn (s : State) (base : Term) : ℤ := (base.eval s).toInt

/-- Map from the external regions of one call site: numbered regions with a common prefix, each
mapped once, at integer offsets. -/
structure External (m : RegionMap) : Prop where
  keys : ∃ pre, ∀ key actual base, (key, actual, base) ∈ m →
    ∃ i : ℕ, key = pre ++ "$__ext_" ++ toString i
  nodup : (m.map (·.1)).Nodup
  offsets : ∀ key actual base, (key, actual, base) ∈ m → base.sort = .ok .int

end RegionMap

/-- Every read has an integer index. -/
def IntegerReads (places : List RegionPlace) : Prop :=
  ∀ region index, .read region index ∈ places → index.sort = .ok .int

variable {m : RegionMap} {s s' bare : State} {offset : Term → ℤ} {name region : String}
  {base : Term} {φ : Formula}

/-! ### Looking up a region -/

theorem RegionMap.mem_of_get? (h : m.get? name = some (region, base)) :
    (name, region, base) ∈ m := by
  obtain ⟨⟨key, entry⟩, hfind, hentry⟩ := Option.map_eq_some_iff.1 h
  obtain rfl : key = name := by simpa using List.find?_some hfind
  obtain rfl : entry = (region, base) := hentry
  exact List.mem_of_find?_eq_some hfind

theorem RegionMap.ne_of_get?_eq_none (h : m.get? name = none) {key actual : String} {base : Term}
    (hmem : (key, actual, base) ∈ m) : name ≠ key := by
  have hfind := List.find?_eq_none.1 (Option.map_eq_none_iff.1 h) _ hmem
  intro heq
  exact hfind (by simp [heq])

theorem RegionMap.exists_of_field? (h : m.field? name = some region) :
    ∃ key actual base suffix, (key, actual, base) ∈ m ∧ suffix.toList.head? = some '$' ∧
      name = key ++ suffix ∧ region = actual ++ suffix := by
  obtain ⟨⟨key, actual, base⟩, hmem, hfound⟩ := List.exists_of_findSome?_eq_some h
  obtain ⟨suffix, hstrip, hfound⟩ := Option.bind_eq_some_iff.1 hfound
  split_ifs at hfound with hhead
  · exact ⟨key, actual, base, suffix, hmem, hhead, stripPrefix_eq_some_iff.1 hstrip,
      (Option.some.inj hfound).symm⟩

theorem RegionMap.ne_of_field?_eq_none (h : m.field? name = none) {key actual suffix : String}
    {base : Term} (hmem : (key, actual, base) ∈ m) (hhead : suffix.toList.head? = some '$') :
    name ≠ key ++ suffix := by
  intro heq
  have hnone := List.findSome?_eq_none_iff.1 h _ hmem
  simp [heq, hhead] at hnone

namespace RegionMap.Reading

/-- A mapped region, read. -/
theorem memory_of_get? (hs' : m.Reading offset s s') (h : m.get? name = some (region, base)) :
    s'.memory name = fun i ↦ s.memory region (offset base + i) :=
  funext (hs'.mapped (mem_of_get? h))

/-- A region that is not mapped itself, read. -/
theorem memory_of_get?_eq_none (hs' : m.Reading offset s s') (h : m.get? name = none) :
    s'.memory name = s.memory ((m.field? name).getD name) := by
  cases hfield : m.field? name with
  | some region =>
    obtain ⟨key, actual, base, suffix, hmem, hhead, rfl, rfl⟩ := exists_of_field? hfield
    exact hs'.field hmem hhead
  | none =>
    exact hs'.other fun key actual base hmem ↦
      ⟨ne_of_get?_eq_none h hmem, fun suffix hhead ↦ ne_of_field?_eq_none hfield hmem hhead⟩

theorem lookup (hs' : m.Reading offset s s') (v : Var) : s'.lookup v = s.lookup v := by
  simp [State.lookup, hs'.scalars]

theorem intDiv (hs' : m.Reading offset s s') : s'.intDiv = s.intDiv := by
  funext a b
  simp [State.intDiv, hs'.scalars]

theorem intRem (hs' : m.Reading offset s s') : s'.intRem = s.intRem := by
  funext a b
  simp [State.intRem, hs'.scalars]

theorem realDiv (hs' : m.Reading offset s s') : s'.realDiv = s.realDiv := by
  funext a b
  simp [State.realDiv, hs'.scalars]

end RegionMap.Reading

/-- External regions of one call site differ whatever follows their numbers. -/
theorem eq_of_extRegion_append {pre a b : String} {i j : ℕ}
    (ha : a = "" ∨ a.toList.head? = some '$')
    (hb : b = "" ∨ b.toList.head? = some '$')
    (h : pre ++ "$__ext_" ++ toString i ++ a = pre ++ "$__ext_" ++ toString j ++ b) : i = j := by
  -- With one more dollar sign at the end, one follows the number on both sides.
  have hdollar {a : String} (ha : a = "" ∨ a.toList.head? = some '$') :
      ∃ rest, a ++ "$" = "$" ++ rest := by
    rcases ha with rfl | ha
    · exact ⟨"", rfl⟩
    · obtain ⟨tail, htail⟩ : ∃ tail, a.toList = '$' :: tail :=
        List.head?_eq_some_iff.1 ha
      refine ⟨String.ofList tail ++ "$", String.toList_inj.1 ?_⟩
      simp [htail]
  obtain ⟨a', ha'⟩ := hdollar ha
  obtain ⟨b', hb'⟩ := hdollar hb
  refine @eq_of_append_toString (pre ++ "$__ext_") a' b' i j ?_
  calc pre ++ "$__ext_" ++ toString i ++ "$" ++ a'
      = pre ++ "$__ext_" ++ toString i ++ a ++ "$" := by
        simp only [String.append_assoc, ha']
    _ = pre ++ "$__ext_" ++ toString j ++ b ++ "$" := by rw [h]
    _ = pre ++ "$__ext_" ++ toString j ++ "$" ++ b' := by
        simp only [String.append_assoc, hb']

/-- The entry of a map from the external regions of one call site is determined by the region or by
any of its fields. -/
theorem RegionMap.External.entry_eq (hm : m.External) {key key' actual actual' a b : String}
    {base base' : Term} (hmem : (key, actual, base) ∈ m) (hmem' : (key', actual', base') ∈ m)
    (ha : a = "" ∨ a.toList.head? = some '$') (hb : b = "" ∨ b.toList.head? = some '$')
    (h : key ++ a = key' ++ b) : actual = actual' ∧ base = base' ∧ a = b := by
  obtain ⟨pre, hpre⟩ := hm.keys
  obtain ⟨i, rfl⟩ := hpre _ _ _ hmem
  obtain ⟨j, rfl⟩ := hpre _ _ _ hmem'
  obtain rfl := eq_of_extRegion_append ha hb h
  have hentry := List.inj_on_of_nodup_map hm.nodup hmem hmem' rfl
  simp only [Prod.mk.injEq, true_and] at hentry
  exact ⟨hentry.1, hentry.2, (String.append_right_inj _).1 h⟩

/-- The contents of a region as the map looks it up. -/
def RegionMap.lookup (m : RegionMap) (offset : Term → ℤ) (s : State) (name : String) : ℤ → ℤ :=
  match m.get? name with
  | some (region, base) => fun i ↦ s.memory region (offset base + i)
  | none => s.memory ((m.field? name).getD name)

/-- Maps from the external regions of one call site have a reading, although the name of one
parameter may be a prefix of another's. -/
theorem RegionMap.External.reading_lookup (hm : m.External) (offset : Term → ℤ) (s : State) :
    m.Reading offset s ⟨s.scalars, m.lookup offset s⟩ := by
  refine ⟨rfl, fun {key actual base} hmem i ↦ ?_, fun {key actual base suffix} hmem hhead ↦ ?_,
    fun {region} hother ↦ ?_⟩
  · have hget : m.get? key = some (actual, base) := by
      cases hget : m.get? key with
      | none => exact absurd rfl (ne_of_get?_eq_none hget hmem)
      | some entry =>
        obtain ⟨actual', base'⟩ := entry
        obtain ⟨rfl, rfl, -⟩ :=
          hm.entry_eq hmem (mem_of_get? hget) (a := "") (b := "") (Or.inl rfl) (Or.inl rfl) rfl
        rfl
    simp only [lookup, hget]
  · have hget : m.get? (key ++ suffix) = none := by
      cases hget : m.get? (key ++ suffix) with
      | none => rfl
      | some entry =>
        obtain ⟨actual', base'⟩ := entry
        obtain ⟨-, -, rfl⟩ := hm.entry_eq hmem (mem_of_get? hget) (b := "") (Or.inr hhead)
          (Or.inl rfl) (String.append_empty).symm
        simp at hhead
    have hfield : m.field? (key ++ suffix) = some (actual ++ suffix) := by
      cases hfield : m.field? (key ++ suffix) with
      | none => exact absurd rfl (ne_of_field?_eq_none hfield hmem hhead)
      | some region =>
        obtain ⟨key', actual', base', suffix', hmem', hhead', hname, rfl⟩ := exists_of_field? hfield
        obtain ⟨rfl, -, rfl⟩ := hm.entry_eq hmem hmem' (Or.inr hhead) (Or.inr hhead') hname
        rfl
    simp only [lookup, hget, hfield, Option.getD_some]
  · have hget : m.get? region = none := by
      cases hget : m.get? region with
      | none => rfl
      | some entry => exact absurd rfl (hother _ _ _ (mem_of_get? hget)).1
    have hfield : m.field? region = none := by
      cases hfield : m.field? region with
      | none => rfl
      | some found =>
        obtain ⟨key, actual, base, suffix, hmem, hhead, hname, -⟩ := exists_of_field? hfield
        exact absurd hname ((hother _ _ _ hmem).2 suffix hhead)
    simp only [lookup, hget, hfield, Option.getD_none]

/-! ### What the substitution computes -/

theorem integerReads_append {xs ys : List RegionPlace} :
    IntegerReads (xs ++ ys) ↔ IntegerReads xs ∧ IntegerReads ys := by
  simp only [IntegerReads, List.mem_append, or_imp, forall_and]

theorem integerReads_read {index : Term} {xs : List RegionPlace} :
    IntegerReads (.read region index :: xs) ↔ index.sort = .ok .int ∧ IntegerReads xs := by
  simp only [IntegerReads, List.mem_cons, or_imp, forall_and, RegionPlace.read.injEq]
  refine and_congr_left fun _ ↦ ⟨fun h ↦ h _ _ ⟨rfl, rfl⟩, fun h _ index' heq ↦ ?_⟩
  rwa [heq.2]

/-- A state, the memory its formulas should be read in, and the memory without the offsets. -/
structure RegionMap.ReadIn (m : RegionMap) (s s' bare : State) : Prop where
  offsets : ∀ key actual base, (key, actual, base) ∈ m → base.sort = .ok .int
  reading : m.Reading (offsetIn s) s s'
  withoutOffsets : m.Reading (fun _ ↦ 0) s bare

theorem substituteExtRegionsList_eq_map (items : List Formula) :
    substituteExtRegionsList m items = items.map (substituteExtRegions m) := by
  induction items with
  | nil => rfl
  | cons item rest ih => exact congrArg (substituteExtRegions m item :: ·) ih

mutual

theorem eval_substituteExtRegionsMemory (hm : m.ReadIn s s' bare) : ∀ mem : Memory,
    IntegerReads mem.places →
    (substituteExtRegionsMemory m mem).eval s = mem.evalPlaces s' bare.memory
  | .var name, _ => by
    rw [Memory.evalPlaces, substituteExtRegionsMemory]
    cases hget : m.get? name with
    | none => rw [hm.withoutOffsets.memory_of_get?_eq_none hget, Memory.eval]
    | some entry =>
      rw [hm.withoutOffsets.memory_of_get? hget, Memory.eval]
      simp only [zero_add]
  | .store inner index value, h => by
    simp only [Memory.places, integerReads_append] at h
    rw [substituteExtRegionsMemory, Memory.eval, Memory.evalPlaces,
      eval_substituteExtRegionsMemory hm inner h.1.1, eval_substituteExtRegionsTerm hm index h.1.2,
      eval_substituteExtRegionsTerm hm value h.2]

theorem eval_substituteExtRegionsTerm (hm : m.ReadIn s s' bare) : ∀ t : Term,
    IntegerReads t.places →
    (substituteExtRegionsTerm m t).eval s = t.evalPlaces s' bare.memory
  | .var v, _ => by
    rw [substituteExtRegionsTerm, Term.eval, Term.evalPlaces, hm.reading.lookup]
  | .int _, _ | .real _, _ => by rw [substituteExtRegionsTerm, Term.eval, Term.evalPlaces]
  | .boolToInt value, h => by
    rw [substituteExtRegionsTerm, Term.eval, Term.evalPlaces,
      eval_substituteExtRegions hm value h]
  | .select (.var name) index, h => by
    simp only [Term.places, integerReads_read] at h
    have hindex := eval_substituteExtRegionsTerm hm index h.2
    have hsort : (index.evalPlaces s' bare.memory).sort = .int := index.sort_evalPlaces h.1
    rw [substituteExtRegionsTerm, Term.evalPlaces]
    cases hget : m.get? name with
    | none =>
      rw [Term.eval, hindex, hm.reading.memory_of_get?_eq_none hget, Memory.eval]
    | some entry =>
      obtain ⟨region, base⟩ := entry
      -- Both the offset and the index are integers, so their sum is their sum as integers.
      have hbase := Term.sort_eval s base (hm.offsets _ _ _ (RegionMap.mem_of_get? hget))
      show Value.int ((Memory.var region).eval s
        ((Term.add base (substituteExtRegionsTerm m index)).eval s).toInt) = _
      rw [hm.reading.memory_of_get? hget, Memory.eval, Term.eval, hindex, RegionMap.offsetIn]
      generalize base.eval s = b at hbase ⊢
      generalize index.evalPlaces s' bare.memory = i at hsort ⊢
      cases b <;> cases i <;> simp_all [Value.arith]
  | .select (.store inner i v) index, h => by
    simp only [Term.places, integerReads_append] at h
    rw [substituteExtRegionsTerm, Term.eval, Memory.eval, Term.evalPlaces,
      eval_substituteExtRegionsMemory hm inner h.1.1.1, eval_substituteExtRegionsTerm hm i h.1.1.2,
      eval_substituteExtRegionsTerm hm v h.1.2, eval_substituteExtRegionsTerm hm index h.2]
  | .add lhs rhs, h | .sub lhs rhs, h | .mul lhs rhs, h => by
    simp only [Term.places, integerReads_append] at h
    rw [substituteExtRegionsTerm, Term.eval, Term.evalPlaces,
      eval_substituteExtRegionsTerm hm lhs h.1, eval_substituteExtRegionsTerm hm rhs h.2]
  | .div lhs rhs, h => by
    simp only [Term.places, integerReads_append] at h
    rw [substituteExtRegionsTerm, Term.eval, Term.evalPlaces, hm.reading.intDiv, hm.reading.realDiv,
      eval_substituteExtRegionsTerm hm lhs h.1, eval_substituteExtRegionsTerm hm rhs h.2]
  | .rem lhs rhs, h => by
    simp only [Term.places, integerReads_append] at h
    rw [substituteExtRegionsTerm, Term.eval, Term.evalPlaces, hm.reading.intRem,
      eval_substituteExtRegionsTerm hm lhs h.1, eval_substituteExtRegionsTerm hm rhs h.2]
  | .neg inner, h => by
    rw [substituteExtRegionsTerm, Term.eval, Term.evalPlaces,
      eval_substituteExtRegionsTerm hm inner h]

/-- The substituted formula is the formula whose bare regions are read without the offsets. -/
theorem eval_substituteExtRegions (hm : m.ReadIn s s' bare) :
    ∀ φ : Formula, IntegerReads φ.places →
    (substituteExtRegions m φ).eval s = φ.evalPlaces s' bare.memory
  | .tru, _ | .fls, _ => by rw [substituteExtRegions, Formula.eval, Formula.evalPlaces]
  | .var v, _ => by rw [substituteExtRegions, Formula.eval, Formula.evalPlaces, hm.reading.lookup]
  | .not inner, h => by
    rw [substituteExtRegions, Formula.eval, Formula.evalPlaces,
      eval_substituteExtRegions hm inner h]
  | .and items, h => by
    have ih := eval_substituteExtRegionsList hm items h
    refine Bool.eq_iff_iff.2 ?_
    show (Formula.andMany (substituteExtRegionsList m items)).Holds s ↔
      (Formula.and items).HoldsPlaces s' bare.memory
    rw [Formula.holds_andMany, (Formula.logical_holdsPlaces s' bare.memory).and_iff,
      substituteExtRegionsList_eq_map, List.forall_mem_map]
    exact forall₂_congr fun φ hφ ↦ by rw [Formula.Holds, Formula.HoldsPlaces, ih φ hφ]
  | .or items, h => by
    have ih := eval_substituteExtRegionsList hm items h
    refine Bool.eq_iff_iff.2 ?_
    show (Formula.orMany (substituteExtRegionsList m items)).Holds s ↔
      (Formula.or items).HoldsPlaces s' bare.memory
    rw [Formula.holds_orMany, (Formula.logical_holdsPlaces s' bare.memory).or_iff,
      substituteExtRegionsList_eq_map]
    simp only [List.mem_map, exists_exists_and_eq_and]
    exact exists_congr fun φ ↦ and_congr_right fun hφ ↦ by
      rw [Formula.Holds, Formula.HoldsPlaces, ih φ hφ]
  | .implies lhs rhs, h => by
    simp only [Formula.places, integerReads_append] at h
    refine Bool.eq_iff_iff.2 ?_
    show (Formula.mkImplies (substituteExtRegions m lhs) (substituteExtRegions m rhs)).Holds s ↔
      (Formula.implies lhs rhs).HoldsPlaces s' bare.memory
    rw [Formula.holds_mkImplies, (Formula.logical_holdsPlaces s' bare.memory).implies_iff,
      Formula.Holds, Formula.Holds, eval_substituteExtRegions hm lhs h.1,
      eval_substituteExtRegions hm rhs h.2]
    rfl
  | .memoryEq lhs rhs, h => by
    simp only [Formula.places, integerReads_append] at h
    rw [substituteExtRegions, Formula.eval, Formula.evalPlaces,
      eval_substituteExtRegionsMemory hm lhs h.1, eval_substituteExtRegionsMemory hm rhs h.2]
  | .eq lhs rhs, h | .lt lhs rhs, h | .le lhs rhs, h | .gt lhs rhs, h | .ge lhs rhs, h => by
    simp only [Formula.places, integerReads_append] at h
    rw [substituteExtRegions, Formula.eval, Formula.evalPlaces,
      eval_substituteExtRegionsTerm hm lhs h.1, eval_substituteExtRegionsTerm hm rhs h.2]

theorem eval_substituteExtRegionsList (hm : m.ReadIn s s' bare) :
    ∀ items : List Formula, IntegerReads (Formula.placesList items) →
      ∀ φ ∈ items, (substituteExtRegions m φ).eval s = φ.evalPlaces s' bare.memory
  | [], _ => by simp
  | item :: rest, h => by
    simp only [Formula.placesList, integerReads_append] at h
    rw [List.forall_mem_cons]
    exact ⟨eval_substituteExtRegions hm item h.1, eval_substituteExtRegionsList hm rest h.2⟩

end

/-- Where the bare external regions have offset zero, leaving the offsets out changes nothing. -/
theorem agrees_of_bare_offsets (hs' : m.Reading (RegionMap.offsetIn s) s s')
    (hbare : m.Reading (fun _ ↦ 0) s bare) {places : List RegionPlace}
    (h : ∀ key actual base, (key, actual, base) ∈ m → .bare key ∈ places →
      RegionMap.offsetIn s base = 0) : Agrees s' bare.memory places := by
  intro name hname
  cases hget : m.get? name with
  | none => rw [hs'.memory_of_get?_eq_none hget, hbare.memory_of_get?_eq_none hget]
  | some entry =>
    obtain ⟨region, base⟩ := entry
    have hzero := h _ _ _ (RegionMap.mem_of_get? hget) hname
    rw [hs'.memory_of_get? hget, hbare.memory_of_get? hget, hzero]

/-- **When the substitution of external regions is right.** For every formula and every map from the
external regions of a call site, the result holds in a state exactly where the formula holds in the
reading of that state, if and only if it makes no difference to the formula there that its bare
regions are read without the offsets. In particular this is so if every external region the formula
has at a bare place has offset zero in the state. -/
theorem holds_substituteExtRegions_iff (hm : m.External) (hφ : IntegerReads φ.places)
    (hs' : m.Reading (RegionMap.offsetIn s) s s') (hbare : m.Reading (fun _ ↦ 0) s bare) :
    (((substituteExtRegions m φ).Holds s ↔ φ.Holds s') ↔
      (φ.HoldsPlaces s' bare.memory ↔ φ.Holds s')) ∧
    ((∀ key actual base, (key, actual, base) ∈ m → .bare key ∈ φ.places →
        RegionMap.offsetIn s base = 0) →
      ((substituteExtRegions m φ).Holds s ↔ φ.Holds s')) := by
  have heval := eval_substituteExtRegions ⟨hm.offsets, hs', hbare⟩ φ hφ
  have hsubst : (substituteExtRegions m φ).Holds s ↔ φ.HoldsPlaces s' bare.memory := by
    rw [Formula.Holds, Formula.HoldsPlaces, heval]
  refine ⟨by rw [hsubst], fun hzero ↦ ?_⟩
  rw [hsubst, Formula.HoldsPlaces, Formula.Holds,
    φ.evalPlaces_eq_eval (agrees_of_bare_offsets hs' hbare hzero)]

/-- The call passes a pointer to the second cell of a region. -/
def secondCell : RegionMap := [("f$call0$__ext_0", "f$stack0", .int 1)]

theorem external_secondCell : secondCell.External where
  keys := ⟨"f$call0", fun key actual base h ↦ by
    obtain ⟨rfl, -, -⟩ : key = "f$call0$__ext_0" ∧ actual = "f$stack0" ∧ base = .int 1 := by
      simpa [secondCell] using h
    exact ⟨0, by decide⟩⟩
  nodup := List.nodup_singleton _
  offsets := fun key actual base h ↦ by
    obtain ⟨-, -, rfl⟩ : key = "f$call0$__ext_0" ∧ actual = "f$stack0" ∧ base = .int 1 := by
      simpa [secondCell] using h
    rfl

/-- The first cell of the parameter is seven. -/
def firstCellSeven : Formula := .eq (.select (.var "f$call0$__ext_0") (.int 0)) (.int 7)

/-- The general statement for a formula without bare regions. -/
theorem holds_substituteExtRegions_iff_firstCellSeven :
    (substituteExtRegions secondCell firstCellSeven).Holds State.zero ↔
      firstCellSeven.Holds ⟨State.zero.scalars,
        secondCell.lookup (RegionMap.offsetIn State.zero) State.zero⟩ := by
  have hreads : IntegerReads firstCellSeven.places := fun region index h ↦ by
    obtain ⟨-, rfl⟩ : region = "f$call0$__ext_0" ∧ index = .int 0 := by
      simpa [firstCellSeven, Formula.places, Term.places] using h
    rfl
  refine (holds_substituteExtRegions_iff external_secondCell hreads
    (external_secondCell.reading_lookup _ _) (external_secondCell.reading_lookup _ _)).2 ?_
  intro key actual base _ hplace
  simp [firstCellSeven, Formula.places, Term.places] at hplace

/-- After a store to its first cell, the second cell of the parameter is seven. -/
def storedCellSeven : Formula :=
  .eq (.select (.store (.var "f$call0$__ext_0") (.int 0) (.int 5)) (.int 1)) (.int 7)

/-- Below a store the offset is lost: the result reads the second cell of the actual region, the
second cell of the parameter is the third. -/
theorem not_holds_substituteExtRegions :
    ¬ ∀ (m : RegionMap) (φ : Formula) (s s' : State), m.External → IntegerReads φ.places →
      m.Reading (RegionMap.offsetIn s) s s' →
        ((substituteExtRegions m φ).Holds s ↔ φ.Holds s') := by
  intro h
  have hreads : IntegerReads storedCellSeven.places := fun region index hread ↦ by
    simp [storedCellSeven, Formula.places, Term.places, Memory.places] at hread
  let s : State := ⟨State.zero.scalars, fun _ i ↦ if i = 1 then 7 else 0⟩
  have hiff := h secondCell storedCellSeven s _ external_secondCell hreads
    (external_secondCell.reading_lookup _ s)
  have hone : (1 : Int64).toInt = 1 := rfl
  have hseven : (7 : Int64).toInt = 7 := rfl
  have hget : secondCell.get? "f$call0$__ext_0" = some ("f$stack0", .int 1) := by decide
  have hresult : (substituteExtRegions secondCell storedCellSeven).Holds s := by
    simp [storedCellSeven, substituteExtRegions, substituteExtRegionsTerm,
      substituteExtRegionsMemory, hget, Formula.Holds, Formula.eval, Term.eval, Memory.eval,
      Value.compare, s, hseven]
  have hformula := hiff.1 hresult
  simp [storedCellSeven, Formula.Holds, Formula.eval, Term.eval, Memory.eval, Value.compare,
    RegionMap.lookup, hget, RegionMap.offsetIn, s, hone, hseven] at hformula

end MayMust
