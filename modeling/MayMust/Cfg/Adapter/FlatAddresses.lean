import MayMust.Cfg.Adapter.MemoryResolution
import MayMust.Library.MachineInt

/-!
# Flat addresses

A `ptrtoint` of a pointer with a constant offset becomes a number: the base of the region plus the
offset. An `inttoptr` looks up the region whose stride the number falls into. Neither looks at the
offset, so a pointer comes back as itself only if its offset stays within the stride of its region.

The bases are machine integers, `4096` apart in the order of registration, so they repeat after
`2 ^ 52` regions, and the end of the stride of one region, the `2 ^ 51`-th, is not a machine
integer. `FlatLayout.roundTrips_iff` is exact: these are the only other obstacles.
-/

namespace MayMust

open Library

namespace FlatLayout

/-- `FlatLayout::new`. -/
def new : FlatLayout := ⟨[]⟩

/-- The layout after registering a sequence of regions. -/
def ofRegions (regions : List String) : FlatLayout := regions.foldl addRegion new

/-- How many regions are registered before a region. -/
def position (flat : FlatLayout) (region : String) : ℕ :=
  flat.ordered.findIdx (·.1 = region)

/-- The base of the region with a position. -/
def baseAt (k : ℕ) : Int64 := Int64.ofNat k * stride

/-! ### What registration builds -/

/-- Regions are registered once, with bases one stride apart. -/
structure Strided (flat : FlatLayout) : Prop where
  base : ∀ k (h : k < flat.ordered.length), flat.ordered[k].2 = baseAt k
  nodup : (flat.ordered.map (·.1)).Nodup

theorem baseOf_eq_none_iff {flat : FlatLayout} {region : String} :
    flat.baseOf region = none ↔ region ∉ flat.ordered.map (·.1) := by
  simp only [baseOf, Option.map_eq_none_iff, List.find?_eq_none, decide_eq_true_eq, List.mem_map,
    not_exists, not_and]

theorem strided_new : new.Strided := ⟨fun _ h ↦ absurd h (Nat.not_lt_zero _), List.nodup_nil⟩

theorem Strided.addRegion {flat : FlatLayout} (h : flat.Strided) (region : String) :
    (flat.addRegion region).Strided := by
  rw [FlatLayout.addRegion]
  split
  · exact h
  · rename_i hnew
    rw [Bool.not_eq_true, Option.isSome_eq_false_iff, Option.isNone_iff_eq_none,
      baseOf_eq_none_iff] at hnew
    constructor
    · intro k hk
      rcases Nat.lt_or_ge k flat.ordered.length with hlt | hge
      · rw [List.getElem_append_left hlt]
        exact h.base k hlt
      · obtain rfl : k = flat.ordered.length := by simp at hk; omega
        simp [baseAt]
    · rw [List.map_append, List.nodup_append]
      refine ⟨h.nodup, by simp, fun a ha b hb ↦ ?_⟩
      rw [List.map_singleton, List.mem_singleton] at hb
      rintro rfl
      rw [hb] at ha
      exact hnew ha

theorem strided_ofRegions (regions : List String) : (ofRegions regions).Strided := by
  suffices h : ∀ flat : FlatLayout, flat.Strided → (regions.foldl addRegion flat).Strided from
    h new strided_new
  induction regions with
  | nil => exact fun _ h ↦ h
  | cons region rest ih => exact fun flat h ↦ ih _ (h.addRegion region)

/-- Registering a region keeps the others, and it is registered afterwards. -/
theorem mem_addRegion_iff {flat : FlatLayout} {region r : String} :
    r ∈ (flat.addRegion region).ordered.map (·.1) ↔ r ∈ flat.ordered.map (·.1) ∨ r = region := by
  rw [FlatLayout.addRegion]
  split
  · rename_i hold
    have hmem : region ∈ flat.ordered.map (·.1) := by
      by_contra hnot
      rw [baseOf_eq_none_iff.2 hnot] at hold
      exact absurd hold (by simp)
    exact ⟨Or.inl, fun h ↦ h.elim id fun h ↦ h ▸ hmem⟩
  · simp

theorem mem_ofRegions_iff {regions : List String} {r : String} :
    r ∈ (ofRegions regions).ordered.map (·.1) ↔ r ∈ regions := by
  suffices h : ∀ flat : FlatLayout, r ∈ (regions.foldl addRegion flat).ordered.map (·.1) ↔
      r ∈ flat.ordered.map (·.1) ∨ r ∈ regions by
    simpa [ofRegions, new] using h new
  induction regions with
  | nil => simp
  | cons region rest ih =>
    intro flat
    rw [List.foldl_cons, ih, mem_addRegion_iff, List.mem_cons, or_assoc]

/-! ### One region -/

theorem toInt_stride : stride.toInt = 4096 := rfl

/-- A base is a multiple of the stride, up to a multiple of `2 ^ 64`. -/
theorem exists_toInt_baseAt (k : ℕ) : ∃ t : ℤ, (baseAt k).toInt = 4096 * k + 2 ^ 64 * t := by
  obtain ⟨t, ht⟩ := exists_toInt_mul (Int64.ofNat k) stride
  obtain ⟨u, hu⟩ := exists_toInt_ofNat k
  refine ⟨t + 4096 * u, ?_⟩
  rw [baseAt, ht, hu, toInt_stride]
  ring

/-- The address falls into the stride of the region with a position. -/
def Covers (k : ℕ) (addr : Int64) : Prop := baseAt k ≤ addr ∧ addr < baseAt k + stride

/-- A pointer falls into the stride of its own region first just if its offset stays within the
stride and the stride is representable. -/
theorem covers_iff (k : ℕ) (o : Int64) :
    (Covers k (baseAt k + o) ∧ ∀ j < k, ¬ Covers j (baseAt k + o)) ↔
      (0 ≤ o ∧ o < stride) ∧ k < 2 ^ 52 ∧ k ≠ 2 ^ 51 - 1 := by
  simp only [Covers, Int64.le_iff_toInt_le, Int64.lt_iff_toInt_lt, toInt_stride, Int64.toInt_zero]
  obtain ⟨t, hbase⟩ := exists_toInt_baseAt k
  obtain ⟨u, haddr⟩ := exists_toInt_add (baseAt k) o
  obtain ⟨v, hend⟩ := exists_toInt_add (baseAt k) stride
  rw [toInt_stride] at hend
  have hb := fitsInt64_toInt (baseAt k)
  have ha := fitsInt64_toInt (baseAt k + o)
  have he := fitsInt64_toInt (baseAt k + stride)
  have ho := fitsInt64_toInt o
  unfold FitsInt64 at hb ha he ho
  constructor
  · rintro ⟨hcovers, hfirst⟩
    have hk : k < 2 ^ 52 := by
      by_contra hge
      -- The base of the region `2 ^ 52` places before is the same.
      obtain ⟨j, hj⟩ : ∃ j, k = j + 2 ^ 52 := ⟨k - 2 ^ 52, by omega⟩
      obtain ⟨t', hbase'⟩ := exists_toInt_baseAt j
      have hb' := fitsInt64_toInt (baseAt j)
      unfold FitsInt64 at hb'
      have hsame : (baseAt j).toInt = (baseAt k).toInt := by omega
      have hbefore := hfirst j (by omega)
      rw [Int64.toInt_inj.1 hsame] at hbefore
      exact hbefore hcovers
    refine ⟨?_, hk, ?_⟩ <;> omega
  · rintro ⟨hstride, hk, hne⟩
    refine ⟨by omega, fun j hj ↦ ?_⟩
    obtain ⟨t', hbase'⟩ := exists_toInt_baseAt j
    obtain ⟨v', hend'⟩ := exists_toInt_add (baseAt j) stride
    rw [toInt_stride] at hend'
    have hb' := fitsInt64_toInt (baseAt j)
    have he' := fitsInt64_toInt (baseAt j + stride)
    unfold FitsInt64 at hb' he'
    omega

variable {flat : FlatLayout} {r : String}

theorem position_lt (hr : r ∈ flat.ordered.map (·.1)) : flat.position r < flat.ordered.length := by
  obtain ⟨entry, hentry, rfl⟩ := List.mem_map.1 hr
  exact List.findIdx_lt_length_of_exists ⟨entry, hentry, by simp⟩

/-- The entry at the position of a region. -/
theorem Strided.getElem?_position (h : flat.Strided) (hr : r ∈ flat.ordered.map (·.1)) :
    flat.ordered[flat.position r]? = some (r, baseAt (flat.position r)) := by
  have hlt := position_lt hr
  rw [List.getElem?_eq_getElem hlt]
  refine congrArg some (Prod.ext ?_ (h.base _ hlt))
  exact of_decide_eq_true (List.findIdx_getElem (w := hlt))

theorem Strided.flatAddr_eq (h : flat.Strided) (hr : r ∈ flat.ordered.map (·.1)) (o : Int64) :
    flat.flatAddr r o = some (baseAt (flat.position r) + o) := by
  rw [flatAddr, baseOf, List.find?_eq_getElem?_findIdx]
  show ((flat.ordered[flat.position r]?).map _).map _ = _
  rw [h.getElem?_position hr]
  rfl

/-- A name has one position. -/
theorem Strided.eq_position (h : flat.Strided) (hr : r ∈ flat.ordered.map (·.1)) {k : ℕ}
    {base : Int64} (hk : flat.ordered[k]? = some (r, base)) : k = flat.position r := by
  have hname {j : ℕ} {b : Int64} (hj : flat.ordered[j]? = some (r, b)) :
      (flat.ordered.map (·.1))[j]? = some r := by rw [List.getElem?_map, hj]; rfl
  have hlt : k < (flat.ordered.map (·.1)).length := by
    rw [List.length_map]
    exact (List.getElem?_eq_some_iff.1 hk).1
  exact (List.getElem?_inj hlt h.nodup).1
    ((hname hk).trans (hname (h.getElem?_position hr)).symm)

/-- What is looked up for an address in the stride of a region. -/
theorem Strided.regionAt_eq_some_iff (h : flat.Strided) (hr : r ∈ flat.ordered.map (·.1))
    (o : Int64) :
    flat.regionAt (baseAt (flat.position r) + o) = some (r, o) ↔
      Covers (flat.position r) (baseAt (flat.position r) + o) ∧
        ∀ j < flat.position r, ¬ Covers j (baseAt (flat.position r) + o) := by
  have hlt := position_lt hr
  have hcovers (k : ℕ) (hk : k < flat.ordered.length) (addr : Int64) :
      (flat.ordered[k].2 ≤ addr ∧ addr < flat.ordered[k].2 + stride) ↔ Covers k addr := by
    rw [h.base k hk, Covers]
  rw [regionAt, List.find?_eq_getElem?_findIdx, Option.map_eq_some_iff]
  constructor
  · rintro ⟨entry, hentry, heq⟩
    obtain ⟨rfl, -⟩ := Prod.mk.inj heq
    have hidx := h.eq_position hr hentry
    obtain ⟨hself, hbefore⟩ := (List.findIdx_eq hlt).1 hidx
    refine ⟨(hcovers _ hlt _).1 (of_decide_eq_true hself), fun j hj hcov ↦ ?_⟩
    exact of_decide_eq_false (hbefore j hj) ((hcovers j (hj.trans hlt) _).2 hcov)
  · rintro ⟨hself, hbefore⟩
    refine ⟨(r, baseAt (flat.position r)), ?_, Prod.ext rfl ?_⟩
    · rw [(List.findIdx_eq hlt).2 ⟨decide_eq_true ((hcovers _ hlt _).2 hself), fun j hj ↦
        decide_eq_false fun hcov ↦ hbefore j hj ((hcovers j (hj.trans hlt) _).1 hcov)⟩]
      exact h.getElem?_position hr
    · exact (congrArg (· - _) (Int64.add_comm _ _)).trans (Int64.add_sub_cancel _ _)

/-! ### Round trips -/

/-- The pointer comes back as itself. -/
def RoundTrips (flat : FlatLayout) (r : String) (o : Int64) : Prop :=
  (flat.flatAddr r o).bind flat.regionAt = some (r, o)

/-- The offset stays within the stride of the region, and the stride has machine integers for its
addresses, which no earlier region uses. -/
def InStride (flat : FlatLayout) (r : String) (o : Int64) : Prop :=
  (0 ≤ o ∧ o < stride) ∧ flat.position r < 2 ^ 52 ∧ flat.position r ≠ 2 ^ 51 - 1

theorem Strided.roundTrips_iff (h : flat.Strided) (hr : r ∈ flat.ordered.map (·.1)) (o : Int64) :
    flat.RoundTrips r o ↔ flat.InStride r o := by
  rw [RoundTrips, h.flatAddr_eq hr, Option.bind_some, h.regionAt_eq_some_iff hr, covers_iff,
    InStride]

end FlatLayout

/-- The pass takes a pointer to an integer and the integer to a new pointer, which is then bound to
the cell of the first. -/
def FlatLayout.Returns (flat : FlatLayout) (r : String) (o : Int64) : Prop :=
  ∀ (input : ResolverInput) (node : CfgNodeId) (st : Resolver) (number : Var)
    (source target : String), st.flat = flat → st.env source = some ⟨r, .int o⟩ →
    st.env target = none →
      (Resolver.resolveEffects input node st
        [.ptrToInt number source, .intToPtr target number.name]).1.env target =
        some ⟨r, .int o⟩

theorem FlatLayout.RoundTrips.returns {flat : FlatLayout} {r : String} {o : Int64}
    (h : flat.RoundTrips r o) : flat.Returns r o := by
  intro input node st number source target hflat hsource _
  obtain ⟨addr, haddr, hregion⟩ := Option.bind_eq_some_iff.1 h
  have hfirst : Resolver.resolveEffect input node st (.ptrToInt number source) =
      ({ st with flatIntVars := Function.update st.flatIntVars number.name (some addr) },
        .assign number (.term (.int addr))) := by
    simp [Resolver.resolveEffect, hsource, hflat, haddr]
  simp only [Resolver.resolveEffects, hfirst]
  simp [Resolver.resolveEffect, Resolver.bind?, Resolver.bind, hflat, hregion]

/-- Where both regions are registered and both pointers are resolved, the pointers come back as
themselves, in the layout and through the pass, and have different addresses if they are different,
just if both offsets stay within the strides. -/
theorem flat_addresses_iff {regions : List String} {r r' : String} (hr : r ∈ regions)
    (hr' : r' ∈ regions) (o o' : Int64) :
    ((FlatLayout.ofRegions regions).RoundTrips r o ∧
        (FlatLayout.ofRegions regions).RoundTrips r' o' ∧
        ((FlatLayout.ofRegions regions).Returns r o ∧
          (FlatLayout.ofRegions regions).Returns r' o') ∧
        ((r, o) ≠ (r', o') → (FlatLayout.ofRegions regions).flatAddr r o ≠
          (FlatLayout.ofRegions regions).flatAddr r' o')) ↔
      (FlatLayout.ofRegions regions).InStride r o ∧
        (FlatLayout.ofRegions regions).InStride r' o' := by
  have hstrided := FlatLayout.strided_ofRegions regions
  rw [← hstrided.roundTrips_iff (FlatLayout.mem_ofRegions_iff.2 hr),
    ← hstrided.roundTrips_iff (FlatLayout.mem_ofRegions_iff.2 hr')]
  constructor
  · rintro ⟨h, h', -⟩
    exact ⟨h, h'⟩
  · rintro ⟨h, h'⟩
    refine ⟨h, h', ⟨h.returns, h'.returns⟩, fun hne heq ↦ hne ?_⟩
    -- Both pointers are what is looked up for the common address.
    have hsame : some (r, o) = some (r', o') := by rw [← h, ← h', heq]
    exact Option.some.inj hsame

theorem flat_addresses_iff_stack :
    ("stack0" ∈ ["stack0", "stack1"] ∧ "stack1" ∈ ["stack0", "stack1"]) ∧
      (((FlatLayout.ofRegions ["stack0", "stack1"]).RoundTrips "stack0" 3 ∧
          (FlatLayout.ofRegions ["stack0", "stack1"]).RoundTrips "stack1" 3 ∧
          ((FlatLayout.ofRegions ["stack0", "stack1"]).Returns "stack0" 3 ∧
            (FlatLayout.ofRegions ["stack0", "stack1"]).Returns "stack1" 3) ∧
          (("stack0", (3 : Int64)) ≠ ("stack1", 3) →
            (FlatLayout.ofRegions ["stack0", "stack1"]).flatAddr "stack0" 3 ≠
              (FlatLayout.ofRegions ["stack0", "stack1"]).flatAddr "stack1" 3)) ↔
        (FlatLayout.ofRegions ["stack0", "stack1"]).InStride "stack0" 3 ∧
          (FlatLayout.ofRegions ["stack0", "stack1"]).InStride "stack1" 3) :=
  ⟨by decide, flat_addresses_iff (by decide) (by decide) 3 3⟩

/-- The cell `4096` of the first region has the address of the cell `0` of the second, and comes
back as that. -/
theorem not_flat_addresses : ¬ ∀ (regions : List String) (r r' : String) (o o' : Int64),
    r ∈ regions → r' ∈ regions → (FlatLayout.ofRegions regions).RoundTrips r o ∧
      ((r, o) ≠ (r', o') → (FlatLayout.ofRegions regions).flatAddr r o ≠
        (FlatLayout.ofRegions regions).flatAddr r' o') := by
  intro h
  have hcells := h ["stack0", "stack1"] "stack0" "stack1" 4096 0 (by decide) (by decide)
  exact hcells.2 (by decide) (by decide)

end MayMust
