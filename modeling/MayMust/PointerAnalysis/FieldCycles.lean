import Mathlib.Data.FinEnum
import Mathlib.Data.Set.Finite.List
import Mathlib.Logic.Relation
import MayMust.PointerAnalysis.Andersen

/-!
# When the Andersen solver terminates

A field constraint makes new locations from those it reads, so the locations are not bounded in
advance. The solver terminates exactly if no field constraint with a location to read lies on a
cycle of value flow (`exists_solve_iff`). Locations flow along copies and field constraints, and
from a store to a load if the two slots may point to the same location (`Flow`).

* On such a cycle every location comes back with a longer name, so no solution is finite, and the
  result of the solver would be one.
* Without such a cycle a location passes each field constraint at most once on its way from a seed
  (`Derived.routed`). The least solution is then finite, and it bounds the iteration.
-/

namespace MayMust

open Library Relation

namespace Andersen

/-! ### The least solution -/

/-- What the constraints make unavoidable. -/
inductive Derived (constraints : List Constraint) : Fact → Prop
  | seed {target : String} {l : AbstractLoc} (hc : .seed target l ∈ constraints) :
    Derived constraints (.pointer target l)
  | copy {target source : String} {l : AbstractLoc} (hc : .copy target source ∈ constraints)
    (hl : Derived constraints (.pointer source l)) : Derived constraints (.pointer target l)
  | structField {target source : String} {field : UInt32} {l : AbstractLoc}
    (hc : .structField target source field ∈ constraints)
    (hl : Derived constraints (.pointer source l)) :
    Derived constraints (.pointer target (l.field field))
  | loadPtr {target slot : String} {r l : AbstractLoc} (hc : .loadPtr target slot ∈ constraints)
    (hr : Derived constraints (.pointer slot r)) (hl : Derived constraints (.cell r.name l)) :
    Derived constraints (.pointer target l)
  | storePtr {slot value : String} {r l : AbstractLoc} (hc : .storePtr slot value ∈ constraints)
    (hr : Derived constraints (.pointer slot r)) (hl : Derived constraints (.pointer value l)) :
    Derived constraints (.cell r.name l)

variable {constraints : List Constraint} {p source target : String} {l : AbstractLoc} {F : Fact}
  {order : KeyOrder} {fuel : ℕ} {m : PointsTo}

/-- The least solution. -/
def leastSolution (constraints : List Constraint) : PointsTo :=
  ⟨fun p ↦ {l | Derived constraints (.pointer p l)},
    fun region ↦ {l | Derived constraints (.cell region l)}⟩

theorem mem_facts_leastSolution : F ∈ (leastSolution constraints).facts ↔
    Derived constraints F := by
  cases F <;> rfl

theorem leastSolution_solves : (leastSolution constraints).Solves constraints := by
  intro c hc
  cases c with
  | seed target l => exact .seed hc
  | copy target source => exact fun l hl ↦ .copy hc hl
  | structField target source field => exact fun r hr ↦ .structField hc hr
  | loadPtr target slot => exact fun r hr l hl ↦ .loadPtr hc hr hl
  | storePtr slot value => exact fun r hr l hl ↦ .storePtr hc hr hl

/-- What is unavoidable belongs to every solution. -/
theorem Derived.mem_facts (hm : m.Solves constraints) (h : Derived constraints F) :
    F ∈ m.facts := by
  induction h with
  | seed hc => exact hm _ hc
  | copy hc _ ih => exact hm _ hc ih
  | structField hc _ ih => exact hm _ hc _ ih
  | loadPtr hc _ _ ihr ihl => exact hm _ hc _ ihr ihl
  | storePtr hc _ _ ihr ihl => exact hm _ hc _ ihr ihl

/-! ### Value flow -/

/-- Every location of one pointer yields a location of another: itself or one of its fields. -/
inductive Flow (constraints : List Constraint) : String → String → Prop
  | copy {target source : String} (hc : .copy target source ∈ constraints) :
    Flow constraints source target
  | structField {target source : String} {field : UInt32}
    (hc : .structField target source field ∈ constraints) : Flow constraints source target
  | memory {target slot slot' value : String} {r : AbstractLoc}
    (hstore : .storePtr slot value ∈ constraints) (hload : .loadPtr target slot' ∈ constraints)
    (hr : Derived constraints (.pointer slot r)) (hr' : Derived constraints (.pointer slot' r)) :
    Flow constraints value target

/-- A field constraint that has a location to read lies on a cycle of value flow. -/
def FieldCycle (constraints : List Constraint) : Prop :=
  ∃ target source field, .structField target source field ∈ constraints ∧
    (∃ l, Derived constraints (.pointer source l)) ∧
      ReflTransGen (Flow constraints) target source

/-- Names do not get shorter along the flow. -/
theorem Flow.exists_derived (h : Flow constraints source target)
    (hl : Derived constraints (.pointer source l)) :
    ∃ l', Derived constraints (.pointer target l') ∧ l.name.length ≤ l'.name.length := by
  cases h with
  | copy hc => exact ⟨l, .copy hc hl, le_rfl⟩
  | structField hc => exact ⟨_, .structField hc hl, (l.length_name_lt_field _).le⟩
  | memory hstore hload hr hr' => exact ⟨l, .loadPtr hload hr' (.storePtr hstore hr hl), le_rfl⟩

theorem exists_derived_of_flows (h : ReflTransGen (Flow constraints) source target)
    (hl : Derived constraints (.pointer source l)) :
    ∃ l', Derived constraints (.pointer target l') ∧ l.name.length ≤ l'.name.length := by
  induction h with
  | refl => exact ⟨l, hl, le_rfl⟩
  | tail _ hflow ih =>
    obtain ⟨l', hl', hle⟩ := ih
    obtain ⟨l'', hl'', hle'⟩ := hflow.exists_derived hl'
    exact ⟨l'', hl'', hle.trans hle'⟩

/-! ### Cycles: no solution is finite -/

/-- Once around the cycle, a location has become longer. -/
theorem FieldCycle.exists_longer (h : FieldCycle constraints) :
    ∃ p, ∀ n, ∃ l, Derived constraints (.pointer p l) ∧ n ≤ l.name.length := by
  obtain ⟨target, source, field, hc, ⟨l, hl⟩, hflows⟩ := h
  refine ⟨source, fun n ↦ ?_⟩
  induction n with
  | zero => exact ⟨l, hl, Nat.zero_le _⟩
  | succ n ih =>
    obtain ⟨l, hl, hn⟩ := ih
    obtain ⟨l', hl', hle⟩ := exists_derived_of_flows hflows (.structField hc hl)
    have hlt := l.length_name_lt_field field
    exact ⟨l', hl', by omega⟩

/-- On a cycle through a field constraint the solver does not return. -/
theorem FieldCycle.solve_eq_none (h : FieldCycle constraints) (order : KeyOrder) (fuel : ℕ) :
    solve order constraints fuel = none := by
  by_contra hne
  obtain ⟨result, hresult⟩ := Option.ne_none_iff_exists'.1 hne
  obtain ⟨p, hp⟩ := h.exists_longer
  -- The lengths of the names in the set of `p` are bounded by their maximum.
  obtain ⟨l, hl, hlong⟩ := hp ((result.pts p).sup (fun l ↦ l.name.length) + 1)
  have hmem : l ∈ result.pts p := hl.mem_facts (solves_of_solve hresult)
  have hle : l.name.length ≤ (result.pts p).sup fun l ↦ l.name.length :=
    Finset.le_sup (f := fun l ↦ l.name.length) hmem
  omega

/-! ### No cycles: the least solution is finite -/

/-- The location of a chain of fields. -/
def AbstractLoc.fields (l : AbstractLoc) (ns : List UInt32) : AbstractLoc := ns.foldl field l

/-- The location is that of a seed after a chain of field constraints, each of them passed once and
with a location to read, from which values flow to the pointer. -/
def Routed (constraints : List Constraint) (p : String) (l : AbstractLoc) : Prop :=
  ∃ target l₀, .seed target l₀ ∈ constraints ∧
    ∃ route : List (String × String × UInt32), route.Nodup ∧
      l = l₀.fields (route.map fun k ↦ k.2.2) ∧
      ∀ k ∈ route, .structField k.1 k.2.1 k.2.2 ∈ constraints ∧
        (∃ r, Derived constraints (.pointer k.2.1 r)) ∧
          ReflTransGen (Flow constraints) k.1 p

theorem Routed.tail (h : Routed constraints source l) (hflow : Flow constraints source target) :
    Routed constraints target l := by
  obtain ⟨seed, l₀, hseed, route, hnodup, hl, hroute⟩ := h
  refine ⟨seed, l₀, hseed, route, hnodup, hl, fun k hk ↦ ?_⟩
  obtain ⟨hc, hr, hflows⟩ := hroute k hk
  exact ⟨hc, hr, hflows.tail hflow⟩

/-- A field constraint that is not on a cycle has not been passed before. -/
theorem Routed.field (hcycle : ¬ FieldCycle constraints) (h : Routed constraints source l)
    {n : UInt32} (hc : .structField target source n ∈ constraints)
    (hsource : Derived constraints (.pointer source l)) :
    Routed constraints target (l.field n) := by
  obtain ⟨seed, l₀, hseed, route, hnodup, rfl, hroute⟩ := h
  have hnew : (target, source, n) ∉ route := fun hmem ↦
    hcycle ⟨target, source, n, hc, ⟨_, hsource⟩, (hroute _ hmem).2.2⟩
  refine ⟨seed, l₀, hseed, route ++ [(target, source, n)], ?_, ?_, fun k hk ↦ ?_⟩
  · exact hnodup.append (List.nodup_singleton _) (by simpa using hnew)
  · simp [AbstractLoc.fields]
  · rcases List.mem_append.1 hk with hk | hk
    · obtain ⟨hc', hr, hflows⟩ := hroute k hk
      exact ⟨hc', hr, hflows.tail (.structField hc)⟩
    · obtain rfl := List.mem_singleton.1 hk
      exact ⟨hc, ⟨_, hsource⟩, .refl⟩

/-- Without cycles every unavoidable location comes from a seed along such a route, also through
the cells of a region. -/
theorem Derived.routed (hcycle : ¬ FieldCycle constraints) (h : Derived constraints F) :
    match F with
    | .pointer p l => Routed constraints p l
    | .cell region l => ∃ slot value r, .storePtr slot value ∈ constraints ∧
        Derived constraints (.pointer slot r) ∧ r.name = region ∧ Routed constraints value l := by
  induction h with
  | seed hc => exact ⟨_, _, hc, [], List.nodup_nil, rfl, fun k hk ↦ (List.not_mem_nil hk).elim⟩
  | copy hc _ ih => exact Routed.tail ih (.copy hc)
  | structField hc hl ih => exact Routed.field hcycle ih hc hl
  | loadPtr hc hr _ _ ih =>
    obtain ⟨slot, value, r, hstore, hslot, hname, hrouted⟩ := ih
    obtain rfl := AbstractLoc.name_injective hname
    exact hrouted.tail (.memory hstore hc hslot hr)
  | storePtr hc hr _ _ ih => exact ⟨_, _, _, hc, hr, rfl, ih⟩

/-- A route is no longer than the list of constraints. -/
theorem Routed.exists_fields (h : Routed constraints p l) :
    ∃ target l₀ ns, .seed target l₀ ∈ constraints ∧ ns.length ≤ constraints.length ∧
      l = l₀.fields ns := by
  obtain ⟨target, l₀, hseed, route, hnodup, hl, hroute⟩ := h
  refine ⟨target, l₀, _, hseed, ?_, hl⟩
  let asConstraint (k : String × String × UInt32) : Constraint := .structField k.1 k.2.1 k.2.2
  have hinj : Function.Injective asConstraint := by
    rintro ⟨t, s, n⟩ ⟨t', s', n'⟩ heq
    obtain ⟨rfl, rfl, rfl⟩ := Constraint.structField.inj heq
    rfl
  have hsub : route.map asConstraint ⊆ constraints := by
    intro c hc
    obtain ⟨k, hk, rfl⟩ := List.mem_map.1 hc
    exact (hroute k hk).1
  have hle := (List.subperm_of_subset (hnodup.map hinj) hsub).length_le
  simpa using hle

/-- The locations of all pointers in the least solution. -/
theorem finite_locations (hcycle : ¬ FieldCycle constraints) :
    {l | ∃ p, Derived constraints (.pointer p l)}.Finite := by
  have hseeds : {l₀ : AbstractLoc | ∃ target, .seed target l₀ ∈ constraints}.Finite := by
    have hpairs : {p : String × AbstractLoc | .seed p.1 p.2 ∈ constraints}.Finite := by
      refine constraints.finite_toSet.preimage fun p _ q _ heq ↦ ?_
      obtain ⟨htarget, hloc⟩ := Constraint.seed.inj heq
      exact Prod.ext htarget hloc
    refine (hpairs.image Prod.snd).subset ?_
    rintro l₀ ⟨target, hc⟩
    exact ⟨(target, l₀), hc, rfl⟩
  have hchains := List.finite_length_le UInt32 constraints.length
  refine (hseeds.image2 AbstractLoc.fields hchains).subset ?_
  rintro l ⟨p, hl⟩
  obtain ⟨target, l₀, ns, hseed, hlength, rfl⟩ := Routed.exists_fields (hl.routed hcycle)
  exact ⟨l₀, ⟨target, hseed⟩, ns, hlength, rfl⟩

/-- The pointer a constraint adds to. -/
def Constraint.pointerTarget : Constraint → Option String
  | seed target _ | copy target _ | structField target _ _ | loadPtr target _ => some target
  | storePtr _ _ => none

theorem Derived.mem_pointerTargets (h : Derived constraints (.pointer p l)) :
    p ∈ constraints.filterMap Constraint.pointerTarget := by
  cases h with
  | seed hc | copy hc | structField hc | loadPtr hc => exact List.mem_filterMap.2 ⟨_, hc, rfl⟩

/-- **Without cycles the least solution is finite.** -/
theorem finite_facts_leastSolution (hcycle : ¬ FieldCycle constraints) :
    (leastSolution constraints).facts.Finite := by
  have hlocs := finite_locations hcycle
  have htargets := (constraints.filterMap Constraint.pointerTarget).finite_toSet
  have hpointers := htargets.image2 Fact.pointer hlocs
  have hcells := (hlocs.image AbstractLoc.name).image2 Fact.cell hlocs
  refine (hpointers.union hcells).subset fun F hF ↦ ?_
  have hF' := mem_facts_leastSolution.1 hF
  cases F with
  | pointer p l =>
    exact Or.inl ⟨p, hF'.mem_pointerTargets, l, ⟨_, hF'⟩, rfl⟩
  | cell region l =>
    cases hF' with
    | storePtr hc hr hl => exact Or.inr ⟨_, ⟨_, ⟨_, hr⟩, rfl⟩, l, ⟨_, hl⟩, rfl⟩

/-- **The solver terminates exactly without field cycles.** It returns, for whatever order the
worklist is filled in, if and only if no field constraint that has a location to read lies on a
cycle of value flow. -/
theorem exists_solve_iff (order : KeyOrder) (constraints : List Constraint) :
    (∃ fuel, (solve order constraints fuel).isSome) ↔ ¬ FieldCycle constraints := by
  constructor
  · rintro ⟨fuel, hsome⟩ hcycle
    rw [hcycle.solve_eq_none order fuel] at hsome
    cases hsome
  · intro hcycle
    simp only [solve, solveLoop_eq_drain]
    have hleast : (leastSolution constraints).Solves constraints := leastSolution_solves
    exact Saturation.exists_drain (finite_facts_leastSolution hcycle) hleast.bounds _
      hleast.seeded_subset

/-- A loop walks a structure through the address of one of its fields: the pointer is the start of
the structure or the field's address of the previous round. -/
def fieldWalk : List Constraint :=
  [.seed "f$s" ⟨"f$stack0"⟩, .copy "f$p" "f$s", .copy "f$p" "f$q", .structField "f$q" "f$p" 1]

/-- The solver does not terminate on the constraints of the loop. -/
theorem not_exists_solve :
    ¬ ∀ (order : KeyOrder) (constraints : List Constraint),
      ∃ fuel, (solve order constraints fuel).isSome := by
  intro h
  obtain ⟨fuel, hsome⟩ := h .stored fieldWalk
  have hseed : Derived fieldWalk (.pointer "f$s" ⟨"f$stack0"⟩) := .seed (by decide)
  have hstart : Derived fieldWalk (.pointer "f$p" ⟨"f$stack0"⟩) := .copy (by decide) hseed
  have hback : Flow fieldWalk "f$q" "f$p" := .copy (by decide)
  have hcycle : FieldCycle fieldWalk :=
    ⟨"f$q", "f$p", 1, by decide, ⟨_, hstart⟩, .single hback⟩
  rw [hcycle.solve_eq_none .stored fuel] at hsome
  cases hsome

end Andersen

end MayMust
