import Mathlib.Data.List.Sort
import MayMust.Cfg.Effect

/-!
# Forward walks with remembered stores

`apply_effects_sp` walks over a list of effects and conjoins what it learns to a formula. Next to
the formula it keeps *store facts*: for a region and a constant offset, the term last stored
there. Later loads from such a cell are resolved, so a preheader that stores `0` to a stack slot
contributes `cur = 0` when the slot is loaded.

The walk never takes anything back from the formula, and it forgets a fact only at a store to the
same region, a havoc of it or a call. What it has recorded therefore stays true exactly as long
as no effect changes it: `TransferEffect.Spares` is this condition for one step, and
`Walk.holds_applyEffects` is the result for lists.
-/

namespace MayMust

open Library

/-! ### Store facts -/

/-- A region and a constant offset into it. -/
abbrev Cell := String × Int64

/-- The order of the keys of the map of facts. -/
def Cell.Before (c c' : Cell) : Prop := c.1 < c'.1 ∨ c.1 = c'.1 ∧ c.2 ≤ c'.2

instance : DecidableRel Cell.Before := fun c c' ↦ by unfold Cell.Before; infer_instance

/-- What is known to be stored where, in the order of the cells. -/
abbrev StoreFacts := List (Cell × Term)

namespace StoreFacts

/-- The term remembered for a cell. -/
def get? (facts : StoreFacts) (cell : Cell) : Option Term :=
  (facts.find? (·.1 = cell)).map (·.2)

/-- Remember a store to a cell, in place of what was known of it. -/
def insert (facts : StoreFacts) (cell : Cell) (value : Term) : StoreFacts :=
  (facts.filter (·.1 ≠ cell)).orderedInsert (fun p q ↦ Cell.Before p.1 q.1) (cell, value)

/-- Forget everything about a region. -/
def forget (facts : StoreFacts) (region : String) : StoreFacts :=
  facts.filter (·.1.1 ≠ region)

/-- `intersect_store_facts`: the entries on which two maps agree. -/
def intersect (a b : StoreFacts) : StoreFacts :=
  a.filter fun p ↦ b.get? p.1 = some p.2

/-- The equation a fact stands for. -/
def equation (p : Cell × Term) : Formula := .eq (.select (.var p.1.1) (.int p.1.2)) p.2

/-- All facts hold in the state. -/
def Holds (s : State) (facts : StoreFacts) : Prop := ∀ p ∈ facts, (equation p).Holds s

variable {facts a b : StoreFacts} {cell : Cell} {value : Term} {p : Cell × Term} {s : State}

theorem mem_of_get? (h : facts.get? cell = some value) : (cell, value) ∈ facts := by
  obtain ⟨p, hp, rfl⟩ := Option.map_eq_some_iff.1 h
  have hcell : p.1 = cell := by simpa using List.find?_some hp
  exact hcell ▸ List.mem_of_find?_eq_some hp

theorem mem_insert : p ∈ facts.insert cell value ↔ p = (cell, value) ∨ p ∈ facts ∧ p.1 ≠ cell := by
  simp [insert, List.mem_orderedInsert]

theorem mem_forget {region : String} : p ∈ facts.forget region ↔ p ∈ facts ∧ p.1.1 ≠ region := by
  simp [forget]

theorem intersect_subset_left : intersect a b ⊆ a := List.filter_subset_self _

theorem intersect_subset_right : intersect a b ⊆ b := by
  intro p hp
  exact mem_of_get? (by simpa using (List.mem_filter.1 hp).2)

theorem Holds.mono (h : b.Holds s) (hsub : a ⊆ b) : a.Holds s := fun p hp ↦ h p (hsub hp)

end StoreFacts

/-! ### Resolving loads -/

/-- `resolve_select_in_term`: replace a load from a remembered cell, below arithmetic operators
only. -/
def resolveSelectInTerm (facts : StoreFacts) : Term → Term
  | .select (.var region) index =>
    match index.tryAsConstantInt.bind fun k ↦ facts.get? (region, k) with
    | some v => v
    | none => .select (.var region) index
  | .select (.store memory i v) index => .select (.store memory i v) index
  | .add l r => .add (resolveSelectInTerm facts l) (resolveSelectInTerm facts r)
  | .sub l r => .sub (resolveSelectInTerm facts l) (resolveSelectInTerm facts r)
  | .mul l r => .mul (resolveSelectInTerm facts l) (resolveSelectInTerm facts r)
  | .div l r => .div (resolveSelectInTerm facts l) (resolveSelectInTerm facts r)
  | .rem l r => .rem (resolveSelectInTerm facts l) (resolveSelectInTerm facts r)
  | .neg inner => .neg (resolveSelectInTerm facts inner)
  | .boolToInt value => .boolToInt value
  | .var v => .var v
  | .int n => .int n
  | .real q => .real q
termination_by structural t => t

/-- The indices of loads the resolution may replace fold exactly. -/
def Term.LoadsExactly (s : State) : Term → Prop
  | .select _ index => index.FoldsExactly s
  | .add l r | .sub l r | .mul l r | .div l r | .rem l r => l.LoadsExactly s ∧ r.LoadsExactly s
  | .neg inner => inner.LoadsExactly s
  | .boolToInt _ | .var _ | .int _ | .real _ => True
termination_by structural t => t

/-- An equation between numbers of one sort is true if they are equal. -/
theorem Formula.holds_eq_of_eval {s : State} {l r : Term} (h : l.eval s = r.eval s)
    (hsort : (r.eval s).sort ≠ .bool) : (Formula.eq l r).Holds s := by
  unfold Formula.Holds Formula.eval
  rw [h]
  cases hr : r.eval s with
  | bool b => simp [hr] at hsort
  | int n => simp [Value.compare]
  | real x => simp [Value.compare]

/-- Resolution does not change the value of a term when the facts hold. -/
theorem eval_resolveSelectInTerm {s : State} {facts : StoreFacts} (hfacts : facts.Holds s) :
    ∀ t : Term, t.LoadsExactly s → (resolveSelectInTerm facts t).eval s = t.eval s
  | .select (.var region) index, h => by
    rw [resolveSelectInTerm]
    split
    · rename_i v hv
      obtain ⟨k, hk, hget⟩ := Option.bind_eq_some_iff.1 hv
      have heq := hfacts _ (StoreFacts.mem_of_get? hget)
      have hindex : index.eval s = .int k.toInt := h k hk
      rw [StoreFacts.equation] at heq
      rw [← (Formula.eval_eq_of_holds_eq heq).1, Term.eval, Term.eval, Term.eval, hindex]
    · rfl
  | .select (.store memory i v) index, _ => by rw [resolveSelectInTerm]
  | .add l r, h | .sub l r, h | .mul l r, h | .div l r, h | .rem l r, h => by
    have hl := eval_resolveSelectInTerm hfacts l h.1
    have hr := eval_resolveSelectInTerm hfacts r h.2
    simp only [resolveSelectInTerm, Term.eval, hl, hr]
  | .neg inner, h => by
    have hinner := eval_resolveSelectInTerm hfacts inner h
    simp only [resolveSelectInTerm, Term.eval, hinner]
  | .boolToInt _, _ | .var _, _ | .int _, _ | .real _, _ => by rw [resolveSelectInTerm]

/-! ### The walk -/

/-- What the forward pass carries along a path. -/
structure Walk where
  formula : Formula
  facts : StoreFacts
  deriving DecidableEq

namespace Walk

/-- The body of the loop of `apply_effects_sp`. -/
def applyEffect (walk : Walk) : TransferEffect → Walk
  | .memoryStore region offset value =>
    match offset.tryAsConstantInt with
    | some k =>
      { walk with
        facts := walk.facts.insert (region, k) (resolveSelectInTerm walk.facts value) }
    | none => { walk with facts := walk.facts.forget region }
  | .havocRegions regions =>
    { walk with facts := regions.foldl (fun facts r ↦ facts.forget r) walk.facts }
  | .call _ memoryEffect | .indirectCall _ memoryEffect =>
    if memoryEffect = .havocMemory then { walk with facts := [] } else walk
  | .assign target (.term value) =>
    { walk with
      formula := Formula.mkAnd walk.formula
        (.eq (.var target) (resolveSelectInTerm walk.facts value)) }
  | .assign target (.predicate value) =>
    { walk with
      formula := Formula.mkAnd walk.formula
        (Formula.mkAnd (Formula.mkImplies (.var target) value)
          (Formula.mkImplies value (.var target))) }
  | .assume c | .typeBound c | .obligation c =>
    { walk with formula := Formula.mkAnd walk.formula c }
  | .alloca .. | .getElementPtr .. | .load .. | .store .. | .pointerStore .. | .pointerLoad ..
  | .pointerAlias .. | .structFieldGep .. | .nop | .ptrToInt .. | .intToPtr .. | .heapAlloc .. =>
    walk

/-- `apply_effects_sp`. -/
def applyEffects (walk : Walk) (effects : List TransferEffect) : Walk :=
  effects.foldl applyEffect walk

/-- The formula and the facts of a walk hold. -/
structure Holds (s : State) (walk : Walk) : Prop where
  formula : walk.formula.Holds s
  facts : walk.facts.Holds s

end Walk

/-- The step does not make the formula false. -/
def Formula.KeptBy (φ : Formula) (s s' : State) : Prop := φ.Holds s → φ.Holds s'

/-- What the effect records is true, and is not about something the effect changes. -/
def TransferEffect.RecordsOld (e : TransferEffect) (facts : StoreFacts) (s s' : State) : Prop :=
  match e with
  | .assign _ (.term value) =>
    value.LoadsExactly s ∧
      (resolveSelectInTerm facts value).eval s' = (resolveSelectInTerm facts value).eval s
  | .assign _ (.predicate value) => value.eval s' = value.eval s
  | .memoryStore _ offset value =>
    (offset.tryAsConstantInt).isSome → offset.FoldsExactly s ∧ value.LoadsExactly s ∧
      (value.eval s).sort = .int ∧
      (resolveSelectInTerm facts value).eval s' = (resolveSelectInTerm facts value).eval s
  | .typeBound c => c.Holds s
  | _ => True

/-- A step that makes nothing false that the walk has recorded and still keeps. -/
structure TransferEffect.Spares (e : TransferEffect) (walk : Walk) (s s' : State) : Prop where
  formula : walk.formula.KeptBy s s'
  facts : ∀ p ∈ (walk.applyEffect e).facts, p ∈ walk.facts →
    (StoreFacts.equation p).KeptBy s s'
  recordsOld : e.RecordsOld walk.facts s s'

section Step

variable {sem : Semantics} {e : TransferEffect} {es : List TransferEffect} {walk : Walk}
  {s s' : State}

theorem StoreFacts.subset_foldl_forget {regions : List String} {facts : StoreFacts} :
    regions.foldl (fun facts r ↦ facts.forget r) facts ⊆ facts := by
  induction regions generalizing facts with
  | nil => simp
  | cons r rest ih =>
    intro p hp
    exact (StoreFacts.mem_forget.1 (ih hp)).1

/-- An effect adds at most the fact about the cell it stores to. -/
theorem Walk.mem_facts_applyEffect {p : Cell × Term} (hp : p ∈ (walk.applyEffect e).facts) :
    p ∈ walk.facts ∨ ∃ region offset value k, e = .memoryStore region offset value ∧
      offset.tryAsConstantInt = some k ∧
      p = ((region, k), resolveSelectInTerm walk.facts value) := by
  cases e with
  | memoryStore region offset value =>
    cases hk : offset.tryAsConstantInt with
    | some k =>
      simp only [Walk.applyEffect, hk, StoreFacts.mem_insert] at hp
      rcases hp with rfl | ⟨hp, -⟩
      · exact Or.inr ⟨region, offset, value, k, rfl, hk, rfl⟩
      · exact Or.inl hp
    | none =>
      simp only [Walk.applyEffect, hk, StoreFacts.mem_forget] at hp
      exact Or.inl hp.1
  | havocRegions regions => exact Or.inl (StoreFacts.subset_foldl_forget hp)
  | call callee effect =>
    by_cases heff : effect = .havocMemory
    · simp [Walk.applyEffect, heff] at hp
    · simp only [Walk.applyEffect, heff, if_false] at hp
      exact Or.inl hp
  | indirectCall calleePtr effect =>
    by_cases heff : effect = .havocMemory
    · simp [Walk.applyEffect, heff] at hp
    · simp only [Walk.applyEffect, heff, if_false] at hp
      exact Or.inl hp
  | assign target value => cases value <;> exact Or.inl hp
  | _ => exact Or.inl hp

/-- The facts of a walk stay true over a step that spares it. -/
theorem TransferEffect.Spares.holds_facts (hstep : e.Step sem s s') (hspares : e.Spares walk s s')
    (h : walk.facts.Holds s) : (walk.applyEffect e).facts.Holds s' := by
  intro p hp
  rcases Walk.mem_facts_applyEffect hp with hold | ⟨region, offset, value, k, rfl, hk, rfl⟩
  · exact hspares.facts p hp hold (h p hold)
  · obtain ⟨hfolds, hloads, hsort, hsame⟩ := hspares.recordsOld (by simp [hk])
    have hstate : s' = s.setRegion region (Function.update (s.memory region)
      (offset.eval s).toInt (value.eval s).toInt) := hstep
    have hvalue : (resolveSelectInTerm walk.facts value).eval s' = value.eval s :=
      hsame.trans (eval_resolveSelectInTerm h value hloads)
    have hcell : s'.memory region k.toInt = (value.eval s).toInt := by
      rw [hstate, State.memory_setRegion_self, hfolds k hk]
      exact Function.update_self ..
    refine Formula.holds_eq_of_eval ?_ (by rw [hvalue, hsort]; decide)
    rw [hvalue, Term.eval, Term.eval, Memory.eval, Value.toInt_int, hcell]
    cases hv : value.eval s with
    | int n => rfl
    | bool b => simp [hv] at hsort
    | real x => simp [hv] at hsort

/-- **A walk over one effect.** If the step spares what the walk has recorded, everything the walk
knows after the effect holds in the state after it. -/
theorem Walk.holds_applyEffect (hstep : e.Step sem s s') (hspares : e.Spares walk s s')
    (h : walk.Holds s) : (walk.applyEffect e).Holds s' := by
  refine ⟨?_, hspares.holds_facts hstep h.facts⟩
  have hkept := hspares.formula h.formula
  cases e with
  | assign target value =>
    cases value with
    | term value =>
      obtain ⟨hsort, hnum, hset⟩ := hstep
      obtain ⟨hloads, hsame⟩ := hspares.recordsOld
      have hvalue := hsame.trans (eval_resolveSelectInTerm h.facts value hloads)
      have htarget : s'.lookup target = value.eval s := by
        rw [hset, State.lookup_set_self hsort]
      refine (Formula.holds_mkAnd _ _).2 ⟨hkept, Formula.holds_eq_of_eval ?_ ?_⟩
      · rw [Term.eval, htarget, hvalue]
      · rw [hvalue, hsort]
        exact hnum
    | predicate value =>
      obtain ⟨hsort, hset⟩ := hstep
      have hsame : value.eval s' = value.eval s := hspares.recordsOld
      have htarget : (s'.lookup target).isTrue = value.eval s' := by
        rw [hsame, hset, State.lookup_set_self (by rw [hsort]; rfl), Value.isTrue_bool]
      have hiff : (Formula.var target).Holds s' ↔ value.Holds s' := by
        rw [Formula.holds_var, htarget, Formula.Holds]
      simp only [Walk.applyEffect, Formula.holds_mkAnd, Formula.holds_mkImplies]
      exact ⟨hkept, hiff.1, hiff.2⟩
  | memoryStore region offset value =>
    cases hk : offset.tryAsConstantInt <;> simpa only [Walk.applyEffect, hk] using hkept
  | call callee effect => by_cases heff : effect = .havocMemory <;> simpa [Walk.applyEffect, heff]
  | indirectCall ptr effect =>
    by_cases heff : effect = .havocMemory <;> simpa [Walk.applyEffect, heff]
  | assume c =>
    obtain ⟨hc, rfl⟩ := hstep
    exact (Formula.holds_mkAnd _ _).2 ⟨hkept, hc⟩
  | obligation c =>
    obtain ⟨hc, rfl⟩ := hstep
    exact (Formula.holds_mkAnd _ _).2 ⟨hkept, hc⟩
  | typeBound c =>
    obtain ⟨-, rfl⟩ := hstep
    exact (Formula.holds_mkAnd _ _).2 ⟨hkept, hspares.recordsOld⟩
  | _ => exact hkept

/-- A run of effects no step of which makes false what the walk over it has recorded. -/
def Effects.SparingRun (sem : Semantics) : List TransferEffect → Walk → State → State → Prop
  | [], _, s, s' => s = s'
  | e :: es, walk, s, s' => ∃ m, e.Step sem s m ∧ e.Spares walk s m ∧
    Effects.SparingRun sem es (walk.applyEffect e) m s'

/-- A walk over a list of effects that are run without disturbing it. -/
theorem Walk.holds_applyEffects (hrun : Effects.SparingRun sem es walk s s') (h : walk.Holds s) :
    (walk.applyEffects es).Holds s' := by
  induction es generalizing walk s with
  | nil => exact hrun ▸ h
  | cons e es ih =>
    obtain ⟨m, hstep, hspares, hrun⟩ := hrun
    exact ih hrun (Walk.holds_applyEffect hstep hspares h)

/-! ### What the walk depends on -/

/-- The facts do not depend on the formula. -/
theorem Walk.facts_applyEffect_congr {walk' : Walk} (h : walk.facts = walk'.facts) :
    (walk.applyEffect e).facts = (walk'.applyEffect e).facts := by
  cases e with
  | assign target value => cases value <;> exact h
  | memoryStore region offset value =>
    cases hk : offset.tryAsConstantInt <;> simp [Walk.applyEffect, hk, h]
  | call callee effect => by_cases heff : effect = .havocMemory <;> simp [Walk.applyEffect, heff, h]
  | indirectCall ptr effect =>
    by_cases heff : effect = .havocMemory <;> simp [Walk.applyEffect, heff, h]
  | havocRegions regions => simp [Walk.applyEffect, h]
  | _ => exact h

theorem Walk.facts_applyEffects_congr {walk' : Walk} (h : walk.facts = walk'.facts) :
    (walk.applyEffects es).facts = (walk'.applyEffects es).facts := by
  induction es generalizing walk walk' with
  | nil => exact h
  | cons e es ih => exact ih (Walk.facts_applyEffect_congr h)

/-- One step of the walk is monotone in the formula it starts from. -/
theorem Walk.formula_applyEffect_mono {walk' : Walk} (hfacts : walk.facts = walk'.facts)
    (h : walk.formula.Holds s → walk'.formula.Holds s) :
    (walk.applyEffect e).formula.Holds s → (walk'.applyEffect e).formula.Holds s := by
  cases e with
  | assign target value =>
    cases value <;> simp only [Walk.applyEffect, Formula.holds_mkAnd, hfacts] <;>
      exact And.imp_left h
  | memoryStore region offset value =>
    cases hk : offset.tryAsConstantInt <;> simpa only [Walk.applyEffect, hk] using h
  | call callee effect => by_cases heff : effect = .havocMemory <;> simpa [Walk.applyEffect, heff]
  | indirectCall ptr effect =>
    by_cases heff : effect = .havocMemory <;> simpa [Walk.applyEffect, heff]
  | assume c | obligation c | typeBound c =>
    simp only [Walk.applyEffect, Formula.holds_mkAnd]
    exact And.imp_left h
  | _ => exact h

/-- The walk is monotone in the formula it starts from. -/
theorem Walk.formula_applyEffects_mono {walk' : Walk} (hfacts : walk.facts = walk'.facts)
    (h : walk.formula.Holds s → walk'.formula.Holds s) :
    (walk.applyEffects es).formula.Holds s → (walk'.applyEffects es).formula.Holds s := by
  induction es generalizing walk walk' with
  | nil => exact h
  | cons e es ih =>
    exact ih (Walk.facts_applyEffect_congr hfacts) (Walk.formula_applyEffect_mono hfacts h)

end Step

end MayMust
