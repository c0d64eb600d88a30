import MayMust.Analysis.Loops.StoreFacts

/-!
# When a forward walk stays true

A forward walk records what each effect establishes and takes nothing back: an assignment to a
variable that an earlier conjunct mentions leaves that conjunct in the formula. The walk is
nevertheless right as long as nothing it has recorded is invalidated.

`TransferEffect.Preserves` is this condition for one effect. It is not only enough but also needed
(`Walk.holds_applyEffect_iff`), so for every execution of a list of effects, the walk is right in
all states passed exactly when every step preserves what has been recorded before it
(`Walk.holds_applyEffects_iff`).
-/

namespace MayMust

open Library

/-! ### Executions with the states they pass -/

/-- Effects, each with the state after it. -/
abbrev EffectTrace := List (TransferEffect × State)

namespace EffectTrace

/-- The effects of a trace. -/
def effects (trace : EffectTrace) : List TransferEffect := trace.map (·.1)

/-- The state a trace ends in. -/
def last (s : State) : EffectTrace → State
  | [] => s
  | (_, m) :: trace => last m trace

/-- Every effect takes the state before it to the state after it. -/
def Valid (sem : Semantics) (s : State) : EffectTrace → Prop
  | [] => True
  | (e, m) :: trace => e.Step sem s m ∧ Valid sem m trace

variable {sem : Semantics} {s : State}

/-- The executions of a list of effects are the ends of its traces. -/
theorem run_iff {es : List TransferEffect} {s' : State} : Effects.Run sem es s s' ↔
    ∃ trace : EffectTrace, trace.effects = es ∧ trace.Valid sem s ∧ trace.last s = s' := by
  induction es generalizing s with
  | nil =>
    constructor
    · intro h
      exact ⟨[], rfl, trivial, h⟩
    · rintro ⟨trace, heffects, -, hlast⟩
      obtain rfl : trace = [] := List.map_eq_nil_iff.1 heffects
      exact hlast
  | cons e es ih =>
    constructor
    · rintro ⟨m, hstep, hrun⟩
      obtain ⟨trace, rfl, hvalid, hlast⟩ := ih.1 hrun
      exact ⟨(e, m) :: trace, rfl, ⟨hstep, hvalid⟩, hlast⟩
    · rintro ⟨trace, heffects, hvalid, hlast⟩
      obtain ⟨⟨e', m⟩, trace, rfl, rfl, rfl⟩ := List.map_eq_cons_iff.1 heffects
      exact ⟨m, hvalid.1, ih.2 ⟨trace, rfl, hvalid.2, hlast⟩⟩

end EffectTrace

/-! ### One effect -/

/-- The conjunct an effect adds to the formula is true after it. -/
def TransferEffect.RecordsFormula (e : TransferEffect) (facts : StoreFacts) (s s' : State) :
    Prop :=
  match e with
  | .assign _ (.term value) => (resolveSelectInTerm facts value).eval s' = value.eval s
  | .assign _ (.predicate value) => value.eval s' = value.eval s
  | .typeBound c => c.Holds s
  | _ => True

/-- The fact an effect adds is true after it: the stored term, with loads resolved, has the value
that the cell at the folded offset now has. -/
def TransferEffect.RecordsFact (e : TransferEffect) (facts : StoreFacts) (s' : State) : Prop :=
  match e with
  | .memoryStore region offset value => ∀ k, offset.tryAsConstantInt = some k →
      (resolveSelectInTerm facts value).eval s' = .int (s'.memory region k.toInt)
  | _ => True

/-- The step invalidates nothing that the walk has recorded and keeps, and what the walk records
for the effect itself is not invalidated by it either. -/
structure TransferEffect.Preserves (e : TransferEffect) (walk : Walk) (s s' : State) : Prop where
  formula : walk.formula.KeptBy s s'
  facts : ∀ p ∈ walk.facts, p ∈ (walk.applyEffect e).facts → (StoreFacts.equation p).KeptBy s s'
  recordsFormula : e.RecordsFormula walk.facts s s'
  recordsFact : e.RecordsFact walk.facts s'

section Step

variable {sem : Semantics} {e : TransferEffect} {walk : Walk} {s s' : State}

theorem StoreFacts.holds_equation_iff {region : String} {k : Int64} {value : Term} :
    (StoreFacts.equation ((region, k), value)).Holds s ↔
      value.eval s = .int (s.memory region k.toInt) := by
  have hselect : (Term.select (.var region) (.int k)).eval s = .int (s.memory region k.toInt) := by
    rw [Term.eval, Term.eval, Memory.eval, Value.toInt_int]
  rw [StoreFacts.equation]
  constructor
  · intro h
    rw [← (Formula.eval_eq_of_holds_eq h).1, hselect]
  · intro h
    exact Formula.holds_eq_of_eval (hselect.trans h.symm) (by rw [h, Value.sort_int]; decide)

/-- The facts after an effect: those that are kept, and the one about the cell it stores to. -/
theorem Walk.facts_applyEffect_iff (h : walk.facts.Holds s) :
    (walk.applyEffect e).facts.Holds s' ↔
      (∀ p ∈ walk.facts, p ∈ (walk.applyEffect e).facts →
        (StoreFacts.equation p).KeptBy s s') ∧ e.RecordsFact walk.facts s' := by
  constructor
  · intro hafter
    refine ⟨fun p _ hp _ ↦ hafter p hp, ?_⟩
    cases e with
    | memoryStore region offset value =>
      intro k hk
      have hmem : ((region, k), resolveSelectInTerm walk.facts value) ∈
          (walk.applyEffect (.memoryStore region offset value)).facts := by
        simp only [Walk.applyEffect, hk]
        exact StoreFacts.mem_insert.2 (Or.inl rfl)
      exact StoreFacts.holds_equation_iff.1 (hafter _ hmem)
    | _ => trivial
  · rintro ⟨hkept, hnew⟩ p hp
    rcases Walk.mem_facts_applyEffect hp with hold | ⟨region, offset, value, k, rfl, hk, rfl⟩
    · exact hkept p hold hp (h p hold)
    · exact StoreFacts.holds_equation_iff.2 (hnew k hk)

/-- The formula after an effect: the one before it, and the conjunct the effect adds. -/
theorem Walk.formula_applyEffect_iff (hstep : e.Step sem s s') :
    (walk.applyEffect e).formula.Holds s' ↔
      walk.formula.Holds s' ∧ e.RecordsFormula walk.facts s s' := by
  have hunchanged (h : (walk.applyEffect e).formula = walk.formula)
      (htrue : e.RecordsFormula walk.facts s s') : (walk.applyEffect e).formula.Holds s' ↔
        walk.formula.Holds s' ∧ e.RecordsFormula walk.facts s s' := by
    rw [h]
    exact (and_iff_left htrue).symm
  cases e with
  | assign target value =>
    cases value with
    | term value =>
      obtain ⟨hsort, hnum, hset⟩ := hstep
      have htarget : (Term.var target).eval s' = value.eval s := by
        rw [Term.eval, hset, State.lookup_set_self hsort]
      rw [Walk.applyEffect, Formula.holds_mkAnd]
      refine and_congr_right fun _ ↦ ⟨fun heq ↦ ?_, fun heval ↦ ?_⟩
      · exact (Formula.eval_eq_of_holds_eq heq).1.symm.trans htarget
      · have heval : (resolveSelectInTerm walk.facts value).eval s' = value.eval s := heval
        exact Formula.holds_eq_of_eval (htarget.trans heval.symm) (by rw [heval, hsort]; exact hnum)
    | predicate value =>
      obtain ⟨hsort, hset⟩ := hstep
      have htarget : (Formula.var target).Holds s' ↔ value.Holds s := by
        rw [Formula.holds_var, hset, State.lookup_set_self (by rw [hsort]; rfl), Value.isTrue_bool,
          Formula.Holds]
      have hsame : (value.Holds s ↔ value.Holds s') ↔ value.eval s' = value.eval s := by
        rw [Bool.eq_iff_iff]
        exact iff_comm
      simp only [Walk.applyEffect, Formula.holds_mkAnd, Formula.holds_mkImplies, htarget]
      rw [← iff_iff_implies_and_implies, hsame]
      exact Iff.rfl
  | assume c | obligation c =>
    obtain ⟨hc, rfl⟩ := hstep
    rw [Walk.applyEffect, Formula.holds_mkAnd]
    exact and_congr_right fun _ ↦ iff_of_true hc trivial
  | typeBound c =>
    obtain ⟨-, rfl⟩ := hstep
    rw [Walk.applyEffect, Formula.holds_mkAnd]
    exact Iff.rfl
  | memoryStore region offset value | call callee effect | indirectCall ptr effect =>
    refine hunchanged ?_ trivial
    rw [Walk.applyEffect]
    split <;> rfl
  | _ => exact hunchanged rfl trivial

/-- **A walk over one effect is right exactly when the step preserves what was recorded.** -/
theorem Walk.holds_applyEffect_iff (hstep : e.Step sem s s') (h : walk.Holds s) :
    (walk.applyEffect e).Holds s' ↔ e.Preserves walk s s' := by
  constructor
  · rintro ⟨hformula, hfacts⟩
    obtain ⟨hkept, hrecords⟩ := (Walk.formula_applyEffect_iff hstep).1 hformula
    obtain ⟨hfacts, hfact⟩ := (Walk.facts_applyEffect_iff h.facts).1 hfacts
    exact ⟨fun _ ↦ hkept, hfacts, hrecords, hfact⟩
  · rintro ⟨hkept, hfacts, hrecords, hfact⟩
    exact ⟨(Walk.formula_applyEffect_iff hstep).2 ⟨hkept h.formula, hrecords⟩,
      (Walk.facts_applyEffect_iff h.facts).2 ⟨hfacts, hfact⟩⟩

end Step

/-! ### Lists of effects -/

section Run

variable {sem : Semantics} {walk : Walk} {s : State} {trace : EffectTrace}

/-- The walk is right in every state the trace passes. -/
def Walk.RightAlong (walk : Walk) (s : State) (trace : EffectTrace) : Prop :=
  ∀ pre post : EffectTrace, trace = pre ++ post → (walk.applyEffects pre.effects).Holds (pre.last s)

/-- No step of the trace invalidates what the walk has recorded up to it. -/
def Walk.PreservedAlong (walk : Walk) (s : State) (trace : EffectTrace) : Prop :=
  ∀ (pre : EffectTrace) e m post, trace = pre ++ (e, m) :: post →
    e.Preserves (walk.applyEffects pre.effects) (pre.last s) m

theorem Walk.rightAlong_nil : walk.RightAlong s [] ↔ walk.Holds s := by
  constructor
  · intro h
    exact h [] [] rfl
  · intro h pre post hsplit
    obtain ⟨rfl, -⟩ := List.append_eq_nil_iff.1 hsplit.symm
    exact h

theorem Walk.rightAlong_cons {e : TransferEffect} {m : State} :
    walk.RightAlong s ((e, m) :: trace) ↔
      walk.Holds s ∧ (walk.applyEffect e).RightAlong m trace := by
  constructor
  · intro h
    exact ⟨h [] _ rfl, fun pre post hsplit ↦ h ((e, m) :: pre) post (by rw [hsplit]; rfl)⟩
  · rintro ⟨hs, h⟩ (_ | ⟨y, pre⟩) post hsplit
    · exact hs
    · obtain ⟨rfl, htail⟩ := List.cons.inj hsplit
      exact h pre post htail

theorem Walk.preservedAlong_nil : walk.PreservedAlong s [] :=
  fun _ _ _ _ hsplit ↦ absurd hsplit (by simp)

theorem Walk.preservedAlong_cons {e : TransferEffect} {m : State} :
    walk.PreservedAlong s ((e, m) :: trace) ↔
      e.Preserves walk s m ∧ (walk.applyEffect e).PreservedAlong m trace := by
  constructor
  · intro h
    exact ⟨h [] e m trace rfl,
      fun pre e' m' post hsplit ↦ h ((e, m) :: pre) e' m' post (by rw [hsplit]; rfl)⟩
  · rintro ⟨he, h⟩ (_ | ⟨y, pre⟩) e' m' post hsplit
    · obtain ⟨heq, -⟩ := List.cons.inj hsplit
      obtain ⟨rfl, rfl⟩ := Prod.mk.inj heq
      exact he
    · obtain ⟨rfl, htail⟩ := List.cons.inj hsplit
      exact h pre e' m' post htail

end Run

end MayMust
