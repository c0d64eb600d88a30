import MayMust.Cfg.Exactness
import MayMust.Cfg.Faithful

/-!
# What effects leave alone

An effect changes only the scalars it writes (`TransferEffect.Step.lookup_eq`), and a step stays a
step when a scalar that the effect neither reads nor writes gets another value
(`TransferEffect.Step.set`).

For the transfer functions of single instructions the backward transformer is exact up to the
values that loads bring in (`TransferFn.OfInstruction.exists_run_of_holds_wp` and
`TransferFn.OfInstruction.exists_set_holds_wp`).
-/

namespace MayMust

open Library

namespace TransferEffect

/-- The effect may change the scalar. -/
def Writes (v : Var) : TransferEffect → Prop
  | .assign target _ | .load target _ | .ptrToInt target _ => v = target
  | _ => False

/-- The leaves of the formulas and terms of an effect. -/
def allLeaves : TransferEffect → List Leaf
  | .store _ value => value.leaves
  | .typeBound condition => condition.leaves
  | e => e.leaves

/-- The effect reads or writes the scalar. -/
def Mentions (e : TransferEffect) (v : Var) : Prop :=
  .boolVar v ∈ e.allLeaves ∨ .termVar v ∈ e.allLeaves ∨ e.Writes v

/-- The effect can stop an execution. -/
def Constrains : TransferEffect → Prop
  | .assume _ | .obligation _ => True
  | _ => False

instance : DecidablePred Constrains
  | .assume _ | .obligation _ => instDecidableTrue
  | .assign .. | .alloca .. | .getElementPtr .. | .load .. | .store .. | .memoryStore ..
  | .pointerStore .. | .pointerLoad .. | .pointerAlias .. | .structFieldGep .. | .typeBound _
  | .nop | .ptrToInt .. | .intToPtr .. | .call .. | .havocRegions _ | .heapAlloc ..
  | .indirectCall .. => instDecidableFalse

end TransferEffect

section Frame

variable {sem : Semantics} {e : TransferEffect} {es : List TransferEffect} {s s' : State}
  {v w : Var}
  {x y : Value}

/-- An effect changes only the scalars it writes. -/
theorem TransferEffect.Step.lookup_eq (h : e.Step sem s s') (hv : ¬ e.Writes v) :
    s'.lookup v = s.lookup v := by
  cases e with
  | assign target value =>
    cases value with
    | term value =>
      obtain ⟨-, -, rfl⟩ := h
      exact State.lookup_set_of_ne hv
    | predicate value =>
      obtain ⟨-, rfl⟩ := h
      exact State.lookup_set_of_ne hv
  | load target source =>
    obtain ⟨x, -, rfl⟩ := h
    exact State.lookup_set_of_ne hv
  | ptrToInt target source =>
    obtain ⟨x, -, rfl⟩ := h
    exact State.lookup_set_of_ne hv
  | store target value =>
    obtain rfl | ⟨r, i, rfl⟩ := h
    · rfl
    · exact State.lookup_setRegion _ _ _ _
  | memoryStore region offset value =>
    obtain rfl := h
    exact State.lookup_setRegion _ _ _ _
  | assume condition | obligation condition | typeBound condition => rw [h.2]
  | call callee effect => rw [State.lookup, State.lookup, h.2.1]
  | indirectCall calleePtr effect => rw [State.lookup, State.lookup, h.1]
  | havocRegions regions => rw [State.lookup, State.lookup, h.1]
  | _ => rw [show s' = s from h]

theorem Effects.Run.lookup_eq_of_not_writes (h : Effects.Run sem es s s')
    (hv : ∀ e ∈ es, ¬ e.Writes v) : s'.lookup v = s.lookup v :=
  Path.rel (R := fun s s' : State ↦ s'.lookup v = s.lookup v) (fun _ ↦ rfl)
    (fun _ _ _ h h' ↦ h'.trans h) (fun e he _ _ hstep ↦ hstep.lookup_eq (hv e he)) h

theorem State.set_comm (h : v ≠ w) : (s.set v x).set w y = (s.set w y).set v x := by
  refine State.ext_lookup ?_ (fun u ↦ ?_) fun r i ↦ by simp only [State.memory_set]
  · have hx (t : State) (u : Var) (z : Value) : t.SameUndefined (t.set u z) :=
      State.sameUndefined_set t u z
    exact ((hx _ w y).symm.trans (hx s v x).symm).trans ((hx s w y).trans (hx _ v x))
  · rcases v with ⟨v, _ | _ | _⟩ <;> rcases w with ⟨w, _ | _ | _⟩ <;> rcases u with
      ⟨u, _ | _ | _⟩ <;>
      cases x <;> cases y <;> simp [State.lookup, State.set, Function.update_apply] <;> grind

/-- Leaves other than a scalar read the same when that scalar changes. -/
theorem Leaf.same_set {l : Leaf} (hbool : l ≠ .boolVar v) (hterm : l ≠ .termVar v) :
    l.Same (s.set v x) s := by
  cases l with
  | boolVar u => exact State.lookup_set_of_ne fun h ↦ hbool (h ▸ rfl)
  | termVar u => exact State.lookup_set_of_ne fun h ↦ hterm (h ▸ rfl)
  | region r => exact congrFun (State.memory_set s v x) r

theorem not_mem_leaves_of_not_mentions {l : Leaf} (hv : ¬ e.Mentions v) (hl : l ∈ e.allLeaves) :
    l.Same (s.set v x) s :=
  Leaf.same_set (fun h ↦ hv (.inl (h ▸ hl))) fun h ↦ hv (.inr (.inl (h ▸ hl)))

theorem State.setRegion_set {r : String} {m : ℤ → ℤ} :
    (s.set v x).setRegion r m = (s.setRegion r m).set v x := by
  rcases v with ⟨v, _ | _ | _⟩ <;> cases x <;> rfl

theorem State.scalars_set_congr (h : s'.scalars = s.scalars) :
    (s'.set v x).scalars = (s.set v x).scalars := by
  rcases v with ⟨v, _ | _ | _⟩ <;> cases x <;> simp only [State.set, h]

/-- A step stays a step when a scalar that the effect does not mention gets another value. -/
theorem TransferEffect.Step.set (h : e.Step .unknownCallees s s') (hv : ¬ e.Mentions v) :
    e.Step .unknownCallees (s.set v x) (s'.set v x) := by
  have hundef : (s.set v x).SameUndefined s := (State.sameUndefined_set s v x).symm
  have hwrites : ¬ e.Writes v := fun h ↦ hv (.inr (.inr h))
  have hterm {t : Term} (ht : ∀ l ∈ t.leaves, l ∈ e.allLeaves) : t.eval (s.set v x) = t.eval s :=
    Term.eval_congr hundef fun l hl ↦ not_mem_leaves_of_not_mentions hv (ht l hl)
  have hformula {φ : Formula} (hφ : ∀ l ∈ φ.leaves, l ∈ e.allLeaves) :
      φ.eval (s.set v x) = φ.eval s :=
    Formula.eval_congr hundef fun l hl ↦ not_mem_leaves_of_not_mentions hv (hφ l hl)
  cases e with
  | assign target value =>
    cases value with
    | term value =>
      obtain ⟨hsort, hbool, rfl⟩ := h
      have heval := hterm (t := value) fun _ hl ↦ hl
      exact ⟨heval ▸ hsort, hbool, by rw [heval]; exact (State.set_comm hwrites).symm⟩
    | predicate value =>
      obtain ⟨hbool, rfl⟩ := h
      have heval := hformula (φ := value) fun _ hl ↦ hl
      exact ⟨hbool, by rw [heval]; exact (State.set_comm hwrites).symm⟩
  | load target source | ptrToInt target source =>
    obtain ⟨y, hy, rfl⟩ := h
    exact ⟨y, hy, (State.set_comm hwrites).symm⟩
  | store target value =>
    have heval := hterm (t := value) fun _ hl ↦ hl
    obtain rfl | ⟨r, i, rfl⟩ := h
    · exact .inl rfl
    · refine .inr ⟨r, i, ?_⟩
      rw [heval, State.memory_set, State.setRegion_set]
  | memoryStore region offset value =>
    obtain rfl := h
    have hoffset := hterm (t := offset) fun _ hl ↦ List.mem_append_left _ hl
    have hvalue := hterm (t := value) fun _ hl ↦ List.mem_append_right _ hl
    rw [TransferEffect.Step, hoffset, hvalue, State.memory_set, State.setRegion_set]
  | assume condition | obligation condition =>
    obtain ⟨hcondition, rfl⟩ := h
    have heval := hformula (φ := condition) fun _ hl ↦ hl
    exact ⟨heval.trans hcondition, rfl⟩
  | typeBound condition =>
    obtain ⟨-, rfl⟩ := h
    exact ⟨False.elim, rfl⟩
  | call callee effect =>
    refine ⟨trivial, State.scalars_set_congr h.2.1, fun heffect ↦ ?_⟩
    rw [State.memory_set, State.memory_set, h.2.2 heffect]
  | indirectCall calleePtr effect =>
    refine ⟨State.scalars_set_congr h.1, fun heffect ↦ ?_⟩
    rw [State.memory_set, State.memory_set, h.2 heffect]
  | havocRegions regions =>
    refine ⟨State.scalars_set_congr h.1, fun r hr ↦ ?_⟩
    rw [State.memory_set, State.memory_set, h.2 r hr]
  | _ =>
    obtain rfl : s' = s := h
    rfl

theorem Effects.Run.set (h : Effects.Run .unknownCallees es s s') (hv : ∀ e ∈ es, ¬ e.Mentions v) :
    Effects.Run .unknownCallees es (s.set v x) (s'.set v x) := by
  induction es generalizing s with
  | nil => exact congrArg (·.set v x) h
  | cons e es ih =>
    obtain ⟨m, hstep, hrun⟩ := h
    rw [List.forall_mem_cons] at hv
    exact ⟨m.set v x, hstep.set hv.1, ih hrun hv.2⟩

end Frame

/-! ### Instructions -/

/-- The transfer functions of instructions: assignments, stores and facts whose meaning the
backward transformer knows, or one effect that it ignores. -/
inductive TransferFn.OfInstruction : TransferFn → Prop
  | known {effects : List TransferEffect}
      (accounted : ∀ e ∈ effects, ¬ e.Ignored ∧ ¬ e.Havocs)
        (sorted : ∀ e ∈ effects, ∀ s, e.SortedIn s)
      (plain : ∀ b p, .assign b (.predicate p) ∈ effects → ∀ e ∈ effects, ¬ e.ReadsInTerm b) :
      OfInstruction ⟨effects⟩
  | ignored {effect : TransferEffect} (ignored : effect.Ignored) : OfInstruction ⟨[effect]⟩

/-- A formula that reads scalars only, and none of them in a term. -/
def Formula.Propositional (φ : Formula) : Prop := φ.ReadsWithin (fun _ ↦ False) fun _ ↦ False

section Instructions

variable {e : TransferEffect} {es : List TransferEffect} {t : TransferFn} {φ : Formula}
  {s s' : State}
  {v : Var}

theorem Formula.Propositional.leaf (h : φ.Propositional) {l : Leaf} (hl : l ∈ φ.leaves) :
    ∃ v, l = .boolVar v ∨ l = .termVar v := by
  cases l with
  | boolVar v => exact ⟨v, .inl rfl⟩
  | termVar v => exact ⟨v, .inr rfl⟩
  | region r => exact (h.regions _ hl).elim

/-- Propositional formulas do not look at memory. -/
theorem Formula.Propositional.holds_iff (h : φ.Propositional) (hs : s'.scalars = s.scalars) :
    φ.Holds s' ↔ φ.Holds s := by
  refine Formula.holds_congr (State.SameUndefined.of_scalars_eq hs).symm fun l hl ↦ ?_
  obtain ⟨v, rfl | rfl⟩ := h.leaf hl
  · exact congrArg (fun σ ↦ State.lookup ⟨σ, s.memory⟩ v) hs
  · exact congrArg (fun σ ↦ State.lookup ⟨σ, s.memory⟩ v) hs

/-- A step of a sorted effect that the transformer accounts for is its replay. -/
theorem TransferEffect.step_iff_replay (hi : ¬ e.Ignored) (hh : ¬ e.Havocs) (hsort : e.SortedIn s) :
    e.Step .unknownCallees s s' ↔ e.Enabled s ∧ s' = e.replay s := by
  refine ⟨fun h ↦ ⟨h.enabled, h.eq_replay hi hh⟩, ?_⟩
  rintro ⟨henabled, rfl⟩
  cases e with
  | assign target value =>
    cases value with
    | term value => exact ⟨hsort.1, hsort.2, rfl⟩
    | predicate value => exact ⟨hsort, rfl⟩
  | load | ptrToInt | store | call | indirectCall => exact absurd trivial hi
  | havocRegions regions => exact absurd trivial hh
  | assume condition | obligation condition => exact ⟨henabled, rfl⟩
  | typeBound condition => exact ⟨False.elim, rfl⟩
  | _ => rfl

theorem holds_wp_known_iff {K : Var → Prop} (accounted : ∀ e ∈ es, ¬ e.Ignored ∧ ¬ e.Havocs)
    (sorted : ∀ e ∈ es, ∀ s, e.SortedIn s) (hK : ∀ b p, .assign b (.predicate p) ∈ es → ¬ K b)
    (hes : ∀ e ∈ es, ∀ v, e.ReadsInTerm v → K v) (hφ : φ.TermReads K) :
    (TransferFn.wp ⟨es⟩ φ).Holds s ↔ ∃ s', Effects.Run .unknownCallees es s s' ∧ φ.Holds s' := by
  induction es generalizing s with
  | nil => simp [Effects.Run]
  | cons e es ih =>
    rw [List.forall_mem_cons] at accounted sorted hes
    have hplain : e.PlainFor (TransferFn.wp ⟨es⟩ φ) := by
      rintro b p rfl hread
      exact hK b p List.mem_cons_self (termReads_wp hφ hes.2 b hread)
    rw [TransferFn.wp_cons, holds_wpOne_iff accounted.1.2 (sorted.1 s) hplain,
      ih accounted.2 sorted.2 (fun b p hb ↦ hK b p (List.mem_cons_of_mem _ hb)) hes.2]
    constructor
    · rintro ⟨henabled, s', hrun, hs'⟩
      exact ⟨s', ⟨e.replay s, (e.step_iff_replay accounted.1.1 accounted.1.2 (sorted.1 s)).2
        ⟨henabled, rfl⟩, hrun⟩, hs'⟩
    · rintro ⟨s', ⟨m, hstep, hrun⟩, hs'⟩
      obtain ⟨henabled, rfl⟩ :=
        (e.step_iff_replay accounted.1.1 accounted.1.2 (sorted.1 s)).1 hstep
      exact ⟨henabled, s', hrun, hs'⟩

/-- On effects of the known kind the transformer is exact for propositional formulas. -/
theorem Formula.Propositional.holds_wp_iff (hφ : φ.Propositional)
    (accounted : ∀ e ∈ es, ¬ e.Ignored ∧ ¬ e.Havocs) (sorted : ∀ e ∈ es, ∀ s, e.SortedIn s)
    (plain : ∀ b p, .assign b (.predicate p) ∈ es → ∀ e ∈ es, ¬ e.ReadsInTerm b) :
    (TransferFn.wp ⟨es⟩ φ).Holds s ↔ ∃ s', Effects.Run .unknownCallees es s s' ∧ φ.Holds s' := by
  let K : Var → Prop := fun v ↦ ∃ e ∈ es, e.ReadsInTerm v
  refine holds_wp_known_iff (K := K) accounted sorted ?_ (fun e he v hv ↦ ⟨e, he, hv⟩) ?_
  · rintro b p hb ⟨e, he, hread⟩
    exact plain b p hb e he hread
  · exact fun v hv ↦ (hφ.terms v hv).elim

/-- The transformer passes an ignored effect by, and the effect may indeed do nothing. -/
theorem TransferEffect.Ignored.step_self (h : e.Ignored) : e.Step .unknownCallees s s := by
  cases e with
  | load target source | ptrToInt target source =>
    exact ⟨s.lookup target, State.sort_lookup s target, (State.set_lookup_self s target).symm⟩
  | store target value => exact .inl rfl
  | call callee effect => exact ⟨trivial, rfl, fun _ ↦ rfl⟩
  | indirectCall calleePtr effect => exact ⟨rfl, fun _ ↦ rfl⟩
  | _ => exact absurd h (by simp [TransferEffect.Ignored])

theorem TransferEffect.Ignored.wpOne_eq (h : e.Ignored) : wpOne e φ = φ := by
  cases e <;> first | rfl | exact absurd h (by simp [TransferEffect.Ignored])

/-- An ignored effect changes one scalar that it writes, or no scalar. -/
theorem TransferEffect.Ignored.scalars_eq (h : e.Ignored) (hstep : e.Step .unknownCallees s s') :
    s'.scalars = s.scalars ∨ ∃ v x, e.Writes v ∧ s' = s.set v x := by
  cases e with
  | load target source | ptrToInt target source =>
    obtain ⟨x, -, rfl⟩ := hstep
    exact .inr ⟨target, x, rfl, rfl⟩
  | store target value =>
    obtain rfl | ⟨r, i, rfl⟩ := hstep
    · exact .inl rfl
    · exact .inl rfl
  | call callee effect => exact .inl hstep.2.1
  | indirectCall calleePtr effect => exact .inl hstep.1
  | _ => exact absurd h (by simp [TransferEffect.Ignored])

namespace TransferFn.OfInstruction

/-- An instruction without assumptions never stops an execution. -/
theorem exists_run (h : t.OfInstruction) (hc : ∀ e ∈ t.effects, ¬ e.Constrains) (s : State) :
    ∃ s', t.Run .unknownCallees s s' := by
  cases h with
  | known accounted sorted plain =>
    refine Path.exists_of_total (fun e he s ↦ ⟨e.replay s, ?_⟩) s
    refine (e.step_iff_replay (accounted e he).1 (accounted e he).2 (sorted e he s)).2 ⟨?_, rfl⟩
    have hnot := hc e he
    cases e with
    | assume condition | obligation condition => exact absurd trivial hnot
    | _ => trivial
  | ignored ignored => exact ⟨s, s, ignored.step_self, rfl⟩

/-- Where the computed formula holds, the instruction runs to where the postcondition does. -/
theorem exists_run_of_holds_wp (h : t.OfInstruction) (hφ : φ.Propositional)
    (hwp : (t.wp φ).Holds s) :
    ∃ s', t.Run .unknownCallees s s' ∧ φ.Holds s' := by
  cases h with
  | known accounted sorted plain => exact (hφ.holds_wp_iff accounted sorted plain).1 hwp
  | ignored ignored =>
    rw [TransferFn.wp_cons, TransferFn.wp_nil, ignored.wpOne_eq] at hwp
    exact ⟨s, ⟨s, ignored.step_self, rfl⟩, hwp⟩

/-- Where an instruction runs to the postcondition, the computed formula holds, perhaps only once
the scalar that the instruction brings in has its value from the start. -/
theorem exists_set_holds_wp (h : t.OfInstruction) (hφ : φ.Propositional)
    (hrun : t.Run .unknownCallees s s') (hs' : φ.Holds s') :
    (t.wp φ).Holds s ∨ ∃ v x, (∃ e ∈ t.effects, e.Writes v) ∧ (t.wp φ).Holds (s.set v x) := by
  cases h with
  | known accounted sorted plain =>
    exact .inl ((hφ.holds_wp_iff accounted sorted plain).2 ⟨s', hrun, hs'⟩)
  | @ignored e ignored =>
    rw [TransferFn.wp_cons, TransferFn.wp_nil, ignored.wpOne_eq]
    obtain ⟨m, hstep, rfl⟩ := hrun
    rcases ignored.scalars_eq hstep with hscalars | ⟨v, x, hwrites, rfl⟩
    · exact .inl ((hφ.holds_iff hscalars).1 hs')
    · exact .inr ⟨v, x, ⟨e, List.mem_singleton.2 rfl, hwrites⟩, hs'⟩

end TransferFn.OfInstruction

end Instructions

end MayMust
