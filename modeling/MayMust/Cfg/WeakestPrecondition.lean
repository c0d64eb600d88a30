import MayMust.Cfg.Effect
import MayMust.Formula.Substitution

/-!
# The backward transformer

`TransferFn::wp` of the source: effects are processed from last to first, assignments and
resolved stores substitute, assumes and obligations conjoin, `HavocRegions` drops conjuncts and
every other effect is transparent.

The transformer is compared with the concrete steps in one place.

* `TransferEffect.replay` is the state an effect leads to when everything the transformer
  ignores does nothing, and `TransferEffect.enabled` is the condition it conjoins.
  `holds_wpOne_iff` says that `wpOne` is evaluation in the replayed state.
* `holds_wpOne_of_quiet` is the over-approximating direction, for steps the transformer accounts
  for (`TransferEffect.Accounted`), and `holds_wp_of_quiet` is the same for effect lists.
-/

namespace MayMust

open Library

/-- `formula_mentions_region`: the region is among the leaves. -/
def formulaMentionsRegion (region : String) (φ : Formula) : Bool :=
  decide (Leaf.region region ∈ φ.leaves)

/-- `havoc_region_in_formula`: at a conjunction, drop the conjuncts that mention the region; any
other formula that mentions it becomes `true`. -/
def havocRegionInFormula (region : String) (φ : Formula) : Formula :=
  if !formulaMentionsRegion region φ then φ
  else
    match φ with
    | .and items => Formula.andMany (items.filter fun item ↦ !formulaMentionsRegion region item)
    | _ => .tru

/-- `wp_one`. -/
def wpOne : TransferEffect → Formula → Formula
  | .havocRegions regions, post =>
    regions.foldl (fun result region ↦ havocRegionInFormula region result) post
  | .assign target (.term value), post => substituteVarInFormula target value post
  | .assign target (.predicate value), post => substituteBoolVarInFormula target value post
  | .assume condition, post => Formula.mkAnd condition post
  | .typeBound _, post => post
  | .obligation condition, post => Formula.mkAnd condition post
  | .memoryStore region offset value, post =>
    substituteMemoryVarInFormula region (.store (.var region) offset value) post
  | .nop, post | .alloca .., post | .heapAlloc .., post | .getElementPtr .., post
  | .structFieldGep .., post | .pointerStore .., post | .pointerLoad .., post
  | .pointerAlias .., post | .call .., post | .indirectCall .., post | .load .., post
  | .store .., post | .ptrToInt .., post | .intToPtr .., post => post

/-- `wp_one_inductive`: as `wp_one`, but an assume contributes an implication. -/
def wpOneInductive : TransferEffect → Formula → Formula
  | .assume condition, post => Formula.mkImplies condition post
  | effect, post => wpOne effect post

namespace TransferFn

/-- `TransferFn::wp`. -/
def wp (t : TransferFn) (post : Formula) : Formula :=
  t.effects.reverse.foldl (fun acc effect ↦ wpOne effect acc) post

/-- `TransferFn::wp_inductive`. -/
def wpInductive (t : TransferFn) (post : Formula) : Formula :=
  t.effects.reverse.foldl (fun acc effect ↦ wpOneInductive effect acc) post

theorem wp_eq_foldr (t : TransferFn) (post : Formula) : t.wp post = t.effects.foldr wpOne post := by
  simp [wp]

theorem wpInductive_eq_foldr (t : TransferFn) (post : Formula) :
    t.wpInductive post = t.effects.foldr wpOneInductive post := by
  simp [wpInductive]

@[simp] theorem wp_nil (post : Formula) : wp ⟨[]⟩ post = post := rfl

@[simp] theorem wp_cons (e : TransferEffect) (es : List TransferEffect) (post : Formula) :
    wp ⟨e :: es⟩ post = wpOne e (wp ⟨es⟩ post) := by
  simp [wp_eq_foldr]

@[simp] theorem wpInductive_cons (e : TransferEffect) (es : List TransferEffect) (post : Formula) :
    wpInductive ⟨e :: es⟩ post = wpOneInductive e (wpInductive ⟨es⟩ post) := by
  simp [wpInductive_eq_foldr]

example : wp ⟨[.assign (.int "x") (.term (.int 1))]⟩ (.eq (.var (.int "x")) (.int 3)) =
    .eq (.int 1) (.int 3) := by decide

end TransferFn

/-! ### What the transformer reads -/

/-- The leaves an effect can put into the formula the transformer computes. -/
def TransferEffect.leaves : TransferEffect → List Leaf
  | .assign _ (.term value) => value.leaves
  | .assign _ (.predicate value) => value.leaves
  | .memoryStore _ offset value => offset.leaves ++ value.leaves
  | .assume condition | .obligation condition => condition.leaves
  | _ => []

/-- The leaves an effect can put below a term of the formula the transformer computes. -/
def TransferEffect.termLeaves : TransferEffect → List Leaf
  | .assign _ (.term value) => value.leaves
  | .assign _ (.predicate value) => value.termLeaves
  | .memoryStore _ offset value => offset.leaves ++ value.leaves
  | .assume condition | .obligation condition => condition.termLeaves
  | _ => []

section Leaves

variable {Q : Leaf → Prop} {φ : Formula}

theorem forall_havocRegionInFormula {P : Formula → Prop} (hP : Hereditary P) {r : String}
    (h : P φ) : P (havocRegionInFormula r φ) := by
  unfold havocRegionInFormula
  split
  · exact h
  split
  · exact hP.andMany fun ψ hψ ↦ (hP.and_iff _).1 h ψ (List.mem_of_mem_filter hψ)
  · exact hP.tru

theorem forall_foldl_havocRegionInFormula {P : Formula → Prop} (hP : Hereditary P)
    (regions : List String) (h : P φ) :
    P (regions.foldl (fun result region ↦ havocRegionInFormula region result) φ) := by
  induction regions generalizing φ with
  | nil => exact h
  | cons r rest ih => exact ih (forall_havocRegionInFormula hP h)

theorem forall_leavesAt_replaceVar {x : Var} {t : Term} {l : Leaf} (hl : Q l)
    (ht : ∀ y ∈ t.leaves, Q y) : ∀ y ∈ (LeafMap.replaceVar x t).leavesAt l, Q y := by
  cases l with
  | boolVar v => simpa [LeafMap.leavesAt, LeafMap.replaceVar, Formula.leaves] using hl
  | termVar v =>
    by_cases hv : v = x
    · simpa [LeafMap.leavesAt, LeafMap.replaceVar, hv] using ht
    · simpa [LeafMap.leavesAt, LeafMap.replaceVar, hv, Term.leaves] using hl
  | region name => simpa [LeafMap.leavesAt, LeafMap.replaceVar, Memory.leaves] using hl

theorem forall_leavesAt_store {r : String} {i v : Term} {l : Leaf} (hl : Q l)
    (hi : ∀ y ∈ i.leaves ++ v.leaves, Q y) :
    ∀ y ∈ (LeafMap.replaceRegion r (.store (.var r) i v)).leavesAt l, Q y := by
  cases l with
  | boolVar v => simpa [LeafMap.leavesAt, LeafMap.replaceRegion, Formula.leaves] using hl
  | termVar v => simpa [LeafMap.leavesAt, LeafMap.replaceRegion, Term.leaves] using hl
  | region name =>
    by_cases hn : name = r
    · subst hn
      simp only [LeafMap.leavesAt, LeafMap.replaceRegion, if_true, Memory.leaves, List.cons_append]
      exact List.forall_mem_cons.2 ⟨hl, hi⟩
    · simpa [LeafMap.leavesAt, LeafMap.replaceRegion, hn, Memory.leaves] using hl

/-- What terms of the computed formula read comes from the postcondition or the effect. -/
theorem forall_termLeaves_wpOne {e : TransferEffect} (hφ : ∀ x ∈ φ.termLeaves, Q x)
    (he : ∀ x ∈ e.termLeaves, Q x) : ∀ x ∈ (wpOne e φ).termLeaves, Q x := by
  cases e with
  | assign target value =>
    cases value with
    | term value =>
      exact Formula.forall_termLeaves_rebuild (fun _ ↦ rfl) φ fun l hl ↦
        forall_leavesAt_replaceVar (hφ l hl) he
    | predicate value => exact (hereditary_termLeaves Q).substituteBoolVar he φ hφ
  | memoryStore region offset value =>
    exact Formula.forall_termLeaves_rebuild (fun _ ↦ rfl) φ fun l hl ↦
      forall_leavesAt_store (hφ l hl) he
  | havocRegions regions =>
    exact forall_foldl_havocRegionInFormula (hereditary_termLeaves Q) regions hφ
  | assume condition => exact (hereditary_termLeaves Q).mkAnd he hφ
  | obligation condition => exact (hereditary_termLeaves Q).mkAnd he hφ
  | _ => exact hφ

theorem forall_termLeaves_wp {es : List TransferEffect} (hφ : ∀ x ∈ φ.termLeaves, Q x)
    (hes : ∀ e ∈ es, ∀ x ∈ e.termLeaves, Q x) : ∀ x ∈ (TransferFn.wp ⟨es⟩ φ).termLeaves, Q x := by
  induction es with
  | nil => exact hφ
  | cons e es ih =>
    rw [List.forall_mem_cons] at hes
    rw [TransferFn.wp_cons]
    exact forall_termLeaves_wpOne (ih hes.2) hes.1

/-- What the computed formula reads comes from the postcondition or the effect. -/
theorem forall_leaves_wpOne {e : TransferEffect} (hφ : ∀ x ∈ φ.leaves, Q x)
    (he : ∀ x ∈ e.leaves, Q x) : ∀ x ∈ (wpOne e φ).leaves, Q x := by
  cases e with
  | assign target value =>
    cases value with
    | term value =>
      exact Formula.forall_leaves_rebuild φ fun l hl ↦ forall_leavesAt_replaceVar (hφ l hl) he
    | predicate value => exact (hereditary_leaves Q).substituteBoolVar he φ hφ
  | memoryStore region offset value =>
    exact Formula.forall_leaves_rebuild φ fun l hl ↦ forall_leavesAt_store (hφ l hl) he
  | havocRegions regions => exact forall_foldl_havocRegionInFormula (hereditary_leaves Q) regions hφ
  | assume condition => exact (hereditary_leaves Q).mkAnd he hφ
  | obligation condition => exact (hereditary_leaves Q).mkAnd he hφ
  | _ => exact hφ

theorem forall_leaves_wp {es : List TransferEffect} (hφ : ∀ x ∈ φ.leaves, Q x)
    (hes : ∀ e ∈ es, ∀ x ∈ e.leaves, Q x) : ∀ x ∈ (TransferFn.wp ⟨es⟩ φ).leaves, Q x := by
  induction es with
  | nil => exact hφ
  | cons e es ih =>
    rw [List.forall_mem_cons] at hes
    rw [TransferFn.wp_cons]
    exact forall_leaves_wpOne (ih hes.2) hes.1

end Leaves

/-! ### Havocking a region -/

theorem holds_havocRegionInFormula {s : State} {r : String} {φ : Formula} (h : φ.Holds s) :
    (havocRegionInFormula r φ).Holds s := by
  unfold havocRegionInFormula
  split
  · exact h
  split
  · rw [Formula.holds_andMany]
    exact fun ψ hψ ↦ (Formula.holds_and _ _).1 h ψ (List.mem_of_mem_filter hψ)
  · exact Formula.holds_tru s

theorem region_notMem_leaves_havocRegionInFormula (r : String) (φ : Formula) :
    Leaf.region r ∉ (havocRegionInFormula r φ).leaves := by
  unfold havocRegionInFormula
  split
  · rename_i h; simpa [formulaMentionsRegion] using h
  have hne := hereditary_leaves fun l ↦ l ≠ Leaf.region r
  split
  · refine fun hmem ↦ hne.andMany (fun ψ hψ x hx hxr ↦ ?_) _ hmem rfl
    simp only [List.mem_filter, formulaMentionsRegion, Bool.not_eq_eq_eq_not, Bool.not_true,
      decide_eq_false_iff_not] at hψ
    exact hψ.2 (hxr ▸ hx)
  · exact fun hmem ↦ hne.tru _ hmem rfl

/-- The result reads none of the havocked regions. -/
theorem region_notMem_leaves_foldl_havoc {regions : List String} {r : String} (hr : r ∈ regions)
    (φ : Formula) : Leaf.region r ∉
      (regions.foldl (fun result region ↦ havocRegionInFormula region result) φ).leaves := by
  induction regions generalizing φ with
  | nil => exact absurd hr List.not_mem_nil
  | cons r' rest ih =>
    obtain rfl | hr := List.mem_cons.1 hr
    · exact fun hmem ↦ forall_foldl_havocRegionInFormula (hereditary_leaves fun l ↦ l ≠ .region r)
        rest (fun x hx hxr ↦ region_notMem_leaves_havocRegionInFormula r φ (hxr ▸ hx)) _ hmem rfl
    · exact ih hr _

/-- Havocking keeps what holds, and the result reads none of the havocked regions. -/
theorem holds_foldl_havocRegionInFormula {s s' : State} {regions : List String} {φ : Formula}
    (hs : s'.scalars = s.scalars) (hr : ∀ r, r ∉ regions → s'.memory r = s.memory r)
    (h : φ.Holds s') :
    (regions.foldl (fun result region ↦ havocRegionInFormula region result) φ).Holds s := by
  have hholds : (regions.foldl (fun result region ↦ havocRegionInFormula region result) φ).Holds
      s' := by
    clear hr
    induction regions generalizing φ with
    | nil => exact h
    | cons r rest ih => exact ih (holds_havocRegionInFormula h)
  unfold Formula.Holds at hholds ⊢
  rw [← hholds]
  refine Formula.eval_congr (.of_scalars_eq hs) fun x hx ↦ ?_
  cases x with
  | boolVar v => simp [Leaf.Same, State.lookup, hs]
  | termVar v => simp [Leaf.Same, State.lookup, hs]
  | region r => exact (hr r fun hmem ↦ region_notMem_leaves_foldl_havoc hmem φ hx).symm

/-! ### The transformer as evaluation in the replayed state -/

namespace TransferEffect

/-- The state after an effect, when everything the transformer ignores does nothing. -/
noncomputable def replay (s : State) : TransferEffect → State
  | .assign target (.term value) => s.set target (value.eval s)
  | .assign target (.predicate value) => s.set target (.bool (value.eval s))
  | .memoryStore region offset value =>
    s.setRegion region
      (Function.update (s.memory region) (offset.eval s).toInt (value.eval s).toInt)
  | _ => s

/-- The condition the transformer conjoins for an effect. -/
def Enabled (s : State) : TransferEffect → Prop
  | .assume condition | .obligation condition => condition.Holds s
  | _ => True

/-- The assigned value has the sort of its target. -/
def SortedIn (s : State) : TransferEffect → Prop
  | .assign target (.term value) => (value.eval s).sort = target.sort ∧ target.sort ≠ .bool
  | .assign target (.predicate _) => target.sort = .bool
  | _ => True

/-- The effects whose concrete step the transformer ignores: it treats them as doing nothing. -/
def Ignored : TransferEffect → Prop
  | .load .. | .ptrToInt .. | .store .. | .call .. | .indirectCall .. => True
  | _ => False

/-- The effect lists regions whose contents it forgets. -/
def Havocs : TransferEffect → Prop
  | .havocRegions _ => True
  | _ => False

instance : DecidablePred Ignored := fun e ↦ by cases e <;> unfold Ignored <;> infer_instance

instance : DecidablePred Havocs := fun e ↦ by cases e <;> unfold Havocs <;> infer_instance

end TransferEffect

section Replay

variable {sem : Semantics} {e : TransferEffect} {s s' : State} {φ : Formula}

/-- A Boolean variable the effect assigns by a predicate is read by no term of the formula. -/
def TransferEffect.PlainFor (e : TransferEffect) (φ : Formula) : Prop :=
  ∀ b p, e = .assign b (.predicate p) → ¬ φ.ReadsInTerm b

/-- For every effect but `HavocRegions`, the computed formula holds exactly where the effect is
enabled and leads, ignoring what the transformer ignores, to the postcondition. -/
theorem holds_wpOne_iff (hh : ¬ e.Havocs) (hsort : e.SortedIn s) (hplain : e.PlainFor φ) :
    (wpOne e φ).Holds s ↔ e.Enabled s ∧ φ.Holds (e.replay s) := by
  cases e with
  | assign target value =>
    cases value with
    | term value =>
      simp only [wpOne, TransferEffect.Enabled, TransferEffect.replay, true_and, Formula.Holds]
      rw [eval_substituteVarInFormula hsort.1 hsort.2]
    | predicate value =>
      simp only [wpOne, TransferEffect.Enabled, TransferEffect.replay, true_and, Formula.Holds]
      rw [eval_substituteBoolVarInFormula hsort (hplain target value rfl)]
  | memoryStore region offset value =>
    simp only [wpOne, TransferEffect.Enabled, TransferEffect.replay, true_and, Formula.Holds]
    rw [eval_substituteMemoryVarInFormula, Memory.eval, Memory.eval]
  | assume condition => simp [wpOne, TransferEffect.Enabled, TransferEffect.replay]
  | obligation condition => simp [wpOne, TransferEffect.Enabled, TransferEffect.replay]
  | havocRegions regions => exact absurd trivial hh
  | _ => simp [wpOne, TransferEffect.Enabled, TransferEffect.replay]

/-- A step of an effect that is neither ignored nor a havoc is its replay. -/
theorem TransferEffect.Step.eq_replay (h : e.Step sem s s') (hi : ¬ e.Ignored) (hh : ¬ e.Havocs) :
    s' = e.replay s := by
  cases e with
  | assign target value =>
    cases value with
    | term value => exact h.2.2
    | predicate value => exact h.2
  | assume condition => exact h.2
  | obligation condition => exact h.2
  | typeBound condition => exact h.2
  | havocRegions regions => exact absurd trivial hh
  | load | ptrToInt | store | call | indirectCall => exact absurd trivial hi
  | _ => exact h

theorem TransferEffect.Step.enabled (h : e.Step sem s s') : e.Enabled s := by
  cases e with
  | assume condition => exact h.1
  | obligation condition => exact h.1
  | _ => trivial

theorem TransferEffect.Step.sortedIn (h : e.Step sem s s') : e.SortedIn s := by
  cases e with
  | assign target value =>
    cases value with
    | term value => exact ⟨h.1, h.2.1⟩
    | predicate value => exact h.1
  | _ => trivial

theorem TransferEffect.replay_eq_self_of_ignored (h : e.Ignored) : e.replay s = s := by
  cases e <;> first | rfl | exact absurd h (by simp [TransferEffect.Ignored])

/-! ### The over-approximating direction -/

/-- The transformer accounts for the step: an effect it ignores changed nothing, and a predicate
assignment to a variable that terms may read (`K`) changed nothing. -/
def TransferEffect.Accounted (K : Var → Prop) : TransferEffect → State → State → Prop
  | .load .., s, s' | .ptrToInt .., s, s' | .store .., s, s' | .call .., s, s'
  | .indirectCall .., s, s' => s' = s
  | .assign target (.predicate _), s, s' => K target → s' = s
  | _, _, _ => True

/-- Terms of the formula read only variables in `K`. -/
def Formula.TermReads (K : Var → Prop) (φ : Formula) : Prop :=
  ∀ v, φ.ReadsInTerm v → K v

/-- A step as the transformer sees it: it accounts for the step, and an effect it does not ignore
really takes `s` to `s'`. -/
def TransferEffect.Quiet (K : Var → Prop) (e : TransferEffect) (s s' : State) : Prop :=
  e.Accounted K s s' ∧ (e.Ignored ∨ e.Step .unknownCallees s s')

theorem TransferEffect.Accounted.eq_of_ignored {K : Var → Prop} (h : e.Accounted K s s')
    (hi : e.Ignored) : s' = s := by
  cases e with
  | load | ptrToInt | store | call | indirectCall => exact h
  | _ => exact absurd hi (by simp [TransferEffect.Ignored])

theorem TransferEffect.Step.quiet {K : Var → Prop} (h : e.Step sem s s')
    (hacc : e.Accounted K s s') : e.Quiet K s s' :=
  ⟨hacc, Or.inr (h.mono (fun _ _ _ _ ↦ trivial) False.elim)⟩

theorem TransferEffect.Accounted.mono {K K' : Var → Prop} (hK : ∀ v, K v → K' v)
    (h : e.Accounted K' s s') : e.Accounted K s s' := by
  cases e with
  | assign target value =>
    cases value with
    | term value => trivial
    | predicate value => exact fun hv ↦ h (hK target hv)
  | _ => exact h

/-- If the post-state satisfies `φ` and the transformer accounts for the step, the pre-state
satisfies the computed formula. -/
theorem holds_wpOne_of_quiet {K : Var → Prop} (hquiet : e.Quiet K s s') (hK : φ.TermReads K)
    (h : φ.Holds s') : (wpOne e φ).Holds s := by
  obtain ⟨hacc, hi | hstep⟩ := hquiet
  · obtain rfl := hacc.eq_of_ignored hi
    cases e with
    | load | ptrToInt | store | call | indirectCall => exact h
    | _ => exact absurd hi (by simp [TransferEffect.Ignored])
  by_cases hh : e.Havocs
  · cases e with
    | havocRegions regions => exact holds_foldl_havocRegionInFormula hstep.1 hstep.2 h
    | _ => exact absurd hh (by simp [TransferEffect.Havocs])
  by_cases hi : e.Ignored
  · have hplain : e.PlainFor φ := by
      rintro b p rfl
      exact absurd hi (by simp [TransferEffect.Ignored])
    rw [holds_wpOne_iff hh hstep.sortedIn hplain, TransferEffect.replay_eq_self_of_ignored hi,
      ← hacc.eq_of_ignored hi]
    exact ⟨hacc.eq_of_ignored hi ▸ hstep.enabled, h⟩
  by_cases hplain : e.PlainFor φ
  · rw [holds_wpOne_iff hh hstep.sortedIn hplain, ← hstep.eq_replay hi hh]
    exact ⟨hstep.enabled, h⟩
  -- Some term reads the assigned Boolean variable: the assignment changed nothing.
  simp only [TransferEffect.PlainFor, not_forall, not_not] at hplain
  obtain ⟨b, p, rfl, hread⟩ := hplain
  obtain rfl : s' = s := hacc (hK b hread)
  have hb : s'.lookup b = .bool (p.eval s') := by
    have hself := hstep.2
    conv_lhs => rw [hself]
    exact State.lookup_set_self (by simp [hstep.1])
  exact (congrArg (· = true) (eval_substituteBoolVarInFormula_of_eq hb φ)).mpr h

/-- A variable that terms of the effect read. -/
def TransferEffect.ReadsInTerm (e : TransferEffect) (v : Var) : Prop :=
  .boolVar v ∈ e.termLeaves ∨ .termVar v ∈ e.termLeaves

/-- The leaf is a region or a variable in `K`. -/
def Leaf.VarIn (K : Var → Prop) : Leaf → Prop
  | .boolVar v | .termVar v => K v
  | .region _ => True

theorem forall_varIn_iff {K : Var → Prop} {xs : List Leaf} :
    (∀ x ∈ xs, x.VarIn K) ↔ ∀ v, .boolVar v ∈ xs ∨ .termVar v ∈ xs → K v := by
  refine ⟨fun h v hv ↦ hv.elim (h _) (h _), fun h x hx ↦ ?_⟩
  cases x with
  | boolVar v => exact h v (Or.inl hx)
  | termVar v => exact h v (Or.inr hx)
  | region r => trivial

theorem Formula.termReads_iff {K : Var → Prop} :
    φ.TermReads K ↔ ∀ x ∈ φ.termLeaves, x.VarIn K :=
  forall_varIn_iff.symm

/-- Simplification does not make terms read more variables. -/
theorem hereditary_termReads (K : Var → Prop) : Hereditary (Formula.TermReads K) := by
  have h := hereditary_termLeaves (Leaf.VarIn K)
  simpa only [← Formula.termReads_iff] using h

/-- Terms of the computed formula read what terms of the postcondition or the effects read. -/
theorem termReads_wp {K : Var → Prop} {es : List TransferEffect} (hK : φ.TermReads K)
    (hes : ∀ e ∈ es, ∀ v, e.ReadsInTerm v → K v) : (TransferFn.wp ⟨es⟩ φ).TermReads K :=
  Formula.termReads_iff.2 <| forall_termLeaves_wp (Formula.termReads_iff.1 hK)
    fun e he ↦ forall_varIn_iff.2 (hes e he)

/-- Along steps the transformer accounts for, the computed formula holds before if the
postcondition holds after. -/
theorem holds_wp_of_quiet {K : Var → Prop} {es : List TransferEffect}
    (hrun : Path (TransferEffect.Quiet K) es s s')
    (hes : ∀ e ∈ es, ∀ v, e.ReadsInTerm v → K v)
    (hK : φ.TermReads K) (h : φ.Holds s') : (TransferFn.wp ⟨es⟩ φ).Holds s := by
  induction es generalizing s with
  | nil => exact hrun ▸ h
  | cons e es ih =>
    obtain ⟨m, hquiet, hrun⟩ := hrun
    rw [List.forall_mem_cons] at hes
    rw [TransferFn.wp_cons]
    exact holds_wpOne_of_quiet hquiet (termReads_wp hK hes.2) (ih hrun hes.2)

end Replay

end MayMust
