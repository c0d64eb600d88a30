import MayMust.Analysis.Backward.Tautology
import MayMust.Analysis.Invariants.Evaluation
import MayMust.Analysis.Loops.Checker
import MayMust.Library.Screening

/-!
# Screening invariant candidates

The synthesis of invariants asks the checker about one candidate after the other. The witness of a
failed check goes into a store of states (`IceFeedback`), and a candidate that is false at a state
of the first list, or true at a state of the second one, is dropped without a check.

What a stored state says of other candidates depends on where it was taken. The candidate of an
accepted loop holds wherever the loop is entered and excludes the violations behind its exits, so a
store whose first list has states of the forward reach formula (`IceState.Enters`) and whose second
list has states at the header that lead to a violation (`IceState.Violates`) screens out only what
the checker rejects (`not_accepted_of_screensOut`). The models of failed initiation and of failed
exit closure are such states (`grounds_checkLoopInvariantVerbose`). A model of failed inductiveness
need not be one: an invariant may well be false there. Nor need a model of a violation behind the
exit: it says nothing about the header.
-/

namespace MayMust

open Library

/-! ### The store -/

/-- `IceFeedback`: the states at which an invariant must hold, and those at which it must not. -/
structure IceFeedback where
  mustHold : List IceState
  mustNotHold : List IceState

/-- The model a failed check comes with. -/
def InvariantCheckResult.witness : InvariantCheckResult → Option SmtModel
  | accepted => none
  | initiationFailed witness | inductivenessFailed witness | exitClosureFailed _ witness => witness

namespace IceFeedback

variable (feedback : IceFeedback)

/-- `IceFeedback::new`. -/
def new (initialPositive : Option IceState) (initialNegatives : List IceState) : IceFeedback :=
  ⟨initialPositive.toList, initialNegatives⟩

/-- `IceFeedback::absorb`. -/
def absorb : InvariantCheckResult → IceFeedback
  | .initiationFailed (some model) | .inductivenessFailed (some model) =>
    { feedback with mustHold := feedback.mustHold ++ [.fromModel model] }
  | .exitClosureFailed _ (some model) =>
    { feedback with mustNotHold := feedback.mustNotHold ++ [.fromModel model] }
  | _ => feedback

/-- `IceFeedback::screens_out`. -/
def screensOut : Formula → Bool
  | .or parts =>
    feedback.mustHold.any fun state ↦ parts.all fun part ↦ evalAtom state part = some false
  | candidate =>
    (feedback.mustHold.any fun state ↦ evalAtom state candidate = some false) ||
      feedback.mustNotHold.any fun state ↦ evalAtom state candidate = some true

/-- All stored states. -/
def states : List IceState := feedback.mustHold ++ feedback.mustNotHold

end IceFeedback

/-- The candidate is false at the state, as far as the evaluator can tell: a disjunction if all its
parts are. -/
def IceState.Refuses (state : IceState) (candidate : Formula) : Prop :=
  evalAtom state candidate = some false ∨
    ∃ parts, candidate = .or parts ∧ ∀ part ∈ parts, evalAtom state part = some false

theorem IceFeedback.screensOut_iff {feedback : IceFeedback} {candidate : Formula} :
    feedback.screensOut candidate = true ↔
      (∃ state ∈ feedback.mustHold, state.Refuses candidate) ∨
        ∃ state ∈ feedback.mustNotHold, evalAtom state candidate = some true := by
  cases candidate with
  | or parts => simp [screensOut, IceState.Refuses, evalAtom]
  | _ =>
    simp only [screensOut, IceState.Refuses, Bool.or_eq_true, List.any_eq_true,
      decide_eq_true_eq, reduceCtorEq, false_and, exists_false, or_false]

/-! ### Collecting states -/

section Collect

variable (info : LoopInfo) (cfg : AbstractCfg) (oracle : Oracle)
  (postconditions : CfgNodeId → Option Formula) (inner : InnerInvariants)

/-- `collect_positive_example`: a model of the forward reach formula. -/
def collectPositiveExample : Option IceState :=
  let reach := forwardReachAtHeader cfg info.header inner
  if reach = .tru then none
  else
    match oracle.feasibilityWithModel reach with
    | .error _ => none
    | .ok report => if report.feasibility = .feasible then report.model.map .fromModel else none

/-- A model of the violation behind one exit edge. -/
def negativeExample (id : CfgEdgeId) : Option IceState :=
  match cfg.edge id with
  | .error _ => none
  | .ok edge =>
    match postconditions edge.target with
    | none => none
    | some violation =>
      if violation = .fls then none
      else
        match oracle.feasibilityWithModel violation with
        | .error _ => none
        | .ok report => report.model.map .fromModel

/-- `collect_negative_examples`. -/
def collectNegativeExamples : List IceState :=
  info.exitEdges.filterMap (negativeExample cfg oracle postconditions)

end Collect

/-! ### What a stored state says of other candidates -/

/-- A part of a disjunction has only terms of the disjunction. -/
theorem Formula.AllTermsList.of_mem {P : Term → Prop} {items : List Formula} {φ : Formula}
    (h : Formula.AllTermsList P items) (hφ : φ ∈ items) : φ.AllTerms P := by
  induction items with
  | nil => exact absurd hφ List.not_mem_nil
  | cons item rest ih =>
    rw [Formula.AllTermsList] at h
    obtain rfl | hmem := List.mem_cons.1 hφ
    · exact h.1
    · exact ih h.2 hmem

namespace IceState

variable {state : IceState} {s : State} {candidate : Formula}

/-- The values the evaluator gives an atom, where all operations fit. -/
theorem Agrees.eval_eq (hagree : state.Agrees s) {b : Bool}
    (hfits : candidate.AllTerms (Term.StepFits state.Bound s))
    (h : evalAtom state candidate = some b) : candidate.eval s = b :=
  eval_of_evalAtom candidate
    ((Formula.allTerms_congr (exactAt_iff_stepFits hagree) candidate).2 hfits) h

theorem Agrees.not_holds_of_refuses (hagree : state.Agrees s)
    (hfits : candidate.AllTerms (Term.StepFits state.Bound s)) (h : state.Refuses candidate) :
    ¬ candidate.Holds s := by
  rcases h with hfalse | ⟨parts, rfl, hfalse⟩
  · rw [Formula.Holds, hagree.eval_eq hfits hfalse]
    exact Bool.false_ne_true
  · rw [Formula.AllTerms] at hfits
    rw [Formula.holds_or]
    rintro ⟨part, hpart, hholds⟩
    rw [Formula.Holds, hagree.eval_eq (hfits.of_mem hpart) (hfalse part hpart)] at hholds
    exact Bool.false_ne_true hholds

variable (state) (info : LoopInfo) (cfg : AbstractCfg)
  (postconditions : CfgNodeId → Option Formula) (inner : InnerInvariants)

/-- At the state the operations of the candidate fit, and the header's own effects, which the
checker puts before the candidate, do not change whether it holds. -/
structure Decides (header : CfgNodeId) (candidate : Formula) : Prop where
  fits : ∀ s, state.Agrees s → candidate.AllTerms (Term.StepFits state.Bound s)
  unmoved : ∀ s, state.Agrees s →
    ((normalizeCandidate cfg header candidate).Holds s ↔ candidate.Holds s)

/-- The state is one in which the loop may be entered, as far as the forward reach formula tells. -/
def Enters : Prop :=
  ∃ s, state.Agrees s ∧ (forwardReachAtHeader cfg info.header inner).Holds s

/-- The state is one at the header from which an exit edge may lead to a violation, as far as the
backward states tell. -/
def Violates : Prop :=
  ∃ s, state.Agrees s ∧ ∃ e ∈ cfg.edges, e.id ∈ info.exitEdges ∧
    ∃ postcondition, postconditions e.target = some postcondition ∧ postcondition ≠ .fls ∧
      ∀ states, backwardStates cfg cfg.detectBackEdges.toFinset (some info.body) true inner false
        [(e.source, edgePre false false (cfg.transferAt e.source) e postcondition)] =
          some states → (states info.header).Holds s

variable {state info cfg postconditions inner} {oracle : Oracle}

/-- A candidate refused where the loop may be entered is rejected. -/
theorem Enters.not_accepted (h : state.Enters info cfg inner) (hsound : oracle.InfeasibleSound)
    (hdecides : state.Decides cfg info.header candidate) (hrefuses : state.Refuses candidate) :
    checkLoopInvariantVerbose info cfg candidate oracle postconditions inner ≠ .accepted := by
  obtain ⟨s, hagree, hreach⟩ := h
  intro haccepted
  obtain ⟨-, hinitiation, -⟩ := accepted_iff.1 haccepted
  have hnormal := holds_of_checkInitiation hsound hinitiation hreach
  exact hagree.not_holds_of_refuses (hdecides.fits s hagree) hrefuses
    ((hdecides.unmoved s hagree).1 hnormal)

/-- A candidate that holds where a violation may follow is rejected. -/
theorem Violates.not_accepted (h : state.Violates info cfg postconditions inner)
    (hsound : oracle.InfeasibleSound) (hdecides : state.Decides cfg info.header candidate)
    (htrue : evalAtom state candidate = some true) :
    checkLoopInvariantVerbose info cfg candidate oracle postconditions inner ≠ .accepted := by
  obtain ⟨s, hagree, e, he, hexit, postcondition, hpost, hne, hheader⟩ := h
  intro haccepted
  obtain ⟨-, -, -, hexits⟩ := accepted_iff.1 haccepted
  obtain ⟨states, hstates, hexcludes⟩ :=
    exists_of_checkExit hsound he hpost hne (hexits e.id hexit)
  have hholds : candidate.Holds s := hagree.eval_eq (hdecides.fits s hagree) htrue
  exact hexcludes s ((hdecides.unmoved s hagree).2 hholds) (hheader states hstates)

end IceState

/-! ### Histories -/

section Histories

variable (info : LoopInfo) (cfg : AbstractCfg) (postconditions : CfgNodeId → Option Formula)
  (inner : InnerInvariants)

/-- The witness of the result, if it has one, is a state that every accepted candidate decides the
same way: one that enters the loop if it will be stored as a state to hold at, one that leads to a
violation if as a state not to hold at. -/
def InvariantCheckResult.Grounds : InvariantCheckResult → Prop
  | accepted => True
  | initiationFailed witness | inductivenessFailed witness =>
    ∀ model ∈ witness, (IceState.fromModel model).Enters info cfg inner
  | exitClosureFailed _ witness =>
    ∀ model ∈ witness, (IceState.fromModel model).Violates info cfg postconditions inner

/-- All stored states are of these two kinds. -/
structure IceFeedback.Grounded (feedback : IceFeedback) : Prop where
  enters : ∀ state ∈ feedback.mustHold, state.Enters info cfg inner
  violates : ∀ state ∈ feedback.mustNotHold, state.Violates info cfg postconditions inner

variable {info cfg postconditions inner} {feedback : IceFeedback} {oracle : Oracle}
  {candidate : Formula}

theorem IceFeedback.Grounded.absorb (h : feedback.Grounded info cfg postconditions inner)
    {result : InvariantCheckResult} (hresult : result.Grounds info cfg postconditions inner) :
    (feedback.absorb result).Grounded info cfg postconditions inner := by
  obtain _ | ⟨_ | model⟩ | ⟨_ | model⟩ | ⟨exitEdge, _ | model⟩ := result
  case initiationFailed.some | inductivenessFailed.some =>
    exact ⟨List.forall_mem_append.2 ⟨h.enters, List.forall_mem_singleton.2 (hresult model rfl)⟩,
      h.violates⟩
  case exitClosureFailed.some =>
    exact ⟨h.enters,
      List.forall_mem_append.2 ⟨h.violates, List.forall_mem_singleton.2 (hresult model rfl)⟩⟩
  all_goals exact h

/-- Results that ground the store keep it grounded. -/
theorem IceFeedback.Grounded.foldl_absorb (h : feedback.Grounded info cfg postconditions inner)
    {history : List InvariantCheckResult}
    (hhistory : ∀ result ∈ history, result.Grounds info cfg postconditions inner) :
    (history.foldl IceFeedback.absorb feedback).Grounded info cfg postconditions inner := by
  induction history generalizing feedback with
  | nil => exact h
  | cons result history ih =>
    obtain ⟨hresult, hhistory⟩ := List.forall_mem_cons.1 hhistory
    exact ih (h.absorb hresult) hhistory

/-- A grounded store screens out only what the checker rejects. -/
theorem IceFeedback.Grounded.not_accepted (h : feedback.Grounded info cfg postconditions inner)
    (hsound : oracle.InfeasibleSound)
    (hdecides : ∀ state ∈ feedback.states, state.Decides cfg info.header candidate)
    (hscreens : feedback.screensOut candidate = true) :
    checkLoopInvariantVerbose info cfg candidate oracle postconditions inner ≠ .accepted := by
  obtain ⟨hholds, hnot⟩ := List.forall_mem_append.1 hdecides
  rcases screensOut_iff.1 hscreens with ⟨state, hstate, hrefuses⟩ | ⟨state, hstate, htrue⟩
  · exact (h.enters state hstate).not_accepted hsound (hholds state hstate) hrefuses
  · exact (h.violates state hstate).not_accepted hsound (hnot state hstate) htrue

end Histories

/-! ### The checker's own witnesses -/

/-- Whatever model the solver reports is one of the formula. -/
def Oracle.ModelsHold (oracle : Oracle) : Prop :=
  ∀ φ report model, oracle.feasibilityWithModel φ = .ok report → report.model = some model →
    ∃ s, (IceState.fromModel model).Agrees s ∧ φ.Holds s

section Witnesses

variable {info : LoopInfo} {cfg : AbstractCfg} {postconditions : CfgNodeId → Option Formula}
  {inner : InnerInvariants} {oracle : Oracle} {candidate : Formula} {result : InvariantCheckResult}

theorem grounds_of_checkInitiation (hmodels : oracle.ModelsHold)
    (h : checkInitiation candidate oracle (forwardReachAtHeader cfg info.header inner) =
      some result) : result.Grounds info cfg postconditions inner := by
  have hnone : (InvariantCheckResult.initiationFailed none).Grounds info cfg postconditions inner :=
    fun model hmodel ↦ absurd hmodel (Option.not_mem_none model)
  rw [checkInitiation] at h
  split at h
  · cases h
    exact hnone
  rename_i report hreport
  split at h
  · cases h
    intro model hmodel
    obtain ⟨s, hagree, hholds⟩ := hmodels _ report model hreport hmodel
    exact ⟨s, hagree, ((Formula.holds_mkAnd _ _).1 hholds).1⟩
  · cases h
    exact hnone
  split at h
  · cases h
    exact hnone
  split_ifs at h
  cases h
  exact hnone

theorem exists_of_checkInductiveness_eq_some
    (h : checkInductiveness info cfg candidate oracle inner = some result) :
    ∃ witness, result = .inductivenessFailed witness := by
  rw [checkInductiveness] at h
  split at h
  · exact ⟨none, (Option.some.inj h).symm⟩
  split at h
  · exact ⟨none, (Option.some.inj h).symm⟩
  split at h
  · cases h
  all_goals exact ⟨_, (Option.some.inj h).symm⟩

theorem grounds_of_checkExit (hmodels : oracle.ModelsHold) {id : CfgEdgeId}
    (hid : id ∈ info.exitEdges)
    (h : checkExit info cfg candidate oracle postconditions inner id = some result) :
    result.Grounds info cfg postconditions inner := by
  have hnone : (InvariantCheckResult.exitClosureFailed id none).Grounds info cfg postconditions
      inner := fun model hmodel ↦ absurd hmodel (Option.not_mem_none model)
  rw [checkExit] at h
  split at h
  · cases h
  rename_i edge hedge
  obtain ⟨hmem, rfl⟩ := AbstractCfg.mem_of_edge_eq_ok hedge
  split at h
  · cases h
  rename_i postcondition hpost
  split_ifs at h with hfls
  rw [edgeSourceRequirement_eq hmem] at h
  dsimp only at h
  split at h
  · cases h
    exact hnone
  rename_i states hstates
  split at h
  · cases h
    exact hnone
  rename_i report hreport
  split_ifs at h
  cases h
  intro model hmodel
  obtain ⟨s, hagree, hholds⟩ := hmodels _ report model hreport hmodel
  refine ⟨s, hagree, edge, hmem, hid, postcondition, hpost, hfls, fun states' hstates' ↦ ?_⟩
  rw [← Option.some.inj (hstates.symm.trans hstates')]
  exact ((Formula.holds_mkAnd _ _).1 hholds).2

/-- **The witness of a failed check other than the inductiveness check grounds the store.** -/
theorem grounds_checkLoopInvariantVerbose (hmodels : oracle.ModelsHold)
    (hinductive : ∀ model, checkLoopInvariantVerbose info cfg candidate oracle postconditions
      inner ≠ .inductivenessFailed (some model)) :
    (checkLoopInvariantVerbose info cfg candidate oracle postconditions inner).Grounds info cfg
      postconditions inner := by
  unfold checkLoopInvariantVerbose at hinductive ⊢
  dsimp only at hinductive ⊢
  split_ifs at hinductive ⊢
  · exact fun model hmodel ↦ absurd hmodel (Option.not_mem_none model)
  split
  · rename_i failure hfailure
    exact grounds_of_checkInitiation hmodels hfailure
  rename_i hinitiation
  rw [hinitiation] at hinductive
  split
  · rename_i failure hfailure
    rw [hfailure] at hinductive
    obtain ⟨witness, rfl⟩ := exists_of_checkInductiveness_eq_some hfailure
    cases witness with
    | none => exact fun model hmodel ↦ absurd hmodel (Option.not_mem_none model)
    | some model => exact absurd rfl (hinductive model)
  · cases hexit : info.exitEdges.findSome? (checkExit info cfg
        (normalizeCandidate cfg info.header candidate) oracle postconditions inner) with
    | none => trivial
    | some failure =>
      obtain ⟨id, hid, hfailure⟩ := List.exists_of_findSome?_eq_some hexit
      exact grounds_of_checkExit hmodels hid hfailure

/-- The first positive example grounds the store. -/
theorem enters_of_collectPositiveExample (hmodels : oracle.ModelsHold) {state : IceState}
    (h : collectPositiveExample info cfg oracle inner = some state) :
    state.Enters info cfg inner := by
  rw [collectPositiveExample] at h
  split_ifs at h
  split at h
  · cases h
  rename_i report hreport
  split_ifs at h
  obtain ⟨model, hmodel, rfl⟩ := Option.map_eq_some_iff.1 h
  exact hmodels _ report model hreport hmodel

end Witnesses

/-! ### A tier of candidates -/

section Tier

variable (info : LoopInfo) (cfg : AbstractCfg) (oracle : Oracle)
  (postconditions : CfgNodeId → Option Formula) (inner : InnerInvariants)

/-- `run_tier`: the normal form of the first accepted candidate, the store, and the count of the
candidates that were screened out. The deadline passes after as many candidates as `budget` says. -/
def runTier : ℕ → List Formula → IceFeedback → ℕ → Option Formula × IceFeedback × ℕ
  | _, [], feedback, screened => (none, feedback, screened)
  | 0, _ :: _, feedback, screened => (none, feedback, screened)
  | budget + 1, candidate :: rest, feedback, screened =>
    if feedback.screensOut candidate then runTier budget rest feedback (screened + 1)
    else
      let normalized := normalizeCandidate cfg info.header candidate
      if isTautology normalized then runTier budget rest feedback screened
      else
        let result := checkLoopInvariantVerbose info cfg candidate oracle postconditions inner
        if result = .accepted then (some normalized, feedback, screened)
        else runTier budget rest (feedback.absorb result) screened

/-- A tier as a screened search: a trivial candidate gets no verdict, and so teaches nothing. -/
def tierScreening : Screening IceFeedback Formula (Option InvariantCheckResult) where
  screens := IceFeedback.screensOut
  judge candidate :=
    if isTautology (normalizeCandidate cfg info.header candidate) then none
    else some (checkLoopInvariantVerbose info cfg candidate oracle postconditions inner)
  accepts verdict := decide (verdict = some .accepted)
  absorb feedback verdict := verdict.elim feedback feedback.absorb

variable {info cfg oracle postconditions inner} {feedback : IceFeedback} {candidates : List Formula}

/-- A tier searches among the candidates it comes to before the deadline. -/
theorem runTier_fst (budget screened : ℕ) :
    (runTier info cfg oracle postconditions inner budget candidates feedback screened).1 =
      ((tierScreening info cfg oracle postconditions inner).search feedback
        (candidates.take budget)).map (normalizeCandidate cfg info.header) := by
  induction candidates generalizing budget feedback screened with
  | nil => cases budget <;> rfl
  | cons candidate rest ih =>
    cases budget with
    | zero => rfl
    | succ budget =>
      rw [runTier, List.take_succ_cons, Screening.search]
      by_cases hscreens : feedback.screensOut candidate = true
      · rw [if_pos hscreens, if_pos (show (tierScreening info cfg oracle postconditions
          inner).screens feedback candidate = true from hscreens)]
        exact ih budget (screened + 1)
      rw [if_neg hscreens, if_neg (show ¬ (tierScreening info cfg oracle postconditions
        inner).screens feedback candidate = true from hscreens)]
      by_cases htrivial : isTautology (normalizeCandidate cfg info.header candidate) = true
      · simp only [tierScreening, htrivial, if_true, reduceCtorEq, decide_false, Bool.false_eq_true,
          if_false, Option.elim_none]
        exact ih budget screened
      · by_cases haccepted : checkLoopInvariantVerbose info cfg candidate oracle postconditions
          inner = .accepted
        · simp [tierScreening, htrivial, haccepted]
        · simp only [tierScreening, htrivial, haccepted, if_false, Option.some.injEq, decide_false,
            Bool.false_eq_true, Option.elim_some]
          exact ih budget screened

theorem IceFeedback.mem_states_absorb {result : InvariantCheckResult} {state : IceState}
    (h : state ∈ (feedback.absorb result).states) :
    state ∈ feedback.states ∨ ∃ model ∈ result.witness, state = .fromModel model := by
  obtain _ | ⟨_ | model⟩ | ⟨_ | model⟩ | ⟨exitEdge, _ | model⟩ := result
  case initiationFailed.some | inductivenessFailed.some | exitClosureFailed.some =>
    have hstate : state ∈ feedback.states ∨ state = .fromModel model := by
      simp only [states, absorb, List.mem_append, List.mem_singleton] at h ⊢
      tauto
    exact hstate.imp_right fun hmodel ↦ ⟨model, rfl, hmodel⟩
  all_goals exact .inl h

theorem accepts_judge_tierScreening (candidate : Formula) :
    (tierScreening info cfg oracle postconditions inner).accepts
        ((tierScreening info cfg oracle postconditions inner).judge candidate) =
      decide (isTautology (normalizeCandidate cfg info.header candidate) = false ∧
        checkLoopInvariantVerbose info cfg candidate oracle postconditions inner = .accepted) := by
  by_cases htrivial : isTautology (normalizeCandidate cfg info.header candidate) = true <;>
    simp [tierScreening, htrivial]

/-- What keeps a tier from losing a candidate: the store is grounded, and decides the candidates. -/
structure IceFeedback.Reliable (info : LoopInfo) (cfg : AbstractCfg)
    (postconditions : CfgNodeId → Option Formula) (inner : InnerInvariants)
    (candidates : List Formula) (feedback : IceFeedback) : Prop where
  grounded : feedback.Grounded info cfg postconditions inner
  decides : ∀ candidate ∈ candidates, ∀ state ∈ feedback.states,
    state.Decides cfg info.header candidate

/-- **A tier finds the first candidate that is not trivial and accepted**, as if nothing were
screened out, if all results it may absorb ground the store and their states decide the
candidates. -/
theorem runTier_eq_find? (hsound : oracle.InfeasibleSound)
    (hfeedback : feedback.Reliable info cfg postconditions inner candidates)
    (hgrounds : ∀ candidate ∈ candidates, (checkLoopInvariantVerbose info cfg candidate oracle
      postconditions inner).Grounds info cfg postconditions inner)
    (hdecides : ∀ candidate ∈ candidates, ∀ earlier ∈ candidates, ∀ model ∈
      (checkLoopInvariantVerbose info cfg earlier oracle postconditions inner).witness,
        (IceState.fromModel model).Decides cfg info.header candidate) (budget screened : ℕ) :
    (runTier info cfg oracle postconditions inner budget candidates feedback screened).1 =
      ((candidates.take budget).find? fun candidate ↦
        decide (isTautology (normalizeCandidate cfg info.header candidate) = false ∧
          checkLoopInvariantVerbose info cfg candidate oracle postconditions inner =
            .accepted)).map (normalizeCandidate cfg info.header) := by
  have hinvariant : (tierScreening info cfg oracle postconditions inner).Invariant
      (candidates.take budget)
      (IceFeedback.Reliable info cfg postconditions inner candidates) := by
    constructor
    · intro feedback candidate h hmem hscreens
      rw [accepts_judge_tierScreening, decide_eq_false_iff_not]
      exact fun haccepted ↦ h.grounded.not_accepted hsound
        (h.decides candidate (List.mem_of_mem_take hmem)) hscreens haccepted.2
    · intro feedback candidate h hmem _
      have hcandidate := List.mem_of_mem_take hmem
      by_cases htrivial : isTautology (normalizeCandidate cfg info.header candidate) = true
      · simpa [tierScreening, htrivial] using h
      · simp only [tierScreening, htrivial]
        refine ⟨h.grounded.absorb (hgrounds candidate hcandidate),
          fun later hlater state hstate ↦ ?_⟩
        obtain hstate | ⟨model, hmodel, rfl⟩ := IceFeedback.mem_states_absorb hstate
        · exact h.decides later hlater state hstate
        · exact hdecides later hlater candidate hcandidate model hmodel
  rw [runTier_fst, Screening.search_eq_find? hinvariant hfeedback]
  simp only [accepts_judge_tierScreening]

end Tier

/-- **Screening discards nothing the checker would accept**, from a store that starts with states
in which the loop may be entered and states that lead to a violation, and to which such states were
added. -/
theorem not_accepted_of_screensOut {info : LoopInfo} {cfg : AbstractCfg} {oracle : Oracle}
    {postconditions : CfgNodeId → Option Formula} {inner : InnerInvariants}
    {initialPositive : Option IceState} {initialNegatives : List IceState}
    {history : List InvariantCheckResult} {candidate : Formula} (hsound : oracle.InfeasibleSound)
    (hinitial : (IceFeedback.new initialPositive initialNegatives).Grounded info cfg postconditions
      inner)
    (hhistory : ∀ result ∈ history, result.Grounds info cfg postconditions inner)
    (hdecides : ∀ state ∈ (history.foldl IceFeedback.absorb
      (.new initialPositive initialNegatives)).states, state.Decides cfg info.header candidate)
    (hscreens : (history.foldl IceFeedback.absorb
      (.new initialPositive initialNegatives)).screensOut candidate = true) :
    checkLoopInvariantVerbose info cfg candidate oracle postconditions inner ≠ .accepted :=
  (hinitial.foldl_absorb hhistory).not_accepted hsound hdecides hscreens

/-! ### A loop that copies -/

section CopyLoop

/-- `x = 0; y = 0; while (x != 7) { x = y; }` -/
def copyLoopCfg : AbstractCfg where
  nodes := [⟨0, "entry", .entry, ⟨[.assign (.int "x") (.term (.int 0)),
      .assign (.int "y") (.term (.int 0))]⟩⟩,
    ⟨1, "header", .normal, .identity⟩,
    ⟨2, "body", .normal, ⟨[.assign (.int "x") (.term (.var (.int "y")))]⟩⟩,
    ⟨3, "after", .normal, .identity⟩]
  edges := [⟨0, 0, 1, .tru, []⟩, ⟨1, 1, 2, .not (.eq (.var (.int "x")) (.int 7)), []⟩,
    ⟨2, 2, 1, .tru, []⟩, ⟨3, 1, 3, .eq (.var (.int "x")) (.int 7), []⟩]
  entry := 0
  concreteExits := []
  exit := none
  nextNode := 4
  nextEdge := 4
  nodes_sorted := by simp
  edges_sorted := by simp
  node_lt := by simp
  edge_lt := by simp
  entry_mem := by simp
  source_mem := by simp
  target_mem := by simp

/-- The loop of the program. -/
def copyLoop : LoopInfo := loopOf copyLoopCfg ⟨2, 2, 1, .tru, []⟩

/-- The invariant: `y` is 0. -/
def yIsZero : Formula := .eq (.var (.int "y")) (.int 0)

/-- What is false of `assert(x == y + 7)`. -/
def notSevenMore : Formula :=
  .not (.eq (.var (.int "x")) (.add (.var (.int "y")) (.int 7)))

/-- The assertion follows the loop. -/
def copyPostconditions (n : CfgNodeId) : Option Formula :=
  if n = 3 then some notSevenMore else none

/-- Values of `x` and `y`. -/
def copyModel (x y : Int64) : SmtModel := ⟨[(.int "x", .int x), (.int "y", .int y)], []⟩

/-- The state with these values. -/
def copyState (x y : Int64) : State :=
  (State.zero.set (.int "x") (.int x.toInt)).set (.int "y") (.int y.toInt)

/-- The answers of a solver to what is asked about this loop; the values that violate the assertion
are given. -/
def copyAnswers (x y : Int64) : List (Formula × FeasibilityReport) :=
  let seven : Formula := .eq (.var (.int "x")) (.int 7)
  let kept : Formula := .and [.not seven, yIsZero]
  [(.and [xIsZero, yIsZero], ⟨.feasible, some (copyModel 0 0)⟩),
    (notSevenMore, ⟨.feasible, some (copyModel x y)⟩),
    (.and [xIsZero, yIsZero, .not xIsZero], ⟨.infeasible, none⟩),
    (.and [xIsZero, .not seven, .not kept], ⟨.feasible, some (copyModel 0 5)⟩),
    (.and [xIsZero, yIsZero, .not yIsZero], ⟨.infeasible, none⟩),
    (.and [yIsZero, .not seven, .not kept], ⟨.infeasible, none⟩),
    (.and [yIsZero, seven, notSevenMore], ⟨.infeasible, none⟩)]

/-- The solver with these answers. -/
def copyOracle (x y : Int64) : Oracle where
  solve φ := .ok (((copyAnswers x y).lookup φ).getD ⟨.unknown, none⟩)

variable {x y : Int64} {φ : Formula} {report : FeasibilityReport} {s : State}

theorem mem_copyAnswers (h : (copyOracle x y).feasibilityWithModel φ = .ok report) :
    report = ⟨.unknown, none⟩ ∨ (φ, report) ∈ copyAnswers x y := by
  unfold Oracle.feasibilityWithModel copyOracle at h
  split at h
  · cases h
  have hreport : ((copyAnswers x y).lookup φ).getD ⟨.unknown, none⟩ = report := Except.ok.inj h
  cases hlookup : (copyAnswers x y).lookup φ with
  | none =>
    rw [hlookup] at hreport
    exact .inl hreport.symm
  | some report' =>
    rw [hlookup] at hreport
    obtain ⟨before, after, heq, -⟩ := List.lookup_eq_some_iff.1 hlookup
    rw [← hreport, heq]
    exact .inr (List.mem_append_right before List.mem_cons_self)

theorem not_holds_of_seven (hy : yIsZero.Holds s)
    (hx : (Formula.eq (.var (.int "x")) (.int 7)).Holds s) : ¬ notSevenMore.Holds s := by
  have hx' := Formula.eval_eq_of_holds_eq hx
  have hy' := Formula.eval_eq_of_holds_eq hy
  rw [Term.eval, Term.eval] at hx' hy'
  simp [notSevenMore, Formula.Holds, Formula.eval, Term.eval, hx', hy', Value.compare, Value.arith]

theorem infeasibleSound_copyOracle : (copyOracle x y).InfeasibleSound := by
  intro φ report hreport hinfeasible s
  obtain rfl | hmem := mem_copyAnswers hreport
  · cases hinfeasible
  simp only [copyAnswers, List.mem_cons, Prod.mk.injEq, List.not_mem_nil, or_false] at hmem
  rcases hmem with ⟨-, rfl⟩ | ⟨-, rfl⟩ | ⟨rfl, -⟩ | ⟨-, rfl⟩ | ⟨rfl, -⟩ | ⟨rfl, -⟩ | ⟨rfl, -⟩
  · cases hinfeasible
  · cases hinfeasible
  · simp +contextual
  · cases hinfeasible
  · simp +contextual
  · simp +contextual
  · intro hs
    rw [Formula.holds_and] at hs
    exact not_holds_of_seven (hs _ (by simp)) (hs _ (by simp)) (hs _ (by simp))

theorem IceState.scalars_insert (state : IceState) (name : String) (n : Int64) :
    (state.insert name n).scalars = Function.update state.scalars name (some n) := rfl

/-- The name of a cell ends in a bracket, so other names bind no cell. -/
theorem IceState.Agrees.insert {state : IceState} {name : String} {n : Int64}
    (h : state.Agrees s) (hname : name.toList.getLast? ≠ some ']')
    (hn : s.scalars.ints name = n.toInt) : (state.insert name n).Agrees s := by
  constructor
  · intro name' k hk
    rw [scalars_insert] at hk
    by_cases heq : name' = name
    · subst heq
      rw [Function.update_self, Option.some.injEq] at hk
      rw [hn, hk]
    · rw [Function.update_of_ne heq] at hk
      exact h.scalar name' k hk
  · intro region index k hk
    have hkey : cellKey region index ≠ name := fun hkey ↦
      hname (hkey ▸ getLast?_cellKey region index)
    rw [scalars_insert, Function.update_of_ne hkey] at hk
    exact h.cell region index k hk

theorem agrees_copyModel (x y : Int64) :
    (IceState.fromModel (copyModel x y)).Agrees (copyState x y) := by
  have hx : "x".toList.getLast? ≠ some ']' := by decide
  have hy : "y".toList.getLast? ≠ some ']' := by decide
  exact ((IceState.agrees_empty _).insert hx rfl).insert hy rfl

theorem modelsHold_copyOracle (hviolates : notSevenMore.Holds (copyState x y)) :
    (copyOracle x y).ModelsHold := by
  intro φ report model hreport hmodel
  obtain rfl | hmem := mem_copyAnswers hreport
  · cases hmodel
  simp only [copyAnswers, List.mem_cons, Prod.mk.injEq, List.not_mem_nil, or_false] at hmem
  rcases hmem with ⟨rfl, rfl⟩ | ⟨rfl, rfl⟩ | ⟨-, rfl⟩ | ⟨rfl, rfl⟩ | ⟨-, rfl⟩ | ⟨-, rfl⟩ | ⟨-, rfl⟩
    <;> cases hmodel
  · exact ⟨copyState 0 0, agrees_copyModel 0 0, rfl⟩
  · exact ⟨copyState x y, agrees_copyModel x y, hviolates⟩
  · exact ⟨copyState 0 5, agrees_copyModel 0 5, rfl⟩

theorem copyLoop_mem : copyLoop ∈ detectLoops copyLoopCfg := by decide

theorem not_accepted_of_screensOut_xIsSeven :
    checkLoopInvariantVerbose copyLoop copyLoopCfg (.eq (.var (.int "x")) (.int 7))
      (copyOracle 1 5) copyPostconditions [] ≠ .accepted := by
  have hreach : forwardReachAtHeader copyLoopCfg copyLoop.header [] = .and [xIsZero, yIsZero] := by
    decide
  have hnormal : normalizeCandidate copyLoopCfg copyLoop.header (.eq (.var (.int "x")) (.int 7)) =
      .eq (.var (.int "x")) (.int 7) := by decide
  refine @not_accepted_of_screensOut copyLoop copyLoopCfg (copyOracle 1 5) copyPostconditions []
    none [] [.initiationFailed (some (copyModel 0 0))] _ infeasibleSound_copyOracle
    ⟨by simp [IceFeedback.new], by simp [IceFeedback.new]⟩ ?_ ?_ (by decide)
  · rw [List.forall_mem_singleton]
    intro model hmodel
    cases hmodel
    exact ⟨copyState 0 0, agrees_copyModel 0 0, hreach ▸ rfl⟩
  · refine fun state _ ↦ ⟨fun s _ ↦ ?_, fun s _ ↦ hnormal ▸ Iff.rfl⟩
    simp [Formula.AllTerms, Term.AllTerms, Term.StepFits, Term.Fits]

/-- The values after the first candidate, `x == 0`, has failed are a witness against its
inductiveness only: the invariant is false there, so it is not checked although it would be
accepted. -/
theorem not_forall_screensOut :
    ¬ ∀ (info : LoopInfo) (cfg : AbstractCfg) (oracle : Oracle)
      (postconditions : CfgNodeId → Option Formula) (inner : InnerInvariants)
      (earlier : List Formula) (candidate : Formula), info ∈ detectLoops cfg →
      oracle.InfeasibleSound → oracle.ModelsHold →
      (((earlier.map fun c ↦ checkLoopInvariantVerbose info cfg c oracle postconditions
          inner).foldl IceFeedback.absorb
        (.new (collectPositiveExample info cfg oracle inner)
          (collectNegativeExamples info cfg oracle postconditions))).screensOut candidate = true →
        checkLoopInvariantVerbose info cfg candidate oracle postconditions inner ≠ .accepted) := by
  intro h
  exact h copyLoop copyLoopCfg (copyOracle 1 5) copyPostconditions [] [xIsZero] yIsZero
    copyLoop_mem infeasibleSound_copyOracle (modelsHold_copyOracle rfl) (by decide) (by decide)

/-- The values of a violation behind the exit say nothing about the header: the invariant is true
there, and not checked either. -/
theorem accepted_of_screensOut_negative :
    (IceFeedback.new none (collectNegativeExamples copyLoop copyLoopCfg (copyOracle 1 0)
        copyPostconditions)).screensOut yIsZero = true ∧
      checkLoopInvariantVerbose copyLoop copyLoopCfg yIsZero (copyOracle 1 0) copyPostconditions
        [] = .accepted := by
  decide

end CopyLoop

end MayMust
