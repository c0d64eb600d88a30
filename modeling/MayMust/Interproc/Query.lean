import MayMust.Interproc.Summaries
import MayMust.Library.Antichain
import MayMust.Smt.Oracle

/-!
# Queries and the merging of summaries

A query asks whether a postcondition of a procedure can be reached from a precondition. A summary
covers a query when the summary answers it: a not-may summary has the weaker conditions, a must
summary the stronger ones. The merge operations keep of every procedure's summaries only those no
other one covers.

With an oracle that decides the implications between the formulas involved
(`Oracle.ExactOn`), after any history of merges the entries of a procedure are pairwise
incomparable and the table covers a query exactly when some merged summary does.

When the oracle fails while entries are being dropped, the source has already moved them out of
the table: `mergeNotmay` then leaves the procedure without entries. `table_kept_on_error_iff` says
when an error leaves the table alone.
-/

namespace MayMust

open Library

/-- Can `post` be reached from `pre` in the procedure? -/
structure Query where
  procedure : String
  pre : Formula
  post : Formula
  deriving DecidableEq

/-- Result of a subsumption check. -/
inductive Subsumption
  | covers
  | doesNotCover
  | oracleUnknown
  deriving DecidableEq, Repr

/-- `Subsumption::is_covering`. -/
def Subsumption.isCovering : Subsumption → Bool
  | covers => true
  | _ => false

section Covers

variable (oracle : Oracle)

/-- `implies_with_shortcuts`. -/
def impliesWithShortcuts (lhs rhs : Formula) : Except OracleError Subsumption :=
  if lhs = rhs then .ok .covers
  else if lhs = .fls then .ok .covers
  else if rhs = .tru then .ok .covers
  else
    match oracle.implies lhs rhs with
    | .error e => .error e
    | .ok .valid => .ok .covers
    | .ok .invalid => .ok .doesNotCover
    | .ok .unknown => .ok .oracleUnknown

/-- The two implications of a subsumption check: the second is asked only where the first
covers. -/
def bothImplied (pre post : Formula × Formula) : Except OracleError Subsumption :=
  match impliesWithShortcuts oracle pre.1 pre.2 with
  | .error e => .error e
  | .ok .covers => impliesWithShortcuts oracle post.1 post.2
  | .ok other => .ok other

/-- `notmay_covers`: the query's conditions imply the summary's. -/
def notmayCovers (summary : NotMaySummary) (query : Query) : Except OracleError Subsumption :=
  bothImplied oracle (query.pre, summary.precondition) (query.post, summary.postcondition)

/-- `must_covers`: the summary's conditions imply the query's. -/
def mustCovers (summary : ContextualMustSummary) (query : Query) :
    Except OracleError Subsumption :=
  bothImplied oracle (summary.precondition, query.pre) (summary.postcondition, query.post)

/-- The query a summary answers, as the merges build it: the procedure is not looked at. -/
def NotMaySummary.asQuery (summary : NotMaySummary) : Query :=
  ⟨"", summary.precondition, summary.postcondition⟩

/-- The query a must summary answers. -/
def ContextualMustSummary.asQuery (summary : ContextualMustSummary) : Query :=
  ⟨"", summary.precondition, summary.postcondition⟩

end Covers

namespace ContextualSummaryTable

variable (table : ContextualSummaryTable) (oracle : Oracle)

/-- `ContextualSummaryTable::merge_notmay`: the table afterwards, and whether the summary was
kept. -/
def mergeNotmay (procedure : String) (summary : NotMaySummary) :
    ContextualSummaryTable × Except OracleError Bool :=
  let (entries, kept) :=
    mergeEntry (fun s s' ↦ (notmayCovers oracle s s'.asQuery).map Subsumption.isCovering) summary
      (table.notmay procedure)
  ({ table with notmay := Function.update table.notmay procedure entries }, kept)

/-- `ContextualSummaryTable::merge_must`. -/
def mergeMust (procedure : String) (summary : ContextualMustSummary) :
    ContextualSummaryTable × Except OracleError Bool :=
  let (entries, kept) :=
    mergeEntry (fun s s' ↦ (mustCovers oracle s s'.asQuery).map Subsumption.isCovering) summary
      (table.must procedure)
  ({ table with must := Function.update table.must procedure entries }, kept)

/-- The first summary that covers the query. -/
def lookupCovering {σ : Type} (covers : σ → Except OracleError Subsumption) :
    List σ → Except OracleError (Option σ)
  | [] => .ok none
  | summary :: rest =>
    match covers summary with
    | .error e => .error e
    | .ok .covers => .ok (some summary)
    | .ok _ => lookupCovering covers rest

/-- `ContextualSummaryTable::lookup_notmay_covering`. -/
def lookupNotmayCovering (query : Query) : Except OracleError (Option NotMaySummary) :=
  lookupCovering (fun summary ↦ notmayCovers oracle summary query) (table.notmay query.procedure)

/-- `ContextualSummaryTable::lookup_must_covering`. -/
def lookupMustCovering (query : Query) : Except OracleError (Option ContextualMustSummary) :=
  lookupCovering (fun summary ↦ mustCovers oracle summary query) (table.must query.procedure)

end ContextualSummaryTable

/-! ### Histories of merges -/

/-- One merge into the table. -/
inductive Merge
  | notmay (procedure : String) (summary : NotMaySummary)
  | must (procedure : String) (summary : ContextualMustSummary)

/-- The table after a merge. -/
def Merge.apply (oracle : Oracle) (table : ContextualSummaryTable) : Merge → ContextualSummaryTable
  | notmay procedure summary => (table.mergeNotmay oracle procedure summary).1
  | must procedure summary => (table.mergeMust oracle procedure summary).1

/-- The table after a history of merges into the empty table. -/
def tableAfter (oracle : Oracle) (history : List Merge) : ContextualSummaryTable :=
  history.foldl (Merge.apply oracle) .new

/-- The not-may summaries a history merges for a procedure. -/
def mergedNotmay (procedure : String) (history : List Merge) : List NotMaySummary :=
  history.filterMap fun
    | .notmay name summary => if name = procedure then some summary else none
    | .must .. => none

/-- The must summaries a history merges for a procedure. -/
def mergedMust (procedure : String) (history : List Merge) : List ContextualMustSummary :=
  history.filterMap fun
    | .must name summary => if name = procedure then some summary else none
    | .notmay .. => none

/-- The formulas of a merge. -/
def Merge.formulas : Merge → List Formula
  | notmay _ summary => [summary.precondition, summary.postcondition]
  | must _ summary => [summary.precondition, summary.postcondition]

/-- Every state of one formula is a state of the other. -/
def Formula.Entails (φ ψ : Formula) : Prop := ∀ s, φ.Holds s → ψ.Holds s

theorem Formula.Entails.trans {φ ψ χ : Formula} (h : φ.Entails ψ) (h' : ψ.Entails χ) :
    φ.Entails χ := fun s hs ↦ h' s (h s hs)

/-- The oracle decides every implication between the given formulas. -/
def Oracle.ExactOn (oracle : Oracle) (formulas : List Formula) : Prop :=
  ∀ φ ∈ formulas, ∀ ψ ∈ formulas,
    (φ.Entails ψ → oracle.implies φ ψ = .ok .valid) ∧
      (¬ φ.Entails ψ → oracle.implies φ ψ = .ok .invalid)

namespace Oracle.ExactOn

variable {oracle : Oracle} {formulas formulas' : List Formula} {φ ψ φ' ψ' : Formula}

theorem mono (h : oracle.ExactOn formulas') (hsub : ∀ φ ∈ formulas, φ ∈ formulas') :
    oracle.ExactOn formulas :=
  fun φ hφ ψ hψ ↦ h φ (hsub φ hφ) ψ (hsub ψ hψ)

/-- The shortcuts agree with the oracle. -/
theorem impliesWithShortcuts (h : oracle.ExactOn formulas) (hφ : φ ∈ formulas)
    (hψ : ψ ∈ formulas) : MayMust.impliesWithShortcuts oracle φ ψ = .ok .covers ∧ φ.Entails ψ ∨
      MayMust.impliesWithShortcuts oracle φ ψ = .ok .doesNotCover ∧ ¬ φ.Entails ψ := by
  rw [MayMust.impliesWithShortcuts]
  split_ifs with heq hfls htru
  · exact Or.inl ⟨rfl, fun s hs ↦ heq ▸ hs⟩
  · exact Or.inl ⟨rfl, fun s hs ↦ absurd (hfls ▸ hs) (Formula.not_holds_fls s)⟩
  · exact Or.inl ⟨rfl, fun s _ ↦ htru ▸ Formula.holds_tru s⟩
  by_cases hentails : φ.Entails ψ
  · exact Or.inl ⟨by rw [(h φ hφ ψ hψ).1 hentails], hentails⟩
  · exact Or.inr ⟨by rw [(h φ hφ ψ hψ).2 hentails], hentails⟩

/-- A subsumption check decides its two implications. -/
theorem bothImplied (h : oracle.ExactOn formulas) (hφ : φ ∈ formulas) (hψ : ψ ∈ formulas)
    (hφ' : φ' ∈ formulas) (hψ' : ψ' ∈ formulas) :
    MayMust.bothImplied oracle (φ, ψ) (φ', ψ') = .ok .covers ∧ φ.Entails ψ ∧ φ'.Entails ψ' ∨
      MayMust.bothImplied oracle (φ, ψ) (φ', ψ') = .ok .doesNotCover ∧
        ¬ (φ.Entails ψ ∧ φ'.Entails ψ') := by
  rw [MayMust.bothImplied]
  rcases h.impliesWithShortcuts hφ hψ with ⟨hpre, hentails⟩ | ⟨hpre, hentails⟩
  · rcases h.impliesWithShortcuts hφ' hψ' with ⟨hpost, hentails'⟩ | ⟨hpost, hentails'⟩
    · exact Or.inl ⟨by simp only [hpre, hpost], hentails, hentails'⟩
    · exact Or.inr ⟨by simp only [hpre, hpost], fun hc ↦ hentails' hc.2⟩
  · exact Or.inr ⟨by simp only [hpre], fun hc ↦ hentails hc.1⟩

end Oracle.ExactOn

/-! ### What covering means -/

/-- A not-may summary answers the queries with stronger conditions. -/
def NotMaySummary.Covers (summary : NotMaySummary) (query : Query) : Prop :=
  query.pre.Entails summary.precondition ∧ query.post.Entails summary.postcondition

/-- A must summary answers the queries with weaker conditions. -/
def ContextualMustSummary.Covers (summary : ContextualMustSummary) (query : Query) : Prop :=
  summary.precondition.Entails query.pre ∧ summary.postcondition.Entails query.post

theorem NotMaySummary.Covers.trans {s s' : NotMaySummary} {query : Query}
    (h : s.Covers s'.asQuery) (h' : s'.Covers query) : s.Covers query :=
  ⟨h'.1.trans h.1, h'.2.trans h.2⟩

theorem ContextualMustSummary.Covers.trans {s s' : ContextualMustSummary} {query : Query}
    (h : s.Covers s'.asQuery) (h' : s'.Covers query) : s.Covers query :=
  ⟨h.1.trans h'.1, h.2.trans h'.2⟩

/-- A subsumption check that answers, and whose answer is the given proposition. -/
def Settles (check : Except OracleError Subsumption) (P : Prop) : Prop :=
  check = .ok .covers ∧ P ∨ check = .ok .doesNotCover ∧ ¬ P

theorem Settles.covers_iff {check : Except OracleError Subsumption} {P : Prop}
    (h : Settles check P) : check = .ok .covers ↔ P := by
  rcases h with ⟨rfl, hP⟩ | ⟨rfl, hP⟩
  · simp [hP]
  · simp [hP]

theorem Settles.decides {σ : Type} {check : σ → σ → Except OracleError Subsumption}
    {covers : σ → σ → Prop} {s s' : σ} (h : Settles (check s s') (covers s s')) :
    Decides (fun s s' ↦ (check s s').map Subsumption.isCovering) covers s s' := by
  rcases h with ⟨hcheck, hcov⟩ | ⟨hcheck, hcov⟩
  · exact ⟨true, by simp [hcheck, Except.map, Subsumption.isCovering], by simp [hcov]⟩
  · exact ⟨false, by simp [hcheck, Except.map, Subsumption.isCovering], by simp [hcov]⟩

theorem Oracle.ExactOn.notmayCovers {oracle : Oracle} {formulas : List Formula}
    (h : oracle.ExactOn formulas) {summary : NotMaySummary} {query : Query}
    (hpre : query.pre ∈ formulas) (hpost : query.post ∈ formulas)
    (hpre' : summary.precondition ∈ formulas) (hpost' : summary.postcondition ∈ formulas) :
    Settles (MayMust.notmayCovers oracle summary query) (summary.Covers query) :=
  h.bothImplied hpre hpre' hpost hpost'

theorem Oracle.ExactOn.mustCovers {oracle : Oracle} {formulas : List Formula}
    (h : oracle.ExactOn formulas) {summary : ContextualMustSummary} {query : Query}
    (hpre : query.pre ∈ formulas) (hpost : query.post ∈ formulas)
    (hpre' : summary.precondition ∈ formulas) (hpost' : summary.postcondition ∈ formulas) :
    Settles (MayMust.mustCovers oracle summary query) (summary.Covers query) :=
  h.bothImplied hpre' hpre hpost' hpost

/-- The lookup finds a summary exactly when some entry covers. -/
theorem exists_lookupCovering_iff {σ : Type} {covers : σ → Except OracleError Subsumption}
    {P : σ → Prop} {entries : List σ} (h : ∀ s ∈ entries, Settles (covers s) (P s)) :
    (∃ s, ContextualSummaryTable.lookupCovering covers entries = .ok (some s)) ↔
      ∃ s ∈ entries, P s := by
  induction entries with
  | nil => simp [ContextualSummaryTable.lookupCovering]
  | cons s rest ih =>
    rw [List.forall_mem_cons] at h
    rcases h.1 with ⟨hcheck, hP⟩ | ⟨hcheck, hP⟩
    · simp [ContextualSummaryTable.lookupCovering, hcheck, hP]
    · simp only [ContextualSummaryTable.lookupCovering, hcheck, ih h.2, List.exists_mem_cons_iff,
        hP, false_or]

/-- Absorbed entries are incomparable for checks that are settled. -/
theorem pairwise_absorbed_of_settles {σ : Type} {check : σ → σ → Except OracleError Subsumption}
    {covers : σ → σ → Prop} {merged : List σ}
    (h : ∀ s ∈ merged, ∀ s' ∈ merged, Settles (check s s') (covers s s')) :
    (merged.foldl (absorb covers) []).Pairwise
      (Incomparable fun s s' ↦ check s s' = .ok .covers) := by
  refine (pairwise_foldl_absorb _ List.Pairwise.nil).imp_of_mem fun hs hs' hne ↦ ?_
  have hs := (mem_foldl_absorb hs).resolve_left List.not_mem_nil
  have hs' := (mem_foldl_absorb hs').resolve_left List.not_mem_nil
  exact ⟨fun hcovers ↦ hne.1 ((h _ hs _ hs').covers_iff.1 hcovers),
    fun hcovers ↦ hne.2 ((h _ hs' _ hs).covers_iff.1 hcovers)⟩

/-- Among absorbed entries a lookup finds one exactly when some merged entry covers. -/
theorem exists_lookupCovering_absorbed_iff {σ : Type} {check : σ → Except OracleError Subsumption}
    {covers : σ → σ → Prop} {P : σ → Prop} {merged : List σ}
    (h : ∀ s ∈ merged, Settles (check s) (P s)) (htrans : ∀ s s', covers s s' → P s' → P s) :
    (∃ s, ContextualSummaryTable.lookupCovering check (merged.foldl (absorb covers) []) =
      .ok (some s)) ↔ ∃ s ∈ merged, check s = .ok .covers := by
  have habsorbed : ∀ s ∈ merged.foldl (absorb covers) [], Settles (check s) (P s) := fun s hs ↦
    h s ((mem_foldl_absorb hs).resolve_left List.not_mem_nil)
  have hcovered : (∃ s ∈ merged.foldl (absorb covers) [], P s) ↔ ∃ s ∈ [] ++ merged, P s :=
    @exists_covers_foldl_absorb σ covers [] Unit (fun s _ ↦ P s) () merged
      fun s _ s' _ hss' hs' ↦ htrans s s' hss' hs'
  rw [exists_lookupCovering_iff habsorbed, hcovered, List.nil_append]
  exact exists_congr fun s ↦ and_congr_right fun hs ↦ (h s hs).covers_iff.symm

/-! ### The table after a history -/

section History

variable {oracle : Oracle} {history : List Merge}

theorem mem_mergedNotmay {procedure : String} {summary : NotMaySummary} :
    summary ∈ mergedNotmay procedure history ↔ Merge.notmay procedure summary ∈ history := by
  simp only [mergedNotmay, List.mem_filterMap]
  constructor
  · rintro ⟨⟨name, s⟩ | ⟨name, s⟩, hmem, hs⟩
    · dsimp only at hs
      split_ifs at hs with hname
      obtain rfl : s = summary := Option.some.inj hs
      exact hname ▸ hmem
    · cases hs
  · exact fun hmem ↦ ⟨_, hmem, by simp⟩

theorem mem_mergedMust {procedure : String} {summary : ContextualMustSummary} :
    summary ∈ mergedMust procedure history ↔ Merge.must procedure summary ∈ history := by
  simp only [mergedMust, List.mem_filterMap]
  constructor
  · rintro ⟨⟨name, s⟩ | ⟨name, s⟩, hmem, hs⟩
    · cases hs
    · dsimp only at hs
      split_ifs at hs with hname
      obtain rfl : s = summary := Option.some.inj hs
      exact hname ▸ hmem
  · exact fun hmem ↦ ⟨_, hmem, by simp⟩

/-- The entries of a procedure come from the merges for that procedure alone, in order. -/
theorem notmay_foldl_apply (table : ContextualSummaryTable) (procedure : String) :
    (history.foldl (Merge.apply oracle) table).notmay procedure =
      (mergedNotmay procedure history).foldl (fun entries summary ↦ (mergeEntry
        (fun s s' ↦ (notmayCovers oracle s s'.asQuery).map Subsumption.isCovering)
        summary entries).1) (table.notmay procedure) := by
  induction history generalizing table with
  | nil => rfl
  | cons op rest ih =>
    rw [List.foldl_cons, ih]
    cases op with
    | notmay name summary =>
      by_cases hname : name = procedure
      · subst hname
        simp [mergedNotmay, Merge.apply, ContextualSummaryTable.mergeNotmay]
      · simp [mergedNotmay, Merge.apply, ContextualSummaryTable.mergeNotmay, hname,
          Function.update_of_ne (Ne.symm hname)]
    | must name summary => rfl

theorem must_foldl_apply (table : ContextualSummaryTable) (procedure : String) :
    (history.foldl (Merge.apply oracle) table).must procedure =
      (mergedMust procedure history).foldl (fun entries summary ↦ (mergeEntry
        (fun s s' ↦ (mustCovers oracle s s'.asQuery).map Subsumption.isCovering)
        summary entries).1) (table.must procedure) := by
  induction history generalizing table with
  | nil => rfl
  | cons op rest ih =>
    rw [List.foldl_cons, ih]
    cases op with
    | notmay name summary => rfl
    | must name summary =>
      by_cases hname : name = procedure
      · subst hname
        simp [mergedMust, Merge.apply, ContextualSummaryTable.mergeMust]
      · simp [mergedMust, Merge.apply, ContextualSummaryTable.mergeMust, hname,
          Function.update_of_ne (Ne.symm hname)]

theorem formulas_of_mem_mergedNotmay {procedure : String} {summary : NotMaySummary}
    (h : summary ∈ mergedNotmay procedure history) :
    summary.precondition ∈ history.flatMap Merge.formulas ∧
      summary.postcondition ∈ history.flatMap Merge.formulas := by
  have hmem := mem_mergedNotmay.1 h
  exact ⟨List.mem_flatMap.2 ⟨_, hmem, by simp [Merge.formulas]⟩,
    List.mem_flatMap.2 ⟨_, hmem, by simp [Merge.formulas]⟩⟩

theorem formulas_of_mem_mergedMust {procedure : String} {summary : ContextualMustSummary}
    (h : summary ∈ mergedMust procedure history) :
    summary.precondition ∈ history.flatMap Merge.formulas ∧
      summary.postcondition ∈ history.flatMap Merge.formulas := by
  have hmem := mem_mergedMust.1 h
  exact ⟨List.mem_flatMap.2 ⟨_, hmem, by simp [Merge.formulas]⟩,
    List.mem_flatMap.2 ⟨_, hmem, by simp [Merge.formulas]⟩⟩

/-- The checks between merged summaries are decided. -/
theorem settles_mergedNotmay (hexact : oracle.ExactOn (history.flatMap Merge.formulas))
    {procedure : String} {s s' : NotMaySummary} (hs : s ∈ mergedNotmay procedure history)
    (hs' : s' ∈ mergedNotmay procedure history) :
    Settles (notmayCovers oracle s s'.asQuery) (s.Covers s'.asQuery) :=
  have hf := formulas_of_mem_mergedNotmay hs
  have hf' := formulas_of_mem_mergedNotmay hs'
  hexact.notmayCovers hf'.1 hf'.2 hf.1 hf.2

theorem settles_mergedMust (hexact : oracle.ExactOn (history.flatMap Merge.formulas))
    {procedure : String} {s s' : ContextualMustSummary} (hs : s ∈ mergedMust procedure history)
    (hs' : s' ∈ mergedMust procedure history) :
    Settles (mustCovers oracle s s'.asQuery) (s.Covers s'.asQuery) :=
  have hf := formulas_of_mem_mergedMust hs
  have hf' := formulas_of_mem_mergedMust hs'
  hexact.mustCovers hf'.1 hf'.2 hf.1 hf.2

/-- With exact implications the entries of a procedure are its merged summaries, absorbed. -/
theorem notmay_tableAfter (hexact : oracle.ExactOn (history.flatMap Merge.formulas))
    (procedure : String) : (tableAfter oracle history).notmay procedure =
      (mergedNotmay procedure history).foldl (absorb fun s s' ↦ s.Covers s'.asQuery) [] := by
  rw [tableAfter, notmay_foldl_apply]
  refine foldl_mergeEntry_fst fun s hs s' hs' ↦ ?_
  have hsettles := settles_mergedNotmay hexact hs hs'
  exact hsettles.decides

theorem must_tableAfter (hexact : oracle.ExactOn (history.flatMap Merge.formulas))
    (procedure : String) : (tableAfter oracle history).must procedure =
      (mergedMust procedure history).foldl (absorb fun s s' ↦ s.Covers s'.asQuery) [] := by
  rw [tableAfter, must_foldl_apply]
  refine foldl_mergeEntry_fst fun s hs s' hs' ↦ ?_
  have hsettles := settles_mergedMust hexact hs hs'
  exact hsettles.decides

/-- **Merging keeps antichains and loses no coverage.** With an oracle that decides the
implications between the formulas involved, after every history of merges no entry of a procedure
covers another one, and a lookup finds a covering entry exactly when some summary merged for that
procedure covers the query. -/
theorem antichain_and_coverage_tableAfter
    (hexact : oracle.ExactOn (history.flatMap Merge.formulas)) :
    (∀ procedure, ((tableAfter oracle history).notmay procedure).Pairwise
      (Incomparable fun s s' ↦ notmayCovers oracle s s'.asQuery = .ok .covers)) ∧
    (∀ procedure, ((tableAfter oracle history).must procedure).Pairwise
      (Incomparable fun s s' ↦ mustCovers oracle s s'.asQuery = .ok .covers)) ∧
    ∀ query : Query, oracle.ExactOn (query.pre :: query.post :: history.flatMap Merge.formulas) →
      ((∃ s, (tableAfter oracle history).lookupNotmayCovering oracle query = .ok (some s)) ↔
        ∃ s, Merge.notmay query.procedure s ∈ history ∧
          notmayCovers oracle s query = .ok .covers) ∧
      ((∃ s, (tableAfter oracle history).lookupMustCovering oracle query = .ok (some s)) ↔
        ∃ s, Merge.must query.procedure s ∈ history ∧
          mustCovers oracle s query = .ok .covers) := by
  refine ⟨fun procedure ↦ ?_, fun procedure ↦ ?_, fun query hquery ↦ ⟨?_, ?_⟩⟩
  · rw [notmay_tableAfter hexact procedure]
    exact pairwise_absorbed_of_settles fun s hs s' hs' ↦ settles_mergedNotmay hexact hs hs'
  · rw [must_tableAfter hexact procedure]
    exact pairwise_absorbed_of_settles fun s hs s' hs' ↦ settles_mergedMust hexact hs hs'
  · have hsettles : ∀ s ∈ mergedNotmay query.procedure history,
        Settles (notmayCovers oracle s query) (s.Covers query) := fun s hs ↦
      have hf := formulas_of_mem_mergedNotmay hs
      hquery.notmayCovers (by simp) (by simp) (by simp [hf.1]) (by simp [hf.2])
    rw [ContextualSummaryTable.lookupNotmayCovering, notmay_tableAfter hexact query.procedure,
      exists_lookupCovering_absorbed_iff hsettles fun _ _ h h' ↦ NotMaySummary.Covers.trans h h']
    exact exists_congr fun s ↦ and_congr_left fun _ ↦ mem_mergedNotmay
  · have hsettles : ∀ s ∈ mergedMust query.procedure history,
        Settles (mustCovers oracle s query) (s.Covers query) := fun s hs ↦
      have hf := formulas_of_mem_mergedMust hs
      hquery.mustCovers (by simp) (by simp) (by simp [hf.1]) (by simp [hf.2])
    rw [ContextualSummaryTable.lookupMustCovering, must_tableAfter hexact query.procedure,
      exists_lookupCovering_absorbed_iff hsettles fun _ _ h h' ↦
        ContextualMustSummary.Covers.trans h h']
    exact exists_congr fun s ↦ and_congr_left fun _ ↦ mem_mergedMust

/-- A solver that decides the implications between `true` and `false`. -/
theorem exactOn_knowing_tru_fls :
    (Oracle.knowing [.not .tru, .fls] [.not .fls]).ExactOn [.tru, .fls] := by
  have htru : Formula.Entails .tru .tru := fun s hs ↦ hs
  have hfls (ψ : Formula) : Formula.Entails .fls ψ := fun s hs ↦ absurd hs (Formula.not_holds_fls s)
  have hne : ¬ Formula.Entails .tru .fls := fun h ↦
    Formula.not_holds_fls .zero (h .zero (Formula.holds_tru _))
  intro φ hφ ψ hψ
  rcases List.mem_pair.1 hφ with rfl | rfl
  · rcases List.mem_pair.1 hψ with rfl | rfl
    · exact ⟨fun _ ↦ by decide, fun h ↦ absurd htru h⟩
    · exact ⟨fun h ↦ absurd h hne, fun _ ↦ by decide⟩
  · rcases List.mem_pair.1 hψ with rfl | rfl
    · exact ⟨fun _ ↦ by decide, fun h ↦ absurd (hfls _) h⟩
    · exact ⟨fun _ ↦ by decide, fun h ↦ absurd (hfls _) h⟩

/-- The general statement after a weaker summary replaced a stronger one: the stronger one's
query is still covered. -/
theorem antichain_and_coverage_weakened :
    let oracle := Oracle.knowing [.not .tru, .fls] [.not .fls]
    let history := [Merge.notmay "f" ⟨.tru, .fls⟩, Merge.must "f" ⟨.fls, .tru⟩,
      Merge.notmay "f" ⟨.tru, .tru⟩]
    ∃ s, (tableAfter oracle history).lookupNotmayCovering oracle ⟨"f", .tru, .fls⟩ =
      .ok (some s) := by
  intro oracle history
  have hsub : ∀ φ ∈ history.flatMap Merge.formulas, φ ∈ [Formula.tru, .fls] := by decide
  refine (((antichain_and_coverage_tableAfter (exactOn_knowing_tru_fls.mono hsub)).2.2 _
    (exactOn_knowing_tru_fls.mono ?_)).1).2 ⟨⟨.tru, .fls⟩, by simp [history], by decide⟩
  exact List.forall_mem_cons.2 ⟨by decide, List.forall_mem_cons.2 ⟨by decide, hsub⟩⟩

end History

/-! ### Errors of a merge -/

section MergeErrors

/-- A subsumption check that answers something else than "covers". -/
def Rejects (check : Except OracleError Subsumption) : Prop :=
  ∃ answer, check = .ok answer ∧ answer ≠ .covers

/-- A merge either fails on no entry it is dropping, or never gets to dropping entries: `covers`
is the check of one summary against another, `new` the newcomer. -/
def FailsBeforeDropping {σ : Type} (covers : σ → σ → Except OracleError Subsumption) (new : σ)
    (entries : List σ) : Prop :=
  (∀ old ∈ entries, Rejects (covers old new)) →
    ∀ old ∈ entries, ∃ answer, covers new old = .ok answer

theorem map_isCovering_eq_ok_false {check : Except OracleError Subsumption} :
    check.map Subsumption.isCovering = .ok false ↔ Rejects check := by
  rcases check with e | answer
  · simp [Except.map, Rejects]
  · cases answer
    · simp [Except.map, Rejects, Subsumption.isCovering]
    · simp [Except.map, Rejects, Subsumption.isCovering]
    · simp [Except.map, Rejects, Subsumption.isCovering]

theorem answers_map_isCovering {σ : Type} {covers : σ → σ → Except OracleError Subsumption}
    {s s' : σ} : Answers (fun s s' ↦ (covers s s').map Subsumption.isCovering) s s' ↔
      ∃ answer, covers s s' = .ok answer := by
  rw [Answers]
  rcases covers s s' with e | answer
  · simp [Except.map]
  · simp [Except.map]

/-- The general lemma about errors of a merge at subsumption checks. -/
theorem mergeEntry_isCovering_keeps_iff {σ : Type}
    {covers : σ → σ → Except OracleError Subsumption} {new : σ} {entries : List σ} :
    (∀ e, (mergeEntry (fun s s' ↦ (covers s s').map Subsumption.isCovering) new entries).2 =
        .error e →
      (mergeEntry (fun s s' ↦ (covers s s').map Subsumption.isCovering) new entries).1 = entries) ↔
    FailsBeforeDropping covers new entries := by
  rw [mergeEntry_keeps_iff, FailsBeforeDropping]
  simp only [map_isCovering_eq_ok_false, answers_map_isCovering]

variable (table : ContextualSummaryTable) (oracle : Oracle) (procedure : String)

/-- **When an error of a merge leaves the table alone.** Exactly when the failing check comes
before entries are dropped: the source drains the entries while it asks the oracle about them. -/
theorem table_kept_on_error_iff :
    (∀ new : NotMaySummary,
      ((∀ e, (table.mergeNotmay oracle procedure new).2 = .error e →
          (table.mergeNotmay oracle procedure new).1 = table) ↔
        FailsBeforeDropping (fun s s' ↦ notmayCovers oracle s s'.asQuery) new
          (table.notmay procedure))) ∧
    ∀ new : ContextualMustSummary,
      ((∀ e, (table.mergeMust oracle procedure new).2 = .error e →
          (table.mergeMust oracle procedure new).1 = table) ↔
        FailsBeforeDropping (fun s s' ↦ mustCovers oracle s s'.asQuery) new
          (table.must procedure)) := by
  obtain ⟨notmay, must, forwardMay⟩ := table
  refine ⟨fun new ↦ ?_, fun new ↦ ?_⟩
  · rw [← mergeEntry_isCovering_keeps_iff]
    refine forall_congr' fun e ↦ imp_congr_right fun _ ↦ ?_
    simp only [ContextualSummaryTable.mergeNotmay, ContextualSummaryTable.mk.injEq, and_true,
      Function.update_eq_self_iff]
  · rw [← mergeEntry_isCovering_keeps_iff]
    refine forall_congr' fun e ↦ imp_congr_right fun _ ↦ ?_
    simp only [ContextualSummaryTable.mergeMust, ContextualSummaryTable.mk.injEq, and_true,
      true_and, Function.update_eq_self_iff]

/-- A procedure with one entry loses it to a newcomer with an ill-sorted postcondition: the
entry's precondition does not follow from the newcomer's, so the first pass never looks at the
postconditions. -/
theorem entry_lost_on_error :
    let oracle := Oracle.knowing [] [.not .fls]
    let table : ContextualSummaryTable :=
      { ContextualSummaryTable.new with notmay := fun _ ↦ [⟨.fls, .tru⟩] }
    let new : NotMaySummary := ⟨.tru, .lt (.var (.bool "b")) (.int 0)⟩
    (table.mergeNotmay oracle "f" new).2 =
        .error (.formula (.mixedSorts .bool .int)) ∧
      (table.mergeNotmay oracle "f" new).1.notmay "f" = [] ∧
      (table.mergeNotmay oracle "f" new).1 ≠ table := by
  intro oracle table new
  have hempty : (table.mergeNotmay oracle "f" new).1.notmay "f" = [] := by decide
  refine ⟨by decide, hempty, fun heq ↦ ?_⟩
  rw [heq] at hempty
  exact absurd hempty (by decide)

end MergeErrors

end MayMust
