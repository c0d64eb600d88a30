import MayMust.Formula.Normal
import MayMust.Formula.SortRules
import MayMust.Frontend.Assertions.Grammar
import MayMust.Frontend.Assertions.Translation

/-!
# The sorts of identifiers

What translation makes of an expression validates and uses an identifier with a seed at its seeded
sort (`validated_of_lowerFormula`, `sort_of_mentions`). The sort of a comparison is inferred from its
own operands: it is `Real` if a decimal literal or an identifier seeded `Real` is among them, and
`Int` otherwise (`sort_of_inferNumericSort`). So `Expr.uses` lists, for an expression, at which
sorts the translation uses which identifiers. An identifier without a seed is used at one sort if
the list has one sort for it, and only then (`wellSortedIn_iff`): the literals of a text are
numerals, so simplification never drops a comparison.
-/

namespace MayMust.Assertions

open Library

variable {seeds : SortSeeds}

/-! ### Inference -/

/-- Some identifier or literal of the expression has only this numeric sort. -/
def Expr.Forces (seeds : SortSeeds) (sort : VarSort) : Expr → Prop
  | .ident name => seeds name = some sort
  | .const value => sort = .real ∧ '.' ∈ value.toList
  | .unop inner => inner.Forces seeds sort
  | .binop lhs _ rhs => lhs.Forces seeds sort ∨ rhs.Forces seeds sort

instance Expr.decidableForces (seeds : SortSeeds) (sort : VarSort) :
    (e : Expr) → Decidable (e.Forces seeds sort)
  | .ident name => inferInstanceAs (Decidable (seeds name = some sort))
  | .const value => inferInstanceAs (Decidable (sort = .real ∧ '.' ∈ value.toList))
  | .unop inner => inner.decidableForces seeds sort
  | .binop lhs _ rhs =>
    @instDecidableOr _ _ (lhs.decidableForces seeds sort) (rhs.decidableForces seeds sort)

/-- The candidates of an operand: each numeric sort that nothing in it excludes. -/
structure Candidates (seeds : SortSeeds) (e : Expr) (sorts : Finset VarSort) : Prop where
  not_bool : .bool ∉ sorts
  int_iff : .int ∈ sorts ↔ ¬ e.Forces seeds .real
  real_iff : .real ∈ sorts ↔ ¬ e.Forces seeds .int

theorem someCandidate_eq_ok_iff {sorts sorts' : Finset VarSort} :
    someCandidate sorts = .ok sorts' ↔ sorts ≠ ∅ ∧ sorts = sorts' := by
  unfold someCandidate
  split_ifs with h
  · simp [h]
  · simp [h]

theorem candidates_of_candidateNumericSorts {e : Expr} {sorts : Finset VarSort}
    (h : candidateNumericSorts seeds e = .ok sorts) : Candidates seeds e sorts := by
  induction e generalizing sorts with
  | ident name =>
    rw [candidateNumericSorts, someCandidate_eq_ok_iff] at h
    obtain ⟨hne, rfl⟩ := h
    have hforces : ∀ sort, Expr.Forces seeds sort (.ident name) ↔ seeds name = some sort :=
      fun _ ↦ Iff.rfl
    cases hseed : seeds name with
    | none => constructor <;> simp [hforces, hseed]
    | some sort =>
      cases sort with
      | bool => simp [hseed] at hne
      | int => constructor <;> simp [hforces, hseed]
      | real => constructor <;> simp [hforces, hseed]
  | const value =>
    rw [candidateNumericSorts, someCandidate_eq_ok_iff] at h
    obtain ⟨-, rfl⟩ := h
    constructor <;> split_ifs with hpoint <;> simp [Expr.Forces, hpoint]
  | unop inner ih =>
    rw [candidateNumericSorts, bind_eq_ok] at h
    obtain ⟨sorts', hinner, h⟩ := h
    obtain ⟨-, rfl⟩ := someCandidate_eq_ok_iff.1 h
    exact ⟨(ih hinner).not_bool, (ih hinner).int_iff, (ih hinner).real_iff⟩
  | binop lhs op rhs ihl ihr =>
    rw [candidateNumericSorts] at h
    split_ifs at h
    · rw [bind_eq_ok] at h
      obtain ⟨lhsSorts, hl, h⟩ := h
      rw [bind_eq_ok] at h
      obtain ⟨rhsSorts, hr, h⟩ := h
      obtain ⟨-, rfl⟩ := someCandidate_eq_ok_iff.1 h
      constructor
      · exact fun hmem ↦ (ihl hl).not_bool (Finset.mem_of_mem_inter_left hmem)
      · rw [Finset.mem_inter, (ihl hl).int_iff, (ihr hr).int_iff, Expr.Forces, not_or]
      · rw [Finset.mem_inter, (ihl hl).real_iff, (ihr hr).real_iff, Expr.Forces, not_or]
    · exact absurd h (by simp [someCandidate])

/-- The sort of a comparison between the two operands, if it has one. -/
def comparisonSort (seeds : SortSeeds) (lhs rhs : Expr) : VarSort :=
  if lhs.Forces seeds .real ∨ rhs.Forces seeds .real then .real else .int

theorem comparisonSort_ne_bool (lhs rhs : Expr) : comparisonSort seeds lhs rhs ≠ .bool := by
  unfold comparisonSort
  split_ifs <;> decide

theorem sort_of_inferNumericSort {lhs rhs : Expr} {sort : VarSort}
    (h : inferNumericSort seeds lhs rhs = .ok sort) : sort = comparisonSort seeds lhs rhs := by
  rw [inferNumericSort, bind_eq_ok] at h
  obtain ⟨lhsSorts, hl, h⟩ := h
  rw [bind_eq_ok] at h
  obtain ⟨rhsSorts, hr, h⟩ := h
  have hcl := candidates_of_candidateNumericSorts hl
  have hcr := candidates_of_candidateNumericSorts hr
  have hint : .int ∈ lhsSorts ∩ rhsSorts ↔ ¬ (lhs.Forces seeds .real ∨ rhs.Forces seeds .real) := by
    rw [Finset.mem_inter, hcl.int_iff, hcr.int_iff, not_or]
  have hbool : .bool ∉ lhsSorts ∩ rhsSorts := fun hmem ↦
    hcl.not_bool (Finset.mem_of_mem_inter_left hmem)
  unfold comparisonSort
  dsimp only at h
  split_ifs at h with hempty hcard hboth
  · cases h
    rw [if_neg (hint.1 hboth.1)]
  · cases h
    rw [leastSort, if_neg hbool]
    split_ifs with hmem hforces hforces
    · exact absurd hforces (hint.1 hmem)
    · rfl
    · rfl
    · exact absurd (hint.2 hforces) hmem

/-! ### Terms -/

/-- The identifiers of an expression. -/
def Expr.idents : Expr → List String
  | .ident name => [name]
  | .const _ => []
  | .unop inner => inner.idents
  | .binop lhs _ rhs => lhs.idents ++ rhs.idents

/-- What `lower_term` makes of an operand: a term of the expected sort whose leaves are its
identifiers at that sort, which is no other than their seeded one. -/
structure LoweredTo (seeds : SortSeeds) (sort : VarSort) (e : Expr) (t : Term) : Prop where
  hasSort : t.HasSort sort
  leaves : ∀ x, x ∈ t.leaves ↔ ∃ name ∈ e.idents, x = .termVar ⟨name, sort⟩
  seeded : ∀ name ∈ e.idents, ∀ seed, seeds name = some seed → seed = sort

theorem lowerLiteral_eq_ok {value : String} {sort : VarSort} {t : Term}
    (h : lowerLiteral value sort = .ok t) : t.HasSort sort ∧ t.leaves = [] := by
  cases sort with
  | bool => cases h
  | int =>
    rw [lowerLiteral] at h
    cases hn : parseInt64 value.toList with
    | none => rw [hn] at h; cases h
    | some n => rw [hn] at h; cases h; exact ⟨rfl, rfl⟩
  | real =>
    rw [lowerLiteral, map_eq_ok] at h
    obtain ⟨q, -, rfl⟩ := h
    exact ⟨rfl, rfl⟩

theorem LoweredTo.binop {sort : VarSort} {lhs rhs : Expr} {l r t : Term} {op : Op}
    (hl : LoweredTo seeds sort lhs l) (hr : LoweredTo seeds sort rhs r) (ht : t.HasSort sort)
    (hleaves : t.leaves = l.leaves ++ r.leaves) : LoweredTo seeds sort (.binop lhs op rhs) t where
  hasSort := ht
  leaves x := by
    rw [hleaves, List.mem_append, hl.leaves, hr.leaves, Expr.idents]
    simp only [List.mem_append, or_and_right, exists_or]
  seeded name hname := (List.mem_append.1 hname).elim (hl.seeded name) (hr.seeded name)

theorem loweredTo_of_lowerTerm {sort : VarSort} {e : Expr} {t : Term}
    (h : lowerTerm seeds sort e = .ok t) : LoweredTo seeds sort e t := by
  induction e generalizing t with
  | ident name =>
    rw [lowerTerm] at h
    split_ifs at h
    have hleaf : ∀ x, x ∈ (Term.var ⟨name, sort⟩).leaves ↔
        ∃ name' ∈ (Expr.ident name).idents, x = .termVar ⟨name', sort⟩ := fun x ↦ by
      simp [Term.leaves, Expr.idents]
    cases hseed : seeds name with
    | none =>
      rw [hseed] at h
      cases h
      refine ⟨rfl, hleaf, fun name' hname seed h ↦ ?_⟩
      rw [List.mem_singleton.1 hname, hseed] at h
      cases h
    | some seed =>
      rw [hseed] at h
      dsimp only at h
      split_ifs at h with hne
      cases h
      refine ⟨rfl, hleaf, fun name' hname seed' h ↦ ?_⟩
      rw [List.mem_singleton.1 hname, hseed] at h
      exact (Option.some.inj h).symm.trans (not_not.1 hne)
  | const value =>
    rw [lowerTerm] at h
    split_ifs at h
    obtain ⟨hsort, hleaves⟩ := lowerLiteral_eq_ok h
    exact ⟨hsort, fun x ↦ by simp [hleaves, Expr.idents],
      fun name hname ↦ absurd hname List.not_mem_nil⟩
  | unop inner ih =>
    rw [lowerTerm] at h
    split_ifs at h with hbool
    rw [bind_eq_ok] at h
    obtain ⟨t', ht', h⟩ := h
    cases pure_eq_ok.1 h
    exact ⟨⟨(ih ht').hasSort, hbool⟩, (ih ht').leaves, (ih ht').seeded⟩
  | binop lhs op rhs ihl ihr =>
    rw [lowerTerm] at h
    split_ifs at h with hbool
    rw [bind_eq_ok] at h
    obtain ⟨l, hl, h⟩ := h
    rw [bind_eq_ok] at h
    obtain ⟨r, hr, h⟩ := h
    have hsort : l.HasSort sort ∧ r.HasSort sort ∧ sort ≠ .bool :=
      ⟨(ihl hl).hasSort, (ihr hr).hasSort, hbool⟩
    cases op with
    | plus | minus | mult | div =>
      cases pure_eq_ok.1 h
      exact (ihl hl).binop (ihr hr) hsort rfl
    | _ => cases h

/-! ### Formulas -/

/-- The formula reads the variable. -/
def Mentions (φ : Formula) (v : Var) : Prop := .boolVar v ∈ φ.leaves ∨ .termVar v ∈ φ.leaves

/-- The variables the translation uses for the identifiers of an expression, each where it
occurs. -/
def Expr.uses (seeds : SortSeeds) : Expr → List Var
  | .ident name => [.bool name]
  | .const _ => []
  | .unop inner => inner.uses seeds
  | .binop lhs op rhs =>
    if op = .lAnd ∨ op = .lOr then lhs.uses seeds ++ rhs.uses seeds
    else (lhs.idents ++ rhs.idents).map fun name ↦ ⟨name, comparisonSort seeds lhs rhs⟩

/-- What `lower_formula` makes of an expression: a formula that validates and reads the uses of the
expression, an identifier with a seed at its seeded sort. -/
structure TranslatedTo (seeds : SortSeeds) (e : Expr) (φ : Formula) : Prop where
  validated : φ.Validated
  mentions : ∀ v, Mentions φ v → v ∈ e.uses seeds
  seeded : ∀ v, Mentions φ v → ∀ seed, seeds v.name = some seed → v.sort = seed

/-- Nothing was dropped on the way: the formula reads all uses of the expression. -/
structure Complete (seeds : SortSeeds) (e : Expr) (φ : Formula) : Prop where
  normal : φ.Normal
  ne_tru : φ ≠ .tru
  ne_fls : φ ≠ .fls
  mentions : ∀ v ∈ e.uses seeds, Mentions φ v

theorem Complete.ne_unit {e : Expr} {φ : Formula} (h : Complete seeds e φ) (c : Connective) :
    φ ≠ c.unit := by
  cases c
  · exact h.ne_tru
  · exact h.ne_fls

theorem Complete.ne_absorber {e : Expr} {φ : Formula} (h : Complete seeds e φ) (c : Connective) :
    φ ≠ c.absorber := by
  cases c
  · exact h.ne_fls
  · exact h.ne_tru

/-- The constructors that `lower_comparison` is called with. -/
structure Compares (build : Term → Term → Formula) : Prop where
  leaves : ∀ l r, (build l r).leaves = l.leaves ++ r.leaves
  wellFormed : ∀ l r σ, l.HasSort σ → r.HasSort σ → σ ≠ .bool → (build l r).WellFormed
  single : ∀ l r, (∀ c : Connective, c.children? (build l r) = none) ∧ build l r ≠ .tru ∧
    build l r ≠ .fls

theorem hereditary_mentions (Q : Var → Prop) : Hereditary fun φ ↦ ∀ v, Mentions φ v → Q v := by
  have h : (fun φ : Formula ↦ ∀ v, Mentions φ v → Q v) = fun φ ↦ ∀ x ∈ φ.leaves,
      ∀ v, x = .boolVar v ∨ x = .termVar v → Q v := by
    funext φ
    refine propext ⟨fun h x hx v hv ↦ h v ?_, fun h v hv ↦ ?_⟩
    · obtain rfl | rfl := hv
      · exact .inl hx
      · exact .inr hx
    · exact hv.elim (fun h' ↦ h _ h' v (.inl rfl)) fun h' ↦ h _ h' v (.inr rfl)
  rw [h]
  exact hereditary_leaves _

section Comparison

variable {lhs rhs : Expr} {op : Op} {build : Term → Term → Formula} {φ : Formula}
  (hop : ¬ (op = .lAnd ∨ op = .lOr)) (hbuild : Compares build)
  (h : lowerComparison seeds lhs rhs build = .ok φ)
include hop hbuild h

theorem exists_of_lowerComparison : ∃ l r, φ = build l r ∧
    LoweredTo seeds (comparisonSort seeds lhs rhs) lhs l ∧
    LoweredTo seeds (comparisonSort seeds lhs rhs) rhs r ∧
    ∀ v, Mentions φ v ↔ v ∈ (Expr.binop lhs op rhs).uses seeds := by
  rw [lowerComparison, bind_eq_ok] at h
  obtain ⟨sort, hsort, h⟩ := h
  rw [bind_eq_ok] at h
  obtain ⟨l, hl, h⟩ := h
  rw [bind_eq_ok] at h
  obtain ⟨r, hr, h⟩ := h
  cases pure_eq_ok.1 h
  obtain rfl := sort_of_inferNumericSort hsort
  have hl' := loweredTo_of_lowerTerm hl
  have hr' := loweredTo_of_lowerTerm hr
  refine ⟨l, r, rfl, hl', hr', fun v ↦ ?_⟩
  rw [Mentions, hbuild.leaves, Expr.uses, if_neg hop]
  simp only [List.mem_append, hl'.leaves, hr'.leaves, List.mem_map]
  constructor
  · rintro ((⟨name, -, h⟩ | ⟨name, -, h⟩) | ⟨name, hname, h⟩ | ⟨name, hname, h⟩)
    · cases h
    · cases h
    · exact ⟨name, .inl hname, (Leaf.termVar.inj h).symm⟩
    · exact ⟨name, .inr hname, (Leaf.termVar.inj h).symm⟩
  · rintro ⟨name, hname, rfl⟩
    exact .inr (hname.imp (fun h ↦ ⟨name, h, rfl⟩) fun h ↦ ⟨name, h, rfl⟩)

/-- A comparison of two operands, through any of the constructors. -/
theorem translatedTo_of_lowerComparison : TranslatedTo seeds (.binop lhs op rhs) φ := by
  obtain ⟨l, r, rfl, hl, hr, huses⟩ := exists_of_lowerComparison hop hbuild h
  refine ⟨?_, fun v ↦ (huses v).1, fun v hv seed hseed ↦ ?_⟩
  · rw [Formula.validated_iff_wellFormed]
    exact hbuild.wellFormed l r _ hl.hasSort hr.hasSort (comparisonSort_ne_bool lhs rhs)
  · have hmem := (huses v).1 hv
    rw [Expr.uses, if_neg hop] at hmem
    obtain ⟨name, hname, rfl⟩ := List.mem_map.1 hmem
    exact ((List.mem_append.1 hname).elim (hl.seeded name · seed hseed)
      (hr.seeded name · seed hseed)).symm

theorem complete_of_lowerComparison : Complete seeds (.binop lhs op rhs) φ := by
  obtain ⟨l, r, rfl, -, -, huses⟩ := exists_of_lowerComparison hop hbuild h
  obtain ⟨hsingle, htru, hfls⟩ := hbuild.single l r
  exact ⟨.single hsingle, htru, hfls, fun v ↦ (huses v).2⟩

end Comparison

/-- The constructor an operator of comparison is lowered to. -/
def Op.comparison? : Op → Option (Term → Term → Formula)
  | eeq => some .eq
  | gt => some .gt
  | ge => some .ge
  | lt => some .lt
  | le => some .le
  | _ => none

theorem lowerFormula_of_comparison? {lhs rhs : Expr} {op : Op} {build : Term → Term → Formula}
    (h : op.comparison? = some build) :
    lowerFormula seeds (.binop lhs op rhs) = lowerComparison seeds lhs rhs build := by
  cases op <;> cases h <;> rfl

theorem compares_of_comparison? {op : Op} {build : Term → Term → Formula}
    (h : op.comparison? = some build) : Compares build := by
  cases op <;> cases h <;>
    exact ⟨fun _ _ ↦ rfl, fun _ _ σ hl hr hσ ↦ ⟨σ, hl, hr, hσ⟩,
      fun _ _ ↦ ⟨fun c ↦ by cases c <;> rfl, Formula.noConfusion, Formula.noConfusion⟩⟩

theorem not_connective_of_comparison? {op : Op} {build : Term → Term → Formula}
    (h : op.comparison? = some build) : ¬ (op = .lAnd ∨ op = .lOr) := by
  rintro (rfl | rfl) <;> cases h

/-- An expression that is lowered and combines two others compares them or connects them. -/
theorem lowerFormula_binop_eq_ok {lhs rhs : Expr} {op : Op} {φ : Formula}
    (h : lowerFormula seeds (.binop lhs op rhs) = .ok φ) :
    (∃ build, op.comparison? = some build ∧ lowerComparison seeds lhs rhs build = .ok φ) ∨
      ∃ (c : Connective) (l r : Formula), (op = .lAnd ∨ op = .lOr) ∧
        lowerFormula seeds lhs = .ok l ∧ lowerFormula seeds rhs = .ok r ∧ c.simplify [l, r] = φ := by
  cases hop : op.comparison? with
  | some build => exact .inl ⟨build, rfl, lowerFormula_of_comparison? hop ▸ h⟩
  | none =>
    cases op with
    | lAnd =>
      rw [lowerFormula, bind_eq_ok] at h
      obtain ⟨l, hl, h⟩ := h
      rw [bind_eq_ok] at h
      obtain ⟨r, hr, h⟩ := h
      exact .inr ⟨.conj, l, r, .inl rfl, hl, hr, pure_eq_ok.1 h⟩
    | lOr =>
      rw [lowerFormula, bind_eq_ok] at h
      obtain ⟨l, hl, h⟩ := h
      rw [bind_eq_ok] at h
      obtain ⟨r, hr, h⟩ := h
      exact .inr ⟨.disj, l, r, .inr rfl, hl, hr, pure_eq_ok.1 h⟩
    | eeq | gt | ge | lt | le => cases hop
    | _ => cases h

theorem translatedTo_of_lowerFormula {e : Expr} {φ : Formula}
    (h : lowerFormula seeds e = .ok φ) : TranslatedTo seeds e φ := by
  induction e generalizing φ with
  | ident name =>
    rw [lowerFormula] at h
    split_ifs at h with hsort
    cases h
    have hmentions : ∀ v, Mentions (Formula.boolVar name) v → v = .bool name := by
      rintro v (h | h)
      · exact Leaf.boolVar.inj (List.mem_singleton.1 h)
      · cases List.mem_singleton.1 h
    refine ⟨rfl, fun v hv ↦ List.mem_singleton.2 (hmentions v hv), fun v hv seed hseed ↦ ?_⟩
    rw [hmentions v hv] at hseed ⊢
    rw [show seeds name = some seed from hseed] at hsort
    exact (not_not.1 hsort).symm
  | const value =>
    rw [lowerFormula] at h
    split_ifs at h <;> cases h
    · exact ⟨rfl, fun v hv ↦ by simp [Mentions, Formula.leaves] at hv,
        fun v hv ↦ by simp [Mentions, Formula.leaves] at hv⟩
    · exact ⟨rfl, fun v hv ↦ by simp [Mentions, Formula.leaves] at hv,
        fun v hv ↦ by simp [Mentions, Formula.leaves] at hv⟩
  | unop inner ih =>
    rw [lowerFormula, bind_eq_ok] at h
    obtain ⟨ψ, hψ, h⟩ := h
    cases pure_eq_ok.1 h
    exact ⟨(ih hψ).validated, (ih hψ).mentions, (ih hψ).seeded⟩
  | binop lhs op rhs ihl ihr =>
    obtain ⟨build, hop, h⟩ | ⟨c, l, r, hop, hl, hr, rfl⟩ := lowerFormula_binop_eq_ok h
    · exact translatedTo_of_lowerComparison (not_connective_of_comparison? hop)
        (compares_of_comparison? hop) h
    · have huses : (Expr.binop lhs op rhs).uses seeds = lhs.uses seeds ++ rhs.uses seeds := by
        rw [Expr.uses, if_pos hop]
      have hboth : ∀ {P : Formula → Prop}, P l → P r → ∀ φ ∈ [l, r], P φ := fun hl hr ↦
        List.forall_mem_cons.2 ⟨hl, List.forall_mem_singleton.2 hr⟩
      refine ⟨hereditary_validated.simplify c (hboth (ihl hl).validated (ihr hr).validated),
        (hereditary_mentions _).simplify c (hboth ?_ ?_),
        (hereditary_mentions _).simplify c (hboth (ihl hl).seeded (ihr hr).seeded)⟩
      · exact fun v hv ↦ huses ▸ List.mem_append_left _ ((ihl hl).mentions v hv)
      · exact fun v hv ↦ huses ▸ List.mem_append_right _ ((ihr hr).mentions v hv)

/-- The literals of an expression. -/
def Expr.literals : Expr → List String
  | .ident _ => []
  | .const value => [value]
  | .unop inner => inner.literals
  | .binop lhs _ rhs => lhs.literals ++ rhs.literals

/-- No literal is a constant of the logic. -/
def Expr.Numeral (e : Expr) : Prop := ∀ value ∈ e.literals, value ≠ "true" ∧ value ≠ "false"

theorem complete_of_lowerFormula {e : Expr} {φ : Formula} (hnumeral : e.Numeral)
    (h : lowerFormula seeds e = .ok φ) : Complete seeds e φ := by
  induction e generalizing φ with
  | ident name =>
    rw [lowerFormula] at h
    split_ifs at h
    cases h
    refine ⟨.single fun c ↦ by cases c <;> rfl, Formula.noConfusion, Formula.noConfusion,
      fun v hv ↦ ?_⟩
    rw [List.mem_singleton.1 hv]
    exact .inl List.mem_cons_self
  | const value =>
    obtain ⟨htrue, hfalse⟩ := hnumeral value List.mem_cons_self
    rw [lowerFormula, if_neg htrue, if_neg hfalse] at h
    cases h
  | unop inner ih =>
    rw [lowerFormula, bind_eq_ok] at h
    obtain ⟨ψ, hψ, h⟩ := h
    cases pure_eq_ok.1 h
    exact ⟨.single fun c ↦ by cases c <;> rfl, Formula.noConfusion, Formula.noConfusion,
      (ih hnumeral hψ).mentions⟩
  | binop lhs op rhs ihl ihr =>
    obtain ⟨build, hop, h⟩ | ⟨c, l, r, hop, hl, hr, rfl⟩ := lowerFormula_binop_eq_ok h
    · exact complete_of_lowerComparison (not_connective_of_comparison? hop)
        (compares_of_comparison? hop) h
    · have hcl := ihl (fun value hvalue ↦ hnumeral value (List.mem_append_left _ hvalue)) hl
      have hcr := ihr (fun value hvalue ↦ hnumeral value (List.mem_append_right _ hvalue)) hr
      have hnormal : ∀ φ ∈ [l, r], φ.Normal :=
        List.forall_mem_cons.2 ⟨hcl.normal, List.forall_mem_singleton.2 hcr.normal⟩
      have habsorber : c.absorber ∉ [l, r] := by
        rw [List.mem_cons, List.mem_singleton, not_or]
        exact ⟨(hcl.ne_absorber c).symm, (hcr.ne_absorber c).symm⟩
      have hunit : c.simplify [l, r] ≠ c.unit := fun heq ↦
        hcl.ne_unit c ((Connective.simplify_eq_unit_iff hnormal).1 heq l List.mem_cons_self)
      have habs : c.simplify [l, r] ≠ c.absorber := fun heq ↦
        habsorber ((Connective.simplify_eq_absorber_iff hnormal).1 heq)
      refine ⟨Connective.normal_simplify hnormal, ?_, ?_, fun v hv ↦ ?_⟩
      · cases c
        · exact hunit
        · exact habs
      · cases c
        · exact habs
        · exact hunit
      · by_contra hnot
        have hnone : ∀ w, Mentions (c.simplify [l, r]) w → w ≠ v := fun w hw heq ↦ hnot (heq ▸ hw)
        have hparts := (Connective.simplify_iff_of_normal (hereditary_mentions (· ≠ v)) hnormal
          habsorber).1 hnone
        rw [Expr.uses, if_pos hop] at hv
        obtain hv | hv := List.mem_append.1 hv
        · exact hparts l List.mem_cons_self v (hcl.mentions v hv) rfl
        · exact hparts r (by simp) v (hcr.mentions v hv) rfl

/-! ### Literals of a text -/

/-- A token is no literal that spells a constant of the logic. -/
def Tok.NumeralTok (t : Tok) : Prop := ∀ s, t = .num s → s ≠ "true" ∧ s ≠ "false"

theorem ne_num_oneOrTwo {follower : Char} {one two : Tok} {rest : List Char} {value : String}
    (hone : one ≠ .num value) (htwo : two ≠ .num value) :
    (CharClasses.oneOrTwo follower one two rest).1 ≠ .num value := by
  unfold CharClasses.oneOrTwo
  split_ifs
  · exact htwo
  · exact hone

theorem ne_num_of_lexSymbol {position : ℕ} {c : Char} {rest : List Char} {read : Tok × ℕ}
    {value : String} (h : CharClasses.lexSymbol position c rest = some (.ok read)) :
    read.1 ≠ .num value := by
  unfold CharClasses.lexSymbol at h
  split at h
  all_goals first
    | cases h; exact Tok.noConfusion
    | cases h; exact ne_num_oneOrTwo Tok.noConfusion Tok.noConfusion
    | split_ifs at h <;> cases h <;> exact Tok.noConfusion
    | cases h

/-- The tokens come from reading somewhere. -/
theorem exists_of_mem_lexFrom {classes : CharClasses} {skip position : ℕ} {chars : List Char}
    {toks : List Tok} (h : classes.lexFrom skip position chars = .ok toks) {t : Tok}
    (ht : t ∈ toks) : ∃ position c rest read, classes.lexToken position c rest = .ok read ∧
      read.1 = t := by
  induction chars generalizing skip position toks with
  | nil => cases skip <;> cases h <;> exact absurd ht List.not_mem_nil
  | cons c rest ih =>
    cases skip with
    | succ skip => exact ih h ht
    | zero =>
      rw [CharClasses.lexFrom] at h
      split_ifs at h
      · exact ih h ht
      rw [bind_eq_ok] at h
      obtain ⟨read, hread, h⟩ := h
      rw [bind_eq_ok] at h
      obtain ⟨toks', htoks, h⟩ := h
      cases pure_eq_ok.1 h
      obtain rfl | ht := List.mem_cons.1 ht
      · exact ⟨position, c, rest, read, hread, rfl⟩
      · exact ih htoks ht

/-- A numeral is the digits at one place of the text, and those behind the point. -/
theorem exists_numeral_of_mem_lex {classes : CharClasses} {src value : String} {toks : List Tok}
    (h : classes.lex src = .ok toks) (hmem : .num value ∈ toks) :
    ∃ (c : Char) (rest : List Char), c.isDigit = true ∧ value.toList =
      c :: rest.takeWhile Char.isDigit ++ CharClasses.fraction (rest.dropWhile Char.isDigit) := by
  obtain ⟨position, c, rest, read, hread, hvalue⟩ := exists_of_mem_lexFrom h hmem
  refine ⟨c, rest, ?_⟩
  rw [CharClasses.lexToken] at hread
  cases hsymbol : CharClasses.lexSymbol position c rest with
  | some result =>
    rw [hsymbol, Option.getD_some] at hread
    exact absurd hvalue (ne_num_of_lexSymbol (hread ▸ hsymbol))
  | none =>
    rw [hsymbol, Option.getD_none, CharClasses.lexWord] at hread
    dsimp only at hread
    split_ifs at hread with hpercent hname halpha hdigit
    · cases hread
      cases hvalue
    · cases hread
      cases hvalue
    · cases hread
      cases hvalue
      exact ⟨hdigit, String.toList_ofList⟩

theorem numeralTok_of_mem_lex {classes : CharClasses} {src : String} {toks : List Tok}
    (h : classes.lex src = .ok toks) {t : Tok} (ht : t ∈ toks) : t.NumeralTok := by
  intro value hvalue
  obtain ⟨c, rest, hdigit, hchars⟩ := exists_numeral_of_mem_lex h (hvalue ▸ ht)
  have hhead : value.toList.head? = some c := congrArg List.head? hchars
  constructor
  · intro htrue
    rw [htrue] at hhead
    rw [← Option.some.inj (show some 't' = some c from hhead)] at hdigit
    cases hdigit
  · intro hfalse
    rw [hfalse] at hhead
    rw [← Option.some.inj (show some 'f' = some c from hhead)] at hdigit
    cases hdigit

/-- The literals that a call can return. -/
def Call.MayReturn (value : String) : Call → Prop
  | expr _ toks | operand toks => .num value ∈ toks
  | loop _ lhs toks => value ∈ lhs.literals ∨ .num value ∈ toks

/-- The literals of what was read are among the tokens. -/
theorem Reads.literals {call : Call} {e : Expr} {rest : List Tok} (h : Reads call e rest) :
    ∀ value ∈ e.literals, call.MayReturn value := by
  induction h with
  | @expr minBp toks rest rest' lhs e hoperand _ ihoperand ihloop =>
    have hsuffix : rest <:+ toks := hoperand.isSuffix
    exact fun value hvalue ↦ (ihloop value hvalue).elim (ihoperand value) hsuffix.mem
  | stop lhs _ => exact fun value hvalue ↦ .inl hvalue
  | @step minBp bp op t toks rest rest' lhs rhs e _ _ hexpr _ ihexpr ihloop =>
    have hsuffix : rest <:+ toks := hexpr.isSuffix
    intro value hvalue
    obtain h | h := ihloop value hvalue
    · obtain h | h := List.mem_append.1 h
      · exact .inl h
      · exact .inr (List.mem_cons_of_mem _ (ihexpr value h))
    · exact .inr (List.mem_cons_of_mem _ (hsuffix.mem h))
  | not _ ih => exact fun value hvalue ↦ List.mem_cons_of_mem _ (ih value hvalue)
  | parens _ ih => exact fun value hvalue ↦ List.mem_cons_of_mem _ (ih value hvalue)
  | num s toks =>
    intro value hvalue
    rw [List.mem_singleton.1 hvalue]
    exact List.mem_cons_self
  | ident s toks | fident s toks => exact fun value hvalue ↦ absurd hvalue List.not_mem_nil

/-- The literals of a text are numerals. -/
theorem numeral_of_parseLine {classes : CharClasses} {line : String} {assertion : Assertion}
    (h : parseLine classes line = .ok assertion) : assertion.stmt.exp.Numeral := by
  obtain ⟨toks, hlex, hreads⟩ := parseLine_eq_ok_iff.1 h
  intro value hvalue
  have hmem : .num value ∈ toks := hreads.literals value hvalue
  exact numeralTok_of_mem_lex hlex (t := .num value) (by simp [hmem]) value rfl

/-! ### One sort for each identifier -/

/-- The formula validates and uses every identifier at one sort, its seeded one if there is one. -/
structure WellSortedIn (seeds : SortSeeds) (φ : Formula) : Prop where
  validated : φ.validate = .ok ()
  one_sort : ∀ v w, Mentions φ v → Mentions φ w → v.name = w.name → v.sort = w.sort
  seeded : ∀ v, Mentions φ v → ∀ seed, seeds v.name = some seed → v.sort = seed

/-- An identifier without a seed occurs as a Boolean variable only, in integer comparisons only or in
comparisons of reals only. -/
def UsedAlike (seeds : SortSeeds) (e : Expr) : Prop :=
  ∀ v ∈ e.uses seeds, ∀ w ∈ e.uses seeds, v.name = w.name → seeds v.name = none → v.sort = w.sort

/-- The translation of a text uses every identifier at one sort exactly where those without a seed
are used alike. -/
theorem wellSortedIn_iff {classes : CharClasses} {line : String} {assertion : Assertion}
    {seeds : SortSeeds} {translated : TranslatedAssertion}
    (hparse : parseLine classes line = .ok assertion)
    (htranslate : translateAssertion seeds assertion = .ok translated) :
    WellSortedIn seeds translated.stmt.predicate ↔ UsedAlike seeds assertion.stmt.exp := by
  rw [translateAssertion, bind_eq_ok] at htranslate
  obtain ⟨stmt, hstmt, htranslate⟩ := htranslate
  cases pure_eq_ok.1 htranslate
  rw [translateStatement, bind_eq_ok] at hstmt
  obtain ⟨φ, hφ, hstmt⟩ := hstmt
  cases pure_eq_ok.1 hstmt
  have hto := translatedTo_of_lowerFormula hφ
  have hcomplete := complete_of_lowerFormula (numeral_of_parseLine hparse) hφ
  constructor
  · exact fun h v hv w hw hname _ ↦
      h.one_sort v w (hcomplete.mentions v hv) (hcomplete.mentions w hw) hname
  · intro h
    refine ⟨hto.validated, fun v w hv hw hname ↦ ?_, hto.seeded⟩
    cases hseed : seeds v.name with
    | none => exact h v (hto.mentions v hv) w (hto.mentions w hw) hname hseed
    | some seed => rw [hto.seeded v hv seed hseed, hto.seeded w hw seed (hname ▸ hseed)]

/-- The equation of `%x + 1 == 4`. -/
def oneEquation : Assertion :=
  ⟨⟨"f", .binop (.binop (.ident "%x") .plus (.const "1")) .eeq (.const "4")⟩, "a"⟩

theorem parseLine_oneEquation :
    parseLine .ascii "a :: f => %x + 1 == 4" = .ok oneEquation :=
  parseLine_eq_ok_iff.2 ⟨[.ident "%x", .plus, .num "1", .eqEq, .num "4"], rfl,
    parseExpr_eq_ok_iff.1 rfl⟩

theorem wellSortedIn_iff_oneEquation :
    WellSortedIn noSeeds (.eq (.add (.var (.int "%x")) (.int 1)) (.int 4)) ↔
      UsedAlike noSeeds oneEquation.stmt.exp :=
  @wellSortedIn_iff .ascii "a :: f => %x + 1 == 4" oneEquation noSeeds
    ⟨"a", "f", .eq (.add (.var (.int "%x")) (.int 1)) (.int 4)⟩ parseLine_oneEquation rfl

/-- `(%x + 1 == 4) & (%x == 4.5)`. -/
def twoSorts : Assertion :=
  ⟨⟨"f", .binop (.binop (.binop (.ident "%x") .plus (.const "1")) .eeq (.const "4")) .lAnd
    (.binop (.ident "%x") .eeq (.const "4.5"))⟩, "a"⟩

/-- The first comparison computes, the second has a decimal literal. -/
theorem not_wellSortedIn_twoSorts :
    parseLine .ascii "a :: f => (%x + 1 == 4) & (%x == 4.5)" = .ok twoSorts ∧
      ∃ φ, translateAssertion noSeeds twoSorts = .ok ⟨"a", "f", φ⟩ ∧ ¬ WellSortedIn noSeeds φ := by
  refine ⟨parseLine_eq_ok_iff.2 ⟨[.lparen, .ident "%x", .plus, .num "1", .eqEq, .num "4", .rparen,
    .and, .lparen, .ident "%x", .eqEq, .num "4.5", .rparen], rfl, parseExpr_eq_ok_iff.1 rfl⟩,
    .and [.eq (.add (.var (.int "%x")) (.int 1)) (.int 4),
      .eq (.var (.real "%x")) (.real ⟨9, 2⟩)], rfl, fun h ↦ ?_⟩
  have hsame := h.one_sort (.int "%x") (.real "%x")
    (.inr (by simp [Formula.leaves, Formula.leavesList, Term.leaves]))
    (.inr (by simp [Formula.leaves, Formula.leavesList, Term.leaves])) rfl
  cases hsame

end MayMust.Assertions
