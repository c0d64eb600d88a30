import MayMust.Frontend.Assertions.Sorts

/-!
# Comparisons joined by connectives

Comparisons and connectives share one binding power and group to the left, so the text
`a == b & c == d` is read as `((a == b) & c) == d` (`reads_loop_bareToks`). A comparison whose left
operand is a connective has no sort: of the texts without parentheses, only a single comparison is
translated. With each comparison in parentheses, the text is the combination of the comparisons,
from left to right (`translateAssertion_joined`).
-/

namespace MayMust.Assertions

open Library

/-! ### Comparisons -/

/-- A comparison that is translated on its own: tokens that the parser reads as one, and its
formula. -/
structure Comparison (seeds : SortSeeds) where
  toks : List Tok
  lhs : Expr
  op : Op
  rhs : Expr
  formula : Formula
  comparison : op.comparison?.isSome
  reads : Reads (.expr 0 toks) (.binop lhs op rhs) []
  translates : lowerFormula seeds (.binop lhs op rhs) = .ok formula

/-- What the comparison is read as. -/
def Comparison.exp {seeds : SortSeeds} (c : Comparison seeds) : Expr := .binop c.lhs c.op c.rhs

/-- Without parentheses and without the prefix operator. -/
def Comparison.Bare {seeds : SortSeeds} (c : Comparison seeds) : Prop :=
  .lparen ∉ c.toks ∧ .not ∉ c.toks

/-- Every operator of the expression is one of arithmetic. -/
def Expr.Arithmetic : Expr → Prop
  | .ident _ | .const _ => True
  | .unop inner => inner.Arithmetic
  | .binop lhs op rhs => op.IsArithmetic ∧ lhs.Arithmetic ∧ rhs.Arithmetic

theorem not_isArithmetic_of_comparison? {op : Op} (h : op.comparison?.isSome) :
    ¬ op.IsArithmetic := by
  cases op <;> first | decide | cases h

theorem isArithmetic_of_binaryOp? {t : Tok} {bp : ℕ} {op : Op}
    (h : t.binaryOp? = some (bp, op)) (hbp : 8 < bp) : op.IsArithmetic := by
  cases t <;> cases h <;> first | decide | exact absurd hbp (by decide)

theorem not_isArithmetic_of_binaryOp? {t : Tok} {op : Op} (h : t.binaryOp? = some (8, op)) :
    ¬ op.IsArithmetic := by
  cases t <;> cases h <;> decide

theorem arithmetic_of_candidateNumericSorts {seeds : SortSeeds} {e : Expr}
    {sorts : Finset VarSort} (h : candidateNumericSorts seeds e = .ok sorts) : e.Arithmetic := by
  induction e generalizing sorts with
  | ident name | const value => trivial
  | unop inner ih =>
    rw [candidateNumericSorts, bind_eq_ok] at h
    obtain ⟨sorts', hinner, -⟩ := h
    exact ih hinner
  | binop lhs op rhs ihl ihr =>
    rw [candidateNumericSorts] at h
    split_ifs at h with hop
    · rw [bind_eq_ok] at h
      obtain ⟨lhsSorts, hl, h⟩ := h
      rw [bind_eq_ok] at h
      obtain ⟨rhsSorts, hr, -⟩ := h
      exact ⟨hop, ihl hl, ihr hr⟩
    · exact absurd h (by simp [someCandidate])

/-- The left operand of a comparison that is translated is arithmetic. -/
theorem arithmetic_lhs_of_lowerFormula {seeds : SortSeeds} {lhs rhs : Expr} {op : Op}
    {φ : Formula} (hop : op.comparison?.isSome)
    (h : lowerFormula seeds (.binop lhs op rhs) = .ok φ) : lhs.Arithmetic := by
  obtain ⟨build, hbuild⟩ := Option.isSome_iff_exists.1 hop
  rw [lowerFormula_of_comparison? hbuild, lowerComparison, bind_eq_ok] at h
  obtain ⟨sort, hsort, -⟩ := h
  rw [inferNumericSort, bind_eq_ok] at hsort
  obtain ⟨sorts, hsorts, -⟩ := hsort
  exact arithmetic_of_candidateNumericSorts hsorts

/-! ### The operands of a comparison -/

/-- What a call above the level of comparisons returns, if it reads neither parentheses nor
negations. -/
def Call.ReturnsArithmetic (e : Expr) : Call → Prop
  | expr minBp _ => 8 ≤ minBp → e.Arithmetic
  | loop minBp lhs _ => 8 ≤ minBp → lhs.Arithmetic → e.Arithmetic
  | operand _ => e.Arithmetic

theorem Reads.arithmetic {call : Call} {e : Expr} {rest : List Tok} (h : Reads call e rest)
    (hparen : .lparen ∉ call.toks) (hnot : .not ∉ call.toks) : call.ReturnsArithmetic e := by
  induction h with
  | @expr minBp toks rest rest' lhs e hoperand _ ihoperand ihloop =>
    have hsuffix : rest <:+ toks := hoperand.isSuffix
    exact fun hbp ↦ ihloop (mt hsuffix.mem hparen) (mt hsuffix.mem hnot) hbp
      (ihoperand hparen hnot)
  | stop lhs _ => exact fun _ hlhs ↦ hlhs
  | @step minBp bp op t toks rest rest' lhs rhs e hop hlt hexpr _ ihexpr ihloop =>
    have hsuffix : rest <:+ toks := hexpr.isSuffix
    rw [Call.toks, List.mem_cons, not_or] at hparen hnot
    intro hbp hlhs
    have hrhs := ihexpr hparen.2 hnot.2 (Nat.le_trans hbp (Nat.le_of_lt hlt))
    exact ihloop (mt hsuffix.mem hparen.2) (mt hsuffix.mem hnot.2) hbp
      ⟨isArithmetic_of_binaryOp? hop (Nat.lt_of_le_of_lt hbp hlt), hlhs, hrhs⟩
  | not _ _ => exact absurd List.mem_cons_self hnot
  | parens _ _ => exact absurd List.mem_cons_self hparen
  | num _ _ | ident _ _ | fident _ _ => exact trivial

/-- A loop first reads what binds tighter than the comparisons, then goes on with the first
operator that does not. -/
theorem Reads.loop_split {lhs e : Expr} {toks rest : List Tok} {call : Call}
    (h : Reads call e rest) (hcall : call = .loop 0 lhs toks) :
    ∃ a mid, Reads (.loop 8 lhs toks) a mid ∧ Reads (.loop 0 a mid) e rest := by
  induction h generalizing lhs toks with
  | stop lhs' hstops =>
    cases hcall
    exact ⟨_, _, .stop _ (hstops.mono (Nat.zero_le _)), .stop _ hstops⟩
  | @step minBp bp op t toks' rest' rest'' lhs' rhs e hop hlt hexpr hloop _ ihloop =>
    cases hcall
    by_cases hbp : 8 < bp
    · obtain ⟨a, mid, htight, hrest⟩ := ihloop rfl
      exact ⟨a, mid, .step hop hbp hexpr htight, hrest⟩
    · have hstops : Stops 8 (t :: toks') := stops_cons_iff.2 fun bp' op' hop' ↦ by
        rw [hop] at hop'
        cases hop'
        exact Nat.le_of_not_lt hbp
      exact ⟨_, _, .stop _ hstops, .step hop hlt hexpr hloop⟩
  | _ => cases hcall

/-- What a loop starts with stays the leftmost operand. -/
inductive Expr.LeftOf (e : Expr) : Expr → Prop
  | self : LeftOf e e
  | binop {lhs : Expr} (op : Op) (rhs : Expr) (h : LeftOf e lhs) : LeftOf e (.binop lhs op rhs)

theorem Expr.LeftOf.arithmetic {e e' : Expr} (h : e.LeftOf e') (h' : e'.Arithmetic) :
    e.Arithmetic := by
  induction h with
  | self => exact h'
  | binop op rhs _ ih => exact ih h'.2.1

theorem Expr.LeftOf.trans {e e' e'' : Expr} (h : e.LeftOf e') (h' : e'.LeftOf e'') :
    e.LeftOf e'' := by
  induction h' with
  | self => exact h
  | binop op rhs _ ih => exact .binop op rhs ih

theorem Reads.leftOf {call : Call} {minBp : ℕ} {lhs e : Expr} {toks rest : List Tok}
    (h : Reads call e rest) (hcall : call = .loop minBp lhs toks) : lhs.LeftOf e := by
  induction h generalizing lhs toks with
  | stop _ _ => cases hcall; exact .self
  | step _ _ _ _ _ ihloop => cases hcall; exact (Expr.LeftOf.self.binop _ _).trans (ihloop rfl)
  | _ => cases hcall

/-- In a bare comparison the operands are read at the level of comparisons, with one operator
between them. -/
theorem Comparison.exists_operator {seeds : SortSeeds} {c : Comparison seeds} (hbare : c.Bare) :
    ∃ t toks, t.binaryOp? = some (8, c.op) ∧ Reads (.expr 8 c.toks) c.lhs (t :: toks) ∧
      Reads (.expr 8 toks) c.rhs [] := by
  obtain ⟨toks, lhs, op, rhs, φ, hcomparison, hreads, htranslates⟩ := c
  have harith := arithmetic_lhs_of_lowerFormula hcomparison htranslates
  cases hreads with
  | expr hoperand hloop =>
    obtain ⟨a, mid, htight, hloop⟩ := hloop.loop_split rfl
    have hreads : Reads (.expr 8 toks) a mid := .expr hoperand htight
    have ha : a.Arithmetic := hreads.arithmetic hbare.1 hbare.2 (Nat.le_refl 8)
    have hstops : Stops 8 mid := htight.stops
    cases hloop with
    | stop _ _ => exact absurd ha.1 (not_isArithmetic_of_comparison? hcomparison)
    | @step _ bp op t toks rest _ _ rhs _ hop _ hexpr hloop =>
      obtain rfl : bp = 8 :=
        Nat.le_antisymm (stops_cons_iff.1 hstops bp op hop) (le_of_binaryOp? hop)
      have hnot := not_isArithmetic_of_binaryOp? hop
      cases hloop with
      | stop _ _ => exact ⟨t, toks, hop, hreads, hexpr⟩
      | step _ _ _ hloop =>
        -- A second operator at this level would leave the first one in the left operand.
        cases hloop.leftOf rfl with
        | self => exact absurd harith.1 hnot
        | binop _ _ hleft => exact absurd (hleft.arithmetic harith).2.1.1 hnot

/-! ### Joining -/

/-- The token of a connective. -/
def connectiveTok : Connective → Tok
  | .conj => .and
  | .disj => .or

/-- The operator of a connective. -/
def connectiveOp : Connective → Op
  | .conj => .lAnd
  | .disj => .lOr

theorem binaryOp?_connectiveTok (c : Connective) :
    (connectiveTok c).binaryOp? = some (8, connectiveOp c) := by
  cases c <;> rfl

/-- Comparisons joined by connectives. -/
structure Joined (seeds : SortSeeds) where
  first : Comparison seeds
  rest : List (Connective × Comparison seeds)

section Rest

variable {seeds : SortSeeds} (rest : List (Connective × Comparison seeds))

/-- The text after the first comparison, without parentheses. -/
def bareToks : List Tok := rest.flatMap fun part ↦ connectiveTok part.1 :: part.2.toks

/-- The text after the first comparison, with each comparison in parentheses. -/
def parenthesizedToks : List Tok :=
  rest.flatMap fun part ↦ connectiveTok part.1 :: .lparen :: (part.2.toks ++ [.rparen])

/-- A comparison takes all that is before it as its left operand. -/
def regroup (e : Expr) (part : Connective × Comparison seeds) : Expr :=
  .binop (.binop e (connectiveOp part.1) part.2.lhs) part.2.op part.2.rhs

/-- A connective of what is before it and a comparison. -/
def connect (e : Expr) (part : Connective × Comparison seeds) : Expr :=
  .binop e (connectiveOp part.1) part.2.exp

/-- The formula of a connective. -/
def combine (φ : Formula) (part : Connective × Comparison seeds) : Formula :=
  part.1.simplify [φ, part.2.formula]

theorem stops_connectiveTok (c : Connective) (toks : List Tok) :
    Stops 8 (connectiveTok c :: toks) := by
  refine stops_cons_iff.2 fun bp op hop ↦ ?_
  rw [binaryOp?_connectiveTok] at hop
  cases hop
  exact Nat.le_refl 8

theorem stops_bareToks : Stops 8 (bareToks rest) := by
  cases rest with
  | nil => exact stops_nil 8
  | cons part rest => exact stops_connectiveTok part.1 _

theorem stops_parenthesizedToks : Stops 8 (parenthesizedToks rest) := by
  cases rest with
  | nil => exact stops_nil 8
  | cons part rest => exact stops_connectiveTok part.1 _

/-! ### What the texts are read as -/

variable {rest}

theorem reads_loop_bareToks (h : ∀ part ∈ rest, part.2.Bare) (e : Expr) :
    Reads (.loop 0 e (bareToks rest)) (rest.foldl regroup e) [] := by
  induction rest generalizing e with
  | nil => exact .stop e (stops_nil 0)
  | cons part rest ih =>
    obtain ⟨hbare, hrest⟩ := List.forall_mem_cons.1 h
    obtain ⟨t, toks, hop, hlhs, hrhs⟩ := Comparison.exists_operator hbare
    have hsuffix : t :: toks <:+ part.2.toks := hlhs.isSuffix
    have hnot : .not ∉ toks := fun hmem ↦ hbare.2 (hsuffix.mem (List.mem_cons_of_mem _ hmem))
    have hbehind := stops_bareToks rest
    have hleft : Reads (.expr 8 (part.2.toks ++ bareToks rest)) part.2.lhs
        (t :: toks ++ bareToks rest) :=
      hlhs.append hbehind (Nat.le_refl 8) (.inr hbare.2) _ _
        (.stop _ (Stops.append hlhs.stops hbehind))
    have hright : Reads (.expr 8 (toks ++ bareToks rest)) part.2.rhs (bareToks rest) :=
      hrhs.expr_append hbehind (Nat.le_refl 8) (.inr hnot) (.stop _ hbehind)
    exact .step (binaryOp?_connectiveTok part.1) (by decide) hleft
      (.step hop (by decide) hright (ih hrest _))

variable (rest) in
theorem reads_loop_parenthesizedToks (e : Expr) :
    Reads (.loop 0 e (parenthesizedToks rest)) (rest.foldl connect e) [] := by
  induction rest generalizing e with
  | nil => exact .stop e (stops_nil 0)
  | cons part rest ih =>
    have hparens : Reads (.operand (.lparen :: (part.2.toks ++ .rparen :: parenthesizedToks rest)))
        part.2.exp (parenthesizedToks rest) := part.2.reads.parenthesized
    have hstep := Reads.step (binaryOp?_connectiveTok part.1) (by decide)
      (.expr hparens (.stop _ (stops_parenthesizedToks rest))) (ih (connect e part))
    simpa [parenthesizedToks] using hstep

/-! ### What they are translated to -/

theorem lowerFormula_connective {e e' : Expr} {φ ψ : Formula} (c : Connective)
    (h : lowerFormula seeds e = .ok φ) (h' : lowerFormula seeds e' = .ok ψ) :
    lowerFormula seeds (.binop e (connectiveOp c) e') = .ok (c.simplify [φ, ψ]) := by
  cases c <;> rw [connectiveOp, lowerFormula, h, h'] <;> rfl

theorem lowerFormula_foldl_connect {e : Expr} {φ : Formula} (h : lowerFormula seeds e = .ok φ) :
    lowerFormula seeds (rest.foldl connect e) = .ok (rest.foldl combine φ) := by
  induction rest generalizing e φ with
  | nil => exact h
  | cons part rest ih => exact ih (lowerFormula_connective part.1 h part.2.translates)

/-- A comparison with a connective on its left has no sort. -/
theorem lowerFormula_regroup (e : Expr) (part : Connective × Comparison seeds) :
    lowerFormula seeds (regroup e part) = .error .expectedArithmeticExpr := by
  obtain ⟨build, hbuild⟩ := Option.isSome_iff_exists.1 part.2.comparison
  rw [regroup, lowerFormula_of_comparison? hbuild, lowerComparison, inferNumericSort,
    candidateNumericSorts]
  cases part.1 <;> rfl

theorem lowerFormula_foldl_regroup (hrest : rest ≠ []) (e : Expr) :
    lowerFormula seeds (rest.foldl regroup e) = .error .expectedArithmeticExpr := by
  obtain ⟨init, part, rfl⟩ := (List.eq_nil_or_concat rest).resolve_left hrest
  rw [List.concat_eq_append, List.foldl_append]
  exact lowerFormula_regroup _ part

end Rest

/-- The tokens of an assertion. -/
def assertionToks (name func : String) (toks : List Tok) : List Tok :=
  .fident name :: .named :: .fident func :: .arrow :: toks

theorem translateAssertion_of_lowerFormula {seeds : SortSeeds} {name func : String} {e : Expr}
    {φ : Formula} (h : lowerFormula seeds e = .ok φ) :
    translateAssertion seeds ⟨⟨func, e⟩, name⟩ = .ok ⟨name, func, φ⟩ := by
  rw [translateAssertion, translateStatement, translateExpr, h]
  rfl

/-- Each comparison in parentheses, the text is accepted and translated to the combination of the
comparisons, from left to right. Without parentheses it is accepted too, but only a single
comparison is translated. -/
theorem translateAssertion_joined {seeds : SortSeeds} (j : Joined seeds) (classes : CharClasses)
    (line name func : String) :
    (classes.lex line = .ok (assertionToks name func
        (.lparen :: (j.first.toks ++ .rparen :: parenthesizedToks j.rest))) →
      ∃ e, parseLine classes line = .ok ⟨⟨func, e⟩, name⟩ ∧
        translateAssertion seeds ⟨⟨func, e⟩, name⟩ =
          .ok ⟨name, func, j.rest.foldl combine j.first.formula⟩) ∧
    ((∀ c ∈ j.first :: j.rest.map (·.2), c.Bare) →
      classes.lex line = .ok (assertionToks name func (j.first.toks ++ bareToks j.rest)) →
      ∃ e, parseLine classes line = .ok ⟨⟨func, e⟩, name⟩ ∧
        translateAssertion seeds ⟨⟨func, e⟩, name⟩ =
          if j.rest.isEmpty then .ok ⟨name, func, j.first.formula⟩
          else .error .expectedArithmeticExpr) := by
  refine ⟨fun hlex ↦ ⟨j.rest.foldl connect j.first.exp, parseLine_eq_ok_iff.2 ⟨_, hlex, ?_⟩, ?_⟩,
    fun hbare hlex ↦ ⟨j.rest.foldl regroup j.first.exp, parseLine_eq_ok_iff.2 ⟨_, hlex, ?_⟩, ?_⟩⟩
  · exact .expr j.first.reads.parenthesized (reads_loop_parenthesizedToks j.rest _)
  · exact translateAssertion_of_lowerFormula (lowerFormula_foldl_connect j.first.translates)
  · obtain ⟨hfirst, hrest⟩ := List.forall_mem_cons.1 hbare
    exact j.first.reads.expr_append (stops_bareToks j.rest) (Nat.le_refl 8) (.inr hfirst.2)
      (reads_loop_bareToks (List.forall_mem_map.1 hrest) _)
  · cases hrest : j.rest with
    | nil => exact translateAssertion_of_lowerFormula j.first.translates
    | cons part rest =>
      rw [translateAssertion, translateStatement, translateExpr,
        lowerFormula_foldl_regroup (List.cons_ne_nil part rest)]
      rfl

/-- `%x + 1 == 4`. -/
def xPlusOne : Comparison noSeeds where
  toks := [.ident "%x", .plus, .num "1", .eqEq, .num "4"]
  lhs := .binop (.ident "%x") .plus (.const "1")
  op := .eeq
  rhs := .const "4"
  formula := .eq (.add (.var (.int "%x")) (.int 1)) (.int 4)
  comparison := rfl
  reads := parseExpr_eq_ok_iff.1 rfl
  translates := rfl

/-- `%y - 1 < 5`. -/
def yLessOneBelowFive : Comparison noSeeds where
  toks := [.ident "%y", .minus, .num "1", .lt, .num "5"]
  lhs := .binop (.ident "%y") .minus (.const "1")
  op := .lt
  rhs := .const "5"
  formula := .lt (.sub (.var (.int "%y")) (.int 1)) (.int 5)
  comparison := rfl
  reads := parseExpr_eq_ok_iff.1 rfl
  translates := rfl

theorem xPlusOne_bare : xPlusOne.Bare := ⟨by decide, by decide⟩

theorem yLessOneBelowFive_bare : yLessOneBelowFive.Bare := ⟨by decide, by decide⟩

/-- The two comparisons, both to hold. -/
def bothJoined : Joined noSeeds := ⟨xPlusOne, [(.conj, yLessOneBelowFive)]⟩

theorem translateAssertion_bothJoined :
    (∃ e, parseLine .ascii "a :: f => (%x + 1 == 4) & (%y - 1 < 5)" = .ok ⟨⟨"f", e⟩, "a"⟩ ∧
      translateAssertion noSeeds ⟨⟨"f", e⟩, "a"⟩ =
        .ok ⟨"a", "f", .and [xPlusOne.formula, yLessOneBelowFive.formula]⟩) ∧
    (∃ e, parseLine .ascii "a :: f => %x + 1 == 4 & %y - 1 < 5" = .ok ⟨⟨"f", e⟩, "a"⟩ ∧
      translateAssertion noSeeds ⟨⟨"f", e⟩, "a"⟩ = .error .expectedArithmeticExpr) :=
  ⟨(translateAssertion_joined bothJoined .ascii _ "a" "f").1 rfl,
    (translateAssertion_joined bothJoined .ascii _ "a" "f").2
      (List.forall_mem_cons.2
        ⟨xPlusOne_bare, List.forall_mem_singleton.2 yLessOneBelowFive_bare⟩) rfl⟩

/-- Each comparison is translated on its own; joined without parentheses they are not. -/
theorem not_translateAssertion_bothJoined :
    translateAssertion noSeeds ⟨⟨"f", xPlusOne.exp⟩, "a"⟩ = .ok ⟨"a", "f", xPlusOne.formula⟩ ∧
    translateAssertion noSeeds ⟨⟨"f", yLessOneBelowFive.exp⟩, "a"⟩ =
      .ok ⟨"a", "f", yLessOneBelowFive.formula⟩ ∧
    ∃ e, parseLine .ascii "a :: f => %x + 1 == 4 & %y - 1 < 5" = .ok ⟨⟨"f", e⟩, "a"⟩ ∧
      translateAssertion noSeeds ⟨⟨"f", e⟩, "a"⟩ = .error .expectedArithmeticExpr :=
  ⟨rfl, rfl, .binop (.binop xPlusOne.exp .lAnd yLessOneBelowFive.lhs) .lt (.const "5"),
    parseLine_eq_ok_iff.2 ⟨xPlusOne.toks ++ .and :: yLessOneBelowFive.toks, rfl,
      parseExpr_eq_ok_iff.1 rfl⟩, rfl⟩

end MayMust.Assertions
