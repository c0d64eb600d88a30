import Mathlib.Data.List.Basic
import Mathlib.Order.Basic
import MayMust.Frontend.Assertions.Exp

/-!
# What the expression parser reads

The successful runs of the parser as a relation without fuel (`Reads`): one rule for each way a
function of the parser succeeds. A run on any fuel follows the rules (`reads_of_parseExpr`), and
what follows the rules is the result on all fuel that is enough for the tokens
(`Reads.run`). The fuel of a text is enough for every run, successful or not
(`parseExpr_ne_outOfFuel`).

Operators in what follows an expression either bind tighter, and the expression is extended, or
stop its loop. So an expression that was read on its own can be followed by more tokens
(`Reads.append`): the parser goes on at its end.
-/

namespace MayMust.Assertions

open Library

/-! ### The rules -/

/-- A call of one of the parser's functions. -/
inductive Call
  | expr (minBp : ℕ) (toks : List Tok)
  | loop (minBp : ℕ) (lhs : Expr) (toks : List Tok)
  | operand (toks : List Tok)

/-- The loop stops at these tokens: none are left, or the first is no operator that binds tighter
than `minBp`. -/
def Stops (minBp : ℕ) (toks : List Tok) : Prop :=
  ∀ t ∈ toks.head?, ∀ bp op, t.binaryOp? = some (bp, op) → bp ≤ minBp

/-- The call returns the expression and leaves the tokens. -/
inductive Reads : Call → Expr → List Tok → Prop
  | expr {minBp : ℕ} {toks rest rest' : List Tok} {lhs e : Expr}
      (operand : Reads (.operand toks) lhs rest) (loop : Reads (.loop minBp lhs rest) e rest') :
      Reads (.expr minBp toks) e rest'
  | stop {minBp : ℕ} {toks : List Tok} (lhs : Expr) (stops : Stops minBp toks) :
      Reads (.loop minBp lhs toks) lhs toks
  | step {minBp bp : ℕ} {op : Op} {t : Tok} {toks rest rest' : List Tok} {lhs rhs e : Expr}
      (operator : t.binaryOp? = some (bp, op)) (tighter : minBp < bp)
      (expr : Reads (.expr bp toks) rhs rest)
      (loop : Reads (.loop minBp (.binop lhs op rhs) rest) e rest') :
      Reads (.loop minBp lhs (t :: toks)) e rest'
  | not {toks rest : List Tok} {e : Expr} (expr : Reads (.expr 7 toks) e rest) :
      Reads (.operand (.not :: toks)) (.unop e) rest
  | num (s : String) (toks : List Tok) : Reads (.operand (.num s :: toks)) (.const s) toks
  | ident (s : String) (toks : List Tok) : Reads (.operand (.ident s :: toks)) (.ident s) toks
  | fident (s : String) (toks : List Tok) : Reads (.operand (.fident s :: toks)) (.ident s) toks
  | parens {toks rest : List Tok} {e : Expr} (expr : Reads (.expr 0 toks) e (.rparen :: rest)) :
      Reads (.operand (.lparen :: toks)) e rest

theorem stops_nil (minBp : ℕ) : Stops minBp [] := fun t ht ↦ absurd ht (Option.not_mem_none t)

theorem stops_cons_iff {minBp : ℕ} {t : Tok} {toks : List Tok} :
    Stops minBp (t :: toks) ↔ ∀ bp op, t.binaryOp? = some (bp, op) → bp ≤ minBp := by
  simp only [Stops, List.head?_cons, Option.mem_some_iff, forall_eq']

theorem Stops.mono {minBp minBp' : ℕ} {toks : List Tok} (h : Stops minBp toks)
    (hle : minBp ≤ minBp') : Stops minBp' toks :=
  fun t ht bp op hop ↦ Nat.le_trans (h t ht bp op hop) hle

/-! ### Runs follow the rules -/

theorem expectRparen_eq_ok_iff {toks rest : List Tok} :
    expectRparen toks = .ok rest ↔ toks = .rparen :: rest := by
  unfold expectRparen
  grind

/-- One round of the loop: it stops, or reads an operator and its right operand. -/
theorem parseLoop_eq_ok_iff {fuel minBp : ℕ} {lhs e : Expr} {toks rest : List Tok} :
    parseLoop (fuel + 1) minBp lhs toks = .ok (e, rest) ↔
      (Stops minBp toks ∧ lhs = e ∧ toks = rest) ∨
        ∃ t toks' bp op rhs rest', toks = t :: toks' ∧ t.binaryOp? = some (bp, op) ∧ minBp < bp ∧
          parseExpr fuel bp toks' = .ok (rhs, rest') ∧
          parseLoop fuel minBp (.binop lhs op rhs) rest' = .ok (e, rest) := by
  cases toks with
  | nil => simp [parseLoop, stops_nil]
  | cons t toks =>
    rw [parseLoop, stops_cons_iff]
    cases hop : t.binaryOp? with
    | none => simp [hop]
    | some operator =>
      obtain ⟨bp, op⟩ := operator
      by_cases hle : bp ≤ minBp
      · simp [hop, hle, Nat.not_lt_of_le hle]
      · simp [hop, hle, Nat.lt_of_not_le hle]

theorem parsePrefix_of_ne_not {fuel : ℕ} {toks : List Tok} (h : toks.head? ≠ some .not) :
    parsePrefix (fuel + 1) toks = parseAtom fuel toks := by
  rw [parsePrefix]
  rintro toks' rfl
  exact h rfl

theorem parsePrefix_eq_ok_iff {fuel : ℕ} {e : Expr} {toks rest : List Tok} :
    parsePrefix (fuel + 1) toks = .ok (e, rest) ↔
      (∃ toks' e', toks = .not :: toks' ∧ parseExpr fuel 7 toks' = .ok (e', rest) ∧ .unop e' = e) ∨
        (toks.head? ≠ some .not ∧ parseAtom fuel toks = .ok (e, rest)) := by
  by_cases hnot : toks.head? = some .not
  · obtain ⟨toks', rfl⟩ := List.head?_eq_some_iff.1 hnot
    rw [parsePrefix]
    simp only [bind_eq_ok, pure_eq_ok, Prod.exists, Prod.mk.injEq, List.cons.injEq, true_and,
      List.head?_cons, ne_eq, not_true_eq_false, false_and, or_false]
    constructor
    · rintro ⟨e', rest', h, rfl, rfl⟩
      exact ⟨toks', e', rfl, h, rfl⟩
    · rintro ⟨toks', e', rfl, h, rfl⟩
      exact ⟨e', rest, h, rfl, rfl⟩
  · rw [parsePrefix_of_ne_not hnot]
    simp only [hnot, ne_eq, not_false_eq_true, true_and]
    refine ⟨Or.inr, fun h ↦ h.resolve_left ?_⟩
    rintro ⟨toks', -, rfl, -⟩
    exact hnot rfl

theorem parseAtom_lparen_eq_ok_iff {fuel : ℕ} {e : Expr} {toks rest : List Tok} :
    parseAtom (fuel + 1) (.lparen :: toks) = .ok (e, rest) ↔
      parseExpr fuel 0 toks = .ok (e, .rparen :: rest) := by
  rw [parseAtom]
  simp only [bind_eq_ok, pure_eq_ok, expectRparen_eq_ok_iff, Prod.exists, Prod.mk.injEq]
  constructor
  · rintro ⟨e', toks', h, rest', rfl, rfl, rfl⟩
    exact h
  · exact fun h ↦ ⟨e, _, h, rest, rfl, rfl, rfl⟩

/-- The runs on this fuel follow the rules. -/
structure SoundOn (fuel : ℕ) : Prop where
  expr : ∀ minBp toks e rest, parseExpr fuel minBp toks = .ok (e, rest) →
    Reads (.expr minBp toks) e rest
  loop : ∀ minBp lhs toks e rest, parseLoop fuel minBp lhs toks = .ok (e, rest) →
    Reads (.loop minBp lhs toks) e rest
  operand : ∀ toks e rest, parsePrefix fuel toks = .ok (e, rest) → Reads (.operand toks) e rest
  atom : ∀ toks e rest, parseAtom fuel toks = .ok (e, rest) → Reads (.operand toks) e rest

theorem soundOn (fuel : ℕ) : SoundOn fuel := by
  induction fuel with
  | zero =>
    constructor
    · exact fun _ _ _ _ h ↦ by cases h
    · exact fun _ _ _ _ _ h ↦ by cases h
    · exact fun _ _ _ h ↦ by cases h
    · exact fun _ _ _ h ↦ by cases h
  | succ fuel ih =>
    refine ⟨fun minBp toks e rest h ↦ ?_, fun minBp lhs toks e rest h ↦ ?_,
      fun toks e rest h ↦ ?_, fun toks e rest h ↦ ?_⟩
    · rw [parseExpr, bind_eq_ok] at h
      obtain ⟨⟨lhs, rest'⟩, hoperand, hloop⟩ := h
      exact .expr (ih.operand _ _ _ hoperand) (ih.loop _ _ _ _ _ hloop)
    · obtain ⟨hstops, rfl, rfl⟩ | ⟨t, toks', bp, op, rhs, rest', rfl, hop, hlt, hexpr, hloop⟩ :=
        parseLoop_eq_ok_iff.1 h
      · exact .stop _ hstops
      · exact .step hop hlt (ih.expr _ _ _ _ hexpr) (ih.loop _ _ _ _ _ hloop)
    · obtain ⟨toks', e', rfl, hexpr, rfl⟩ | ⟨-, hatom⟩ := parsePrefix_eq_ok_iff.1 h
      · exact .not (ih.expr _ _ _ _ hexpr)
      · exact ih.atom _ _ _ hatom
    · cases toks with
      | nil => cases h
      | cons t toks =>
        cases t with
        | num s => cases h; exact .num s _
        | ident s => cases h; exact .ident s _
        | fident s => cases h; exact .fident s _
        | lparen => exact .parens (ih.expr _ _ _ _ (parseAtom_lparen_eq_ok_iff.1 h))
        | _ => cases h

theorem reads_of_parseExpr {fuel minBp : ℕ} {toks rest : List Tok} {e : Expr}
    (h : parseExpr fuel minBp toks = .ok (e, rest)) : Reads (.expr minBp toks) e rest :=
  (soundOn fuel).expr _ _ _ _ h

/-! ### The rules are followed on enough fuel -/

/-- The tokens of a call. -/
def Call.toks : Call → List Tok
  | expr _ toks | loop _ _ toks | operand toks => toks

/-- The run of a call. -/
def Call.run (fuel : ℕ) : Call → Except ParseError (Expr × List Tok)
  | expr minBp toks => parseExpr fuel minBp toks
  | loop minBp lhs toks => parseLoop fuel minBp lhs toks
  | operand toks => parsePrefix fuel toks

/-- Fuel that is enough for a call. -/
def Call.fuel : Call → ℕ
  | expr _ toks => 3 * toks.length + 3
  | loop _ _ toks => 3 * toks.length + 1
  | operand toks => 3 * toks.length + 2

/-- The loop may leave all its tokens, the other calls read one. -/
def Call.Shrinks (rest : List Tok) : Call → Prop
  | expr _ toks | operand toks => rest.length < toks.length
  | loop _ _ toks => rest.length ≤ toks.length

theorem Reads.shrinks {call : Call} {e : Expr} {rest : List Tok} (h : Reads call e rest) :
    call.Shrinks rest := by
  induction h with
  | expr _ _ hoperand hloop => exact Nat.lt_of_le_of_lt hloop hoperand
  | stop _ _ => exact Nat.le_refl _
  | step _ _ _ _ hexpr hloop =>
    simp only [Call.Shrinks, List.length_cons] at *
    omega
  | not _ hexpr | parens _ hexpr =>
    simp only [Call.Shrinks, List.length_cons] at *
    omega
  | num _ _ | ident _ _ | fident _ _ => exact Nat.lt_succ_self _

theorem Reads.run {call : Call} {e : Expr} {rest : List Tok} (h : Reads call e rest) :
    ∀ fuel, call.fuel ≤ fuel → call.run fuel = .ok (e, rest) := by
  -- Every rule spends one unit and, by `Reads.shrinks`, leaves fewer tokens to its premises.
  suffices hsucc : ∀ fuel, call.fuel ≤ fuel + 1 → call.run (fuel + 1) = .ok (e, rest) by
    intro fuel hfuel
    cases fuel with
    | zero => cases call <;> simp [Call.fuel] at hfuel
    | succ fuel => exact hsucc fuel hfuel
  induction h with
  | @expr minBp toks rest rest' lhs e hoperand hloop ihoperand ihloop =>
    intro fuel hfuel
    have hshrinks : rest.length < toks.length := hoperand.shrinks
    have hpos : ∃ n, fuel = n + 1 := ⟨fuel - 1, by simp only [Call.fuel] at hfuel; omega⟩
    obtain ⟨n, rfl⟩ := hpos
    rw [Call.run, parseExpr, bind_eq_ok]
    refine ⟨(lhs, rest), ihoperand n ?_, ihloop n ?_⟩
    · simp only [Call.fuel] at hfuel ⊢
      omega
    · simp only [Call.fuel] at hfuel ⊢
      omega
  | stop lhs hstops => exact fun fuel _ ↦ parseLoop_eq_ok_iff.2 (.inl ⟨hstops, rfl, rfl⟩)
  | @step minBp bp op t toks rest rest' lhs rhs e hop hlt hexpr hloop ihexpr ihloop =>
    intro fuel hfuel
    have hshrinks : rest.length < toks.length := hexpr.shrinks
    have hpos : ∃ n, fuel = n + 1 :=
      ⟨fuel - 1, by simp only [Call.fuel, List.length_cons] at hfuel; omega⟩
    obtain ⟨n, rfl⟩ := hpos
    refine parseLoop_eq_ok_iff.2
      (.inr ⟨t, toks, bp, op, rhs, rest, rfl, hop, hlt, ihexpr n ?_, ihloop n ?_⟩)
    · simp only [Call.fuel, List.length_cons] at hfuel ⊢
      omega
    · simp only [Call.fuel, List.length_cons] at hfuel ⊢
      omega
  | @not toks rest e hexpr ih =>
    intro fuel hfuel
    have hpos : ∃ n, fuel = n + 1 :=
      ⟨fuel - 1, by simp only [Call.fuel, List.length_cons] at hfuel; omega⟩
    obtain ⟨n, rfl⟩ := hpos
    refine parsePrefix_eq_ok_iff.2 (.inl ⟨toks, e, rfl, ih n ?_, rfl⟩)
    simp only [Call.fuel, List.length_cons] at hfuel ⊢
    omega
  | @parens toks rest e hexpr ih =>
    intro fuel hfuel
    have hpos : ∃ n, fuel = n + 1 + 1 :=
      ⟨fuel - 2, by simp only [Call.fuel, List.length_cons] at hfuel; omega⟩
    obtain ⟨n, rfl⟩ := hpos
    refine parsePrefix_eq_ok_iff.2 (.inr ⟨by simp, parseAtom_lparen_eq_ok_iff.2 (ih n ?_)⟩)
    simp only [Call.fuel, List.length_cons] at hfuel ⊢
    omega
  | num s toks | ident s toks | fident s toks =>
    intro fuel hfuel
    have hpos : ∃ n, fuel = n + 1 :=
      ⟨fuel - 1, by simp only [Call.fuel, List.length_cons] at hfuel; omega⟩
    obtain ⟨n, rfl⟩ := hpos
    rfl

/-- The run on the fuel for its tokens is what the rules say. -/
theorem parseExpr_eq_ok_iff {minBp : ℕ} {toks rest : List Tok} {e : Expr} :
    parseExpr (fuelFor toks) minBp toks = .ok (e, rest) ↔ Reads (.expr minBp toks) e rest :=
  ⟨reads_of_parseExpr, fun h ↦ h.run (fuelFor toks) (Nat.le_refl _)⟩

/-! ### The fuel is enough -/

/-- A computation that did not run out of fuel. -/
def Fueled {α : Type} (x : Except ParseError α) : Prop := x ≠ .error .outOfFuel

theorem Fueled.bind {α β : Type} {x : Except ParseError α} {f : α → Except ParseError β}
    (hx : Fueled x) (hf : ∀ a, x = .ok a → Fueled (f a)) : Fueled (x >>= f) := by
  cases x with
  | error e => exact fun h ↦ hx (congrArg _ (Except.error.inj h))
  | ok a => exact hf a rfl

theorem fueled_ok {α : Type} (a : α) : Fueled (.ok a) := fun h ↦ by cases h

theorem fueled_message {α : Type} (text : String) :
    Fueled (.error (.message text) : Except ParseError α) := fun h ↦ by cases h

theorem fueled_expectRparen (toks : List Tok) : Fueled (expectRparen toks) := by
  unfold expectRparen
  split
  · exact fueled_ok _
  · unfold expect
    split <;> exact fueled_message _

/-- The calls that the fuel is enough for do not run out of it. -/
structure EnoughOn (fuel : ℕ) : Prop where
  expr : ∀ minBp toks, 3 * toks.length + 3 ≤ fuel → Fueled (parseExpr fuel minBp toks)
  loop : ∀ minBp lhs toks, 3 * toks.length + 1 ≤ fuel → Fueled (parseLoop fuel minBp lhs toks)
  operand : ∀ toks, 3 * toks.length + 2 ≤ fuel → Fueled (parsePrefix fuel toks)
  atom : ∀ toks, 3 * toks.length + 1 ≤ fuel → Fueled (parseAtom fuel toks)

theorem enoughOn (fuel : ℕ) : EnoughOn fuel := by
  induction fuel with
  | zero => constructor <;> intros <;> omega
  | succ fuel ih =>
    refine ⟨fun minBp toks hfuel ↦ ?_, fun minBp lhs toks hfuel ↦ ?_, fun toks hfuel ↦ ?_,
      fun toks hfuel ↦ ?_⟩
    · rw [parseExpr]
      refine (ih.operand toks (by omega)).bind fun lhs hlhs ↦ ih.loop _ _ _ ?_
      have hshrinks : lhs.2.length < toks.length :=
        ((soundOn fuel).operand toks lhs.1 lhs.2 hlhs).shrinks
      omega
    · cases toks with
      | nil => exact fueled_ok _
      | cons t toks =>
        rw [List.length_cons] at hfuel
        rw [parseLoop]
        split
        · exact fueled_ok _
        split
        · exact fueled_ok _
        refine (ih.expr _ toks (by omega)).bind fun rhs hrhs ↦ ih.loop _ _ _ ?_
        have hshrinks : rhs.2.length < toks.length := (reads_of_parseExpr hrhs).shrinks
        omega
    · by_cases hnot : toks.head? = some .not
      · obtain ⟨toks', rfl⟩ := List.head?_eq_some_iff.1 hnot
        rw [List.length_cons] at hfuel
        exact (ih.expr 7 toks' (by omega)).bind fun rhs _ ↦ fueled_ok _
      · rw [parsePrefix_of_ne_not hnot]
        exact ih.atom toks (by omega)
    · cases toks with
      | nil => exact fueled_message _
      | cons t toks =>
        rw [List.length_cons] at hfuel
        cases t with
        | num s | ident s | fident s => exact fueled_ok _
        | lparen =>
          exact (ih.expr 0 toks (by omega)).bind fun inner _ ↦
            (fueled_expectRparen _).bind fun rest _ ↦ fueled_ok _
        | _ => exact fueled_message _

/-- No run of the parser on a text runs out of fuel. -/
theorem parseExpr_ne_outOfFuel (minBp : ℕ) (toks : List Tok) :
    parseExpr (fuelFor toks) minBp toks ≠ .error .outOfFuel :=
  (enoughOn _).expr minBp toks (Nat.le_refl _)

/-! ### More tokens behind an expression -/

theorem Reads.isSuffix {call : Call} {e : Expr} {rest : List Tok} (h : Reads call e rest) :
    rest <:+ call.toks := by
  induction h with
  | expr _ _ ihoperand ihloop => exact ihloop.trans ihoperand
  | stop _ _ => exact List.suffix_refl _
  | step _ _ _ _ ihexpr ihloop => exact (ihloop.trans ihexpr).trans (List.suffix_cons _ _)
  | not _ ih => exact ih.trans (List.suffix_cons _ _)
  | parens _ ih => exact ((List.suffix_cons _ _).trans ih).trans (List.suffix_cons _ _)
  | num _ _ | ident _ _ | fident _ _ => exact List.suffix_cons _ _

/-- Where the loop of a call stops. -/
def Call.StopsAt (rest : List Tok) : Call → Prop
  | expr minBp _ | loop minBp _ _ => Stops minBp rest
  | operand _ => True

theorem Reads.stops {call : Call} {e : Expr} {rest : List Tok} (h : Reads call e rest) :
    call.StopsAt rest := by
  induction h with
  | expr _ _ _ ihloop => exact ihloop
  | stop _ hstops => exact hstops
  | step _ _ _ _ _ ihloop => exact ihloop
  | _ => exact trivial

theorem Stops.append {minBp : ℕ} {rest behind : List Tok} (h : Stops minBp rest)
    (h' : Stops minBp behind) : Stops minBp (rest ++ behind) := by
  cases rest with
  | nil => exact h'
  | cons t rest => exact stops_cons_iff.2 (stops_cons_iff.1 h)

theorem le_of_binaryOp? {t : Tok} {bp : ℕ} {op : Op} (h : t.binaryOp? = some (bp, op)) : 8 ≤ bp := by
  cases t <;> cases h <;> decide

/-- With tokens behind it, the call goes on where it ended. -/
def Call.GoesOn (behind : List Tok) (e : Expr) (rest : List Tok) : Call → Prop
  | expr minBp toks => ∀ e' rest', Reads (.loop minBp e (rest ++ behind)) e' rest' →
      Reads (.expr minBp (toks ++ behind)) e' rest'
  | loop minBp lhs toks => ∀ e' rest', Reads (.loop minBp e (rest ++ behind)) e' rest' →
      Reads (.loop minBp lhs (toks ++ behind)) e' rest'
  | operand toks => Reads (.operand (toks ++ behind)) e (rest ++ behind)

/-- A negation would read on across a comparison or a connective. -/
theorem Reads.append {call : Call} {e : Expr} {rest behind : List Tok} {level : ℕ}
    (h : Reads call e rest) (hbehind : Stops level behind) (hlevel : level ≤ 8)
    (hnot : level ≤ 7 ∨ .not ∉ call.toks) : call.GoesOn behind e rest := by
  induction h with
  | @expr minBp toks rest rest' lhs e hoperand _ ihoperand ihloop =>
    have hsuffix : rest <:+ toks := hoperand.isSuffix
    exact fun e' rest'' h ↦ .expr (ihoperand hnot)
      (ihloop (hnot.imp_right fun hnot hmem ↦ hnot (hsuffix.mem hmem)) e' rest'' h)
  | stop lhs _ => exact fun _ _ h ↦ h
  | @step minBp bp op t toks rest rest' lhs rhs e hop hlt hexpr _ ihexpr ihloop =>
    have hsuffix : rest <:+ toks := hexpr.isSuffix
    have htoks : level ≤ 7 ∨ .not ∉ toks :=
      hnot.imp_right fun hnot hmem ↦ hnot (List.mem_cons_of_mem _ hmem)
    have hstops : Stops bp (rest ++ behind) :=
      Stops.append hexpr.stops (hbehind.mono (Nat.le_trans hlevel (le_of_binaryOp? hop)))
    exact fun e' rest'' h ↦ .step hop hlt (ihexpr htoks _ _ (.stop rhs hstops))
      (ihloop (htoks.imp_right fun hnot hmem ↦ hnot (hsuffix.mem hmem)) e' rest'' h)
  | @not toks rest e hexpr ih =>
    have hseven : level ≤ 7 := hnot.resolve_right fun h ↦ h List.mem_cons_self
    have hstops : Stops 7 (rest ++ behind) := Stops.append hexpr.stops (hbehind.mono hseven)
    exact .not (ih (.inl hseven) _ _ (.stop e hstops))
  | @parens toks rest e _ ih =>
    have hstops : Stops 0 (.rparen :: rest ++ behind) :=
      stops_cons_iff.2 fun bp op hop ↦ by cases hop
    exact .parens (ih (hnot.imp_right fun hnot hmem ↦ hnot (List.mem_cons_of_mem _ hmem)) _ _
      (.stop e hstops))
  | num s toks => exact .num s _
  | ident s toks => exact .ident s _
  | fident s toks => exact .fident s _

/-- Behind an expression that was read on its own, the loop goes on. -/
theorem Reads.expr_append {minBp level : ℕ} {toks behind rest : List Tok} {e e' : Expr}
    (h : Reads (.expr minBp toks) e []) (hbehind : Stops level behind) (hlevel : level ≤ 8)
    (hnot : level ≤ 7 ∨ .not ∉ toks) (hloop : Reads (.loop minBp e behind) e' rest) :
    Reads (.expr minBp (toks ++ behind)) e' rest :=
  h.append hbehind hlevel hnot _ _ hloop

/-- In parentheses an expression is an operand. -/
theorem Reads.parenthesized {toks rest : List Tok} {e : Expr} (h : Reads (.expr 0 toks) e []) :
    Reads (.operand (.lparen :: (toks ++ .rparen :: rest))) e rest := by
  have hstops : Stops 0 (.rparen :: rest) := stops_cons_iff.2 fun bp op hop ↦ by cases hop
  exact .parens (h.expr_append hstops (Nat.zero_le _) (.inl (Nat.zero_le _)) (.stop e hstops))

/-! ### Lines -/

theorem expectFident_eq_ok_iff {toks rest : List Tok} {s : String} :
    expectFident toks = .ok (s, rest) ↔ toks = .fident s :: rest := by
  unfold expectFident
  grind

theorem expectNamed_eq_ok_iff {toks rest : List Tok} :
    expectNamed toks = .ok rest ↔ toks = .named :: rest := by
  unfold expectNamed
  grind

theorem expectArrow_eq_ok_iff {toks rest : List Tok} :
    expectArrow toks = .ok rest ↔ toks = .arrow :: rest := by
  unfold expectArrow
  grind

/-- The statement a list of tokens is read as. -/
theorem parseAssertion_eq_ok_iff {toks : List Tok} {assertion : Assertion} :
    parseAssertion toks = .ok assertion ↔
      ∃ toks', toks = .fident assertion.name :: .named :: .fident assertion.stmt.func ::
          .arrow :: toks' ∧ Reads (.expr 0 toks') assertion.stmt.exp [] := by
  obtain ⟨⟨func, e⟩, name⟩ := assertion
  unfold parseAssertion parseStmt
  simp only [bind_eq_ok, pure_eq_ok, Prod.exists, expectFident_eq_ok_iff, expectNamed_eq_ok_iff,
    expectArrow_eq_ok_iff, parseExpr_eq_ok_iff, Prod.mk.injEq]
  constructor
  · rintro ⟨name', toks₁, rfl, toks₂, rfl, stmt, rest, ⟨func', toks₃, rfl, toks₄, rfl, e', rest',
      hreads, rfl, rfl⟩, h⟩
    cases rest' with
    | nil =>
      cases pure_eq_ok.1 h
      exact ⟨toks₄, rfl, hreads⟩
    | cons t rest => cases h
  · rintro ⟨toks', rfl, hreads⟩
    exact ⟨name, _, rfl, _, rfl, ⟨func, e⟩, [], ⟨func, _, rfl, _, rfl, e, [], hreads, rfl, rfl⟩, rfl⟩

/-- A line that is read, by its tokens. -/
theorem parseLine_eq_ok_iff {classes : CharClasses} {line : String} {assertion : Assertion} :
    parseLine classes line = .ok assertion ↔
      ∃ toks, classes.lex line =
          .ok (.fident assertion.name :: .named :: .fident assertion.stmt.func :: .arrow :: toks) ∧
        Reads (.expr 0 toks) assertion.stmt.exp [] := by
  unfold parseLine
  cases hlex : classes.lex line with
  | error text => simp
  | ok toks =>
    dsimp only
    rw [parseAssertion_eq_ok_iff]
    simp only [Except.ok.injEq]

end MayMust.Assertions
