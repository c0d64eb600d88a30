import Mathlib.Data.Finset.Card
import MayMust.Formula.Rationals
import MayMust.Frontend.Assertions.Exp

/-!
# Translating assertions into formulas

An expression is a connective of formulas, a comparison or, else, a Boolean variable. A comparison
gives all of its operands one numeric sort, inferred from the seeds and from the literals. With no
hint at all it is an integer comparison if it computes something, and ambiguous otherwise.
-/

namespace MayMust.Assertions

open Library

/-! ### Errors -/

/-- `TranslationError`. -/
inductive TranslationError
  | nonBooleanAtom (expr : String)
  | unsupportedOperator (op : Op)
  | expectedArithmeticExpr
  | unsupportedBooleanTerm
  | noSharedNumericSort
  | ambiguousNumericSort
  | seedConflict (name : String) (expected actual : VarSort)
  | mixedNumericContext (left right : VarSort)
  | invalidIntegerLiteral (literal : String)
  | invalidRealLiteral (literal : String)
  /-- The program stops: a result does not fit or a denominator has become zero. -/
  | panicked
  deriving DecidableEq

/-- The operator, as derived formatting writes it. -/
def Op.debug : Op → String
  | plus => "Plus"
  | minus => "Minus"
  | div => "Div"
  | mult => "Mult"
  | lAnd => "LAnd"
  | lOr => "LOr"
  | lNot => "LNot"
  | gt => "Gt"
  | ge => "Ge"
  | lt => "Lt"
  | le => "Le"
  | eeq => "Eeq"
  | arrow => "Arrow"
  | named => "Named"

/-- The expression, as derived formatting writes it. Names and numerals need no escapes. -/
def Expr.debug : Expr → String
  | ident name => "Ident(\"" ++ name ++ "\")"
  | const value => "Const(\"" ++ value ++ "\")"
  | binop lhs op rhs => "Binop(" ++ lhs.debug ++ ", " ++ op.debug ++ ", " ++ rhs.debug ++ ")"
  | unop inner => "Unop(" ++ inner.debug ++ ")"

/-! ### Literals -/

/-- The number a list of digits denotes, if it is one. -/
def parseDigits (digits : List Char) : Option ℕ :=
  if digits ≠ [] ∧ digits.all Char.isDigit then
    some (digits.foldl (fun n c ↦ 10 * n + (c.toNat - '0'.toNat)) 0)
  else none

/-- `str::parse::<i64>`: an optional sign, digits, and no overflow. -/
def parseInt64 : List Char → Option Int64
  | '-' :: digits => do
    let n ← parseDigits digits
    if n ≤ 2 ^ 63 then some (Int64.ofInt (-n)) else none
  | '+' :: digits | digits => do
    let n ← parseDigits digits
    if n < 2 ^ 63 then some (Int64.ofNat n) else none

/-- The arithmetic of `parse_real_literal` on the parts of a literal with a point. The number of
digits behind it is cast to 32 bits. -/
def decimalRational (overflow : Overflow) (whole fracValue : Int64) (fracDigits : ℕ) :
    Option Rational := do
  let denom ← overflow.fit (10 ^ (fracDigits % 2 ^ 32))
  let sign : ℤ := if whole < 0 then -1 else 1
  let wholeAbs ← overflow.fit |whole.toInt|
  let product ← overflow.fit (wholeAbs.toInt * denom.toInt)
  let sum ← overflow.fit (product.toInt + fracValue.toInt)
  let num ← overflow.fit (sign * sum.toInt)
  Rational.new overflow num denom

/-- `parse_real_literal`. -/
def parseRealLiteral (overflow : Overflow) (value : String) :
    Except TranslationError Rational :=
  let parse (chars : List Char) : Except TranslationError Int64 :=
    (parseInt64 chars).elim (.error (.invalidRealLiteral value)) .ok
  if '.' ∈ value.toList then do
    let whole ← parse (value.toList.takeWhile (· ≠ '.'))
    let frac := (value.toList.dropWhile (· ≠ '.')).tail
    let fracValue ← parse frac
    (decimalRational overflow whole fracValue frac.length).elim (.error .panicked) .ok
  else do
    let num ← parse value.toList
    (Rational.integer overflow num).elim (.error .panicked) .ok

/-- `lower_literal`. -/
def lowerLiteral (value : String) : VarSort → Except TranslationError Term
  | .int => (parseInt64 value.toList).elim (.error (.invalidIntegerLiteral value)) fun n ↦
      .ok (.int n)
  | .real => (parseRealLiteral .wraps value).map .real
  | .bool => .error .unsupportedBooleanTerm

/-! ### Sorts -/

/-- `SortSeeds`. -/
abbrev SortSeeds := String → Option VarSort

/-- No seeds. -/
def noSeeds : SortSeeds := fun _ ↦ none

/-- The operators of arithmetic. -/
def Op.IsArithmetic (op : Op) : Prop := op = plus ∨ op = minus ∨ op = div ∨ op = mult

instance (op : Op) : Decidable op.IsArithmetic := inferInstanceAs (Decidable (_ ∨ _))

/-- `contains_arithmetic`. -/
def containsArithmetic : Expr → Bool
  | .binop lhs op rhs =>
    decide op.IsArithmetic || containsArithmetic lhs || containsArithmetic rhs
  | .unop inner => containsArithmetic inner
  | _ => false

/-- The last check of `candidate_numeric_sorts`. -/
def someCandidate (sorts : Finset VarSort) : Except TranslationError (Finset VarSort) :=
  if sorts = ∅ then .error .expectedArithmeticExpr else .ok sorts

variable (seeds : SortSeeds)

/-- `candidate_numeric_sorts`. -/
def candidateNumericSorts : Expr → Except TranslationError (Finset VarSort)
  | .ident name =>
    someCandidate (match seeds name with
      | some .bool => ∅
      | some sort => {sort}
      | none => {.int, .real})
  | .const value => someCandidate (if '.' ∈ value.toList then {.real} else {.int, .real})
  | .unop inner => do
    let sorts ← candidateNumericSorts inner
    someCandidate sorts
  | .binop lhs op rhs =>
    if op.IsArithmetic then do
      let lhs ← candidateNumericSorts lhs
      let rhs ← candidateNumericSorts rhs
      someCandidate (lhs ∩ rhs)
    else someCandidate ∅

/-- The least sort of a set that has one. -/
def leastSort (sorts : Finset VarSort) : VarSort :=
  if .bool ∈ sorts then .bool else if .int ∈ sorts then .int else .real

/-- `infer_numeric_sort`. -/
def inferNumericSort (lhs rhs : Expr) : Except TranslationError VarSort := do
  let lhsSorts ← candidateNumericSorts seeds lhs
  let rhsSorts ← candidateNumericSorts seeds rhs
  let intersection := lhsSorts ∩ rhsSorts
  if intersection = ∅ then .error .noSharedNumericSort
  else if 1 < intersection.card then
    if .int ∈ intersection ∧ .real ∈ intersection ∧
        (containsArithmetic lhs || containsArithmetic rhs) then .ok .int
    else .error .ambiguousNumericSort
  else .ok (leastSort intersection)

/-! ### Lowering -/

/-- `lower_term`. -/
def lowerTerm (expected : VarSort) (e : Expr) : Except TranslationError Term :=
  if expected = .bool then .error .unsupportedBooleanTerm
  else
    match e with
    | .ident name =>
      match seeds name with
      | some seed =>
        if seed ≠ expected then .error (.seedConflict name expected seed)
        else .ok (.var ⟨name, expected⟩)
      | none => .ok (.var ⟨name, expected⟩)
    | .const value => lowerLiteral value expected
    | .unop inner => do
      let inner ← lowerTerm expected inner
      return .neg inner
    | .binop lhs op rhs => do
      let lhs ← lowerTerm expected lhs
      let rhs ← lowerTerm expected rhs
      match op with
      | .plus => return .add lhs rhs
      | .minus => return .sub lhs rhs
      | .mult => return .mul lhs rhs
      | .div => return .div lhs rhs
      | _ => .error .expectedArithmeticExpr

/-- `lower_comparison`, which the source writes out for equations. -/
def lowerComparison (lhs rhs : Expr) (build : Term → Term → Formula) :
    Except TranslationError Formula := do
  let sort ← inferNumericSort seeds lhs rhs
  let lhs ← lowerTerm seeds sort lhs
  let rhs ← lowerTerm seeds sort rhs
  return build lhs rhs

/-- `lower_formula`. -/
def lowerFormula : Expr → Except TranslationError Formula
  | .ident name =>
    if (seeds name).getD .bool ≠ .bool then .error (.nonBooleanAtom name)
    else .ok (Formula.boolVar name)
  | .const value =>
    if value = "true" then .ok .tru
    else if value = "false" then .ok .fls
    else .error (.nonBooleanAtom value)
  | .unop inner => do
    let inner ← lowerFormula inner
    return .not inner
  | .binop lhs op rhs =>
    match op with
    | .lAnd => do
      let lhs ← lowerFormula lhs
      let rhs ← lowerFormula rhs
      return Formula.mkAnd lhs rhs
    | .lOr => do
      let lhs ← lowerFormula lhs
      let rhs ← lowerFormula rhs
      return Formula.mkOr lhs rhs
    | .eeq => lowerComparison seeds lhs rhs .eq
    | .gt => lowerComparison seeds lhs rhs .gt
    | .ge => lowerComparison seeds lhs rhs .ge
    | .lt => lowerComparison seeds lhs rhs .lt
    | .le => lowerComparison seeds lhs rhs .le
    | .plus | .minus | .div | .mult =>
      .error (.nonBooleanAtom (lhs.debug ++ " " ++ op.display ++ " " ++ rhs.debug))
    | .lNot | .arrow | .named => .error (.unsupportedOperator op)

/-- `TranslatedStatement`. -/
structure TranslatedStatement where
  func : String
  predicate : Formula

/-- `TranslatedAssertion`. -/
structure TranslatedAssertion where
  name : String
  stmt : TranslatedStatement

/-- `translate_expr`. -/
def translateExpr (e : Expr) : Except TranslationError Formula := lowerFormula seeds e

/-- `translate_statement`. -/
def translateStatement (statement : Statement) : Except TranslationError TranslatedStatement := do
  let predicate ← translateExpr seeds statement.exp
  return ⟨statement.func, predicate⟩

/-- `translate_assertion`. -/
def translateAssertion (assertion : Assertion) : Except TranslationError TranslatedAssertion := do
  let stmt ← translateStatement seeds assertion.stmt
  return ⟨assertion.name, stmt⟩

end MayMust.Assertions
