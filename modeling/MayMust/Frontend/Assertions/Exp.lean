import Mathlib.Tactic.Common
import MayMust.Library.Fallible

/-!
# The assertion language

`name :: function => expression`, read by a lexer and a precedence-climbing parser. All binary
operators group to the left. Their binding powers, tightest first: `*` and `/`, then `+` and `-`,
then the comparisons and the connectives `&` and `|`, which share one level. The negation `!` reads
an expression of that level behind it.

* What a character is (white space, a letter) follows Unicode in the source; the classes are a
  parameter (`CharClasses`).
* The position of the parser in its tokens is the list of the tokens to come.
* The parser recurses on fuel. A text gets enough for its length
  (`parseExpr_ne_outOfFuel`).
-/

namespace MayMust.Assertions

/-! ### Syntax -/

/-- `Op`. -/
inductive Op
  | plus
  | minus
  | div
  | mult
  | lAnd
  | lOr
  | lNot
  | gt
  | ge
  | lt
  | le
  | eeq
  | arrow
  | named
  deriving DecidableEq

/-- `Op`, displayed. -/
def Op.display : Op → String
  | plus => "+"
  | minus => "-"
  | div => "/"
  | mult => "*"
  | lAnd => "&"
  | lOr => "|"
  | lNot => "!"
  | gt => ">"
  | ge => ">="
  | lt => "<"
  | le => "<="
  | eeq => "=="
  | arrow => "=>"
  | named => "::"

/-- `Expr`. -/
inductive Expr
  | ident (name : String)
  | const (value : String)
  | binop (lhs : Expr) (op : Op) (rhs : Expr)
  | unop (inner : Expr)
  deriving DecidableEq

/-- `Statement`. -/
structure Statement where
  func : String
  exp : Expr
  deriving DecidableEq

/-- `Assertion`. -/
structure Assertion where
  stmt : Statement
  name : String
  deriving DecidableEq

/-- `Tok`. -/
inductive Tok
  | num (digits : String)
  /-- `%name`, the percent sign included. -/
  | ident (name : String)
  | fident (name : String)
  | plus
  | minus
  | star
  | slash
  | and
  | or
  | not
  | gt
  | ge
  | lt
  | le
  | eqEq
  | arrow
  | named
  | lparen
  | rparen
  deriving DecidableEq

/-- `Tok`, displayed. -/
def Tok.display : Tok → String
  | num s | ident s | fident s => s
  | plus => "+"
  | minus => "-"
  | star => "*"
  | slash => "/"
  | and => "&"
  | or => "|"
  | not => "!"
  | gt => ">"
  | ge => ">="
  | lt => "<"
  | le => "<="
  | eqEq => "=="
  | arrow => "=>"
  | named => "::"
  | lparen => "("
  | rparen => ")"

/-! ### The lexer -/

/-- The character classes of the standard library. -/
structure CharClasses where
  isWhitespace : Char → Bool
  isAlphabetic : Char → Bool
  isAlphanumeric : Char → Bool

namespace CharClasses

/-- The classes as they are on ASCII. -/
def ascii : CharClasses := ⟨Char.isWhitespace, Char.isAlpha, Char.isAlphanum⟩

variable (classes : CharClasses)

/-- The characters of an identifier. -/
def isNameChar (c : Char) : Bool := classes.isAlphanumeric c || c == '_'

/-- The fraction of a numeric literal: a point and the digits after it, if there are some. -/
def fraction : List Char → List Char
  | '.' :: d :: rest => if d.isDigit then '.' :: (d :: rest).takeWhile Char.isDigit else []
  | _ => []

/-- One of two tokens: the second, of two characters, if the first is followed so. -/
def oneOrTwo (follower : Char) (one two : Tok) (rest : List Char) : Tok × ℕ :=
  if rest.head? = some follower then (two, 2) else (one, 1)

/-- The branches of `lex` for operators and parentheses. -/
def lexSymbol (position : ℕ) (c : Char) (rest : List Char) : Option (Except String (Tok × ℕ)) :=
  match c with
  | '+' => some (.ok (.plus, 1))
  | '-' => some (.ok (.minus, 1))
  | '*' => some (.ok (.star, 1))
  | '/' => some (.ok (.slash, 1))
  | '(' => some (.ok (.lparen, 1))
  | ')' => some (.ok (.rparen, 1))
  | '!' => some (.ok (.not, 1))
  | '~' => some (.ok (.not, 1))
  | '&' => some (.ok (oneOrTwo '&' .and .and rest))
  | '|' => some (.ok (oneOrTwo '|' .or .or rest))
  | '>' => some (.ok (oneOrTwo '=' .gt .ge rest))
  | '<' => some (.ok (oneOrTwo '=' .lt .le rest))
  | '=' =>
    some (if rest.head? = some '=' then .ok (.eqEq, 2)
      else if rest.head? = some '>' then .ok (.arrow, 2)
      else .error ("unexpected '=' at position " ++ toString position))
  | ':' =>
    some (if rest.head? = some ':' then .ok (.named, 2)
      else .error ("unexpected ':' at position " ++ toString position))
  | _ => none

/-- The branches of `lex` for identifiers and numbers. -/
def lexWord (position : ℕ) (c : Char) (rest : List Char) : Except String (Tok × ℕ) :=
  if c = '%' then
    let name := rest.takeWhile classes.isNameChar
    if name = [] then .error "empty identifier after '%'"
    else .ok (.ident (String.ofList (c :: name)), name.length + 1)
  else if classes.isAlphabetic c ∨ c = '_' then
    let name := c :: rest.takeWhile classes.isNameChar
    .ok (.fident (String.ofList name), name.length)
  else if c.isDigit then
    let whole := c :: rest.takeWhile Char.isDigit
    let digits := whole ++ fraction (rest.dropWhile Char.isDigit)
    .ok (.num (String.ofList digits), digits.length)
  else .error ("unexpected character '" ++ String.singleton c ++ "' at position " ++
    toString position)

/-- The token that starts with a character that is no white space, and the number of its
characters. -/
def lexToken (position : ℕ) (c : Char) (rest : List Char) : Except String (Tok × ℕ) :=
  (lexSymbol position c rest).getD (classes.lexWord position c rest)

/-- The loop of `lex` at a position, with a number of characters that belong to the last token. -/
def lexFrom : ℕ → ℕ → List Char → Except String (List Tok)
  | _, _, [] => .ok []
  | skip + 1, position, _ :: rest => lexFrom skip (position + 1) rest
  | 0, position, c :: rest =>
    if classes.isWhitespace c then lexFrom 0 (position + 1) rest
    else do
      let read ← classes.lexToken position c rest
      let toks ← lexFrom (read.2 - 1) (position + 1) rest
      return read.1 :: toks

/-- `lex`. -/
def lex (src : String) : Except String (List Tok) := classes.lexFrom 0 0 src.toList

end CharClasses

/-! ### The parser -/

/-- The errors of the parser, texts in the source. -/
inductive ParseError
  | message (text : String)
  | outOfFuel
  deriving DecidableEq

/-- The binding power of a token between two operands, and its operator. -/
def Tok.binaryOp? : Tok → Option (ℕ × Op)
  | star => some (10, .mult)
  | slash => some (10, .div)
  | plus => some (9, .plus)
  | minus => some (9, .minus)
  | eqEq => some (8, .eeq)
  | gt => some (8, .gt)
  | ge => some (8, .ge)
  | lt => some (8, .lt)
  | le => some (8, .le)
  | and => some (8, .lAnd)
  | or => some (8, .lOr)
  | _ => none

/-- `advance`, with the error of the callers that expect a particular token. -/
def expect (expected : String) (toks : List Tok) : ParseError :=
  match toks with
  | t :: _ => .message ("expected " ++ expected ++ ", got '" ++ t.display ++ "'")
  | [] => .message ("expected " ++ expected ++ ", got end of input")

/-- `expect_fident`. -/
def expectFident : List Tok → Except ParseError (String × List Tok)
  | .fident s :: rest => .ok (s, rest)
  | toks => .error (expect "identifier" toks)

/-- `expect_named`. -/
def expectNamed : List Tok → Except ParseError (List Tok)
  | .named :: rest => .ok rest
  | toks => .error (expect "'::'" toks)

/-- `expect_arrow`. -/
def expectArrow : List Tok → Except ParseError (List Tok)
  | .arrow :: rest => .ok rest
  | toks => .error (expect "'=>'" toks)

/-- `expect_rparen`. -/
def expectRparen : List Tok → Except ParseError (List Tok)
  | .rparen :: rest => .ok rest
  | toks => .error (expect "')'" toks)

mutual

/-- `parse_expr`. -/
def parseExpr : ℕ → ℕ → List Tok → Except ParseError (Expr × List Tok)
  | 0, _, _ => .error .outOfFuel
  | fuel + 1, minBp, toks => do
    let lhs ← parsePrefix fuel toks
    parseLoop fuel minBp lhs.1 lhs.2
termination_by structural fuel => fuel

/-- The loop of `parse_expr`: operators that bind tighter than `minBp`. -/
def parseLoop : ℕ → ℕ → Expr → List Tok → Except ParseError (Expr × List Tok)
  | 0, _, _, _ => .error .outOfFuel
  | _ + 1, _, lhs, [] => .ok (lhs, [])
  | fuel + 1, minBp, lhs, t :: toks =>
    match t.binaryOp? with
    | none => .ok (lhs, t :: toks)
    | some (bp, op) =>
      if bp ≤ minBp then .ok (lhs, t :: toks)
      else do
        let rhs ← parseExpr fuel bp toks
        parseLoop fuel minBp (.binop lhs op rhs.1) rhs.2
termination_by structural fuel => fuel

/-- `parse_prefix`. -/
def parsePrefix : ℕ → List Tok → Except ParseError (Expr × List Tok)
  | 0, _ => .error .outOfFuel
  | fuel + 1, .not :: toks => do
    let rhs ← parseExpr fuel 7 toks
    return (.unop rhs.1, rhs.2)
  | fuel + 1, toks => parseAtom fuel toks
termination_by structural fuel => fuel

/-- `parse_atom`. -/
def parseAtom : ℕ → List Tok → Except ParseError (Expr × List Tok)
  | 0, _ => .error .outOfFuel
  | _ + 1, .num s :: toks => .ok (.const s, toks)
  | _ + 1, .ident s :: toks => .ok (.ident s, toks)
  | _ + 1, .fident s :: toks => .ok (.ident s, toks)
  | fuel + 1, .lparen :: toks => do
    let inner ← parseExpr fuel 0 toks
    let rest ← expectRparen inner.2
    return (inner.1, rest)
  | _ + 1, t :: _ => .error (.message ("expected expression atom, got '" ++ t.display ++ "'"))
  | _ + 1, [] => .error (.message "unexpected end of input in expression")
termination_by structural fuel => fuel

end

/-- Enough for every call on that many tokens. -/
def fuelFor (toks : List Tok) : ℕ := 3 * toks.length + 3

/-- `parse_stmt`. -/
def parseStmt (toks : List Tok) : Except ParseError (Statement × List Tok) := do
  let func ← expectFident toks
  let toks ← expectArrow func.2
  let exp ← parseExpr (fuelFor toks) 0 toks
  return (⟨func.1, exp.1⟩, exp.2)

/-- `parse_assertion`. -/
def parseAssertion (toks : List Tok) : Except ParseError Assertion := do
  let name ← expectFident toks
  let toks ← expectNamed name.2
  let stmt ← parseStmt toks
  match stmt.2 with
  | [] => return ⟨stmt.1, name.1⟩
  | t :: _ => .error (.message ("unexpected token '" ++ t.display ++ "' after expression"))

/-- `parse_line`. -/
def parseLine (classes : CharClasses) (line : String) : Except ParseError Assertion :=
  match classes.lex line with
  | .ok toks => parseAssertion toks
  | .error text => .error (.message text)

/-- `parse_cmd_line`. Its error repeats the text that was given. -/
def parseCmdLine (classes : CharClasses) (s : String) : Except ParseError Assertion :=
  match parseLine classes ("cmdline :: " ++ s) with
  | .error (.message text) => .error (.message (s ++ ": " ++ text))
  | result => result

end MayMust.Assertions
