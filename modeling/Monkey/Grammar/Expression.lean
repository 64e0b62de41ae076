import Monkey.Grammar.Combinators
import Monkey.Grammar.Precedence
import Monkey.Tree.Basic

/-! The grammar of statements and expressions. Each rule starts with the current token
on the first token of its phrase and ends with it on the last. The rules take the parser
of the expressions inside them as an argument, and `expression` ties the knot by
recursion on the number of expressions that may still be opened, so a phrase is read the
same way at every level until that number runs out. -/

namespace Monkey.Grammar

open Monkey.Parser

/-- The number of expressions that may be open at once. -/
def maxNesting : Nat := 64

section Rules

variable (expr : Precedence → Parser Expr)

/-! ### Statements -/

def letStatement : Parser Statement := do
  let token ← current
  let name ← expect .identifier
  let _ ← expect .assign
  advance
  let value ← expr .lowest
  accept .semicolon
  return .letStmt token (.ofToken name) value

def returnStatement : Parser Statement := do
  let token ← current
  advance
  let value ← expr .lowest
  accept .semicolon
  return .returnStmt token value

def exprStatement : Parser Statement := do
  let token ← current
  let expression ← expr .lowest
  accept .semicolon
  return .exprStmt token expression

def statement : Parser Statement := rule .statement do
  let token ← current
  match token.kind with
  | .kwLet => rule .letStmt (letStatement expr)
  | .kwReturn => rule .returnStmt (returnStatement expr)
  | _ => rule .exprStmt (exprStatement expr)

/-- Whether a block ends at this token. -/
def endsBlock (t : Token) : Bool := t.kind = .rightBrace || t.kind = .endOfInput

/-- Starts on an opening brace and ends on a closing one, or at the end of input. -/
def block : Parser Block := rule .block do
  let token ← current
  advance
  let statements ← itemsUntil endsBlock (statement expr)
  return ⟨token, statements⟩

/-! ### Operands -/

/-- Items between parentheses, separated by commas. Starts on the opening parenthesis,
and each item on the token before it. -/
def parenthesized {α : Type} (item : Parser α) : Parser (List α) := do
  if (← following).kind = .rightParen then
    advance
    return []
  else
    let first ← item
    let all ← extend (·.kind = .comma) (fun items => return items ++ [← item]) [first]
    let _ ← expect .rightParen
    return all

def integer (token : Token) : Parser Expr :=
  match token.integerValue? with
  | some value => pure (.integer token value)
  | none => fail (.integerTooLarge token.literal)

def unary (token : Token) (op : UnaryOp) : Parser Expr := do
  advance
  return .unary token op (← expr .unary)

def group : Parser Expr := do
  advance
  let inner ← expr .lowest
  let _ ← expect .rightParen
  return inner

/-- The alternative of a conditional, if the keyword for it follows. -/
def alternative : Parser (Option Block) := do
  if (← following).kind = .kwElse then
    advance
    let _ ← expect .leftBrace
    return some (← block expr)
  else
    return none

def conditional (token : Token) : Parser Expr := do
  let _ ← expect .leftParen
  advance
  let condition ← expr .lowest
  let _ ← expect .rightParen
  let _ ← expect .leftBrace
  let consequence ← block expr
  let alternative ← alternative expr
  return .ifElse token condition consequence alternative

def function (token : Token) : Parser Expr := do
  let _ ← expect .leftParen
  let parameters ← parenthesized (expect .identifier)
  let _ ← expect .leftBrace
  let body ← block expr
  return .function token (parameters.map .ofToken) body

/-- An expression without trailing operators, chosen by its first token. -/
def operand : Parser Expr := do
  let token ← current
  match token.kind with
  | .identifier => rule .identifier (pure (.identifier (.ofToken token)))
  | .integer => rule .integer (integer token)
  | .kwTrue => rule .boolean (pure (.boolean token true))
  | .kwFalse => rule .boolean (pure (.boolean token false))
  | .minus => rule .unary (unary expr token .minus)
  | .bang => rule .unary (unary expr token .bang)
  | .leftParen => rule .group (group expr)
  | .kwIf => rule .ifElse (conditional expr token)
  | .kwFn => rule .function (function expr token)
  | kind => fail (.noOperand kind)

/-! ### Operators -/

def binary (token : Token) (op : BinaryOp) (left : Expr) : Parser Expr := do
  advance
  return .binary token op left (← expr token.kind.precedence)

def call (token : Token) (callee : Expr) : Parser Expr := do
  let arguments ← parenthesized (do advance; expr .lowest)
  return .call token callee arguments

/-- Takes `left` as the left operand of the current token, a binary operator or the
parenthesis that opens an argument list. -/
def suffix (left : Expr) : Parser Expr := do
  let token ← current
  match BinaryOp.ofKind? token.kind with
  | some op => rule .binary (binary expr token op left)
  | none => rule .call (call expr token left)

/-- An operand and the operators behind it that bind more tightly than `p`. -/
def chain (p : Precedence) : Parser Expr := do
  let left ← operand expr
  extend (fun t => decide (p < t.kind.precedence)) (suffix expr) left

end Rules

/-- The expressions that open at most `n` expressions, themselves included. -/
def expression : Nat → Precedence → Parser Expr
  | 0, _ => fail (.nestingTooDeep maxNesting)
  | n + 1, p => rule .expression (chain (expression n) p)

/-- The statements before the first end-of-input mark. -/
def program (ts : List Token) : Outcome Program :=
  let o := items (·.kind = .endOfInput) (statement (expression maxNesting)) ts
  { o with value := ⟨o.value⟩ }

end Monkey.Grammar
