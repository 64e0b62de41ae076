import Monkey.Token.Basic

/-! Syntax trees. Every node keeps the token it was read from, beside the value that
the token stands for; a tree built by hand may let the two disagree. Parentheses of
groups and the semicolons between statements leave no node. -/

namespace Monkey

/-- A name, as an expression, a parameter or the target of a `let`. -/
structure Identifier where
  token : Token
  value : String
deriving DecidableEq, Repr

/-- The identifier that a token spells. -/
def Identifier.ofToken (token : Token) : Identifier := ⟨token, token.literal⟩

inductive UnaryOp where
  | minus
  | bang
deriving DecidableEq, Repr

inductive BinaryOp where
  | plus
  | minus
  | star
  | slash
  | equal
  | notEqual
  | greater
  | less
deriving DecidableEq, Repr

/-- The kind of the token that spells the operator. -/
def UnaryOp.kind : UnaryOp → Kind
  | minus => .minus
  | bang => .bang

/-- The kind of the token that spells the operator. -/
def BinaryOp.kind : BinaryOp → Kind
  | plus => .plus
  | minus => .minus
  | star => .star
  | slash => .slash
  | equal => .equal
  | notEqual => .notEqual
  | greater => .greater
  | less => .less

/-- The binary operator that a kind of token spells, if it spells one. -/
def BinaryOp.ofKind? : Kind → Option BinaryOp
  | .plus => some plus
  | .minus => some minus
  | .star => some star
  | .slash => some slash
  | .equal => some equal
  | .notEqual => some notEqual
  | .greater => some greater
  | .less => some less
  | _ => none

theorem BinaryOp.ofKind?_eq_some_iff {k : Kind} {op : BinaryOp} : ofKind? k = some op ↔ op.kind = k := by
  cases k <;> cases op <;> decide

mutual

/-- An expression. The token of a `call` is its opening parenthesis, that of a `unary`
or `binary` node its operator. -/
inductive Expr where
  | identifier (name : Identifier)
  | integer (token : Token) (value : Int64)
  | boolean (token : Token) (value : Bool)
  | unary (token : Token) (op : UnaryOp) (operand : Expr)
  | binary (token : Token) (op : BinaryOp) (left right : Expr)
  | ifElse (token : Token) (condition : Expr) (consequence : Block) (alternative : Option Block)
  | function (token : Token) (parameters : List Identifier) (body : Block)
  | call (token : Token) (callee : Expr) (arguments : List Expr)

/-- Statements between braces; the token is the opening brace. -/
structure Block where
  token : Token
  statements : List Statement

inductive Statement where
  | letStmt (token : Token) (name : Identifier) (value : Expr)
  | returnStmt (token : Token) (value : Expr)
  | exprStmt (token : Token) (expression : Expr)

end

/-- The statements of a source, in order. -/
structure Program where
  statements : List Statement

def Expr.token : Expr → Token
  | identifier name => name.token
  | integer token _ => token
  | boolean token _ => token
  | unary token _ _ => token
  | binary token _ _ _ => token
  | ifElse token _ _ _ => token
  | function token _ _ => token
  | call token _ _ => token

def Statement.token : Statement → Token
  | letStmt token _ _ => token
  | returnStmt token _ => token
  | exprStmt token _ => token

/-- The literal that opens a program, empty for the empty program. -/
def Program.tokenLiteral (p : Program) : String :=
  match p.statements with
  | [] => ""
  | s :: _ => s.token.literal

end Monkey
