import Monkey.Grammar.Expression
import Monkey.Text.Sink
import Monkey.Token.Lexer

/-! A machine that reads programs one action at a time. It has two tokens in view and draws
the rest from a lexer; it keeps the diagnostics found so far, counts the expressions it is
in the middle of, and writes its trace while it runs. What it does is said in code: actions,
looks at its own state, and calls of routines, which may fail to give a result. -/

namespace Monkey.Machine

/-! ### States and actions -/

structure State where
  lexer : Lexer
  current : Token
  following : Token
  diagnostics : List Diagnostic
  /-- How many expressions are being read, one inside the other. -/
  nesting : Nat
  sink : Option Sink
  /-- How far the lines of the trace are indented. -/
  depth : Nat

/-- What the machine does to its state, one thing at a time. -/
inductive Action where
  | advance
  | report (d : Diagnostic)
  | enter
  | leave
  | line (text : String)
  | indent
  | outdent

/-- The state after an action. A sink that does not take all of a line is written to all the
same, and the counters stop at zero. -/
def Action.perform : Action → State → State
  | advance, s => { s with
      lexer := s.lexer.next.2, current := s.following, following := s.lexer.next.1 }
  | report d, s => { s with diagnostics := s.diagnostics ++ [d] }
  | enter, s => { s with nesting := s.nesting + 1 }
  | leave, s => { s with nesting := s.nesting - 1 }
  | line text, s => { s with
      sink := s.sink.map fun k => (k.write ("".pushn '\t' s.depth ++ text ++ "\n")).1 }
  | indent, s => { s with depth := s.depth + 1 }
  | outdent, s => { s with depth := s.depth - 1 }

/-- A machine that has just been given a lexer, with the first two tokens in view. -/
def State.ofLexer (l : Lexer) (sink : Option Sink) : State :=
  Action.advance.perform (Action.advance.perform
    ⟨l, .endOfInput, .endOfInput, [], 0, sink, 0⟩)

/-! ### Routines -/

/-- The forms of an expression that starts with a token of its own. -/
inductive OperandForm where
  | identifier
  | integer
  | boolean
  | unary
  | group
  | conditional
  | function

/-- The form that the first token of an operand announces. -/
def OperandForm.ofKind? : Kind → Option OperandForm
  | .identifier => some identifier
  | .integer => some integer
  | .kwTrue | .kwFalse => some boolean
  | .bang | .minus => some unary
  | .leftParen => some group
  | .kwIf => some conditional
  | .kwFn => some function
  | _ => none

/-- The rule that reading an operand is traced under. -/
def OperandForm.rule : OperandForm → Rule
  | identifier => .identifier
  | integer => .integer
  | boolean => .boolean
  | unary => .unary
  | group => .group
  | conditional => .ifElse
  | function => .function

/-- The forms of an expression that goes on behind a left operand. -/
inductive SuffixForm where
  | binary
  | call

/-- The form that a token behind an operand announces. -/
def SuffixForm.ofKind? : Kind → Option SuffixForm
  | .plus | .minus | .star | .slash | .equal | .notEqual | .less | .greater => some binary
  | .leftParen => some call
  | _ => none

def SuffixForm.rule : SuffixForm → Rule
  | binary => .binary
  | call => .call

/-- Where statements stand. -/
inductive Scope where
  | program
  | block

/-- Whether the statements of a scope end at this token. -/
def Scope.ends : Scope → Token → Bool
  | program, t => t.kind = .endOfInput
  | block, t => Grammar.endsBlock t

/-- The routines of the machine. One that takes what was read so far is a loop, which calls
itself to go on. -/
inductive Routine where
  | program
  | statements (scope : Scope) (soFar : List Statement)
  | statement
  | letStatement
  | returnStatement
  | exprStatement
  | block
  | expression (p : Precedence)
  | chain (p : Precedence)
  | operators (p : Precedence) (left : Expr)
  | operand (form : OperandForm)
  | suffix (form : SuffixForm) (left : Expr)
  | parameters
  | moreParameters (soFar : List Identifier)
  | arguments
  | moreArguments (soFar : List Expr)

/-- What a routine gives when it does not fail. -/
abbrev Routine.Result : Routine → Type
  | program => Program
  | statements _ _ => List Statement
  | statement => Statement
  | letStatement => Statement
  | returnStatement => Statement
  | exprStatement => Statement
  | block => Block
  | expression _ => Expr
  | chain _ => Expr
  | operators _ _ => Expr
  | operand _ => Expr
  | suffix _ _ => Expr
  | parameters => List Identifier
  | moreParameters _ => List Identifier
  | arguments => List Expr
  | moreArguments _ => List Expr

/-! ### Code -/

/-- Code that ends with a value or gives up. What follows a call is told whether the routine
gave a result. -/
inductive Code (α : Type) : Type where
  | done (a : α)
  | giveUp
  | act (a : Action) (next : Code α)
  | look (next : State → Code α)
  | call (c : Routine) (next : Option c.Result → Code α)

namespace Code

variable {α β : Type}

def bind (f : α → Code β) : Code α → Code β
  | done a => f a
  | giveUp => giveUp
  | act a next => act a (next.bind f)
  | look next => look fun s => (next s).bind f
  | call c next => call c fun r => (next r).bind f

instance : Monad Code where
  pure := done
  bind m f := m.bind f

/-- Runs code that may give up, and goes on either way. -/
def attempt : Code α → Code (Option α)
  | done a => done (some a)
  | giveUp => done none
  | act a next => act a next.attempt
  | look next => look fun s => (next s).attempt
  | call c next => call c fun r => (next r).attempt

def ofOption : Option α → Code α
  | some a => done a
  | none => giveUp

def perform (a : Action) : Code Unit := act a (done ())

def current : Code Token := look fun s => done s.current

def following : Code Token := look fun s => done s.following

def nesting : Code Nat := look fun s => done s.nesting

/-- Calls a routine, and gives up if it fails. -/
def invoke (c : Routine) : Code c.Result := call c ofOption

/-- Gives up, and says why. -/
def fail (d : Diagnostic) : Code α := do
  perform (.report d)
  giveUp

/-- Moves onto the following token if it is of this kind, and fails otherwise. -/
def expect (k : Kind) : Code Token := do
  let token ← following
  if token.kind = k then
    perform .advance
    current
  else
    fail (.unexpected k token.kind)

/-- Moves onto the following token if it is of this kind. -/
def accept (k : Kind) : Code Unit := do
  if (← following).kind = k then
    perform .advance

/-- Code between two lines of the trace. The second one is written also when it gives up. -/
def traced (r : Rule) (m : Code α) : Code α := do
  perform (.line ("BEGIN " ++ r.name))
  perform .indent
  let a ← m.attempt
  perform .outdent
  perform (.line ("END " ++ r.name))
  ofOption a

end Code

end Monkey.Machine
