import Monkey.Machine.Basic

/-! The code of the machine's routines. Each starts with the current token on the first token
of its phrase and ends with it on the last; lists between parentheses start on the opening
one and the operators behind an operand on its last token. -/

namespace Monkey.Machine

namespace Code

/-! ### Statements -/

def program : Code Program := do
  let statements ← invoke (.statements .program [])
  return ⟨statements⟩

/-- One statement after another, until the scope ends. A statement that fails is left out, and
one token is passed over behind each. -/
def statements (scope : Scope) (soFar : List Statement) : Code (List Statement) := do
  if scope.ends (← current) then
    return soFar
  else
    let statement ← (invoke .statement).attempt
    perform .advance
    invoke (.statements scope (soFar ++ statement.toList))

def statement : Code Statement := traced .statement do
  match (← current).kind with
  | .kwLet => traced .letStmt (invoke .letStatement)
  | .kwReturn => traced .returnStmt (invoke .returnStatement)
  | _ => traced .exprStmt (invoke .exprStatement)

def letStatement : Code Statement := do
  let token ← current
  let name ← expect .identifier
  let _ ← expect .assign
  perform .advance
  let value ← invoke (.expression .lowest)
  accept .semicolon
  return .letStmt token (.ofToken name) value

def returnStatement : Code Statement := do
  let token ← current
  perform .advance
  let value ← invoke (.expression .lowest)
  accept .semicolon
  return .returnStmt token value

def exprStatement : Code Statement := do
  let token ← current
  let expression ← invoke (.expression .lowest)
  accept .semicolon
  return .exprStmt token expression

def block : Code Block := do
  let token ← current
  perform .advance
  let statements ← invoke (.statements .block [])
  return ⟨token, statements⟩

/-! ### Expressions -/

/-- An expression, unless there are too many around it. -/
def expression (p : Precedence) : Code Expr := do
  if (← nesting) < Grammar.maxNesting then
    perform .enter
    let e ← (traced .expression (invoke (.chain p))).attempt
    perform .leave
    ofOption e
  else
    fail (.nestingTooDeep Grammar.maxNesting)

def chain (p : Precedence) : Code Expr := do
  let token ← current
  match OperandForm.ofKind? token.kind with
  | some form =>
    let left ← traced form.rule (invoke (.operand form))
    invoke (.operators p left)
  | none => fail (.noOperand token.kind)

/-- The operators behind `left` that bind more tightly than `p`, with their other operands. -/
def operators (p : Precedence) (left : Expr) : Code Expr := do
  let token ← following
  if token.kind ≠ .semicolon ∧ p < token.kind.precedence then
    match SuffixForm.ofKind? token.kind with
    | some form =>
      perform .advance
      let left ← traced form.rule (invoke (.suffix form left))
      invoke (.operators p left)
    | none => return left
  else
    return left

/-! ### Operands -/

def identifier : Code Expr := return .identifier (.ofToken (← current))

def integer : Code Expr := do
  let token ← current
  match token.integerValue? with
  | some value => return .integer token value
  | none => fail (.integerTooLarge token.literal)

def boolean : Code Expr := do
  let token ← current
  return .boolean token (token.kind = .kwTrue)

def unary : Code Expr := do
  let token ← current
  perform .advance
  let operand ← invoke (.expression .unary)
  return .unary token (if token.kind = .bang then .bang else .minus) operand

def group : Code Expr := do
  perform .advance
  let inner ← invoke (.expression .lowest)
  let _ ← expect .rightParen
  return inner

/-- The alternative of a conditional, if the keyword for it follows. -/
def alternative : Code (Option Block) := do
  if (← following).kind = .kwElse then
    perform .advance
    let _ ← expect .leftBrace
    return some (← traced .block (invoke .block))
  else
    return none

def conditional : Code Expr := do
  let token ← current
  let _ ← expect .leftParen
  perform .advance
  let condition ← invoke (.expression .lowest)
  let _ ← expect .rightParen
  let _ ← expect .leftBrace
  let consequence ← traced .block (invoke .block)
  return .ifElse token condition consequence (← alternative)

def function : Code Expr := do
  let token ← current
  let _ ← expect .leftParen
  let parameters ← invoke .parameters
  let _ ← expect .leftBrace
  let body ← traced .block (invoke .block)
  return .function token parameters body

def operand : OperandForm → Code Expr
  | .identifier => identifier
  | .integer => integer
  | .boolean => boolean
  | .unary => unary
  | .group => group
  | .conditional => conditional
  | .function => function

/-! ### Operators -/

def binaryOperation (left : Expr) : Code Expr := do
  let token ← current
  perform .advance
  let right ← invoke (.expression token.kind.precedence)
  return .binary token ((BinaryOp.ofKind? token.kind).getD .greater) left right

def callOperation (callee : Expr) : Code Expr := do
  let token ← current
  let arguments ← invoke .arguments
  return .call token callee arguments

def suffix (left : Expr) : SuffixForm → Code Expr
  | .binary => binaryOperation left
  | .call => callOperation left

/-! ### Lists between parentheses -/

/-- Items separated by commas, the first of them and those behind it given by `first` and
`more`. -/
def parenthesized {α : Type} (first : Code α) (more : List α → Code (List α)) : Code (List α) := do
  if (← following).kind = .rightParen then
    perform .advance
    return []
  else
    let items ← more [← first]
    let _ ← expect .rightParen
    return items

/-- Goes on behind the items read so far where a comma follows. -/
def moreItems {α : Type} (item : Code α) (more : List α → Code (List α)) (soFar : List α) :
    Code (List α) := do
  if (← following).kind = .comma then
    perform .advance
    more (soFar ++ [← item])
  else
    return soFar

def parameter : Code Identifier := return .ofToken (← expect .identifier)

def argument : Code Expr := do
  perform .advance
  invoke (.expression .lowest)

end Code

/-- The code of a routine. -/
def Routine.body : (c : Routine) → Code c.Result
  | program => Code.program
  | statements scope soFar => Code.statements scope soFar
  | statement => Code.statement
  | letStatement => Code.letStatement
  | returnStatement => Code.returnStatement
  | exprStatement => Code.exprStatement
  | block => Code.block
  | expression p => Code.expression p
  | chain p => Code.chain p
  | operators p left => Code.operators p left
  | operand form => Code.operand form
  | suffix form left => Code.suffix left form
  | parameters => Code.parenthesized Code.parameter fun soFar => Code.invoke (.moreParameters soFar)
  | moreParameters soFar =>
    Code.moreItems Code.parameter (fun soFar => Code.invoke (.moreParameters soFar)) soFar
  | arguments => Code.parenthesized Code.argument fun soFar => Code.invoke (.moreArguments soFar)
  | moreArguments soFar =>
    Code.moreItems Code.argument (fun soFar => Code.invoke (.moreArguments soFar)) soFar

/-! ### Runs -/

/-- What a run is made of: actions, with the state that each was done in, and calls, with the
states at entry and exit, the result, and what was done inside. -/
inductive Event where
  | action (a : Action) (s : State)
  | call (c : Routine) (s : State) (r : Option c.Result) (s' : State) (inside : List Event)

/-- Code started in one state ends in another, with a result unless it gave up, and has done
what the events say. Code that runs on for ever is not related to any end. -/
inductive Eval : {α : Type} → Code α → State → Option α → State → List Event → Prop where
  | done {α : Type} {a : α} {s : State} : Eval (.done a) s (some a) s []
  | giveUp {α : Type} {s : State} : Eval (.giveUp : Code α) s none s []
  | act {α : Type} {a : Action} {next : Code α} {s s' : State} {r : Option α} {es : List Event} :
    Eval next (a.perform s) r s' es → Eval (.act a next) s r s' (.action a s :: es)
  | look {α : Type} {next : State → Code α} {s s' : State} {r : Option α} {es : List Event} :
    Eval (next s) s r s' es → Eval (.look next) s r s' es
  | call {α : Type} {c : Routine} {next : Option c.Result → Code α} {s s₁ s₂ : State}
    {r : Option c.Result} {r' : Option α} {es es' : List Event} :
    Eval c.body s r s₁ es → Eval (next r) s₁ r' s₂ es' →
    Eval (.call c next) s r' s₂ (.call c s r s₁ es :: es')

/-- A run of a routine. -/
def Routine.Runs (c : Routine) (s : State) (r : Option c.Result) (s' : State)
    (es : List Event) : Prop := Eval c.body s r s' es

end Monkey.Machine
