import Monkey.Proofs.Machine.Parsers

/-! Relations between the code of the machine's routines and their parsers. Code and parser of a
routine are put together in the same way, so a relation that holds of the single steps and
is kept by sequencing, calls and the lines of the trace holds of every routine. A property of code
is the case of a relation that looks at one side only. Code is related at a level, which tells how
many lines of the trace may still be opened before the next expression. -/

namespace Monkey.Machine

/-- The most lines of the trace that a routine opens before it calls an expression: two for a
statement, one for the block around it, and one for the form of the operand around that. -/
def Routine.level : Routine → Nat
  | letStatement => 0
  | returnStatement => 0
  | exprStatement => 0
  | expression _ => 0
  | program => 2
  | statements _ _ => 2
  | statement => 2
  | block => 2
  | operand _ => 3
  | suffix _ _ => 3
  | parameters => 3
  | moreParameters _ => 3
  | arguments => 3
  | moreArguments _ => 3
  | chain _ => 4
  | operators _ _ => 4

variable {α β : Type} {k n : Nat}

/-- A relation that is kept by all that code is made of, with `k` expressions open around it. What
an attempted statement gives is left to its user, as are the code and the parser of expressions. -/
structure Correspondence (k : Nat) (R : Nat → ∀ {α : Type}, Code α → Parser α → Prop) : Prop where
  pure {n : Nat} {α : Type} (a : α) : R n (pure a) (pure a)
  bind {n : Nat} {α β : Type} {m : Code α} {p : Parser α} {f : α → Code β} {g : α → Parser β} :
    R n m p → (∀ a, R n (f a) (g a)) → R n (m >>= f) (p >>= g)
  current {n : Nat} : R n Code.current Parser.current
  following {n : Nat} : R n Code.following Parser.following
  advance {n : Nat} : R n (Code.perform .advance) Parser.advance
  fail {n : Nat} {α : Type} (d : Diagnostic) : R n (Code.fail d : Code α) (Parser.fail d)
  expect {n : Nat} (kind : Kind) : R n (Code.expect kind) (Parser.expect kind)
  invoke {n : Nat} {c : Routine} : c ≠ .statement → c.level ≤ n →
    R n (Code.invoke c) (c.parser (Grammar.maxNesting - k))
  attempt {n : Nat} {β : Type} {f : Option Statement → Code β} {g : Option Statement → Parser β} :
    Routine.statement.level ≤ n → (∀ a, R n (f a) (g a)) →
    R n ((Code.invoke .statement).attempt >>= f)
      ((Routine.parser (Grammar.maxNesting - k) .statement).attempt >>= g)
  traced {n : Nat} {α : Type} {rule : Rule} {m : Code α} {p : Parser α} :
    R n m p → R (n + 1) (Code.traced rule m) (Parser.rule rule p)
  expression (p : Precedence) :
    R 0 (Code.expression p) (Grammar.expression (Grammar.maxNesting - k) p)

namespace Correspondence

variable {R : Nat → ∀ {α : Type}, Code α → Parser α → Prop} (h : Correspondence k R)

include h

theorem accept (kind : Kind) : R n (Code.accept kind) (Parser.accept kind) := by
  refine h.bind h.following fun t => ?_
  split
  · exact h.advance
  · exact h.pure ()

/-- Expressions may be called at every level. -/
theorem invokeExpression {p : Precedence} : R n (Code.invoke (.expression p))
    (Grammar.expression (Grammar.maxNesting - k) p) := h.invoke nofun (Nat.zero_le n)

/-! ### Lists between parentheses -/

theorem parenthesized {first : Code α} {p : Parser α} {more : List α → Code (List α)}
    (hfirst : R n first p) (hmore : ∀ as, R n (more as) (Grammar.moreItems p as)) :
    R n (Code.parenthesized first more) (Grammar.parenthesized p) := by
  rw [Grammar.parenthesized_eq]
  refine h.bind h.following fun t => ?_
  split
  · exact h.bind h.advance fun _ => h.pure []
  · exact h.bind hfirst fun a => h.bind (hmore _) fun as => h.bind (h.expect _) fun _ => h.pure as

theorem moreItems {item : Code α} {p : Parser α} {more : List α → Code (List α)}
    (hitem : R n item p) (hmore : ∀ as, R n (more as) (Grammar.moreItems p as)) (soFar : List α) :
    R n (Code.moreItems item more soFar) (Grammar.moreItems p soFar) := by
  rw [Grammar.moreItems_eq]
  refine h.bind h.following fun t => ?_
  split
  · exact h.bind h.advance fun _ => h.bind hitem fun a => hmore _
  · exact h.pure soFar

theorem parameter : R n Code.parameter Grammar.parameter := h.bind (h.expect _) fun _ => h.pure _

theorem argument : R n Code.argument
    (Grammar.argument (Grammar.expression (Grammar.maxNesting - k))) :=
  h.bind h.advance fun _ => h.invokeExpression

/-! ### Statements -/

theorem statements (scope : Scope) (soFar : List Statement) : R 2 (Code.statements scope soFar)
    (Routine.parser (Grammar.maxNesting - k) (.statements scope soFar)) := by
  have hends : scope.ends .endOfInput = true := by cases scope <;> rfl
  rw [Routine.parser, Parser.itemsUntil_eq hends, bind_assoc]
  refine h.bind h.current fun t => ?_
  split
  · rw [pure_bind, List.append_nil]
    exact h.pure soFar
  · simp only [bind_assoc, pure_bind, ← List.append_assoc]
    exact h.attempt (Nat.le_refl 2) fun statement => h.bind h.advance fun _ =>
      h.invoke (c := .statements scope (soFar ++ statement.toList)) nofun (Nat.le_refl 2)

/-- The call that starts the loop over the statements. -/
theorem allStatements (scope : Scope) : R 2 (Code.invoke (.statements scope []))
    (Parser.itemsUntil scope.ends
      (Grammar.statement (Grammar.expression (Grammar.maxNesting - k)))) := by
  have hall : Routine.parser (Grammar.maxNesting - k) (.statements scope []) = _ :=
    Parser.bind_pure _
  rw [← hall]
  exact h.invoke nofun (Nat.le_refl 2)

theorem statement : R 2 Code.statement
    (Grammar.statement (Grammar.expression (Grammar.maxNesting - k))) := by
  refine h.traced (h.bind h.current fun ⟨kind, _⟩ => ?_)
  cases kind with
  | kwLet => exact h.traced (h.invoke (c := .letStatement) nofun (Nat.le_refl 0))
  | kwReturn => exact h.traced (h.invoke (c := .returnStatement) nofun (Nat.le_refl 0))
  | _ => exact h.traced (h.invoke (c := .exprStatement) nofun (Nat.le_refl 0))

theorem letStatement : R n Code.letStatement
    (Grammar.letStatement (Grammar.expression (Grammar.maxNesting - k))) :=
  h.bind h.current fun _ => h.bind (h.expect _) fun _ => h.bind (h.expect _) fun _ =>
    h.bind h.advance fun _ => h.bind h.invokeExpression fun _ => h.bind (h.accept _) fun _ =>
      h.pure _

theorem returnStatement : R n Code.returnStatement
    (Grammar.returnStatement (Grammar.expression (Grammar.maxNesting - k))) :=
  h.bind h.current fun _ => h.bind h.advance fun _ => h.bind h.invokeExpression fun _ =>
    h.bind (h.accept _) fun _ => h.pure _

theorem exprStatement : R n Code.exprStatement
    (Grammar.exprStatement (Grammar.expression (Grammar.maxNesting - k))) :=
  h.bind h.current fun _ => h.bind h.invokeExpression fun _ => h.bind (h.accept _) fun _ => h.pure _

/-- A block, with its lines in the trace. -/
theorem tracedBlock : R 3 (Code.traced .block (Code.invoke .block))
    (Grammar.block (Grammar.expression (Grammar.maxNesting - k))) :=
  h.traced (h.invoke (c := .block) nofun (Nat.le_refl 2))

/-! ### Expressions -/

theorem chain (p : Precedence) : R 4 (Code.chain p)
    (Grammar.chain (Grammar.expression (Grammar.maxNesting - k)) p) := by
  rw [Grammar.chain_eq]
  refine h.bind h.current fun t => ?_
  cases OperandForm.ofKind? t.kind with
  | some form =>
    exact h.bind (h.traced (h.invoke (c := .operand form) nofun (Nat.le_refl 3))) fun left =>
      h.invoke (c := .operators p left) nofun (Nat.le_refl 4)
  | none => exact h.fail _

theorem operators (p : Precedence) (left : Expr) : R 4 (Code.operators p left)
    (Grammar.operators (Grammar.expression (Grammar.maxNesting - k)) p left) := by
  rw [Grammar.operators_eq]
  refine h.bind h.following fun t => ?_
  split
  · cases SuffixForm.ofKind? t.kind with
    | some form =>
      exact h.bind h.advance fun _ =>
        h.bind (h.traced (h.invoke (c := .suffix form left) nofun (Nat.le_refl 3))) fun left =>
          h.invoke (c := .operators p left) nofun (Nat.le_refl 4)
    | none => exact h.pure left
  · exact h.pure left

theorem integer : R n Code.integer (Parser.current >>= Grammar.integer) := by
  refine h.bind h.current fun t => ?_
  rw [Grammar.integer]
  cases t.integerValue? with
  | some value => exact h.pure _
  | none => exact h.fail _

theorem group : R n Code.group
    (Grammar.operandOf (Grammar.expression (Grammar.maxNesting - k)) .group) := by
  have hgroup : Grammar.operandOf (Grammar.expression (Grammar.maxNesting - k)) .group =
      Grammar.group (Grammar.expression (Grammar.maxNesting - k)) :=
    Parser.ext (funext fun ts => Parser.run_current_bind _ ts)
  rw [hgroup]
  exact h.bind h.advance fun _ => h.bind h.invokeExpression fun _ => h.bind (h.expect _) fun _ =>
    h.pure _

theorem alternative : R 3 Code.alternative
    (Grammar.alternative (Grammar.expression (Grammar.maxNesting - k))) := by
  refine h.bind h.following fun t => ?_
  split
  · exact h.bind h.advance fun _ => h.bind (h.expect _) fun _ => h.bind h.tracedBlock fun _ =>
      h.pure _
  · exact h.pure none

theorem operand (form : OperandForm) : R 3 (Code.operand form)
    (Grammar.operandOf (Grammar.expression (Grammar.maxNesting - k)) form) := by
  cases form with
  | identifier => exact h.bind h.current fun _ => h.pure _
  | integer => exact h.integer
  | boolean => exact h.bind h.current fun _ => h.pure _
  | unary =>
    exact h.bind h.current fun _ => h.bind h.advance fun _ =>
      h.bind h.invokeExpression fun _ => h.pure _
  | group => exact h.group
  | conditional =>
    exact h.bind h.current fun _ => h.bind (h.expect _) fun _ =>
      h.bind h.advance fun _ => h.bind h.invokeExpression fun _ => h.bind (h.expect _) fun _ =>
        h.bind (h.expect _) fun _ => h.bind h.tracedBlock fun _ => h.bind h.alternative fun _ =>
          h.pure _
  | function =>
    refine h.bind h.current fun t => ?_
    dsimp only
    rw [Grammar.function_eq]
    exact h.bind (h.expect _) fun _ =>
      h.bind (h.invoke (c := .parameters) nofun (Nat.le_refl 3)) fun _ =>
        h.bind (h.expect _) fun _ => h.bind h.tracedBlock fun _ => h.pure _

theorem suffix (left : Expr) (form : SuffixForm) : R 3 (Code.suffix left form)
    (Grammar.suffixOf (Grammar.expression (Grammar.maxNesting - k)) left form) := by
  cases form with
  | binary =>
    exact h.bind h.current fun _ => h.bind h.advance fun _ =>
      h.bind h.invokeExpression fun _ => h.pure _
  | call =>
    exact h.bind h.current fun _ =>
      h.bind (h.invoke (c := .arguments) nofun (Nat.le_refl 3)) fun _ => h.pure _

/-- The code of a routine is related to its parser. -/
theorem body (c : Routine) : R c.level c.body (c.parser (Grammar.maxNesting - k)) := by
  cases c with
  | program => exact h.bind (h.allStatements .program) fun _ => h.pure _
  | statements scope soFar => exact h.statements scope soFar
  | statement => exact h.statement
  | letStatement => exact h.letStatement
  | returnStatement => exact h.returnStatement
  | exprStatement => exact h.exprStatement
  | block =>
    exact h.bind h.current fun _ => h.bind h.advance fun _ =>
      h.bind (h.allStatements .block) fun _ => h.pure _
  | expression p => exact h.expression p
  | chain p => exact h.chain p
  | operators p left => exact h.operators p left
  | operand form => exact h.operand form
  | suffix form left => exact h.suffix left form
  | parameters =>
    exact h.parenthesized h.parameter fun as =>
      h.invoke (c := .moreParameters as) nofun (Nat.le_refl 3)
  | moreParameters soFar =>
    exact h.moreItems h.parameter
      (fun as => h.invoke (c := .moreParameters as) nofun (Nat.le_refl 3)) soFar
  | arguments =>
    exact h.parenthesized h.argument fun as =>
      h.invoke (c := .moreArguments as) nofun (Nat.le_refl 3)
  | moreArguments soFar =>
    exact h.moreItems h.argument
      (fun as => h.invoke (c := .moreArguments as) nofun (Nat.le_refl 3)) soFar

end Correspondence

end Monkey.Machine
