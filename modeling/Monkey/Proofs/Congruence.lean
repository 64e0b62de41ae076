import Monkey.Grammar.Expression

/-! Relations between parsers that the grammar respects. Every rule is put together from
tokens, sequencing, repetition and the parser of the expressions inside it, so a relation
that these respect holds between a rule over one parser of expressions and the same rule
over a related one. A property of parsers is the case of a relation that looks at one
side only. The rules of statements and of expressions are left to the user of the
principle: a statement may be required to stand among others, and an expression to count. -/

namespace Monkey

open Monkey.Parser

/-- The rules of the forms that a statement may have. -/
def Rule.isStatementForm : Rule → Bool
  | .letStmt | .returnStmt | .exprStmt => true
  | _ => false

/-- Whatever is ahead, the parser makes one call, and that is of a form of statements. -/
def Parser.MakesForm {α : Type} (p : Parser α) : Prop :=
  ∀ ts, ∃ c, (p.run ts).calls = [c] ∧ c.rule.isStatementForm = true

theorem Parser.MakesForm.rule {α : Type} {r : Rule} (hr : r.isStatementForm = true) (p : Parser α) :
    (rule r p).MakesForm := fun _ => ⟨_, rfl, hr⟩

/-- A relation between parsers that holds at every token, is kept by sequencing and
repetition, and is kept by every rule but those of expressions and of statements. Rules of
statements are considered where they are repeated, over what makes one call of a form. What
extends a value never starts at the end of the input. -/
structure Congruence (R : ∀ {α : Type}, Parser α → Parser α → Prop) : Prop where
  pure {α : Type} (a : α) : R (pure a) (pure a)
  bind {α β : Type} {p q : Parser α} {f g : α → Parser β} :
    R p q → (∀ a, R (f a) (g a)) → R (p >>= f) (q >>= g)
  current : R current current
  following : R following following
  advance : R advance advance
  fail {α : Type} (d : Diagnostic) : R (fail d : Parser α) (fail d)
  rule {α : Type} {r : Rule} {p q : Parser α} : r ≠ .expression → r ≠ .statement → R p q →
    R (rule r p) (rule r q)
  extend {α : Type} {ready : Token → Bool} {step step' : α → Parser α} (a : α) :
    ready .endOfInput = false → (∀ a, R (step a) (step' a)) →
    R (extend ready step a) (extend ready step' a)
  statements {α : Type} {stop : Token → Bool} {p q : Parser α} : p.MakesForm → q.MakesForm → R p q →
    R (itemsUntil stop (Parser.rule .statement p)) (itemsUntil stop (Parser.rule .statement q))

namespace Congruence

variable {R : ∀ {α : Type}, Parser α → Parser α → Prop} (h : Congruence R)

include h

theorem expect (k : Kind) : R (expect k) (expect k) := by
  refine h.bind h.following fun t => ?_
  split
  · exact h.bind h.advance fun _ => h.pure t
  · exact h.fail _

theorem accept (k : Kind) : R (accept k) (accept k) := by
  refine h.bind h.following fun t => ?_
  split
  · exact h.advance
  · exact h.pure ()

variable {expr expr' : Precedence → Parser Expr} (hx : ∀ p, R (expr p) (expr' p))

include hx

/-! ### Statements -/

theorem letStatement : R (Grammar.letStatement expr) (Grammar.letStatement expr') :=
  h.bind h.current fun _ => h.bind (h.expect _) fun _ => h.bind (h.expect _) fun _ =>
    h.bind h.advance fun _ => h.bind (hx _) fun _ => h.bind (h.accept _) fun _ => h.pure _

theorem returnStatement : R (Grammar.returnStatement expr) (Grammar.returnStatement expr') :=
  h.bind h.current fun _ => h.bind h.advance fun _ => h.bind (hx _) fun _ =>
    h.bind (h.accept _) fun _ => h.pure _

theorem exprStatement : R (Grammar.exprStatement expr) (Grammar.exprStatement expr') :=
  h.bind h.current fun _ => h.bind (hx _) fun _ => h.bind (h.accept _) fun _ => h.pure _

omit h hx in
/-- A choice among the forms by the first token makes one call of a form. -/
theorem makesForm_of_current {f : Token → Parser Statement} (hf : ∀ t, (f t).MakesForm) :
    (Parser.current >>= f).MakesForm := fun ts => hf (ts.headD .endOfInput) ts

/-- What is inside the rule of statements is related and makes one call of a form. -/
theorem statement : ∃ p q, Grammar.statement expr = Parser.rule .statement p ∧
    Grammar.statement expr' = Parser.rule .statement q ∧ p.MakesForm ∧ q.MakesForm ∧ R p q := by
  refine ⟨_, _, rfl, rfl, makesForm_of_current fun t => ?_, makesForm_of_current fun t => ?_,
    h.bind h.current fun t => ?_⟩
  · split <;> exact .rule rfl _
  · split <;> exact .rule rfl _
  · split
    · exact h.rule (by decide) (by decide) (h.letStatement hx)
    · exact h.rule (by decide) (by decide) (h.returnStatement hx)
    · exact h.rule (by decide) (by decide) (h.exprStatement hx)

theorem itemsUntil (stop : Token → Bool) :
    R (itemsUntil stop (Grammar.statement expr)) (itemsUntil stop (Grammar.statement expr')) := by
  obtain ⟨p, q, hp, hq, hformp, hformq, hpq⟩ := h.statement hx
  rw [hp, hq]
  exact h.statements hformp hformq hpq

theorem block : R (Grammar.block expr) (Grammar.block expr') :=
  h.rule (by decide) (by decide) <| h.bind h.current fun _ => h.bind h.advance fun _ =>
    h.bind (h.itemsUntil hx _) fun _ => h.pure _

/-! ### Operands and operators -/

omit hx in
theorem parenthesized {α : Type} {p q : Parser α} (hpq : R p q) :
    R (Grammar.parenthesized p) (Grammar.parenthesized q) := by
  refine h.bind h.following fun t => ?_
  split
  · exact h.bind h.advance fun _ => h.pure _
  · refine h.bind hpq fun a => h.bind (h.extend _ rfl fun as => ?_) fun _ =>
      h.bind (h.expect _) fun _ => h.pure _
    exact h.bind hpq fun _ => h.pure _

omit hx in
theorem integer (t : Token) : R (Grammar.integer t) (Grammar.integer t) := by
  unfold Grammar.integer
  split
  · exact h.pure _
  · exact h.fail _

theorem unary (t : Token) (op : UnaryOp) : R (Grammar.unary expr t op) (Grammar.unary expr' t op) :=
  h.bind h.advance fun _ => h.bind (hx _) fun _ => h.pure _

theorem group : R (Grammar.group expr) (Grammar.group expr') :=
  h.bind h.advance fun _ => h.bind (hx _) fun _ => h.bind (h.expect _) fun _ => h.pure _

theorem alternative : R (Grammar.alternative expr) (Grammar.alternative expr') := by
  refine h.bind h.following fun t => ?_
  split
  · exact h.bind h.advance fun _ => h.bind (h.expect _) fun _ =>
      h.bind (h.block hx) fun _ => h.pure _
  · exact h.pure _

theorem conditional (t : Token) : R (Grammar.conditional expr t) (Grammar.conditional expr' t) :=
  h.bind (h.expect _) fun _ => h.bind h.advance fun _ => h.bind (hx _) fun _ =>
    h.bind (h.expect _) fun _ => h.bind (h.expect _) fun _ => h.bind (h.block hx) fun _ =>
      h.bind (h.alternative hx) fun _ => h.pure _

theorem function (t : Token) : R (Grammar.function expr t) (Grammar.function expr' t) :=
  h.bind (h.expect _) fun _ => h.bind (h.parenthesized (h.expect _)) fun _ =>
    h.bind (h.expect _) fun _ => h.bind (h.block hx) fun _ => h.pure _

theorem operand : R (Grammar.operand expr) (Grammar.operand expr') := by
  refine h.bind h.current fun t => ?_
  split
  · exact h.rule (by decide) (by decide) (h.pure _)
  · exact h.rule (by decide) (by decide) (h.integer t)
  · exact h.rule (by decide) (by decide) (h.pure _)
  · exact h.rule (by decide) (by decide) (h.pure _)
  · exact h.rule (by decide) (by decide) (h.unary hx t _)
  · exact h.rule (by decide) (by decide) (h.unary hx t _)
  · exact h.rule (by decide) (by decide) (h.group hx)
  · exact h.rule (by decide) (by decide) (h.conditional hx t)
  · exact h.rule (by decide) (by decide) (h.function hx t)
  · exact h.fail _

theorem suffix (left : Expr) : R (Grammar.suffix expr left) (Grammar.suffix expr' left) := by
  refine h.bind h.current fun t => ?_
  split
  · exact h.rule (by decide) (by decide) <| h.bind h.advance fun _ =>
      h.bind (hx _) fun _ => h.pure _
  · refine h.rule (by decide) (by decide) (h.bind (h.parenthesized ?_) fun _ => h.pure _)
    exact h.bind h.advance fun _ => hx _

theorem chain (p : Precedence) : R (Grammar.chain expr p) (Grammar.chain expr' p) :=
  h.bind (h.operand hx) fun left => h.extend left (by cases p <;> rfl) fun a => h.suffix hx a

end Congruence

end Monkey
