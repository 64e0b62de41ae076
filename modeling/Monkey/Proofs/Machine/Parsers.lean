import Monkey.Machine.Routines

/-! The parser that each routine of the machine carries out. Where the machine has a routine
for something that the grammar has no rule of its own for, such as the rest of a list, its
parser is put together from the grammar's; the rules are then written with these parsers, in
the order of the machine's steps. -/

namespace Monkey

variable {α β : Type}

/-- All that a parser reports, in order: the causes of the statements dropped on the way, and
that of its own failure. -/
def Outcome.reports (o : Outcome (Except Diagnostic α)) : List Diagnostic :=
  match o.value with
  | .ok _ => o.diagnostics
  | .error d => o.diagnostics ++ [d]

namespace Parser

/-- Runs a parser that may fail, and goes on either way. -/
def attempt (p : Parser α) : Parser (Option α) where
  run ts :=
    let o := p.run ts
    ⟨.ok o.value.toOption, o.ahead, o.reports, o.calls⟩
  ahead_suffix := p.ahead_suffix

/-! ### Steps -/

theorem run_current_bind (f : Token → Parser β) (ts : List Token) :
    (current >>= f).run ts = (f (ts.headD .endOfInput)).run ts := by
  rw [run_bind_ok rfl]
  rfl

theorem run_following_bind (f : Token → Parser β) (ts : List Token) :
    (following >>= f).run ts = (f (ts.tail.headD .endOfInput)).run ts := by
  rw [run_bind_ok rfl]
  rfl

theorem run_advance_bind (f : Unit → Parser β) (ts : List Token) :
    (advance >>= f).run ts = (f ()).run ts.tail := by
  rw [run_bind_ok rfl]
  rfl

theorem run_map (p : Parser α) (g : α → β) (ts : List Token) :
    (p >>= fun a => pure (g a)).run ts =
      { p.run ts with value := (p.run ts).value.map g } := by
  cases h : (p.run ts).value with
  | ok a =>
    rw [run_bind_ok h]
    simp [Outcome.followedBy, Except.map]
  | error d =>
    rw [run_bind_error h]
    rfl

theorem run_rule_congr {p q : Parser α} {r : Rule} {ts : List Token} (h : p.run ts = q.run ts) :
    (rule r p).run ts = (rule r q).run ts := by
  simp only [rule, h]

/-! ### Loops -/

/-- What repeating does first, and that it then goes on in the same way. -/
theorem itemsUntil_eq {stop : Token → Bool} (hstop : stop .endOfInput = true) (item : Parser α) :
    itemsUntil stop item = (do
      if stop (← current) then
        return []
      else
        let a ← item.attempt
        advance
        return a.toList ++ (← itemsUntil stop item)) := by
  ext1
  funext ts
  rw [run_current_bind]
  cases ts with
  | nil =>
    rw [List.headD_nil, if_pos hstop]
    simp [itemsUntil, items]
  | cons t ts =>
    rw [List.headD_cons]
    split
    · next ht => simp [itemsUntil, items, ht]
    · next ht =>
      rw [run_bind_ok rfl, run_advance_bind, run_bind_ok rfl]
      simp only [itemsUntil, items_cons ht]
      simp only [attempt, Outcome.reports]
      cases hv : (item.run (t :: ts)).value with
      | ok a => simp [Outcome.beforeItems, hv, Outcome.followedBy, Except.toOption]
      | error d => simp [Outcome.beforeItems, hv, Outcome.followedBy, Except.toOption]

/-- What extending does first, and that it then goes on in the same way. -/
theorem extend_eq {ready : Token → Bool} (hready : ready .endOfInput = false)
    (step : α → Parser α) (a : α) :
    extend ready step a = (do
      if ready (← following) then
        advance
        extend ready step (← step a)
      else
        return a) := by
  ext1
  funext ts
  rw [run_following_bind]
  match ts with
  | [] =>
    simp [extend, extending, hready]
  | [t] => simp [extend, extending, hready]
  | t :: u :: us =>
    rw [List.tail_cons, List.headD_cons]
    cases hu : ready u with
    | true =>
      rw [if_pos rfl, run_advance_bind]
      exact extending_ready hu
    | false => simp [extend, extending, hu]

/-- Extending a value that stands for another one. -/
theorem extend_map {ready : Token → Bool} {step : α → Parser α} {step' : β → Parser β} (g : α → β)
    (h : ∀ a, step' (g a) = step a >>= fun b => pure (g b)) (a : α) :
    extend ready step' (g a) = extend ready step a >>= fun b => pure (g b) := by
  ext1
  funext ts
  rw [run_map]
  change extending ready step' (g a) ts = { extending ready step a ts with
    value := (extending ready step a ts).value.map g }
  fun_induction extending ready step a ts with
  | case1 a t u us hu o b hv ih =>
    rw [extending, if_pos hu, h, run_map]
    simp [o, hv, Except.map, ih, Outcome.followedBy]
  | case2 a t u us hu o d hv =>
    rw [extending, if_pos hu, h, run_map]
    simp [o, hv, Except.map]
  | case3 a t u us hu => simp [extending, hu, Except.map]
  | case4 a ts hts =>
    rcases ts with _ | ⟨t, _ | ⟨u, us⟩⟩
    · simp [extending, Except.map]
    · simp [extending, Except.map]
    · exact (hts t u us rfl).elim

end Parser

namespace Grammar

open Monkey.Parser Monkey.Machine

/-- Names, as the parser of lists between parentheses reads them. -/
def parameter : Parser Identifier := do
  let token ← expect .identifier
  return .ofToken token

def argument (expr : Precedence → Parser Expr) : Parser Expr := do
  advance
  expr .lowest

/-- What goes on behind the items read so far where a comma follows. -/
def moreItems (item : Parser α) (soFar : List α) : Parser (List α) :=
  extend (·.kind = .comma) (fun items => return items ++ [← item]) soFar

theorem moreItems_eq (item : Parser α) (soFar : List α) : moreItems item soFar = (do
    if (← following).kind = .comma then
      advance
      let a ← item
      moreItems item (soFar ++ [a])
    else
      return soFar) := by
  rw [moreItems, extend_eq (by decide)]
  simp only [decide_eq_true_eq, bind_assoc, pure_bind]
  rfl

theorem moreItems_map (item : Parser α) (f : α → β) (soFar : List α) :
    moreItems (item >>= fun a => pure (f a)) (soFar.map f) =
      moreItems item soFar >>= fun as => pure (as.map f) :=
  extend_map (List.map f) (fun as => by simp) soFar

theorem parenthesized_eq (item : Parser α) : parenthesized item = (do
    if (← following).kind = .rightParen then
      advance
      return []
    else
      let a ← item
      let all ← moreItems item [a]
      let _ ← expect .rightParen
      return all) := rfl

theorem parenthesized_map (item : Parser α) (f : α → β) :
    parenthesized (item >>= fun a => pure (f a)) =
      parenthesized item >>= fun as => pure (as.map f) := by
  have hmore (a : α) : moreItems (item >>= fun a => pure (f a)) [f a] = _ :=
    moreItems_map item f [a]
  rw [parenthesized_eq item, bind_assoc, parenthesized_eq]
  refine congrArg (following >>= ·) (funext fun t => ?_)
  split
  · rfl
  · simp only [bind_assoc, pure_bind, hmore]

/-! ### Operands -/

/-- An operand of each form, read from its first token on. -/
def operandOf (expr : Precedence → Parser Expr) (form : OperandForm) : Parser Expr := do
  let token ← current
  match form with
  | .identifier => return .identifier (.ofToken token)
  | .integer => integer token
  | .boolean => return .boolean token (token.kind = .kwTrue)
  | .unary => unary expr token (if token.kind = .bang then .bang else .minus)
  | .group => group expr
  | .conditional => conditional expr token
  | .function => function expr token

theorem operand_eq (expr : Precedence → Parser Expr) : operand expr = (do
    let token ← current
    match OperandForm.ofKind? token.kind with
    | some form => rule form.rule (operandOf expr form)
    | none => fail (.noOperand token.kind)) := by
  ext1
  funext ts
  rw [operand, run_current_bind, run_current_bind]
  cases hk : (ts.headD .endOfInput).kind
  case minus | bang | kwTrue | kwFalse =>
    refine run_rule_congr ?_
    rw [operandOf, run_current_bind]
    simp only [hk]
    rfl
  all_goals rfl

/-! ### Operators -/

/-- An operator of each form behind its left operand, read from its own token on. -/
def suffixOf (expr : Precedence → Parser Expr) (left : Expr) (form : SuffixForm) :
    Parser Expr := do
  let token ← current
  match form with
  | .binary => binary expr token ((BinaryOp.ofKind? token.kind).getD .greater) left
  | .call => call expr token left

/-- The operators behind `left` that bind more tightly than `p`. -/
def operators (expr : Precedence → Parser Expr) (p : Precedence) (left : Expr) : Parser Expr :=
  extend (fun t => decide (p < t.kind.precedence)) (suffix expr) left

theorem suffix_eq {expr : Precedence → Parser Expr} {left : Expr} {t : Token} {ts : List Token}
    {form : SuffixForm} (h : SuffixForm.ofKind? t.kind = some form) :
    (suffix expr left).run (t :: ts) =
      (rule form.rule (suffixOf expr left form)).run (t :: ts) := by
  rw [suffix, run_current_bind, List.headD_cons]
  cases hk : t.kind <;> rw [hk] at h <;> cases h
  case leftParen => rfl
  all_goals
    refine run_rule_congr ?_
    rw [suffixOf, run_current_bind, List.headD_cons]
    simp only [hk]
    rfl

/-- A token that binds more tightly than anything is an operator. -/
theorem exists_suffixForm {k : Kind} {p : Precedence} (h : p < k.precedence) :
    ∃ form, SuffixForm.ofKind? k = some form := by
  cases k with
  | plus | minus | star | slash | equal | notEqual | less | greater | leftParen => exact ⟨_, rfl⟩
  | _ => exact absurd h (Nat.not_lt_zero _)

theorem operators_eq (expr : Precedence → Parser Expr) (p : Precedence) (left : Expr) :
    operators expr p left = (do
      let token ← following
      if token.kind ≠ .semicolon ∧ p < token.kind.precedence then
        match SuffixForm.ofKind? token.kind with
        | some form =>
          advance
          let left ← rule form.rule (suffixOf expr left form)
          operators expr p left
        | none => return left
      else
        return left) := by
  ext1
  funext ts
  have hend : decide (p < Kind.precedence .endOfInput) = false :=
    decide_eq_false (Nat.not_lt_zero _)
  rw [operators, extend_eq hend, run_following_bind, run_following_bind]
  by_cases h : p < (ts.tail.headD .endOfInput).kind.precedence
  · have hk : (ts.tail.headD .endOfInput).kind ≠ .semicolon := by
      intro hk
      rw [hk] at h
      exact absurd h (Nat.not_lt_zero _)
    obtain ⟨form, hform⟩ := exists_suffixForm h
    rw [if_pos (decide_eq_true h), if_pos ⟨hk, h⟩, hform]
    dsimp only
    rw [run_advance_bind, run_advance_bind]
    cases hts : ts.tail with
    | nil =>
      rw [hts] at hform
      cases hform
    | cons t us =>
      rw [hts, List.headD_cons] at hform
      rw [run_bind, run_bind, suffix_eq hform]
      rfl
  · rw [if_neg (by simpa using h), if_neg fun h' => h h'.2]

theorem chain_eq (expr : Precedence → Parser Expr) (p : Precedence) : chain expr p = (do
    let token ← current
    match OperandForm.ofKind? token.kind with
    | some form =>
      let left ← rule form.rule (operandOf expr form)
      operators expr p left
    | none => fail (.noOperand token.kind)) := by
  change operand expr >>= operators expr p = _
  rw [operand_eq, bind_assoc]
  refine congrArg (current >>= ·) (funext fun t => ?_)
  split <;> rfl

/-! ### Functions -/

theorem function_eq (expr : Precedence → Parser Expr) (token : Token) : function expr token = (do
    let _ ← expect .leftParen
    let parameters ← parenthesized parameter
    let _ ← expect .leftBrace
    let body ← block expr
    return .function token parameters body) := by
  rw [parameter, parenthesized_map]
  simp only [bind_assoc, pure_bind]
  rfl

end Grammar

open Monkey.Parser in
/-- The parser of a routine, when this many expressions may still be opened. -/
def Machine.Routine.parser (n : Nat) : (c : Routine) → Parser c.Result
  | .program => do
    let statements ← itemsUntil (Scope.ends .program) (Grammar.statement (Grammar.expression n))
    return ⟨statements⟩
  | .statements scope soFar => do
    let statements ← itemsUntil scope.ends (Grammar.statement (Grammar.expression n))
    return soFar ++ statements
  | .statement => Grammar.statement (Grammar.expression n)
  | .letStatement => Grammar.letStatement (Grammar.expression n)
  | .returnStatement => Grammar.returnStatement (Grammar.expression n)
  | .exprStatement => Grammar.exprStatement (Grammar.expression n)
  | .block => do
    let token ← current
    advance
    let statements ← itemsUntil Grammar.endsBlock (Grammar.statement (Grammar.expression n))
    return ⟨token, statements⟩
  | .expression p => Grammar.expression n p
  | .chain p => Grammar.chain (Grammar.expression n) p
  | .operators p left => Grammar.operators (Grammar.expression n) p left
  | .operand form => Grammar.operandOf (Grammar.expression n) form
  | .suffix form left => Grammar.suffixOf (Grammar.expression n) left form
  | .parameters => Grammar.parenthesized Grammar.parameter
  | .moreParameters soFar => Grammar.moreItems Grammar.parameter soFar
  | .arguments => Grammar.parenthesized (Grammar.argument (Grammar.expression n))
  | .moreArguments soFar => Grammar.moreItems (Grammar.argument (Grammar.expression n)) soFar

end Monkey
