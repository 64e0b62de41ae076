import Monkey.Proofs.Agreement
import Monkey.Proofs.Machine.Accounting
import Monkey.Tree.Equality
import Monkey.Tree.Printer

/-! The nodes of a program, each beside its token. A node keeps the token it was read from, and what
it says is what this token spells: keywords and brackets literally, names and numbers by their
characters. A number that no node can hold is reported instead. -/

namespace Monkey

/-! ### Nodes -/

inductive Node where
  | expression (e : Expr)
  | block (b : Block)
  | statement (s : Statement)
  | name (n : Identifier)

/-- The second node stands directly below the first. -/
inductive Node.Above : Node → Node → Prop where
  | name {n : Identifier} : Above (.expression (.identifier n)) (.name n)
  | operand {t : Token} {op : UnaryOp} {e : Expr} :
    Above (.expression (.unary t op e)) (.expression e)
  | left {t : Token} {op : BinaryOp} {l r : Expr} :
    Above (.expression (.binary t op l r)) (.expression l)
  | right {t : Token} {op : BinaryOp} {l r : Expr} :
    Above (.expression (.binary t op l r)) (.expression r)
  | condition {t : Token} {c : Expr} {b : Block} {a : Option Block} :
    Above (.expression (.ifElse t c b a)) (.expression c)
  | consequence {t : Token} {c : Expr} {b : Block} {a : Option Block} :
    Above (.expression (.ifElse t c b a)) (.block b)
  | alternative {t : Token} {c : Expr} {b a : Block} :
    Above (.expression (.ifElse t c b (some a))) (.block a)
  | parameter {t : Token} {ps : List Identifier} {b : Block} {n : Identifier} : n ∈ ps →
    Above (.expression (.function t ps b)) (.name n)
  | body {t : Token} {ps : List Identifier} {b : Block} :
    Above (.expression (.function t ps b)) (.block b)
  | callee {t : Token} {f : Expr} {es : List Expr} :
    Above (.expression (.call t f es)) (.expression f)
  | argument {t : Token} {f : Expr} {es : List Expr} {e : Expr} : e ∈ es →
    Above (.expression (.call t f es)) (.expression e)
  | inBlock {t : Token} {ss : List Statement} {s : Statement} : s ∈ ss →
    Above (.block ⟨t, ss⟩) (.statement s)
  | letName {t : Token} {n : Identifier} {e : Expr} : Above (.statement (.letStmt t n e)) (.name n)
  | letValue {t : Token} {n : Identifier} {e : Expr} :
    Above (.statement (.letStmt t n e)) (.expression e)
  | returnValue {t : Token} {e : Expr} : Above (.statement (.returnStmt t e)) (.expression e)
  | inStatement {t : Token} {e : Expr} : Above (.statement (.exprStmt t e)) (.expression e)

/-- The nodes of a program, at any depth. -/
inductive Node.Of (p : Program) : Node → Prop where
  | statement {s : Statement} : s ∈ p.statements → Of p (.statement s)
  | child {m n : Node} : Of p m → m.Above n → Of p n

/-! ### What tokens spell -/

/-- A run of letters that is no keyword. -/
structure Token.IsName (t : Token) : Prop where
  kind_eq : t.kind = .identifier
  nonempty : t.literal ≠ ""
  letters : ∀ c ∈ t.literal.toList, isLetter c = true
  no_keyword : t.literal ∉ ["fn", "let", "if", "else", "return", "true", "false"]

/-- A run of digits. -/
structure Token.IsNumber (t : Token) : Prop where
  kind_eq : t.kind = .integer
  nonempty : t.literal ≠ ""
  digits : ∀ c ∈ t.literal.toList, c.isDigit = true

/-- The node agrees with its token. For an expression statement that is the first token of its
expression, or the parenthesis of a group that opens it, which leaves no node. -/
def Node.Agrees : Node → Prop
  | .name n => n.token.IsName ∧ n.value = n.token.literal
  | .block b => b.token = ⟨.leftBrace, "\x7b"⟩
  | .statement (.letStmt t _ _) => t = ⟨.kwLet, "let"⟩
  | .statement (.returnStmt t _) => t = ⟨.kwReturn, "return"⟩
  | .statement (.exprStmt t e) => t = e.head ∨ t = ⟨.leftParen, "("⟩
  | .expression (.identifier n) => n.token.IsName ∧ n.value = n.token.literal
  | .expression (.integer t v) =>
    t.IsNumber ∧ v.toInt = t.decimal ∧ 0 ≤ v.toInt ∧ v.toInt ≤ 0x7fffffffffffffff
  | .expression (.boolean t v) => (v = true ↔ t.kind = .kwTrue) ∧ (v = false ↔ t.kind = .kwFalse)
  | .expression (.unary t op _) => t.literal = op.symbol ∧ t.kind = op.kind
  | .expression (.binary t op _ _) => t.literal = op.symbol ∧ t.kind = op.kind
  | .expression (.ifElse t _ _ _) => t = ⟨.kwIf, "if"⟩
  | .expression (.function t _ _) => t = ⟨.kwFn, "fn"⟩
  | .expression (.call t _ _) => t = ⟨.leftParen, "("⟩

theorem Kind.not_keyword {w : String} (h : ofWord w = .identifier) :
    w ∉ ["fn", "let", "if", "else", "return", "true", "false"] := by
  simp only [List.mem_cons, List.not_mem_nil, or_false]
  rintro (rfl | rfl | rfl | rfl | rfl | rfl | rfl) <;> exact absurd h (by decide)

theorem Kind.ofWord_ne_integer (w : String) : ofWord w ≠ .integer := by
  unfold ofWord
  split <;> decide

namespace Token

theorem ofChar_wordlike (c : Char) : (ofChar c).kind.wordlike = false := by
  unfold ofChar
  split
  · rfl
  · exact ofSymbol_wordlike c

theorem ofList_cons_ne_empty (c : Char) (cs : List Char) : String.ofList (c :: cs) ≠ "" := by
  intro h
  cases (String.toList_ofList.symm.trans (congrArg String.toList h) : c :: cs = [])

theorem Spells.isName {t : Token} (h : t.Spells .identifier) : t.IsName := by
  obtain ⟨hlexed, hk⟩ := h
  cases hlexed with
  | @word c cs hc hcs =>
    refine ⟨hk, ofList_cons_ne_empty c cs, ?_, Kind.not_keyword hk⟩
    rw [ofWord, String.toList_ofList]
    exact List.forall_mem_cons.2 ⟨hc, hcs⟩
  | number _ _ => cases hk
  | equal => cases hk
  | notEqual => cases hk
  | @single c _ _ =>
    have hword := ofChar_wordlike c
    rw [hk] at hword
    cases hword

theorem Spells.isNumber {t : Token} (h : t.Spells .integer) : t.IsNumber := by
  obtain ⟨hlexed, hk⟩ := h
  cases hlexed with
  | @word c cs _ _ => exact absurd hk (Kind.ofWord_ne_integer _)
  | @number c cs hc hcs =>
    refine ⟨rfl, ofList_cons_ne_empty c cs, ?_⟩
    rw [String.toList_ofList]
    exact List.forall_mem_cons.2 ⟨hc, hcs⟩
  | equal => cases hk
  | notEqual => cases hk
  | @single c _ _ =>
    have hword := ofChar_wordlike c
    rw [hk] at hword
    cases hword

end Token

/-! ### Agreement -/

def Node.Faithful : Node → Prop
  | .expression e => e.Faithful
  | .block b => b.Faithful
  | .statement s => s.Faithful
  | .name n => n.Faithful

theorem Node.Faithful.above {m n : Node} (h : m.Faithful) (hmn : m.Above n) : n.Faithful := by
  cases hmn with
  | name =>
    cases h with
    | identifier hn => exact hn
  | operand =>
    cases h with
    | unary _ he => exact he
  | left =>
    cases h with
    | binary _ hl _ => exact hl
  | right =>
    cases h with
    | binary _ _ hr => exact hr
  | condition =>
    cases h with
    | ifElse _ hc _ _ => exact hc
  | consequence =>
    cases h with
    | ifElse _ _ hb _ => exact hb
  | alternative =>
    cases h with
    | ifElse _ _ _ ha => exact ha _ rfl
  | parameter hn =>
    cases h with
    | function _ hps _ => exact hps _ hn
  | body =>
    cases h with
    | function _ _ hb => exact hb
  | callee =>
    cases h with
    | call _ hf _ => exact hf
  | argument he =>
    cases h with
    | call _ _ hes => exact hes _ he
  | inBlock hs =>
    cases h with
    | mk _ hss => exact hss _ hs
  | letName =>
    cases h with
    | letStmt _ hn _ => exact hn
  | letValue =>
    cases h with
    | letStmt _ _ he => exact he
  | returnValue =>
    cases h with
    | returnStmt _ he => exact he
  | inStatement =>
    cases h with
    | exprStmt _ he => exact he

theorem Node.Of.faithful {p : Program} (hp : ∀ s ∈ p.statements, s.Faithful) {n : Node}
    (h : n.Of p) : n.Faithful := by
  induction h with
  | statement hs => exact hp _ hs
  | child _ habove ih => exact ih.above habove

theorem integer_exact {t : Token} {v : Int64} (h : t.integerValue? = some v) :
    v.toInt = t.decimal ∧ 0 ≤ v.toInt ∧ v.toInt ≤ 0x7fffffffffffffff := by
  obtain ⟨hle, rfl⟩ := Token.integerValue?_eq_some_iff.1 h
  have hexact : (Int64.ofNat t.decimal).toInt = t.decimal := Int64.toInt_ofNat_of_lt (by omega)
  exact ⟨hexact, by omega, by omega⟩

theorem Node.Faithful.agrees {n : Node} (h : n.Faithful) : n.Agrees := by
  cases n with
  | name n => exact ⟨h.1.isName, h.2⟩
  | block b =>
    cases h with
    | mk ht _ => exact ht.eq rfl
  | statement s =>
    cases h with
    | letStmt ht _ _ => exact ht.eq rfl
    | returnStmt ht _ => exact ht.eq rfl
    | exprStmt hstart _ => exact hstart.imp_right fun ht => ht.eq rfl
  | expression e =>
    cases h with
    | identifier hn => exact ⟨hn.1.isName, hn.2⟩
    | integer ht hv => exact ⟨ht.isNumber, integer_exact hv⟩
    | @boolean t v ht =>
      have hk := ht.2
      cases v <;> simp [Node.Agrees, hk]
    | @unary t op e ht _ => exact ⟨by cases op <;> exact ht.1.literal_eq (by rw [ht.2]; rfl), ht.2⟩
    | @binary t op l r ht _ _ =>
      exact ⟨by cases op <;> exact ht.1.literal_eq (by rw [ht.2]; rfl), ht.2⟩
    | ifElse ht _ _ _ => exact ht.eq rfl
    | function ht _ _ => exact ht.eq rfl
    | call ht _ _ => exact ht.eq rfl

/-! ### Where statements start -/

open Monkey.Parser

namespace Grammar

theorem value_bind_ok {α β : Type} {p : Parser α} {f : α → Parser β} {ts : List Token} {b : β}
    (h : ((p >>= f).run ts).value = .ok b) : ∃ a, (p.run ts).value = .ok a ∧
      ((f a).run (p.run ts).ahead).value = .ok b := by
  cases hv : (p.run ts).value with
  | error d =>
    rw [run_bind_error hv] at h
    cases h
  | ok a =>
    rw [run_bind_ok hv] at h
    exact ⟨a, rfl, h⟩

theorem value_map_ok {α β : Type} {p : Parser α} {g : α → β} {ts : List Token} {b : β}
    (h : ((p >>= fun a => pure (g a)).run ts).value = .ok b) : ∃ a, b = g a := by
  obtain ⟨a, -, ha⟩ := value_bind_ok h
  exact ⟨a, (Except.ok.inj ha).symm⟩

variable {expr : Precedence → Parser Expr} {left e : Expr} {ts : List Token}

/-- What an operator takes as its left operand stays leftmost. -/
theorem suffix_head (h : ((suffix expr left).run ts).value = .ok e) : e.head = left.head := by
  rw [suffix, run_current_bind] at h
  split at h
  · change ((binary _ _ _ _).run ts).value = .ok e at h
    rw [binary, run_advance_bind] at h
    obtain ⟨r, rfl⟩ := value_map_ok h
    rfl
  · obtain ⟨es, rfl⟩ := value_map_ok h
    rfl

theorem operators_head {p : Precedence} (h : ((operators expr p left).run ts).value = .ok e) :
    e.head = left.head := by
  change (extending (fun t => decide (p < t.kind.precedence)) (suffix expr) left ts).value = .ok e at h
  fun_induction extending (fun t => decide (p < t.kind.precedence)) (suffix expr) left ts with
  | case1 left t u us hu o left' hv ih => exact (ih h).trans (suffix_head hv)
  | case2 left t u us hu o d hv =>
    rw [hv] at h
    cases h
  | case3 => exact congrArg Expr.head (Except.ok.inj h).symm
  | case4 => exact congrArg Expr.head (Except.ok.inj h).symm

/-- An expression statement that does not start on the leftmost token of its expression starts on
a parenthesis, and there a group is read which this token is the leftmost of. -/
theorem exprStatement_start {n : Nat} {t : Token} (hts : ∀ u ∈ ts, u.Lexed)
    (h : ((exprStatement (expression n)).run ts).value = .ok (.exprStmt t e)) :
    t = ts.headD .endOfInput ∧ (t.kind ≠ .leftParen ∧ t = e.head ∨ t = ⟨.leftParen, "("⟩ ∧
      ∃ m inner, ((group (expression m)).run ts).value = .ok inner ∧ inner.head = e.head) := by
  rw [exprStatement, run_current_bind] at h
  obtain ⟨e', he', h⟩ := value_bind_ok h
  obtain ⟨-, -, h⟩ := value_bind_ok h
  cases h
  refine ⟨rfl, ?_⟩
  cases n with
  | zero => cases he'
  | succ m =>
    obtain ⟨left, hleft, hmore⟩ := value_bind_ok (p := operand (expression m)) he'
    have hhead := operators_head hmore
    obtain ⟨-, hstart⟩ := operand_faithful (expression_faithful m) ts left hts hleft
    by_cases hk : (ts.headD .endOfInput).kind = .leftParen
    · have hspells : (ts.headD .endOfInput).Spells .leftParen := ⟨headD_lexed hts, hk⟩
      rw [operand, run_current_bind, hk] at hleft
      exact .inr ⟨hspells.eq rfl, m, left, hleft, hhead.symm⟩
    · have hfirst := hstart.resolve_right fun hspells => hk hspells.2
      exact .inl ⟨hk, hfirst.trans hhead.symm⟩

/-! ### Numbers that are too large -/

theorem integerValue?_eq_none {t : Token} (h : 0x7fffffffffffffff < t.decimal) :
    t.integerValue? = none := by
  cases hv : t.integerValue? with
  | none => rfl
  | some v =>
    have hle := (Token.integerValue?_eq_some_iff.1 hv).1
    omega

/-- A number that no node can hold is the cause of failure of the expression it is read as. -/
theorem expression_tooLarge {n : Nat} {p : Precedence} (hk : (ts.headD .endOfInput).kind = .integer)
    (hv : 0x7fffffffffffffff < (ts.headD .endOfInput).decimal) :
    ((expression (n + 1) p).run ts).value =
        .error (.integerTooLarge (ts.headD .endOfInput).literal) ∧
      ((expression (n + 1) p).run ts).diagnostics = [] := by
  have hoperand : ((operand (expression n)).run ts).value =
      .error (.integerTooLarge (ts.headD .endOfInput).literal) ∧
        ((operand (expression n)).run ts).diagnostics = [] := by
    rw [operand, run_current_bind, hk]
    simp only [rule, integer, integerValue?_eq_none hv]
    exact ⟨rfl, rfl⟩
  change ((operand (expression n) >>= operators (expression n) p).run ts).value = _ ∧
    ((operand (expression n) >>= operators (expression n) p).run ts).diagnostics = []
  rw [run_bind_error hoperand.1]
  exact ⟨rfl, hoperand.2⟩

end Grammar

namespace Machine

/-- Read as an expression, a number that no node can hold is reported. -/
theorem Routine.Runs.tooLarge {p : Precedence} {s s' : State} {r : Option Expr} {es : List Event}
    (h : (Routine.expression p).Runs s r s' es) (hn : s.nesting < Grammar.maxNesting)
    (hk : s.current.kind = .integer) (hv : 0x7fffffffffffffff < s.current.decimal) :
    r = none ∧ s'.diagnostics = s.diagnostics ++ [.integerTooLarge s.current.literal] := by
  have hf := h.follows s.reads_ahead
  obtain ⟨n, hlevels⟩ : ∃ n, Grammar.maxNesting - s.nesting = n + 1 := Nat.exists_eq_add_one.2
    (Nat.sub_pos_of_lt hn)
  have htoo (m : Nat) : ((Grammar.expression (m + 1) p).run s.ahead).value = _ ∧ _ :=
    Grammar.expression_tooLarge hk hv
  obtain ⟨hvalue, hnone⟩ := htoo n
  rw [hlevels] at hf
  refine ⟨hf.result.trans (congrArg Except.toOption hvalue), hf.diagnostics.trans ?_⟩
  have hreports : Outcome.reports ((Grammar.expression (n + 1) p).run s.ahead) =
      [.integerTooLarge s.current.literal] := by
    rw [Outcome.reports, hvalue, hnone]
    rfl
  exact congrArg (s.diagnostics ++ ·) hreports

end Machine

/-! ### Programs -/

open Machine in
/-- Whatever the source, every node of its program agrees with its token. Conversely a number that
is read as an expression and does not fit into a node fails and is reported. -/
theorem nodes_agree (source : String) :
    (∀ n : Node, n.Of (parse source).value → n.Agrees) ∧
    (∀ (m : Nat) (ts : List Token) (t : Token) (e : Expr), (∀ u ∈ ts, u.Lexed) →
      ((Grammar.exprStatement (Grammar.expression m)).run ts).value = .ok (.exprStmt t e) →
      t = ts.headD .endOfInput ∧ (t.kind ≠ .leftParen ∧ t = e.head ∨ t = ⟨.leftParen, "("⟩ ∧
        ∃ k inner, ((Grammar.group (Grammar.expression k)).run ts).value = .ok inner ∧
          inner.head = e.head)) ∧
    ∃ s es, Routine.program.Runs (State.ofLexer (Lexer.ofString source) none)
        (some (parse source).value) s es ∧
      ∀ p t r t' inside, (Event.call (.expression p) t r t' inside).Occurs es →
        t.nesting < Grammar.maxNesting → t.current.kind = .integer →
        0x7fffffffffffffff < t.current.decimal →
        r = none ∧ t'.diagnostics = t.diagnostics ++ [.integerTooLarge t.current.literal] ∧
          .integerTooLarge t.current.literal ∈ (parse source).diagnostics := by
  refine ⟨fun n hn => (hn.faithful (parse_faithful source)).agrees,
    fun m ts t e hts h => Grammar.exprStatement_start hts h, ?_⟩
  obtain ⟨o, s, es, hrun, -, -⟩ :=
    Routine.program.exists_runs (State.ofLexer (Lexer.ofString source) none)
  obtain ⟨rfl, hs⟩ := hrun.program_holds (State.ofLexer_holds _ none)
  refine ⟨s, es, hrun, fun p t r t' inside ho hn hk hv => ?_⟩
  obtain ⟨hcall, hprefix⟩ := Eval.of_occurs hrun ho
  obtain ⟨hr, hreports⟩ := hcall.tooLarge hn hk hv
  have hdiagnostics : s.diagnostics = (parse source).diagnostics := hs.diagnostics
  refine ⟨hr, hreports, hdiagnostics ▸ hprefix.subset ?_⟩
  rw [hreports]
  exact List.mem_append_right _ (List.mem_singleton_self _)

theorem nodes_agree_leading_zeros :
    let source := "(a)(007); f(9223372036854775808)"
    let number := Node.expression (.integer ⟨.integer, "007"⟩ 7)
    number.Of (parse source).value ∧ number.Agrees ∧
      (parse source).diagnostics =
        [.integerTooLarge "9223372036854775808", .noOperand .rightParen] := by
  intro source number
  have hstatement : Statement.exprStmt ⟨.leftParen, "("⟩ (.call ⟨.leftParen, "("⟩
      (.identifier ⟨⟨.identifier, "a"⟩, "a"⟩) [.integer ⟨.integer, "007"⟩ 7]) ∈
        (parse source).value.statements := by decide +kernel
  have hnumber : number.Of (parse source).value :=
    .child (.child (.statement hstatement) .inStatement) (.argument (List.mem_singleton_self _))
  exact ⟨hnumber, (nodes_agree source).1 number hnumber, by decide +kernel⟩

end Monkey
