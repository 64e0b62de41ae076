import Monkey.Grammar.Precedence
import Monkey.Tree.Basic

/-! The grammar as a relation between tokens and trees. A derivation fixes the tokens it
covers, the tree they stand for, and the number of nesting levels it takes: the content
of a group, the operand of a prefix operator, the right operand of a binary operator, an
argument, a condition and an expression in a block stand one level deeper than the
expression around them; a left operand and a callee do not. Groups and semicolons leave
nothing in the tree. Expressions come in layers, counted from the loosest: 0 for `==` and
`!=`, 1 for `<` and `>`, 2 for `+` and `-`, 3 for `*` and `/`, 4 for prefix operators, 5
for argument lists and 6 for operands without operators. -/

namespace Monkey

/-- The layer of a binary operator. -/
def BinaryOp.layer : BinaryOp → Nat
  | equal => 0
  | notEqual => 0
  | less => 1
  | greater => 1
  | plus => 2
  | minus => 2
  | star => 3
  | slash => 3

/-- The number that the text of a token spells in base ten. -/
def Token.decimal (t : Token) : Nat := Nat.ofDigitChars 10 t.literal.toList 0

theorem Token.integerValue?_eq_some_iff {t : Token} {v : Int64} :
    t.integerValue? = some v ↔ t.decimal ≤ 0x7fffffffffffffff ∧ v = .ofNat t.decimal := by
  simp only [integerValue?, decimal, Option.ite_none_right_eq_some, Option.some.injEq]
  constructor
  · rintro ⟨h, rfl⟩
    exact ⟨by omega, rfl⟩
  · rintro ⟨h, rfl⟩
    exact ⟨by omega, rfl⟩

/-- The brace that closes a block. -/
def Token.rightBrace : Token := ⟨.rightBrace, "\x7d"⟩

/-- Whether a token behind an expression would go on with it: a binary operator, or the
parenthesis that opens an argument list. -/
def Token.Continues (t : Token) : Prop := (∃ op : BinaryOp, op.kind = t.kind) ∨ t.kind = .leftParen

namespace Derivation

/-- Names separated by commas, at least one. -/
inductive Names : List Token → List Identifier → Prop where
  | one {t : Token} : t.kind = .identifier → Names [t] [.ofToken t]
  | more {xs : List Token} {ns : List Identifier} {comma t : Token} :
    Names xs ns → comma.kind = .comma → t.kind = .identifier →
    Names (xs ++ [comma, t]) (ns ++ [.ofToken t])

inductive Parameters : List Token → List Identifier → Prop where
  | none : Parameters [] []
  | names {xs : List Token} {ns : List Identifier} : Names xs ns → Parameters xs ns

mutual

/-- `Expression h l xs e`: the tokens `xs` are an expression of layer `l` with the tree `e`,
which takes `h` levels, its own included. -/
inductive Expression : Nat → Nat → List Token → Expr → Prop where
  | identifier {t : Token} : t.kind = .identifier →
    Expression 1 6 [t] (.identifier (.ofToken t))
  | integer {t : Token} : t.kind = .integer → t.decimal ≤ 0x7fffffffffffffff →
    Expression 1 6 [t] (.integer t (.ofNat t.decimal))
  | boolean {t : Token} {v : Bool} : t.kind = (if v then .kwTrue else .kwFalse) →
    Expression 1 6 [t] (.boolean t v)
  | group {h : Nat} {l r : Token} {xs : List Token} {e : Expr} :
    l.kind = .leftParen → Expression h 0 xs e → r.kind = .rightParen →
    Expression (h + 1) 6 (l :: xs ++ [r]) e
  | conditional {h hb ha : Nat} {t l r : Token} {xs bs as : List Token} {c : Expr} {b : Block}
    {a : Option Block} : t.kind = .kwIf → l.kind = .leftParen → Expression h 0 xs c →
    r.kind = .rightParen → Braces hb bs b → Alternative ha as a →
    Expression (max (max h hb) ha + 1) 6 (t :: l :: xs ++ r :: bs ++ as) (.ifElse t c b a)
  | function {h : Nat} {t l r : Token} {xs bs : List Token} {ps : List Identifier} {b : Block} :
    t.kind = .kwFn → l.kind = .leftParen → Parameters xs ps → r.kind = .rightParen →
    Braces h bs b → Expression (h + 1) 6 (t :: l :: xs ++ r :: bs) (.function t ps b)
  | call {h ha : Nat} {l r : Token} {xs as : List Token} {f : Expr} {es : List Expr} :
    Expression h 5 xs f → l.kind = .leftParen → Arguments ha as es → r.kind = .rightParen →
    Expression (max h (ha + 1)) 5 (xs ++ l :: as ++ [r]) (.call l f es)
  | unary {h : Nat} {t : Token} {op : UnaryOp} {xs : List Token} {e : Expr} :
    t.kind = op.kind → Expression h 4 xs e → Expression (h + 1) 4 (t :: xs) (.unary t op e)
  | binary {hl hr k : Nat} {t : Token} {op : BinaryOp} {xs ys : List Token} {l r : Expr} :
    Expression hl op.layer xs l → t.kind = op.kind → op.layer < k → Expression hr k ys r →
    Expression (max hl (hr + 1)) op.layer (xs ++ t :: ys) (.binary t op l r)
  /-- An expression of one layer is one of every looser layer. -/
  | looser {h k l : Nat} {xs : List Token} {e : Expr} :
    k < l → Expression h l xs e → Expression h k xs e

/-- Expressions separated by commas, at least one. -/
inductive Expressions : Nat → List Token → List Expr → Prop where
  | one {h : Nat} {xs : List Token} {e : Expr} : Expression h 0 xs e → Expressions h xs [e]
  | more {h he : Nat} {comma : Token} {xs ys : List Token} {es : List Expr} {e : Expr} :
    Expressions h xs es → comma.kind = .comma → Expression he 0 ys e →
    Expressions (max h he) (xs ++ comma :: ys) (es ++ [e])

inductive Arguments : Nat → List Token → List Expr → Prop where
  | none : Arguments 0 [] []
  | expressions {h : Nat} {xs : List Token} {es : List Expr} :
    Expressions h xs es → Arguments h xs es

/-- The alternative of a conditional, if it has one. -/
inductive Alternative : Nat → List Token → Option Block → Prop where
  | none : Alternative 0 [] none
  | block {h : Nat} {t : Token} {bs : List Token} {b : Block} :
    t.kind = .kwElse → Braces h bs b → Alternative h (t :: bs) (some b)

/-- Statements between braces. -/
inductive Braces : Nat → List Token → Block → Prop where
  | mk {h : Nat} {l r : Token} {xs : List Token} {ss : List Statement} :
    l.kind = .leftBrace → Sentences h xs ss → r.kind = .rightBrace →
    Braces h (l :: xs ++ [r]) ⟨l, ss⟩

/-- A statement without its semicolon. -/
inductive Sentence : Nat → List Token → Statement → Prop where
  | letStmt {h : Nat} {t name eq : Token} {xs : List Token} {e : Expr} :
    t.kind = .kwLet → name.kind = .identifier → eq.kind = .assign → Expression h 0 xs e →
    Sentence h (t :: name :: eq :: xs) (.letStmt t (.ofToken name) e)
  | returnStmt {h : Nat} {t : Token} {xs : List Token} {e : Expr} :
    t.kind = .kwReturn → Expression h 0 xs e → Sentence h (t :: xs) (.returnStmt t e)
  | exprStmt {h : Nat} {t : Token} {xs : List Token} {e : Expr} :
    Expression h 0 (t :: xs) e → Sentence h (t :: xs) (.exprStmt t e)

/-- Statements one after another. The semicolon behind a statement may be missing where
the next token would not go on with the expression. -/
inductive Sentences : Nat → List Token → List Statement → Prop where
  | nil : Sentences 0 [] []
  | ended {h hs : Nat} {semicolon : Token} {xs ys : List Token} {s : Statement}
    {ss : List Statement} :
    Sentence h xs s → semicolon.kind = .semicolon → Sentences hs ys ss →
    Sentences (max h hs) (xs ++ semicolon :: ys) (s :: ss)
  | unended {h hs : Nat} {xs ys : List Token} {s : Statement} {ss : List Statement} :
    Sentence h xs s → (∀ t ∈ ys.head?, ¬ t.Continues) → Sentences hs ys ss →
    Sentences (max h hs) (xs ++ ys) (s :: ss)

end

end Derivation

/-! ### First tokens -/

/-- The kinds of token that an expression can start with. -/
def Kind.opens : Kind → Bool
  | identifier | integer | kwTrue | kwFalse | minus | bang | leftParen | kwIf | kwFn => true
  | _ => false

/-- The kinds of token that a statement can start with. -/
def Kind.starts (k : Kind) : Bool := k.opens || k = .kwLet || k = .kwReturn

theorem UnaryOp.opens_kind (op : UnaryOp) : op.kind.opens = true := by cases op <;> rfl

namespace Derivation

theorem Expression.opens {h l : Nat} {xs : List Token} {e : Expr} :
    Expression h l xs e → ∃ t ys, xs = t :: ys ∧ t.kind.opens = true
  | .identifier hk => ⟨_, _, rfl, by rw [hk]; rfl⟩
  | .integer hk _ => ⟨_, _, rfl, by rw [hk]; rfl⟩
  | .boolean hk => ⟨_, _, rfl, by rw [hk]; split <;> rfl⟩
  | .group hl _ _ => ⟨_, _, rfl, by rw [hl]; rfl⟩
  | .conditional hk .. => ⟨_, _, rfl, by rw [hk]; rfl⟩
  | .function hk .. => ⟨_, _, rfl, by rw [hk]; rfl⟩
  | .unary hk _ => ⟨_, _, rfl, by rw [hk]; exact UnaryOp.opens_kind _⟩
  | .call d .. => by
    obtain ⟨t, ys, rfl, ht⟩ := d.opens
    exact ⟨t, _, rfl, ht⟩
  | .binary d .. => by
    obtain ⟨t, ys, rfl, ht⟩ := d.opens
    exact ⟨t, _, rfl, ht⟩
  | .looser _ d => d.opens

theorem Expressions.opens {h : Nat} {xs : List Token} {es : List Expr} :
    Expressions h xs es → ∃ t ys, xs = t :: ys ∧ t.kind.opens = true
  | .one d => d.opens
  | .more d .. => by
    obtain ⟨t, ys, rfl, ht⟩ := d.opens
    exact ⟨t, _, rfl, ht⟩

theorem Names.head {xs : List Token} {ns : List Identifier} (d : Names xs ns) :
    ∃ t ys, xs = t :: ys ∧ t.kind = .identifier := by
  induction d with
  | one hk => exact ⟨_, _, rfl, hk⟩
  | more _ _ _ ih =>
    obtain ⟨t, ys, rfl, hk⟩ := ih
    exact ⟨t, _, rfl, hk⟩

theorem Sentence.starts {h : Nat} {xs : List Token} {s : Statement} :
    Sentence h xs s → ∃ t ys, xs = t :: ys ∧ t.kind.starts = true
  | .letStmt hk .. => ⟨_, _, rfl, by rw [hk]; rfl⟩
  | .returnStmt hk _ => ⟨_, _, rfl, by rw [hk]; rfl⟩
  | .exprStmt d => by
    obtain ⟨t, ys, hxs, ht⟩ := d.opens
    exact ⟨t, ys, hxs, by rw [Kind.starts, ht]; rfl⟩

theorem Sentences.starts {h : Nat} {xs : List Token} {ss : List Statement} :
    Sentences h xs ss → ∀ t ∈ xs.head?, t.kind.starts = true
  | .nil => by simp
  | .ended d _ _ => by
    obtain ⟨t, ys, rfl, ht⟩ := d.starts
    rintro _ ⟨⟩
    exact ht
  | .unended d _ _ => by
    obtain ⟨t, ys, rfl, ht⟩ := d.starts
    rintro _ ⟨⟩
    exact ht

theorem Expression.loosen {h k l : Nat} {xs : List Token} {e : Expr} (hkl : k ≤ l)
    (d : Expression h l xs e) : Expression h k xs e := by
  rcases Nat.eq_or_lt_of_le hkl with rfl | hlt
  · exact d
  · exact .looser hlt d

end Derivation

/-! ### Layers and precedences -/

/-- The loosest layer of an expression read at a precedence. -/
def Precedence.layer (p : Precedence) : Nat := min p.rank 4

theorem BinaryOp.rank_precedence (op : BinaryOp) : op.kind.precedence.rank = op.layer + 1 := by
  cases op <;> rfl

theorem Precedence.layer_le_rank (p : Precedence) : p.layer ≤ p.rank := Nat.min_le_left _ _

theorem Precedence.layer_le (p : Precedence) : p.layer ≤ 4 := Nat.min_le_right _ _

theorem BinaryOp.layer_lt (op : BinaryOp) : op.layer < 4 := by cases op <;> decide

theorem BinaryOp.layer_precedence (op : BinaryOp) : op.kind.precedence.layer = op.layer + 1 := by
  cases op <;> rfl

theorem Kind.rank_le (k : Kind) : k.precedence.rank ≤ 6 := by cases k <;> decide

theorem Token.continues_iff {t : Token} : t.Continues ↔ 0 < t.kind.precedence.rank := by
  constructor
  · rintro (⟨op, h⟩ | h)
    · rw [← h, op.rank_precedence]
      exact Nat.succ_pos _
    · rw [h]
      decide
  · intro h
    cases hop : BinaryOp.ofKind? t.kind with
    | some op => exact .inl ⟨op, BinaryOp.ofKind?_eq_some_iff.1 hop⟩
    | none =>
      right
      revert h hop
      cases t.kind <;> decide

theorem Token.kind_of_continues {t : Token} (h : t.Continues)
    (hop : BinaryOp.ofKind? t.kind = none) : t.kind = .leftParen := by
  refine h.resolve_left ?_
  rintro ⟨op, hk⟩
  rw [BinaryOp.ofKind?_eq_some_iff.2 hk] at hop
  cases hop

end Monkey
