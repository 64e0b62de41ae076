import Monkey.Proofs.CleanRun
import Monkey.Proofs.Derivation
import Monkey.Proofs.Spelling
import Monkey.Reading

/-! Trees that agree with their tokens. The parser keeps in every node the token it was read
from, so whatever it gives, be it after errors or around end-of-input marks, has at every
node a token of the kind that belongs there and the value that this token stands for. -/

namespace Monkey

/-- The token has been read as one of the kind `k`. -/
def Token.Spells (t : Token) (k : Kind) : Prop := t.Lexed ∧ t.kind = k

theorem Token.Spells.eq {t : Token} {k : Kind} {w : String} (h : t.Spells k)
    (hw : k.spelling? = some w) : t = ⟨k, w⟩ := by
  obtain ⟨hlexed, rfl⟩ := h
  rw [← hlexed.literal_eq hw]

/-- The leftmost token of an expression, the parentheses of groups left out. -/
def Expr.head : Expr → Token
  | .binary _ _ left _ => left.head
  | .call _ callee _ => callee.head
  | e => e.token

/-- An expression whose first token is `t` may be `e`: that is its leftmost token, unless a
group opens there. -/
def Expr.StartsAt (e : Expr) (t : Token) : Prop := t = e.head ∨ t.Spells .leftParen

def Identifier.Faithful (n : Identifier) : Prop :=
  n.token.Spells .identifier ∧ n.value = n.token.literal

mutual

/-- Every node of the expression agrees with its token. -/
inductive Expr.Faithful : Expr → Prop where
  | identifier {n : Identifier} : n.Faithful → Expr.Faithful (.identifier n)
  | integer {t : Token} {v : Int64} : t.Spells .integer → t.integerValue? = some v →
    Expr.Faithful (.integer t v)
  | boolean {t : Token} {v : Bool} : t.Spells (if v then .kwTrue else .kwFalse) →
    Expr.Faithful (.boolean t v)
  | unary {t : Token} {op : UnaryOp} {e : Expr} : t.Spells op.kind → Expr.Faithful e →
    Expr.Faithful (.unary t op e)
  | binary {t : Token} {op : BinaryOp} {l r : Expr} : t.Spells op.kind → Expr.Faithful l →
    Expr.Faithful r → Expr.Faithful (.binary t op l r)
  | ifElse {t : Token} {c : Expr} {b : Block} {a : Option Block} : t.Spells .kwIf →
    Expr.Faithful c → Block.Faithful b → (∀ b ∈ a, Block.Faithful b) →
    Expr.Faithful (.ifElse t c b a)
  | function {t : Token} {ps : List Identifier} {b : Block} : t.Spells .kwFn →
    (∀ n ∈ ps, n.Faithful) → Block.Faithful b → Expr.Faithful (.function t ps b)
  | call {t : Token} {f : Expr} {es : List Expr} : t.Spells .leftParen → Expr.Faithful f →
    (∀ e ∈ es, Expr.Faithful e) → Expr.Faithful (.call t f es)

inductive Block.Faithful : Block → Prop where
  | mk {t : Token} {ss : List Statement} : t.Spells .leftBrace →
    (∀ s ∈ ss, Statement.Faithful s) → Block.Faithful ⟨t, ss⟩

inductive Statement.Faithful : Statement → Prop where
  | letStmt {t : Token} {n : Identifier} {e : Expr} : t.Spells .kwLet → n.Faithful →
    Expr.Faithful e → Statement.Faithful (.letStmt t n e)
  | returnStmt {t : Token} {e : Expr} : t.Spells .kwReturn → Expr.Faithful e →
    Statement.Faithful (.returnStmt t e)
  | exprStmt {t : Token} {e : Expr} : e.StartsAt t → Expr.Faithful e →
    Statement.Faithful (.exprStmt t e)

end

namespace Parser

variable {α β : Type}

/-- Whatever the parser gives, started on a token `t`, is a value `a` with `P t a`, provided
that the tokens ahead can be read off a text. -/
def Ensures (p : Parser α) (P : Token → α → Prop) : Prop :=
  ∀ ts a, (∀ t ∈ ts, t.Lexed) → (p.run ts).value = .ok a → P (ts.headD .endOfInput) a

theorem headD_lexed {ts : List Token} (h : ∀ t ∈ ts, t.Lexed) : (ts.headD .endOfInput).Lexed := by
  cases ts with
  | nil => exact Token.lexed_endOfInput
  | cons t ts => exact h t List.mem_cons_self

namespace Ensures

variable {p : Parser α} {f : α → Parser β} {P Q : Token → α → Prop} {R : Token → β → Prop}

theorem imp (h : p.Ensures P) (hPQ : ∀ t a, P t a → Q t a) : p.Ensures Q :=
  fun ts a hts ha => hPQ _ a (h ts a hts ha)

theorem bind (hp : p.Ensures P) (hf : ∀ t a, P t a → (f a).Ensures fun _ b => R t b) :
    (p >>= f).Ensures R := by
  intro ts b hts hb
  cases hv : (p.run ts).value with
  | error d =>
    rw [run_bind_error hv] at hb
    cases hb
  | ok a =>
    rw [run_bind_ok hv] at hb
    have hahead : ∀ t ∈ (p.run ts).ahead, t.Lexed := fun t ht => hts t ((p.ahead_suffix ts).mem ht)
    exact hf _ a (hp ts a hts hv) (p.run ts).ahead b hahead hb

/-- What comes first may have no influence. -/
theorem after (hf : ∀ t a, (f a).Ensures fun _ b => R t b) : (p >>= f).Ensures R :=
  bind (P := fun _ _ => True) (fun _ _ _ _ => trivial) fun t a _ => hf t a

theorem pure {a : α} (h : ∀ t, P t a) : (Pure.pure a : Parser α).Ensures P := by
  rintro ts b _ ⟨⟩
  exact h _

theorem fail (d : Diagnostic) : (fail d).Ensures P := by
  rintro ts a _ ⟨⟩

theorem rule (r : Rule) (h : p.Ensures P) : (rule r p).Ensures P := h

theorem current_bind {f : Token → Parser β}
    (hf : ∀ t, t.Lexed → (f t).Ensures fun u b => u = t → R t b) : (current >>= f).Ensures R := by
  intro ts b hts hb
  exact hf _ (headD_lexed hts) ts b hts hb rfl

theorem following_bind {f : Token → Parser β} (hf : ∀ t, t.Lexed → (f t).Ensures R) :
    (following >>= f).Ensures R := by
  intro ts b hts hb
  have htail : ∀ t ∈ ts.tail, t.Lexed := fun t ht => hts t (List.mem_of_mem_tail ht)
  exact hf _ (headD_lexed htail) ts b hts hb

/-- What follows a token that had to be there starts on it. -/
theorem expect_bind {k : Kind} {f : Token → Parser β}
    (hf : ∀ t u, u.Spells k → (f u).Ensures fun v b => v = u → R t b) :
    (expect k >>= f).Ensures R := by
  intro ts b hts hb
  have htail : ∀ t ∈ ts.tail, t.Lexed := fun t ht => hts t (List.mem_of_mem_tail ht)
  by_cases hk : (ts.tail.headD .endOfInput).kind = k
  · rw [run_bind_silent (run_expect_of_eq hk)] at hb
    exact hf _ _ ⟨headD_lexed htail, hk⟩ ts.tail b htail hb rfl
  · rw [run_bind_error (by rw [run_expect_of_ne hk])] at hb
    cases hb

theorem extend {ready : Token → Bool} {step : α → Parser α} {I : α → Prop} {a : α}
    (ha : I a) (hs : ∀ a, I a → (step a).Ensures fun t b => ready t = true → I b) :
    (extend ready step a).Ensures fun _ b => I b := by
  intro ts b hts hb
  change (extending ready step a ts).value = .ok b at hb
  fun_induction extending ready step a ts
  case case1 a t u ts hu o a' hv ih =>
    have hstep : ∀ v ∈ u :: ts, v.Lexed := fun v hv => hts v (List.mem_cons_of_mem t hv)
    have ha' : I a' := hs a ha (u :: ts) a' hstep hv hu
    exact ih ha' (fun v hv => hstep v (((step a).ahead_suffix (u :: ts)).mem hv)) hb
  case case2 a t u ts hu o d hv =>
    rw [hv] at hb
    cases hb
  case case3 =>
    cases hb
    exact ha
  case case4 =>
    cases hb
    exact ha

theorem itemsUntil (stop : Token → Bool) {S : α → Prop} (hp : p.Ensures fun _ a => S a) :
    (itemsUntil stop p).Ensures fun _ as => ∀ a ∈ as, S a := by
  rintro ts as hts ⟨⟩
  fun_induction items stop p ts
  case case1 => simp
  case case2 => simp
  case case3 t ts ht o q a hv ih =>
    have hsuffix := (List.tail_suffix _).trans (p.ahead_suffix (t :: ts))
    have hrest := ih fun u hu => hts u (hsuffix.mem hu)
    exact List.forall_mem_cons.2 ⟨hp (t :: ts) a hts hv, hrest⟩
  case case4 t ts ht o q d hv ih =>
    have hsuffix := (List.tail_suffix _).trans (p.ahead_suffix (t :: ts))
    exact ih fun u hu => hts u (hsuffix.mem hu)

end Ensures

end Parser

namespace Grammar

open Monkey.Parser

section Rules

variable {expr : Precedence → Parser Expr}
  (hx : ∀ p, (expr p).Ensures fun t e => e.Faithful ∧ e.StartsAt t)

include hx

/-! ### Statements -/

theorem letStatement_faithful :
    (letStatement expr).Ensures fun t s => t.kind = .kwLet → s.Faithful := by
  refine .current_bind fun t ht => .expect_bind fun _ name hname => ?_
  refine .after fun _ _ => .after fun _ _ => .bind (hx .lowest) fun _ e he => ?_
  refine .after fun _ _ => .pure fun _ => ?_
  rintro - rfl hk
  exact .letStmt ⟨ht, hk⟩ ⟨hname, rfl⟩ he.1

theorem returnStatement_faithful :
    (returnStatement expr).Ensures fun t s => t.kind = .kwReturn → s.Faithful := by
  refine .current_bind fun t ht => .after fun _ _ => .bind (hx .lowest) fun _ e he => ?_
  refine .after fun _ _ => .pure fun _ => ?_
  rintro rfl hk
  exact .returnStmt ⟨ht, hk⟩ he.1

theorem exprStatement_faithful : (exprStatement expr).Ensures fun _ s => s.Faithful := by
  refine .current_bind fun t _ => .bind (hx .lowest) fun u e he => ?_
  refine .after fun _ _ => .pure fun _ => ?_
  rintro rfl
  exact .exprStmt he.2 he.1

theorem statement_faithful : (statement expr).Ensures fun _ s => s.Faithful := by
  refine .rule _ (.current_bind fun t _ => ?_)
  split
  · next hk => exact .rule _ ((letStatement_faithful hx).imp fun u s hs hu => hs (hu ▸ hk))
  · next hk => exact .rule _ ((returnStatement_faithful hx).imp fun u s hs hu => hs (hu ▸ hk))
  · exact .rule _ ((exprStatement_faithful hx).imp fun u s hs _ => hs)

theorem block_faithful : (block expr).Ensures fun t b => t.kind = .leftBrace → b.Faithful := by
  refine .rule _ (.current_bind fun t ht => .after fun _ _ => ?_)
  refine .bind (.itemsUntil _ (statement_faithful hx)) fun _ ss hss => .pure fun _ => ?_
  rintro rfl hk
  exact .mk ⟨ht, hk⟩ hss

/-! ### Operands and operators -/

omit hx in
theorem parenthesized_ensures {α : Type} {item : Parser α} {S : α → Prop}
    (hi : item.Ensures fun _ a => S a) :
    (parenthesized item).Ensures fun _ as => ∀ a ∈ as, S a := by
  refine .following_bind fun t _ => ?_
  split
  · exact .after fun _ _ => .pure fun _ a ha => nomatch ha
  · refine .bind hi fun _ a ha => .bind (P := fun _ as => ∀ a ∈ as, S a) ?_ fun _ as has => ?_
    · refine .extend (by simpa using ha) fun as has => .bind hi fun _ b hb => .pure fun _ => ?_
      intro _ c hc
      rcases List.mem_append.1 hc with hc | hc
      · exact has c hc
      · obtain rfl := List.mem_singleton.1 hc
        exact hb
    · exact .after fun _ _ => .pure fun _ => has

theorem alternative_faithful : (alternative expr).Ensures fun _ a => ∀ b ∈ a, b.Faithful := by
  refine .following_bind fun t _ => ?_
  split
  · refine .after fun _ _ => .expect_bind fun _ u hu => .bind (block_faithful hx) fun v b hb => ?_
    refine .pure fun _ hvu => ?_
    rintro _ ⟨⟩
    exact hb (hvu ▸ hu.2)
  · exact .pure fun _ b hb => nomatch hb

theorem conditional_faithful (t : Token) (ht : t.Spells .kwIf) :
    (conditional expr t).Ensures fun _ e => e.Faithful ∧ e.head = t := by
  refine .after fun _ _ => .after fun _ _ => .bind (hx .lowest) fun _ c hc => .after fun _ _ => ?_
  refine .expect_bind fun _ u hu => .bind (block_faithful hx) fun v b hb => ?_
  refine .bind (alternative_faithful hx) fun _ a ha => .pure fun _ hvu => ?_
  exact ⟨.ifElse ht hc.1 (hb (hvu ▸ hu.2)) ha, rfl⟩

theorem function_faithful (t : Token) (ht : t.Spells .kwFn) :
    (function expr t).Ensures fun _ e => e.Faithful ∧ e.head = t := by
  have hname : (expect .identifier).Ensures fun _ u => u.Spells .identifier := by
    rw [← bind_pure (expect .identifier)]
    exact .expect_bind fun _ u hu => .pure fun _ _ => hu
  refine .after fun _ _ => .bind (parenthesized_ensures hname) fun _ names hnames => ?_
  refine .expect_bind fun _ u hu => .bind (block_faithful hx) fun v b hb => .pure fun _ hvu => ?_
  refine ⟨.function ht (fun n hn => ?_) (hb (hvu ▸ hu.2)), rfl⟩
  obtain ⟨name, hmem, rfl⟩ := List.mem_map.1 hn
  exact ⟨hnames name hmem, rfl⟩

theorem unary_faithful {t : Token} {op : UnaryOp} (ht : t.Spells op.kind) :
    (unary expr t op).Ensures fun _ e => e.Faithful ∧ e.head = t :=
  .after fun _ _ => .bind (hx .unary) fun _ _ he => .pure fun _ => ⟨.unary ht he.1, rfl⟩

theorem operand_faithful : (operand expr).Ensures fun t e => e.Faithful ∧ e.StartsAt t := by
  have hrule {r : Rule} {q : Parser Expr} {t : Token}
      (hq : q.Ensures fun _ e => e.Faithful ∧ e.head = t) :
      (rule r q).Ensures fun u e => u = t → e.Faithful ∧ e.StartsAt t :=
    (hq.rule r).imp fun u e he _ => ⟨he.1, .inl he.2.symm⟩
  refine .current_bind fun t ht => ?_
  split
  · next hk => exact hrule (.pure fun _ => ⟨.identifier (n := .ofToken t) ⟨⟨ht, hk⟩, rfl⟩, rfl⟩)
  · next hk =>
    refine hrule ?_
    unfold integer
    split
    · next v hv => exact .pure fun _ => ⟨.integer ⟨ht, hk⟩ hv, rfl⟩
    · exact .fail _
  · next hk => exact hrule (.pure fun _ => ⟨.boolean (v := true) ⟨ht, hk⟩, rfl⟩)
  · next hk => exact hrule (.pure fun _ => ⟨.boolean (v := false) ⟨ht, hk⟩, rfl⟩)
  · next hk => exact hrule (unary_faithful hx (show t.Spells (UnaryOp.kind .minus) from ⟨ht, hk⟩))
  · next hk => exact hrule (unary_faithful hx (show t.Spells (UnaryOp.kind .bang) from ⟨ht, hk⟩))
  · next hk =>
    refine .rule _ (.after fun _ _ => .bind (hx .lowest) fun _ e he => .after fun _ _ => ?_)
    exact .pure fun _ _ => ⟨he.1, .inr ⟨ht, hk⟩⟩
  · next hk => exact hrule (conditional_faithful hx t ⟨ht, hk⟩)
  · next hk => exact hrule (function_faithful hx t ⟨ht, hk⟩)
  · exact .fail _

/-- An operator takes what stands to its left as its leftmost part. -/
theorem suffix_faithful {left : Expr} (hl : left.Faithful) : (suffix expr left).Ensures
    fun t e => t.Continues → e.Faithful ∧ e.head = left.head := by
  refine .current_bind fun t ht => ?_
  split
  · next op hop =>
    have hk := (BinaryOp.ofKind?_eq_some_iff.1 hop).symm
    exact .rule _ (.after fun _ _ => .bind (hx _) fun _ r hr => .pure fun _ _ _ =>
      ⟨.binary ⟨ht, hk⟩ hl hr.1, rfl⟩)
  · next hop =>
    have hargument : (do advance; expr .lowest : Parser Expr).Ensures fun _ e => e.Faithful :=
      .after fun _ _ => (hx .lowest).imp fun _ e he => he.1
    refine .rule _ (.bind (parenthesized_ensures hargument) fun u es hes => .pure fun _ hu hc => ?_)
    exact ⟨.call ⟨ht, Token.kind_of_continues (hu ▸ hc) hop⟩ hl hes, rfl⟩

theorem chain_faithful (p : Precedence) :
    (chain expr p).Ensures fun t e => e.Faithful ∧ e.StartsAt t := by
  refine .bind (operand_faithful hx) fun t left hleft => ?_
  have hloop : (extend (fun t => decide (p < t.kind.precedence)) (suffix expr) left).Ensures
      fun _ e => e.Faithful ∧ e.head = left.head := by
    refine .extend ⟨hleft.1, rfl⟩ fun e he => (suffix_faithful hx he.1).imp fun u e' he' hu => ?_
    have hcont := Token.continues_iff.2 (Nat.zero_lt_of_lt (of_decide_eq_true hu))
    exact ⟨(he' hcont).1, (he' hcont).2.trans he.2⟩
  refine hloop.imp fun _ e he => ⟨he.1, ?_⟩
  rw [Expr.StartsAt, he.2]
  exact hleft.2

end Rules

theorem expression_faithful (n : Nat) (p : Precedence) :
    (expression n p).Ensures fun t e => e.Faithful ∧ e.StartsAt t := by
  induction n generalizing p with
  | zero => exact .fail _
  | succ n ih => exact .rule _ (chain_faithful ih p)

end Grammar

/-- Whatever the source, every node of its program agrees with its token. -/
theorem parse_faithful (source : String) : ∀ s ∈ (parse source).value.statements, s.Faithful := by
  have hitems := Parser.Ensures.itemsUntil (·.kind = .endOfInput)
    (Grammar.statement_faithful (Grammar.expression_faithful Grammar.maxNesting))
  exact hitems (Lexer.ofString source).tokens _ (Token.stream_lexed source.toList) rfl

end Monkey
