import Monkey.Proofs.Agreement
import Monkey.Proofs.Completeness
import Monkey.Tree.Equality
import Monkey.Tree.Printer

/-! Reading canonical text back. The text of a tree without conditionals and functions is
read as the tokens that the tree keeps, with the parentheses and commas that the printer
writes between them, and those tokens are derivable from the tree. The parentheses cost
levels of nesting: an operator application takes one or two more than its operands, so the
text of a tree that was read may itself be nested too deeply. -/

namespace Monkey

mutual

/-- Whether an expression has no conditional and no function in it. -/
def Expr.plain : Expr → Bool
  | .identifier _ => true
  | .integer _ _ => true
  | .boolean _ _ => true
  | .unary _ _ e => e.plain
  | .binary _ _ l r => l.plain && r.plain
  | .ifElse _ _ _ _ => false
  | .function _ _ _ => false
  | .call _ f es => f.plain && Expr.plainAll es

def Expr.plainAll : List Expr → Bool
  | [] => true
  | e :: es => e.plain && Expr.plainAll es

end

mutual

/-- The number of levels inside the canonical text of an expression. -/
def Expr.printedDepth : Expr → Nat
  | .unary _ _ e => 2 + e.printedDepth
  | .binary _ _ l r => 1 + max l.printedDepth (1 + r.printedDepth)
  | .call _ f es => max f.printedDepth (Expr.printedDepthAll es)
  | _ => 0

/-- The number of levels that arguments take, each one level deeper than the call. -/
def Expr.printedDepthAll : List Expr → Nat
  | [] => 0
  | e :: es => max (1 + e.printedDepth) (Expr.printedDepthAll es)

end

mutual

/-- The tokens of the canonical text of an expression. -/
def Expr.tokens : Expr → List Token
  | .unary t _ e => ⟨.leftParen, "("⟩ :: t :: e.tokens ++ [⟨.rightParen, ")"⟩]
  | .binary t _ l r => ⟨.leftParen, "("⟩ :: (l.tokens ++ t :: r.tokens) ++ [⟨.rightParen, ")"⟩]
  | .call t f es =>
    f.tokens ++ t :: [⟨.comma, ","⟩].intercalate (Expr.tokensAll es) ++ [⟨.rightParen, ")"⟩]
  | e => [e.token]

def Expr.tokensAll : List Expr → List (List Token)
  | [] => []
  | e :: es => e.tokens :: Expr.tokensAll es

end

/-- The expression of a statement. -/
def Statement.expression : Statement → Expr
  | .letStmt _ _ e => e
  | .returnStmt _ e => e
  | .exprStmt _ e => e

def Statement.isExpr : Statement → Bool
  | .exprStmt _ _ => true
  | _ => false

/-- The statement as it is read from its own text: an expression is a statement at the first
token of its text. -/
def Statement.reread : Statement → Statement
  | .exprStmt _ e => .exprStmt (Lexer.ofString e.render).next.1 e
  | s => s

/-! ### Derivations -/

section Derivations

open Monkey.Derivation

theorem intercalate_cons {α : Type} (x : α) (as : List α) (bss : List (List α)) :
    [x].intercalate (as :: bss) = as ++ bss.flatMap (x :: ·) := by
  induction bss generalizing as with
  | nil => simp
  | cons bs bss ih =>
    rw [List.intercalate_cons_cons, ih, List.flatMap_cons, List.append_assoc]
    rfl

theorem Identifier.Faithful.eq_ofToken {n : Identifier} (h : n.Faithful) : n = .ofToken n.token :=
  congrArg (Identifier.mk n.token) h.2

mutual

/-- The tokens of the canonical text stand for the tree. They can be a callee. -/
theorem Expr.derived : ∀ e : Expr, e.Faithful → e.plain = true →
    Expression (1 + e.printedDepth) 5 e.tokens e
  | .identifier n, hf, _ => by
    cases hf with
    | identifier hn =>
      have d := Expression.identifier hn.1.2
      rw [← hn.eq_ofToken] at d
      exact .looser (by decide) d
  | .integer t v, hf, _ => by
    cases hf with
    | integer ht hv =>
      obtain ⟨hle, rfl⟩ := Token.integerValue?_eq_some_iff.1 hv
      exact .looser (by decide) (.integer ht.2 hle)
  | .boolean t v, hf, _ => by
    cases hf with
    | boolean ht => exact .looser (by decide) (.boolean ht.2)
  | .unary t op e, hf, hp => by
    cases hf with
    | unary ht he =>
      have d := Expression.unary ht.2 ((Expr.derived e he hp).loosen (by decide))
      have hdepth : 1 + Expr.printedDepth (.unary t op e) = 1 + e.printedDepth + 1 + 1 := by
        rw [Expr.printedDepth]
        omega
      rw [hdepth]
      exact .looser (by decide) (.group rfl (.looser (by decide) d) rfl)
  | .binary t op l r, hf, hp => by
    cases hf with
    | binary ht hl hr =>
      rw [Expr.plain, Bool.and_eq_true] at hp
      have hlt := op.layer_lt
      have d := Expression.binary ((Expr.derived l hl hp.1).loosen (by omega)) ht.2
        (Nat.lt_succ_of_lt hlt) (Expr.derived r hr hp.2)
      have hdepth : 1 + Expr.printedDepth (.binary t op l r) =
          max (1 + l.printedDepth) (1 + r.printedDepth + 1) + 1 := by
        rw [Expr.printedDepth]
        omega
      rw [hdepth]
      exact .looser (by decide) (.group rfl (d.loosen (Nat.zero_le _)) rfl)
  | .ifElse _ _ _ _, _, hp => nomatch hp
  | .function _ _ _, _, hp => nomatch hp
  | .call t f es, hf, hp => by
    cases hf with
    | call ht hcallee hes =>
      rw [Expr.plain, Bool.and_eq_true] at hp
      have hargs : Arguments (Expr.printedDepthAll es)
          ([⟨.comma, ","⟩].intercalate (Expr.tokensAll es)) es := by
        by_cases hnil : es = []
        · subst hnil
          exact .none
        · exact .expressions (Expr.derivedAll es hes hp.2 hnil)
      have d := Expression.call (r := ⟨.rightParen, ")"⟩) (Expr.derived f hcallee hp.1) ht.2
        hargs rfl
      have hdepth : 1 + Expr.printedDepth (.call t f es) =
          max (1 + f.printedDepth) (Expr.printedDepthAll es + 1) := by
        rw [Expr.printedDepth]
        omega
      rw [hdepth]
      exact d

/-- Arguments are derivable, separated by commas. -/
theorem Expr.derivedAll : ∀ es : List Expr, (∀ e ∈ es, e.Faithful) → Expr.plainAll es = true →
    es ≠ [] → Expressions (Expr.printedDepthAll es)
      ([⟨.comma, ","⟩].intercalate (Expr.tokensAll es)) es
  | [], _, _, hne => absurd rfl hne
  | e :: es, hf, hp, _ => by
    rw [List.forall_mem_cons] at hf
    rw [Expr.plainAll, Bool.and_eq_true] at hp
    have d := (Expr.derived e hf.1 hp.1).loosen (Nat.zero_le 5)
    have ds := Expr.derivedBehind es hf.2 hp.2 (.one d)
    rw [Expr.tokensAll, intercalate_cons]
    exact ds

/-- Arguments may stand behind others, each with a comma before it. -/
theorem Expr.derivedBehind : ∀ es : List Expr, (∀ e ∈ es, e.Faithful) → Expr.plainAll es = true →
    ∀ {h : Nat} {xs : List Token} {fs : List Expr}, Expressions h xs fs →
    Expressions (max h (Expr.printedDepthAll es))
      (xs ++ (Expr.tokensAll es).flatMap (⟨.comma, ","⟩ :: ·)) (fs ++ es)
  | [], _, _, h, xs, fs, d => by simpa [Expr.printedDepthAll, Expr.tokensAll] using d
  | e :: es, hf, hp, h, xs, fs, d => by
    rw [List.forall_mem_cons] at hf
    rw [Expr.plainAll, Bool.and_eq_true] at hp
    have hcomma : (⟨.comma, ","⟩ : Token).kind = .comma := rfl
    have dmore := Expressions.more d hcomma ((Expr.derived e hf.1 hp.1).loosen (Nat.zero_le 5))
    have ds := Expr.derivedBehind es hf.2 hp.2 dmore
    rw [Nat.max_assoc, List.append_assoc, List.append_assoc] at ds
    exact ds

end

end Derivations

/-! ### Text -/

open Token

theorem UnaryOp.stream_symbol (op : UnaryOp) {rest : List Char} (hr : rest.head? ≠ some '=') :
    stream (op.symbol.toList ++ rest) = ⟨op.kind, op.symbol⟩ :: stream rest := by
  cases op with
  | minus => exact stream_single rfl rfl rfl fun h => absurd h hr
  | bang => exact stream_single rfl rfl rfl fun h => absurd h hr

theorem BinaryOp.stream_symbol (op : BinaryOp) (rest : List Char) :
    stream (op.symbol.toList ++ ' ' :: rest) = ⟨op.kind, op.symbol⟩ :: stream rest := by
  have hblank : stream (' ' :: rest) = stream rest := stream_blank rfl
  rw [← hblank]
  cases op with
  | equal => exact stream_lexeme (c := '=') rfl
  | notEqual => exact stream_lexeme (c := '!') rfl
  | plus => exact stream_single rfl rfl rfl fun h => nomatch h
  | minus => exact stream_single rfl rfl rfl fun h => nomatch h
  | star => exact stream_single rfl rfl rfl fun h => nomatch h
  | slash => exact stream_single rfl rfl rfl fun h => nomatch h
  | greater => exact stream_single rfl rfl rfl fun h => nomatch h
  | less => exact stream_single rfl rfl rfl fun h => nomatch h

theorem Expr.text_unary (t : Token) (op : UnaryOp) (e : Expr) : (Expr.unary t op e).render.toList =
    '(' :: (op.symbol.toList ++ (e.render.toList ++ [')'])) := by
  simp [Expr.render]

theorem Expr.text_binary (t : Token) (op : BinaryOp) (l r : Expr) :
    (Expr.binary t op l r).render.toList =
      '(' :: (l.render.toList ++ ' ' ::
        (op.symbol.toList ++ ' ' :: (r.render.toList ++ [')']))) := by
  simp [Expr.render]

theorem Expr.text_call (t : Token) (f : Expr) (es : List Expr) : (Expr.call t f es).render.toList =
    f.render.toList ++ '(' ::
      ([',', ' '].intercalate ((Expr.renderAll es).map String.toList) ++ [')']) := by
  simp [Expr.render]

/-- The first character is that of a word, a number or a group. -/
theorem Expr.render_head : ∀ e : Expr, e.Faithful → e.plain = true →
    ∃ c cs, e.render.toList = c :: cs ∧ c ≠ '='
  | .identifier n, hf, _ => by
    cases hf with
    | identifier hn =>
      rw [Expr.render, hn.2]
      exact hn.1.1.literal_head (by rw [hn.1.2]; rfl)
  | .integer t v, hf, _ => by
    cases hf with
    | integer ht _ => exact ht.1.literal_head (by rw [ht.2]; rfl)
  | .boolean t v, hf, _ => by
    cases hf with
    | boolean ht => exact ht.1.literal_head (by rw [ht.2]; cases v <;> rfl)
  | .unary t op e, _, _ => ⟨'(', _, Expr.text_unary t op e, by decide⟩
  | .binary t op l r, _, _ => ⟨'(', _, Expr.text_binary t op l r, by decide⟩
  | .ifElse _ _ _ _, _, hp => nomatch hp
  | .function _ _ _, _, hp => nomatch hp
  | .call t f es, hf, hp => by
    cases hf with
    | call _ hcallee _ =>
      rw [Expr.plain, Bool.and_eq_true] at hp
      obtain ⟨c, cs, hcs, hc⟩ := Expr.render_head f hcallee hp.1
      exact ⟨c, _, by rw [Expr.text_call, hcs, List.cons_append], hc⟩

theorem stream_leftParen (rest : List Char) :
    stream ('(' :: rest) = ⟨.leftParen, "("⟩ :: stream rest :=
  stream_single rfl rfl rfl fun _ => ⟨by decide, by decide⟩

theorem stream_rightParen (rest : List Char) :
    stream (')' :: rest) = ⟨.rightParen, ")"⟩ :: stream rest :=
  stream_single rfl rfl rfl fun _ => ⟨by decide, by decide⟩

theorem stream_comma (rest : List Char) :
    stream (',' :: ' ' :: rest) = ⟨.comma, ","⟩ :: stream rest := by
  rw [← show stream (' ' :: rest) = stream rest from stream_blank rfl]
  exact stream_single rfl rfl rfl fun _ => ⟨by decide, by decide⟩

mutual

/-- The canonical text of an expression is read as its tokens, where no word or number goes on. -/
theorem Expr.stream_render : ∀ e : Expr, e.Faithful → e.plain = true → ∀ rest : List Char,
    Delimited rest → stream (e.render.toList ++ rest) = e.tokens ++ stream rest
  | .identifier n, hf, _, rest, hrest => by
    cases hf with
    | identifier hn =>
      rw [Expr.render, hn.2]
      exact hn.1.1.stream_literal (by rw [hn.1.2]; rfl) hrest
  | .integer t v, hf, _, rest, hrest => by
    cases hf with
    | integer ht _ => exact ht.1.stream_literal (by rw [ht.2]; rfl) hrest
  | .boolean t v, hf, _, rest, hrest => by
    cases hf with
    | boolean ht => exact ht.1.stream_literal (by rw [ht.2]; cases v <;> rfl) hrest
  | .unary t op e, hf, hp, rest, hrest => by
    cases hf with
    | unary ht he =>
      obtain rfl := ht.eq (w := op.symbol) (by cases op <;> rfl)
      have hinner := Expr.stream_render e he hp (')' :: rest) (.cons rfl rfl)
      obtain ⟨c, cs, hcs, hc⟩ := Expr.render_head e he hp
      have hhead : (e.render.toList ++ ')' :: rest).head? ≠ some '=' := by
        rw [hcs]
        simpa using hc
      simp only [Expr.text_unary, List.cons_append, List.append_assoc, List.nil_append]
      rw [stream_leftParen, op.stream_symbol hhead, hinner, stream_rightParen, Expr.tokens]
      simp
  | .binary t op l r, hf, hp, rest, hrest => by
    cases hf with
    | binary ht hl hr =>
      obtain rfl := ht.eq (w := op.symbol) (by cases op <;> rfl)
      rw [Expr.plain, Bool.and_eq_true] at hp
      have hright := Expr.stream_render r hr hp.2 (')' :: rest) (.cons rfl rfl)
      have hleft := Expr.stream_render l hl hp.1
        (' ' :: (op.symbol.toList ++ ' ' :: (r.render.toList ++ ')' :: rest))) (.cons rfl rfl)
      simp only [Expr.text_binary, List.cons_append, List.append_assoc, List.nil_append]
      rw [stream_leftParen, hleft, stream_blank (c := ' ') rfl, op.stream_symbol, hright,
        stream_rightParen, Expr.tokens]
      simp
  | .ifElse _ _ _ _, _, hp, _, _ => nomatch hp
  | .function _ _ _, _, hp, _, _ => nomatch hp
  | .call t f es, hf, hp, rest, hrest => by
    cases hf with
    | call ht hcallee hes =>
      obtain rfl := ht.eq (w := "(") rfl
      rw [Expr.plain, Bool.and_eq_true] at hp
      have hargs := Expr.stream_renderAll es hes hp.2 rest
      have hcalled := Expr.stream_render f hcallee hp.1 ('(' ::
        ([',', ' '].intercalate ((Expr.renderAll es).map String.toList) ++ ')' :: rest))
        (.cons rfl rfl)
      simp only [Expr.text_call, List.cons_append, List.append_assoc, List.nil_append]
      rw [hcalled, stream_leftParen, hargs, Expr.tokens]
      simp

/-- Arguments are read with the commas between them, up to the parenthesis behind them. -/
theorem Expr.stream_renderAll : ∀ es : List Expr, (∀ e ∈ es, e.Faithful) →
    Expr.plainAll es = true → ∀ rest : List Char,
    stream ([',', ' '].intercalate ((Expr.renderAll es).map String.toList) ++ ')' :: rest) =
      [⟨.comma, ","⟩].intercalate (Expr.tokensAll es) ++ ⟨.rightParen, ")"⟩ :: stream rest
  | [], _, _, rest => stream_rightParen rest
  | [e], hf, hp, rest => by
    rw [Expr.plainAll, Bool.and_eq_true] at hp
    have hlast := Expr.stream_render e (hf e List.mem_cons_self) hp.1 (')' :: rest) (.cons rfl rfl)
    simp only [Expr.renderAll, Expr.tokensAll, List.map_cons, List.map_nil,
      List.intercalate_singleton]
    rw [hlast, stream_rightParen]
  | e :: e' :: es, hf, hp, rest => by
    rw [Expr.plainAll, Bool.and_eq_true] at hp
    have hrest := Expr.stream_renderAll (e' :: es)
      (fun e he => hf e (List.mem_cons_of_mem _ he)) hp.2 rest
    have hfirst := Expr.stream_render e (hf e List.mem_cons_self) hp.1 (',' :: ' ' ::
      ([',', ' '].intercalate ((Expr.renderAll (e' :: es)).map String.toList) ++ ')' :: rest))
      (.cons rfl rfl)
    rw [stream_comma, hrest] at hfirst
    rw [Expr.renderAll, Expr.renderAll, List.map_cons, List.map_cons, List.intercalate_cons_cons,
      Expr.tokensAll, Expr.tokensAll, List.intercalate_cons_cons, ← List.map_cons,
      ← Expr.renderAll, ← Expr.tokensAll]
    simpa using hfirst

end

/-! ### Statements -/

/-- The tokens of the canonical text of a statement. -/
def Statement.tokens : Statement → List Token
  | .letStmt t n e => t :: n.token :: ⟨.assign, "="⟩ :: e.tokens ++ [⟨.semicolon, ";"⟩]
  | .returnStmt t e => t :: e.tokens ++ [⟨.semicolon, ";"⟩]
  | .exprStmt _ e => e.tokens

theorem stream_semicolon (rest : List Char) :
    stream (';' :: rest) = ⟨.semicolon, ";"⟩ :: stream rest :=
  stream_single rfl rfl rfl fun _ => ⟨by decide, by decide⟩

theorem stream_assign (rest : List Char) :
    stream ('=' :: ' ' :: rest) = ⟨.assign, "="⟩ :: stream rest := by
  rw [← show stream (' ' :: rest) = stream rest from stream_blank rfl]
  exact stream_single rfl rfl rfl fun h => nomatch h

theorem Statement.text_letStmt (t : Token) (n : Identifier) (e : Expr) (rest : List Char) :
    (Statement.letStmt t n e).render.toList ++ rest = t.literal.toList ++ ' ' ::
      (n.value.toList ++ ' ' :: '=' :: ' ' :: (e.render.toList ++ ';' :: rest)) := by
  simp [Statement.render]

theorem Statement.text_returnStmt (t : Token) (e : Expr) (rest : List Char) :
    (Statement.returnStmt t e).render.toList ++ rest =
      t.literal.toList ++ ' ' :: (e.render.toList ++ ';' :: rest) := by
  simp [Statement.render]

/-- The canonical text of a statement is read as its tokens. Behind an expression nothing may
follow. -/
theorem Statement.Faithful.stream_render {s : Statement} (hf : s.Faithful)
    (hp : s.expression.plain = true) (rest : List Char) (hrest : s.isExpr = true → rest = []) :
    stream (s.render.toList ++ rest) = s.tokens ++ stream rest := by
  cases hf with
  | @letStmt t n e ht hn he =>
    have hvalue := e.stream_render he hp (';' :: rest) (.cons rfl rfl)
    have hword {v : Token} (hv : v.Lexed) (hk : v.kind.wordlike = true) (cs : List Char) :
        stream (v.literal.toList ++ ' ' :: cs) = v :: stream cs := by
      rw [hv.stream_literal hk (.cons rfl rfl), stream_blank rfl]
    rw [Statement.text_letStmt, hword ht.1 (by rw [ht.2]; rfl), hn.2,
      hword hn.1.1 (by rw [hn.1.2]; rfl), stream_assign, hvalue, stream_semicolon]
    simp [Statement.tokens]
  | @returnStmt t e ht he =>
    have hvalue := e.stream_render he hp (';' :: rest) (.cons rfl rfl)
    rw [Statement.text_returnStmt, ht.1.stream_literal (by rw [ht.2]; rfl) (.cons rfl rfl),
      stream_blank rfl, hvalue, stream_semicolon]
    simp [Statement.tokens]
  | @exprStmt t e _ he =>
    rw [hrest rfl]
    exact e.stream_render he hp [] (by simp [Delimited])

/-- The canonical text of statements, of which only the last may be an expression. -/
theorem Statement.stream_renderAll : ∀ ss : List Statement, (∀ s ∈ ss, s.Faithful) →
    (∀ s ∈ ss, s.expression.plain = true) → (∀ s ∈ ss.dropLast, s.isExpr = false) →
    stream (Statement.renderAll ss).toList = ss.flatMap Statement.tokens
  | [], _, _, _ => stream_nil
  | [s], hf, hp, _ => by
    have hs := (hf s List.mem_cons_self).stream_render (hp s List.mem_cons_self) [] fun _ => rfl
    rw [List.append_nil, stream_nil] at hs
    simpa [Statement.renderAll] using hs
  | s :: s' :: ss, hf, hp, hl => by
    rw [List.forall_mem_cons] at hf hp
    rw [List.dropLast_cons_cons, List.forall_mem_cons] at hl
    have hrest := Statement.stream_renderAll (s' :: ss) hf.2 hp.2 hl.2
    have hs := hf.1.stream_render hp.1 (Statement.renderAll (s' :: ss)).toList fun hexpr => by
      rw [hl.1] at hexpr
      cases hexpr
    rw [Statement.renderAll, String.toList_append, hs, hrest, ← List.flatMap_cons]

/-- The tokens of the canonical text of a statement stand for the statement as it is reread. -/
theorem Statement.derived {s : Statement} (hf : s.Faithful) (hp : s.expression.plain = true) :
    ∃ xs, Derivation.Sentence (1 + s.expression.printedDepth) xs s.reread ∧
      (s.isExpr = false ∧ s.tokens = xs ++ [⟨.semicolon, ";"⟩] ∨
        s.isExpr = true ∧ s.tokens = xs) := by
  cases hf with
  | @letStmt t n e ht hn he =>
    have d := (e.derived he hp).loosen (Nat.zero_le 5)
    rw [hn.eq_ofToken]
    exact ⟨_, .letStmt ht.2 hn.1.2 rfl d, .inl ⟨rfl, rfl⟩⟩
  | @returnStmt t e ht he =>
    have d := (e.derived he hp).loosen (Nat.zero_le 5)
    exact ⟨_, .returnStmt ht.2 d, .inl ⟨rfl, rfl⟩⟩
  | @exprStmt t e _ he =>
    have d := (e.derived he hp).loosen (Nat.zero_le 5)
    obtain ⟨u, ys, hys, -⟩ := d.opens
    have hfirst : (Lexer.ofString e.render).next.1 = u := by
      have hread := e.stream_render he hp [] (by simp [Delimited])
      rw [List.append_nil] at hread
      rw [Lexer.next_fst, Lexer.tokens, Lexer.ofString, hread, hys]
      rfl
    rw [hys] at d
    refine ⟨_, ?_, .inr ⟨rfl, hys⟩⟩
    rw [Statement.reread, hfirst]
    exact .exprStmt d

/-- The canonical text of statements is derivable from the statements as they are reread. The
derivation takes the levels of the deepest expression. -/
theorem Statement.sentences : ∀ ss : List Statement, (∀ s ∈ ss, s.Faithful) →
    (∀ s ∈ ss, s.expression.plain = true) → (∀ s ∈ ss.dropLast, s.isExpr = false) →
    ∃ h, Derivation.Sentences h (ss.flatMap Statement.tokens) (ss.map Statement.reread) ∧
      ∀ n, h ≤ n ↔ ∀ s ∈ ss, 1 + s.expression.printedDepth ≤ n
  | [], _, _, _ => ⟨0, .nil, by simp⟩
  | s :: ss, hf, hp, hl => by
    obtain ⟨hfs, hfss⟩ := List.forall_mem_cons.1 hf
    obtain ⟨hps, hpss⟩ := List.forall_mem_cons.1 hp
    have hlss : ∀ u ∈ ss.dropLast, u.isExpr = false := by
      cases ss with
      | nil => simp
      | cons s' ss =>
        rw [List.dropLast_cons_cons, List.forall_mem_cons] at hl
        exact hl.2
    obtain ⟨h, d, hh⟩ := Statement.sentences ss hfss hpss hlss
    obtain ⟨xs, ds, hxs⟩ := Statement.derived hfs hps
    refine ⟨max (1 + s.expression.printedDepth) h, ?_, fun n => ?_⟩
    · rw [List.flatMap_cons, List.map_cons]
      rcases hxs with ⟨-, htokens⟩ | ⟨hexpr, htokens⟩
      · rw [htokens, List.append_assoc]
        exact .ended ds rfl d
      · cases ss with
        | nil =>
          rw [htokens]
          exact .unended ds (by simp) d
        | cons s' ss =>
          rw [hl s (by simp)] at hexpr
          cases hexpr
    · rw [Nat.max_le, hh, List.forall_mem_cons]

theorem Statement.renderAll_reread (ss : List Statement) :
    Statement.renderAll (ss.map Statement.reread) = Statement.renderAll ss := by
  induction ss with
  | nil => rfl
  | cons s ss ih =>
    rw [List.map_cons, Statement.renderAll, Statement.renderAll, ih]
    cases s <;> rfl

/-- A program whose statements are free of conditionals and functions and of which only the
last may be an expression is read back from its canonical text, as long as no expression
takes more than 64 levels there. Reading back once more changes nothing. Otherwise the
nesting is reported. -/
theorem parse_render {source : String}
    (hp : ∀ s ∈ (parse source).value.statements, s.expression.plain = true)
    (hl : ∀ s ∈ (parse source).value.statements.dropLast, s.isExpr = false) :
    let p := (parse source).value
    let q := (parse p.render).value
    ((∀ s ∈ p.statements, 1 + s.expression.printedDepth ≤ 64) →
      (parse p.render).diagnostics = [] ∧ q.statements = p.statements.map Statement.reread ∧
        q.render = p.render ∧ (parse q.render).value = q) ∧
    ((∃ s ∈ p.statements, 64 < 1 + s.expression.printedDepth) →
      .nestingTooDeep 64 ∈ (parse p.render).diagnostics) := by
  intro p q
  have hf : ∀ s ∈ p.statements, s.Faithful := parse_faithful source
  obtain ⟨h, d, hh⟩ := Statement.sentences p.statements hf hp hl
  have hread : Grammar.program (p.statements.flatMap Statement.tokens) = parse p.render := by
    rw [← Statement.stream_renderAll p.statements hf hp hl]
    rfl
  have hprogram := Grammar.program_of_sentences (k := 0) (by simpa using d)
  rw [hread] at hprogram
  constructor
  · intro hle
    rw [if_pos ((hh Grammar.maxNesting).2 hle)] at hprogram
    have hrender : q.render = p.render := by
      rw [Program.render, show q.statements = _ from congrArg Program.statements hprogram.2]
      exact Statement.renderAll_reread p.statements
    exact ⟨hprogram.1, congrArg Program.statements hprogram.2, hrender, by rw [hrender]⟩
  · rintro ⟨s, hs, hdeep⟩
    rwa [if_neg fun hle => Nat.not_le.2 hdeep ((hh Grammar.maxNesting).1 hle s hs)] at hprogram

/-- Operators of all kinds are read back. A name negated 32 times is not, though it can be read. -/
theorem parse_render_operators :
    let source := "let a = 1 - 2 * f(x, -y)(); (a)(b) == !c"
    let p := (parse source).value
    let q := (parse p.render).value
    let negated := "return --------------------------------a"
    ((∀ s ∈ p.statements, s.expression.plain = true) ∧
      (∀ s ∈ p.statements.dropLast, s.isExpr = false) ∧
      (∀ s ∈ p.statements, 1 + s.expression.printedDepth ≤ 64) ∧
      p.render = "let a = (1 - (2 * f(x, (-y))()));(a(b) == (!c))" ∧
      q.statements = p.statements.map Statement.reread ∧ q.render = p.render) ∧
    (parse negated).diagnostics = [] ∧
      (∃ s ∈ (parse negated).value.statements, 64 < 1 + s.expression.printedDepth) ∧
      .nestingTooDeep 64 ∈ (parse (parse negated).value.render).diagnostics := by
  intro source p q negated
  have hp : ∀ s ∈ p.statements, s.expression.plain = true := by decide +kernel
  have hl : ∀ s ∈ p.statements.dropLast, s.isExpr = false := by decide +kernel
  have hd : ∀ s ∈ p.statements, 1 + s.expression.printedDepth ≤ 64 := by decide +kernel
  obtain ⟨-, hq, hrender, -⟩ := (parse_render hp hl).1 hd
  have hp' : ∀ s ∈ (parse negated).value.statements, s.expression.plain = true := by decide +kernel
  have hl' : ∀ s ∈ (parse negated).value.statements.dropLast, s.isExpr = false := by decide +kernel
  have hd' : ∃ s ∈ (parse negated).value.statements, 64 < 1 + s.expression.printedDepth := by
    decide +kernel
  exact ⟨⟨hp, hl, hd, by decide +kernel, hq, hrender⟩, by decide +kernel, hd',
    (parse_render hp' hl').2 hd'⟩

end Monkey
