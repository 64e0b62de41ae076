import Monkey.Proofs.Calls
import Monkey.Proofs.CleanRun
import Monkey.Proofs.Derivation
import Monkey.Proofs.Lexing
import Monkey.Reading

/-! What a clean run has read is derivable. Each rule of the grammar is followed once: a
clean run of it covers the tokens of a derivation, whose tree is the value of the run. A
block that the end of the input left open is closed in the derivation by a brace that the
input lacks, so the tokens covered are those of the input with as many braces put to its
end as there were blocks left open. -/

namespace Monkey

open Monkey.Parser Monkey.Derivation

/-- From `ts` up to `us` stand the tokens `xs`, once `k` braces are put to the end of both;
none are needed where something is left. -/
def Spans (xs ts us : List Token) (k : Nat) : Prop :=
  ts ++ List.replicate k .rightBrace = xs ++ us ∧ (k = 0 ∨ us = [])

namespace Spans

variable {xs ys ts us vs : List Token} {j k : Nat}

theorem nil (ts : List Token) : Spans [] ts ts 0 := by simp [Spans]

theorem token {t : Token} (h : t ∈ ts.head?) : Spans [t] ts ts.tail 0 := by
  obtain ⟨us, rfl⟩ := List.head?_eq_some_iff.1 h
  simp [Spans]

theorem trans (h : Spans xs ts us j) (h' : Spans ys us vs k) : Spans (xs ++ ys) ts vs (j + k) := by
  obtain ⟨he, hj⟩ := h
  obtain ⟨he', hk⟩ := h'
  constructor
  · rw [← List.replicate_append_replicate, ← List.append_assoc, he, List.append_assoc, he',
      List.append_assoc]
  · rcases hk with rfl | rfl
    · rcases hj with rfl | rfl
      · exact .inl rfl
      · right
        simp_all
    · exact .inr rfl

/-- The brace that a block lacks at the end of the input. -/
theorem close (h : Spans xs ts [] k) : Spans (xs ++ [.rightBrace]) ts [] (k + 1) := by
  obtain ⟨he, -⟩ := h
  refine ⟨?_, .inr rfl⟩
  rw [List.replicate_succ', ← List.append_assoc, he]
  simp

/-- The first token covered is the first of the input, or a brace put to its end. -/
theorem head_eq {y : Token} (h : Spans (y :: ys) ts us k) : y ∈ ts.head? ∨ y = .rightBrace := by
  obtain ⟨he, -⟩ := h
  cases ts with
  | nil =>
    right
    have : y ∈ List.replicate k Token.rightBrace := by simp_all
    exact List.eq_of_mem_replicate this
  | cons t ts =>
    left
    simp_all

end Spans

/-- A token of a kind that stands ahead is read as a phrase of its own. -/
theorem Spans.ofKind {ts : List Token} {k : Kind} (h : (ts.headD .endOfInput).kind = k)
    (hk : k ≠ .endOfInput) : Spans [ts.headD .endOfInput] ts ts.tail 0 := by
  cases ts with
  | nil => exact absurd h.symm hk
  | cons t ts => exact Spans.token rfl

namespace Grammar

section Rules

variable {expr : Precedence → Parser Expr} {n : Nat} {ts us : List Token} {cs : List Call}

/-- From `ts` up to `us` stands an expression of layer `l` that takes at most `n` levels. -/
def Reads (n l : Nat) (e : Expr) (ts us : List Token) (k : Nat) : Prop :=
  ∃ h ≤ n, ∃ xs, Expression h l xs e ∧ Spans xs ts us k

/-- Every clean run of `expr` reads an expression of at most `n` levels, as far as the
precedence allows. -/
def ReadsExpressions (expr : Precedence → Parser Expr) (n : Nat) : Prop :=
  ∀ {p : Precedence} {ts us : List Token} {e : Expr} {cs : List Call}, Unmarked ts →
    (expr p).Runs ts e us cs → Reads n p.layer e ts us.tail (openBlocks cs) ∧
      ∀ u ∈ us.tail.head?, u.kind.precedence.rank ≤ p.rank

/-! ### Statements -/

/-- The tokens `xs` of a statement are read from `ts` up to `us`. A semicolon ends the
statement, or the next token does not go on with it. -/
def Ends (xs ts us : List Token) (k : Nat) : Prop :=
  (∃ semicolon : Token, semicolon.kind = .semicolon ∧ Spans (xs ++ [semicolon]) ts us k) ∨
    Spans xs ts us k ∧ ∀ u ∈ us.head?, ¬ u.Continues

theorem Ends.head_eq {y : Token} {ys : List Token} {k : Nat} (h : Ends (y :: ys) ts us k) :
    y ∈ ts.head? ∨ y = .rightBrace := by
  rcases h with ⟨_, _, h⟩ | ⟨h, _⟩ <;> exact h.head_eq

theorem Ends.prepend {xs ys : List Token} {vs : List Token} {k : Nat} (hs : Spans xs ts us 0)
    (he : Ends ys us vs k) : Ends (xs ++ ys) ts vs k := by
  rcases he with ⟨semicolon, hk, h⟩ | ⟨h, hn⟩
  · exact .inl ⟨semicolon, hk, by simpa using hs.trans h⟩
  · exact .inr ⟨by simpa using hs.trans h, hn⟩

/-- What all statements end with: an expression and a semicolon, if there is one. -/
theorem reads_ending (hx : ReadsExpressions expr n) {f : Expr → Statement} {s : Statement}
    (hu : Unmarked ts)
    (h : (do let value ← expr .lowest; accept .semicolon; return f value : Parser Statement).Runs
      ts s us cs) :
    ∃ h ≤ n, ∃ xs e, s = f e ∧ Expression h 0 xs e ∧ Ends xs ts us.tail (openBlocks cs) := by
  obtain ⟨e, vs, cs, _, he, h', rfl⟩ := runs_bind_iff.1 h
  rw [runs_accept_bind, runs_pure_iff] at h'
  obtain ⟨rfl, rfl, rfl⟩ := h'
  obtain ⟨⟨l, hl, xs, hd, hs⟩, hp⟩ := hx hu he
  refine ⟨l, hl, xs, e, rfl, hd, ?_⟩
  rw [List.append_nil]
  split
  · next hk => exact .inl ⟨_, hk, hs.trans (Spans.ofKind hk (by decide))⟩
  · refine .inr ⟨hs, fun u hu => ?_⟩
    rw [Token.continues_iff]
    exact Nat.not_lt.2 (hp u hu)

theorem letStatement_reads (hx : ReadsExpressions expr n) {s : Statement} (hu : Unmarked ts)
    (hk : (ts.headD .endOfInput).kind = .kwLet) (h : (letStatement expr).Runs ts s us cs) :
    ∃ h ≤ n, ∃ xs, Sentence h xs s ∧ Ends xs ts us.tail (openBlocks cs) := by
  simp only [letStatement, runs_current_bind, runs_expect_bind, runs_advance_bind] at h
  obtain ⟨hname, heq, h⟩ := h
  have hu' : Unmarked ts.tail.tail.tail :=
    hu.suffix ((List.tail_suffix _).trans ((List.tail_suffix _).trans (List.tail_suffix _)))
  obtain ⟨l, hl, xs, e, rfl, hd, hend⟩ := reads_ending hx hu' h
  have hs := ((Spans.ofKind hk (by decide)).trans (Spans.ofKind hname (by decide))).trans
    (Spans.ofKind heq (by decide))
  exact ⟨l, hl, _, .letStmt hk hname heq hd, hend.prepend hs⟩

theorem returnStatement_reads (hx : ReadsExpressions expr n) {s : Statement} (hu : Unmarked ts)
    (hk : (ts.headD .endOfInput).kind = .kwReturn) (h : (returnStatement expr).Runs ts s us cs) :
    ∃ h ≤ n, ∃ xs, Sentence h xs s ∧ Ends xs ts us.tail (openBlocks cs) := by
  simp only [returnStatement, runs_current_bind, runs_advance_bind] at h
  obtain ⟨l, hl, xs, e, rfl, hd, hend⟩ := reads_ending hx (hu.suffix (List.tail_suffix _)) h
  exact ⟨l, hl, _, .returnStmt hk hd, hend.prepend (Spans.ofKind hk (by decide))⟩

theorem exprStatement_reads (hx : ReadsExpressions expr n) {s : Statement} (hu : Unmarked ts)
    (h : (exprStatement expr).Runs ts s us cs) :
    ∃ h ≤ n, ∃ xs, Sentence h xs s ∧ Ends xs ts us.tail (openBlocks cs) := by
  simp only [exprStatement, runs_current_bind] at h
  obtain ⟨l, hl, xs, e, rfl, hd, hend⟩ := reads_ending hx hu h
  obtain ⟨t, ys, rfl, ht⟩ := hd.opens
  have hbrace : t ≠ .rightBrace := by
    rintro rfl
    exact Bool.noConfusion ht
  obtain ⟨ts, rfl⟩ := List.head?_eq_some_iff.1 (hend.head_eq.resolve_right hbrace)
  exact ⟨l, hl, t :: ys, .exprStmt hd, hend⟩

theorem statement_reads (hx : ReadsExpressions expr n) {s : Statement} (hu : Unmarked ts)
    (h : (statement expr).Runs ts s us cs) :
    ∃ h ≤ n, ∃ xs, Sentence h xs s ∧ Ends xs ts us.tail (openBlocks cs) := by
  obtain ⟨ds, hbody, rfl⟩ := runs_rule_iff.1 h
  rw [runs_current_bind] at hbody
  rw [openBlocks_rule (by decide)]
  split at hbody
  · next hk =>
    obtain ⟨ds, hlet, rfl⟩ := runs_rule_iff.1 hbody
    rw [openBlocks_rule (by decide)]
    exact letStatement_reads hx hu hk hlet
  · next hk =>
    obtain ⟨ds, hreturn, rfl⟩ := runs_rule_iff.1 hbody
    rw [openBlocks_rule (by decide)]
    exact returnStatement_reads hx hu hk hreturn
  · obtain ⟨ds, hexpr, rfl⟩ := runs_rule_iff.1 hbody
    rw [openBlocks_rule (by decide)]
    exact exprStatement_reads hx hu hexpr

theorem statements_read (hx : ReadsExpressions expr n) {stop : Token → Bool} {ss : List Statement}
    (hu : Unmarked ts) (h : (itemsUntil stop (statement expr)).Runs ts ss us cs) :
    ∃ h ≤ n, ∃ xs, Sentences h xs ss ∧ Spans xs ts us (openBlocks cs) ∧
      ∀ t ∈ us.head?, stop t = true := by
  revert hu
  refine h.items_induction (motive := fun ts ss us cs => Unmarked ts → ∃ h ≤ n, ∃ xs,
    Sentences h xs ss ∧ Spans xs ts us (openBlocks cs) ∧ ∀ t ∈ us.head?, stop t = true) ?_ ?_
  · intro ts hstop _
    exact ⟨0, Nat.zero_le n, [], .nil, Spans.nil ts, hstop⟩
  · intro t ts s us cs ss vs ds _ hs ih hu
    obtain ⟨l, hl, xs, hd, hend⟩ := statement_reads hx hu hs
    obtain ⟨m, hm, ys, hds, hspans, hstop⟩ :=
      ih (hu.suffix ((List.tail_suffix us).trans hs.suffix))
    rw [openBlocks_append]
    rcases hend with ⟨semicolon, hk, h⟩ | ⟨h, hnext⟩
    · refine ⟨max l m, Nat.max_le.2 ⟨hl, hm⟩, _, .ended hd hk hds, ?_, hstop⟩
      simpa using h.trans hspans
    · refine ⟨max l m, Nat.max_le.2 ⟨hl, hm⟩, _, .unended hd ?_ hds, h.trans hspans, hstop⟩
      intro y hy
      obtain ⟨ys, rfl⟩ := List.head?_eq_some_iff.1 hy
      rcases hspans.head_eq with hy | rfl
      · exact hnext y hy
      · rw [Token.continues_iff]
        decide

theorem block_reads (hx : ReadsExpressions expr n) {b : Block} (hu : Unmarked ts)
    (hk : (ts.headD .endOfInput).kind = .leftBrace) (h : (block expr).Runs ts b us cs) :
    ∃ h ≤ n, ∃ xs, Braces h xs b ∧ Spans xs ts us.tail (openBlocks cs) := by
  obtain ⟨ds, hbody, rfl⟩ := runs_rule_iff.1 h
  rw [runs_current_bind, runs_advance_bind] at hbody
  obtain ⟨ss, hitems, rfl⟩ := runs_map_iff.1 hbody
  have hu' : Unmarked ts.tail := hu.suffix (List.tail_suffix ts)
  obtain ⟨l, hl, xs, hd, hs, hstop⟩ := statements_read hx hu' hitems
  have hopen := Spans.ofKind hk (by decide)
  rw [openBlocks_block]
  match us with
  | [] => exact ⟨l, hl, _, .mk hk hd rfl, by simpa using hopen.trans hs.close⟩
  | r :: us =>
    have hr : r.kind = .rightBrace := by
      have hmark := hu'.suffix hitems.suffix r (by simp)
      simpa [endsBlock, hmark] using hstop r rfl
    exact ⟨l, hl, _, .mk hk hd hr, by simpa using hopen.trans (hs.trans (Spans.token rfl))⟩

/-! ### Operands -/

/-- What holds of one item between parentheses, and is kept by each comma with the item
behind it, holds of all items. They are followed by the closing parenthesis. -/
theorem parenthesized_invariant {α : Type} {item : Parser α} {as : List α}
    {I : List α → List Token → List Call → Prop}
    (h : (parenthesized item).Runs ts as us cs)
    (one : ∀ a us cs, item.Runs ts a us cs → I [a] us cs)
    (more : ∀ as us cs a vs ds, I as us cs → (us.tail.headD .endOfInput).kind = .comma →
      item.Runs us.tail a vs ds → I (as ++ [a]) vs (cs ++ ds)) :
    (us.headD .endOfInput).kind = .rightParen ∧
      (as = [] ∧ us = ts.tail ∧ cs = [] ∨ ∃ vs, us = vs.tail ∧ I as vs cs) := by
  rw [parenthesized, runs_following_bind] at h
  split at h
  · next hk =>
    rw [runs_advance_bind, runs_pure_iff] at h
    obtain ⟨rfl, rfl, rfl⟩ := h
    exact ⟨hk, .inl ⟨rfl, rfl, rfl⟩⟩
  · obtain ⟨a, vs, cs, ds, hitem, hrest, rfl⟩ := runs_bind_iff.1 h
    obtain ⟨as, ws, ds, _, hloop, hclose, rfl⟩ := runs_bind_iff.1 hrest
    obtain ⟨hk, hpure⟩ := runs_expect_bind.1 hclose
    obtain ⟨rfl, rfl, rfl⟩ := runs_pure_iff.1 hpure
    refine ⟨hk, .inr ⟨ws, rfl, ?_⟩⟩
    rw [List.append_nil]
    refine (hloop.extend_invariant (I := I) (one a vs cs hitem) ?_).1
    intro as us u bs vs ds cs hI hu hcomma hstep
    obtain ⟨b, hb, rfl⟩ := runs_map_iff.1 hstep
    refine more as us cs b vs ds hI ?_ hb
    obtain ⟨r, hr⟩ := List.head?_eq_some_iff.1 hu
    simpa [hr] using hcomma

theorem parameters_read {names : List Token}
    (h : (parenthesized (expect .identifier)).Runs ts names us cs) :
    (us.headD .endOfInput).kind = .rightParen ∧
      ∃ xs, Parameters xs (names.map .ofToken) ∧ Spans xs ts.tail us (openBlocks cs) := by
  have hinv := parenthesized_invariant h
    (I := fun names us cs => ∃ xs, Names xs (names.map .ofToken) ∧
      Spans xs ts.tail us.tail (openBlocks cs)) ?_ ?_
  · obtain ⟨hk, hread⟩ := hinv
    refine ⟨hk, ?_⟩
    rcases hread with ⟨rfl, rfl, rfl⟩ | ⟨vs, rfl, xs, hd, hs⟩
    · exact ⟨[], .none, Spans.nil ts.tail⟩
    · exact ⟨xs, .names hd, hs⟩
  · intro name us cs hname
    obtain ⟨hk, rfl, rfl, rfl⟩ := runs_expect_iff.1 hname
    exact ⟨_, .one hk, Spans.ofKind hk (by decide)⟩
  · rintro names us cs name vs ds ⟨xs, hd, hs⟩ hcomma hname
    obtain ⟨hk, rfl, rfl, rfl⟩ := runs_expect_iff.1 hname
    rw [List.map_append, openBlocks_append]
    have hs' := (Spans.ofKind hcomma (by decide)).trans (Spans.ofKind hk (by decide))
    exact ⟨_, .more hd hcomma hk, hs.trans hs'⟩

theorem arguments_read (hx : ReadsExpressions expr n) {es : List Expr} (hu : Unmarked ts)
    (h : (parenthesized (do advance; expr .lowest)).Runs ts es us cs) :
    (us.headD .endOfInput).kind = .rightParen ∧
      ∃ h ≤ n, ∃ xs, Arguments h xs es ∧ Spans xs ts.tail us (openBlocks cs) := by
  have hinv := parenthesized_invariant h
    (I := fun es us cs => Unmarked us ∧ ∃ h ≤ n, ∃ xs, Expressions h xs es ∧
      Spans xs ts.tail us.tail (openBlocks cs)) ?_ ?_
  · obtain ⟨hk, hread⟩ := hinv
    refine ⟨hk, ?_⟩
    rcases hread with ⟨rfl, rfl, rfl⟩ | ⟨vs, rfl, -, l, hl, xs, hd, hs⟩
    · exact ⟨0, Nat.zero_le n, [], .none, Spans.nil ts.tail⟩
    · exact ⟨l, hl, xs, .expressions hd, hs⟩
  · intro e us cs he
    rw [runs_advance_bind] at he
    have hu' := hu.suffix (List.tail_suffix ts)
    obtain ⟨⟨l, hl, xs, hd, hs⟩, -⟩ := hx hu' he
    exact ⟨hu'.suffix he.suffix, l, hl, xs, .one hd, hs⟩
  · rintro es us cs e vs ds ⟨hu, l, hl, xs, hd, hs⟩ hcomma he
    rw [runs_advance_bind] at he
    have hu' := hu.suffix ((List.tail_suffix _).trans (List.tail_suffix us))
    obtain ⟨⟨m, hm, ys, hd', hs'⟩, -⟩ := hx hu' he
    rw [openBlocks_append]
    have hspans := hs.trans ((Spans.ofKind hcomma (by decide)).trans hs')
    refine ⟨hu'.suffix he.suffix, max l m, Nat.max_le.2 ⟨hl, hm⟩, _, .more hd hcomma hd', ?_⟩
    simpa using hspans

theorem group_reads (hx : ReadsExpressions expr n) {e : Expr} (hu : Unmarked ts)
    (hk : (ts.headD .endOfInput).kind = .leftParen) (h : (group expr).Runs ts e us cs) :
    Reads (n + 1) 6 e ts us.tail (openBlocks cs) := by
  rw [group, runs_advance_bind] at h
  obtain ⟨e, vs, cs, _, he, hclose, rfl⟩ := runs_bind_iff.1 h
  obtain ⟨hr, hpure⟩ := runs_expect_bind.1 hclose
  obtain ⟨rfl, rfl, rfl⟩ := runs_pure_iff.1 hpure
  obtain ⟨⟨l, hl, xs, hd, hs⟩, -⟩ := hx (hu.suffix (List.tail_suffix ts)) he
  have hspans := (Spans.ofKind hk (by decide)).trans (hs.trans (Spans.ofKind hr (by decide)))
  exact ⟨l + 1, Nat.succ_le_succ hl, _, .group hk hd hr, by simpa using hspans⟩

theorem unary_reads (hx : ReadsExpressions expr n) {t : Token} {op : UnaryOp} {e : Expr}
    (hu : Unmarked ts) (ht : t ∈ ts.head?) (hk : t.kind = op.kind)
    (h : (unary expr t op).Runs ts e us cs) : Reads (n + 1) 4 e ts us.tail (openBlocks cs) ∧
      ∀ u ∈ us.tail.head?, u.kind.precedence.rank ≤ 5 := by
  rw [unary, runs_advance_bind] at h
  obtain ⟨e, he, rfl⟩ := runs_map_iff.1 h
  obtain ⟨⟨l, hl, xs, hd, hs⟩, hnext⟩ := hx (hu.suffix (List.tail_suffix ts)) he
  have hspans := (Spans.token ht).trans hs
  exact ⟨⟨l + 1, Nat.succ_le_succ hl, _, .unary hk hd, by simpa using hspans⟩, hnext⟩

theorem alternative_reads (hx : ReadsExpressions expr n) {a : Option Block} (hu : Unmarked ts)
    (h : (alternative expr).Runs ts a us cs) :
    ∃ h ≤ n, ∃ xs, Alternative h xs a ∧ Spans xs ts.tail us.tail (openBlocks cs) := by
  rw [alternative, runs_following_bind] at h
  split at h
  · next hk =>
    rw [runs_advance_bind] at h
    obtain ⟨hl, hblock⟩ := runs_expect_bind.1 h
    obtain ⟨b, hb, rfl⟩ := runs_map_iff.1 hblock
    have hu' := hu.suffix ((List.tail_suffix _).trans (List.tail_suffix ts))
    obtain ⟨l, hl, xs, hd, hs⟩ := block_reads hx hu' hl hb
    have hspans := (Spans.ofKind hk (by decide)).trans hs
    exact ⟨l, hl, _, .block hk hd, by simpa using hspans⟩
  · obtain ⟨rfl, rfl, rfl⟩ := runs_pure_iff.1 h
    exact ⟨0, Nat.zero_le n, [], .none, Spans.nil _⟩

theorem conditional_reads (hx : ReadsExpressions expr n) {t : Token} {e : Expr} (hu : Unmarked ts)
    (ht : t ∈ ts.head?) (hk : t.kind = .kwIf) (h : (conditional expr t).Runs ts e us cs) :
    Reads (n + 1) 6 e ts us.tail (openBlocks cs) := by
  simp only [conditional, runs_expect_bind, runs_advance_bind] at h
  obtain ⟨hl, hcondition⟩ := h
  obtain ⟨c, vs, cs, _, hc, hclose, rfl⟩ := runs_bind_iff.1 hcondition
  simp only [runs_expect_bind] at hclose
  obtain ⟨hr, hb, hblock⟩ := hclose
  obtain ⟨b, ws, bs, _, hbody, halt, rfl⟩ := runs_bind_iff.1 hblock
  obtain ⟨a, halternative, rfl⟩ := runs_map_iff.1 halt
  have hu₁ := hu.suffix ((List.tail_suffix _).trans (List.tail_suffix ts))
  have hu₂ := hu₁.suffix ((List.tail_suffix _).trans ((List.tail_suffix _).trans hc.suffix))
  obtain ⟨⟨l, hln, xs, hd, hs⟩, -⟩ := hx hu₁ hc
  obtain ⟨m, hmn, ys, hd', hs'⟩ := block_reads hx hu₂ hb hbody
  obtain ⟨k, hkn, zs, hd'', hs''⟩ := alternative_reads hx (hu₂.suffix hbody.suffix) halternative
  have hspans := (Spans.token ht).trans ((Spans.ofKind hl (by decide)).trans
    (hs.trans ((Spans.ofKind hr (by decide)).trans (hs'.trans hs''))))
  refine ⟨max (max l m) k + 1, ?_, _, .conditional hk hl hd hr hd' hd'', ?_⟩
  · exact Nat.succ_le_succ (Nat.max_le.2 ⟨Nat.max_le.2 ⟨hln, hmn⟩, hkn⟩)
  · simpa using hspans

theorem function_reads (hx : ReadsExpressions expr n) {t : Token} {e : Expr} (hu : Unmarked ts)
    (ht : t ∈ ts.head?) (hk : t.kind = .kwFn) (h : (function expr t).Runs ts e us cs) :
    Reads (n + 1) 6 e ts us.tail (openBlocks cs) := by
  obtain ⟨hl, hparameters⟩ := runs_expect_bind.1 h
  obtain ⟨names, vs, cs, _, hnames, hrest, rfl⟩ := runs_bind_iff.1 hparameters
  obtain ⟨hb, hblock⟩ := runs_expect_bind.1 hrest
  obtain ⟨b, hbody, rfl⟩ := runs_map_iff.1 hblock
  have hu' := hu.suffix ((List.tail_suffix _).trans (hnames.suffix.trans (List.tail_suffix ts)))
  obtain ⟨hr, xs, hd, hs⟩ := parameters_read hnames
  obtain ⟨l, hln, ys, hd', hs'⟩ := block_reads hx hu' hb hbody
  have hspans := (Spans.token ht).trans ((Spans.ofKind hl (by decide)).trans
    (hs.trans ((Spans.ofKind hr (by decide)).trans hs')))
  exact ⟨l + 1, Nat.succ_le_succ hln, _, .function hk hl hd hr hd', by simpa using hspans⟩

/-- An operand is an expression of the layer of prefix operators or a tighter one, and the
next token binds no more tightly than its layer allows. -/
theorem operand_reads (hx : ReadsExpressions expr n) {e : Expr} (hu : Unmarked ts)
    (h : (operand expr).Runs ts e us cs) :
    ∃ l, 4 ≤ l ∧ Reads (n + 1) l e ts us.tail (openBlocks cs) ∧
      ∀ u ∈ us.tail.head?, u.kind.precedence.rank ≤ l + 1 := by
  have primary (hread : Reads (n + 1) 6 e ts us.tail (openBlocks cs)) : ∃ l, 4 ≤ l ∧
      Reads (n + 1) l e ts us.tail (openBlocks cs) ∧
        ∀ u ∈ us.tail.head?, u.kind.precedence.rank ≤ l + 1 :=
    ⟨6, by decide, hread, fun u _ => Nat.le_succ_of_le u.kind.rank_le⟩
  cases ts with
  | nil => exact absurd h not_runs_fail
  | cons t ts =>
    have hs : Spans [t] (t :: ts) ts 0 := Spans.token rfl
    rw [operand, runs_current_bind, List.headD_cons] at h
    split at h
    · next hk =>
      obtain ⟨ds, hbody, rfl⟩ := runs_rule_iff.1 h
      obtain ⟨rfl, rfl, rfl⟩ := runs_pure_iff.1 hbody
      exact primary ⟨1, Nat.succ_le_succ (Nat.zero_le n), _, .identifier hk, hs⟩
    · next hk =>
      obtain ⟨ds, hbody, rfl⟩ := runs_rule_iff.1 h
      rw [integer] at hbody
      split at hbody
      · next v hv =>
        obtain ⟨rfl, rfl, rfl⟩ := runs_pure_iff.1 hbody
        obtain ⟨hd, rfl⟩ := Token.integerValue?_eq_some_iff.1 hv
        exact primary ⟨1, Nat.succ_le_succ (Nat.zero_le n), _, .integer hk hd, hs⟩
      · exact absurd hbody not_runs_fail
    · next hk =>
      obtain ⟨ds, hbody, rfl⟩ := runs_rule_iff.1 h
      obtain ⟨rfl, rfl, rfl⟩ := runs_pure_iff.1 hbody
      exact primary ⟨1, Nat.succ_le_succ (Nat.zero_le n), _, .boolean hk, hs⟩
    · next hk =>
      obtain ⟨ds, hbody, rfl⟩ := runs_rule_iff.1 h
      obtain ⟨rfl, rfl, rfl⟩ := runs_pure_iff.1 hbody
      exact primary ⟨1, Nat.succ_le_succ (Nat.zero_le n), _, .boolean hk, hs⟩
    · next hk =>
      obtain ⟨ds, hbody, rfl⟩ := runs_rule_iff.1 h
      rw [openBlocks_rule (by decide)]
      have ht : t.kind = UnaryOp.kind .minus := hk
      exact ⟨4, Nat.le_refl 4, unary_reads hx hu rfl ht hbody⟩
    · next hk =>
      obtain ⟨ds, hbody, rfl⟩ := runs_rule_iff.1 h
      rw [openBlocks_rule (by decide)]
      have ht : t.kind = UnaryOp.kind .bang := hk
      exact ⟨4, Nat.le_refl 4, unary_reads hx hu rfl ht hbody⟩
    · next hk =>
      obtain ⟨ds, hbody, rfl⟩ := runs_rule_iff.1 h
      rw [openBlocks_rule (by decide)] at primary ⊢
      exact primary (group_reads hx hu hk hbody)
    · next hk =>
      obtain ⟨ds, hbody, rfl⟩ := runs_rule_iff.1 h
      rw [openBlocks_rule (by decide)] at primary ⊢
      exact primary (conditional_reads hx hu rfl hk hbody)
    · next hk =>
      obtain ⟨ds, hbody, rfl⟩ := runs_rule_iff.1 h
      rw [openBlocks_rule (by decide)] at primary ⊢
      exact primary (function_reads hx hu rfl hk hbody)
    · exact absurd h not_runs_fail

/-! ### Operators -/

theorem binary_reads (hx : ReadsExpressions expr n) {start : List Token} {left e : Expr} {l k : Nat}
    {t : Token} {op : BinaryOp} (hu : Unmarked ts) (ht : t ∈ ts.head?) (hk : t.kind = op.kind)
    (hleft : Reads (n + 1) l left start ts k) (hl : op.layer ≤ l)
    (h : (binary expr t op left).Runs ts e us cs) :
    Reads (n + 1) op.layer e start us.tail (k + openBlocks cs) ∧
      ∀ u ∈ us.tail.head?, u.kind.precedence.rank ≤ op.layer + 1 := by
  rw [binary, runs_advance_bind] at h
  obtain ⟨right, hr, rfl⟩ := runs_map_iff.1 h
  obtain ⟨hl', hln, xs, hd, hs⟩ := hleft
  obtain ⟨⟨hr', hrn, ys, hd', hs'⟩, hnext⟩ := hx (hu.suffix (List.tail_suffix ts)) hr
  rw [hk, op.layer_precedence] at hd'
  rw [hk, op.rank_precedence] at hnext
  have hspans := hs.trans ((Spans.token ht).trans hs')
  refine ⟨⟨max hl' (hr' + 1), Nat.max_le.2 ⟨hln, Nat.succ_le_succ hrn⟩, _,
    .binary (hd.loosen hl) hk (Nat.lt_succ_self _) hd', ?_⟩, hnext⟩
  simpa using hspans

theorem call_reads (hx : ReadsExpressions expr n) {start : List Token} {callee e : Expr} {l k : Nat}
    {t : Token} (hu : Unmarked ts) (ht : t ∈ ts.head?) (hk : t.kind = .leftParen)
    (hcallee : Reads (n + 1) l callee start ts k) (hl : 5 ≤ l)
    (h : (call expr t callee).Runs ts e us cs) :
    Reads (n + 1) 5 e start us.tail (k + openBlocks cs) := by
  obtain ⟨es, harguments, rfl⟩ := runs_map_iff.1 h
  obtain ⟨hc, hcn, xs, hd, hs⟩ := hcallee
  obtain ⟨hr, ha, han, ys, hd', hs'⟩ := arguments_read hx hu harguments
  have hspans := hs.trans ((Spans.token ht).trans (hs'.trans (Spans.ofKind hr (by decide))))
  refine ⟨max hc (ha + 1), Nat.max_le.2 ⟨hcn, Nat.succ_le_succ han⟩, _,
    .call (hd.loosen hl) hk hd' hr, ?_⟩
  simpa using hspans

/-- The loop over operators keeps an expression read so far together with a layer for it, to
which the next token's binding is limited. -/
theorem chain_reads (hx : ReadsExpressions expr n) {p : Precedence} {e : Expr} (hu : Unmarked ts)
    (h : (chain expr p).Runs ts e us cs) : Reads (n + 1) p.layer e ts us.tail (openBlocks cs) ∧
      ∀ u ∈ us.tail.head?, u.kind.precedence.rank ≤ p.rank := by
  obtain ⟨left, vs, cs, ds, hleft, hloop, rfl⟩ := runs_bind_iff.1 h
  obtain ⟨l, hl, hread, hnext⟩ := operand_reads hx hu hleft
  have hinv := hloop.extend_invariant (c := cs)
    (I := fun e vs cs => Unmarked vs ∧ ∃ l, p.layer ≤ l ∧
      Reads (n + 1) l e ts vs.tail (openBlocks cs) ∧
        ∀ u ∈ vs.tail.head?, u.kind.precedence.rank ≤ l + 1)
    ⟨hu.suffix hleft.suffix, l, Nat.le_trans p.layer_le hl, hread, hnext⟩ ?_
  · obtain ⟨⟨-, l, hl, ⟨h, hn, xs, hd, hs⟩, -⟩, hstop⟩ := hinv
    refine ⟨⟨h, hn, xs, hd.loosen hl, hs⟩, fun u hu => ?_⟩
    simpa [Precedence.lt_iff_rank_lt] using hstop u hu
  · rintro left vs u e us cs ds ⟨hu, l, hl, hread, hnext⟩ hhead hready hstep
    have hlu := hnext u hhead
    have hpu : p.rank < u.kind.precedence.rank := by
      simpa [Precedence.lt_iff_rank_lt] using hready
    have hu' := hu.suffix (List.tail_suffix vs)
    refine ⟨hu'.suffix hstep.suffix, ?_⟩
    obtain ⟨r, hr⟩ := List.head?_eq_some_iff.1 hhead
    rw [suffix, runs_current_bind, hr, List.headD_cons, ← hr] at hstep
    rw [openBlocks_append]
    split at hstep
    · next op hop =>
      have hk := (BinaryOp.ofKind?_eq_some_iff.1 hop).symm
      rw [hk, op.rank_precedence] at hlu hpu
      obtain ⟨cs, hbody, rfl⟩ := runs_rule_iff.1 hstep
      rw [openBlocks_rule (by decide)]
      exact ⟨op.layer, Nat.le_trans p.layer_le_rank (Nat.le_of_lt_succ hpu),
        binary_reads hx hu' hhead hk hread (Nat.le_of_succ_le_succ hlu) hbody⟩
    · next hop =>
      have hk := Token.kind_of_continues (Token.continues_iff.2 (Nat.zero_lt_of_lt hpu)) hop
      rw [hk] at hlu
      obtain ⟨cs, hbody, rfl⟩ := runs_rule_iff.1 hstep
      rw [openBlocks_rule (by decide)]
      exact ⟨5, Nat.le_trans p.layer_le (by decide),
        call_reads hx hu' hhead hk hread (Nat.le_of_succ_le_succ hlu) hbody,
        fun u _ => u.kind.rank_le⟩

end Rules

theorem expression_reads : ∀ n, ReadsExpressions (expression n) n
  | 0 => fun _ h => absurd h not_runs_fail
  | n + 1 => fun hu h => by
    obtain ⟨ds, hbody, rfl⟩ := runs_rule_iff.1 h
    rw [openBlocks_rule (by decide)]
    exact chain_reads (expression_reads n) hu hbody

/-- A program read without dropping a statement is derivable, once the blocks left open are
closed. -/
theorem program_reads {ts : List Token} (hu : Unmarked ts) (hd : (program ts).diagnostics = []) :
    ∃ h ≤ maxNesting, Sentences h
      (ts ++ List.replicate (openBlocks (program ts).calls) .rightBrace)
      (program ts).value.statements := by
  have hrun : (itemsUntil (·.kind = .endOfInput) (statement (expression maxNesting))).Runs ts
      (program ts).value.statements (program ts).ahead (program ts).calls :=
    runs_iff.2 ⟨rfl, rfl, hd, rfl⟩
  obtain ⟨l, hl, xs, hsentences, hs, -⟩ := statements_read (expression_reads maxNesting) hu hrun
  rw [program_ahead hu] at hs
  refine ⟨l, hl, ?_⟩
  rw [hs.1, List.append_nil]
  exact hsentences

end Grammar

/-- Whatever is read without a diagnostic is derivable, in at most 64 levels, from the tokens
of the source and a closing brace for every block left open at its end. The tree of the
derivation is the program. -/
theorem exists_sentences_of_parse {source : String} (hn : '\x00' ∉ source.toList)
    (hd : (parse source).diagnostics = []) : ∃ h ≤ 64, Sentences h
      (lex source ++ List.replicate (openBlocks (parse source).calls) .rightBrace)
      (parse source).value.statements := by
  rw [lex_eq_tokens hn]
  exact Grammar.program_reads (Token.stream_unmarked hn) hd

theorem exists_sentences_two_blocks_open :
    let source := "let a = -f(1 + 2 * x); fn(x, y) \x7b if (a) \x7b b \x7d else \x7b c"
    '\x00' ∉ source.toList ∧ (parse source).diagnostics = [] ∧ ∃ h ≤ 64,
      Sentences h (lex source ++ [.rightBrace, .rightBrace]) (parse source).value.statements := by
  intro source
  have hn : '\x00' ∉ source.toList := by decide
  have hd : (parse source).diagnostics = [] := by decide +kernel
  have hopen : openBlocks (parse source).calls = 2 := by decide +kernel
  have h := exists_sentences_of_parse hn hd
  rw [hopen] at h
  exact ⟨hn, hd, h⟩

end Monkey
