import Monkey.Proofs.CleanRun
import Monkey.Proofs.Calls
import Monkey.Proofs.Lexing
import Monkey.Reading

/-! Texts put behind one another. A semicolon at the end of a text is a place that reading
cannot look past: every rule either fails before it is passed or has it still ahead, as
long as no block runs into the end. So statements up to such a semicolon are read alike
whatever follows, those dropped among them included, and the text behind is read as if it
stood alone. -/

namespace Monkey

/-! ### Outcomes with more tokens behind -/

mutual

/-- The same call where the tokens `us` stand behind all others. -/
def Call.extended (us : List Token) : Call → Call
  | ⟨rule, start, stop, complete, calls⟩ =>
    ⟨rule, start ++ us, stop ++ us, complete, Call.extendedAll us calls⟩

def Call.extendedAll (us : List Token) : List Call → List Call
  | [] => []
  | c :: cs => c.extended us :: Call.extendedAll us cs

end

namespace Call

variable (us : List Token)

theorem extendedAll_append (cs ds : List Call) :
    extendedAll us (cs ++ ds) = extendedAll us cs ++ extendedAll us ds := by
  induction cs with
  | nil => rfl
  | cons c cs ih => simp only [List.cons_append, extendedAll, ih]

mutual

theorem lines_extended (depth : Nat) : ∀ c : Call, (c.extended us).lines depth = c.lines depth
  | ⟨_, _, _, _, cs⟩ => by simp only [extended, lines, linesAll_extendedAll (depth + 1) cs]

theorem linesAll_extendedAll (depth : Nat) :
    ∀ cs : List Call, linesAll depth (extendedAll us cs) = linesAll depth cs
  | [] => rfl
  | c :: cs => by
    simp only [extendedAll, linesAll, lines_extended depth c, linesAll_extendedAll depth cs]

end

end Call

theorem traceText_extendedAll (us : List Token) (cs : List Call) :
    traceText (Call.extendedAll us cs) = traceText cs := by
  rw [traceText, Call.linesAll_extendedAll, traceText]

theorem traceText_append (cs ds : List Call) :
    traceText (cs ++ ds) = traceText cs ++ traceText ds := by
  simp only [traceText, Call.linesAll_append, List.map_append, String.join_append]

namespace Outcome

variable {α β : Type}

/-- The same outcome where the tokens `us` stand behind all others. -/
def extended (us : List Token) (o : Outcome α) : Outcome α :=
  { o with ahead := o.ahead ++ us, calls := Call.extendedAll us o.calls }

theorem extended_followedBy (us : List Token) (o : Outcome α) (p : Outcome β) :
    (o.followedBy p).extended us = (o.extended us).followedBy (p.extended us) := by
  simp only [extended, followedBy, Call.extendedAll_append]

theorem extended_tail (us : List Token) (o : Outcome α) (h : o.ahead ≠ []) :
    (o.extended us).ahead.tail = o.ahead.tail ++ us := List.tail_append_of_ne_nil h

/-- The items of the second outcome behind those of the first. -/
def join (o p : Outcome (List α)) : Outcome (List α) :=
  o.followedBy { p with value := o.value ++ p.value }

theorem extended_beforeItems (us : List Token) (o : Outcome (Except Diagnostic α))
    (p : Outcome (List α)) :
    (o.beforeItems p).extended us = (o.extended us).beforeItems (p.extended us) := by
  cases hv : o.value <;>
    simp [beforeItems, extended, followedBy, hv, Call.extendedAll_append]

theorem beforeItems_join (o : Outcome (Except Diagnostic α)) (p q : Outcome (List α)) :
    o.beforeItems (p.join q) = (o.beforeItems p).join q := by
  cases hv : o.value <;> simp [beforeItems, join, followedBy, hv]

end Outcome

/-! ### The semicolon ahead -/

/-- The tokens end with a semicolon, which stands behind the first `k` of them. -/
def EndsBehind (k : Nat) (ts : List Token) : Prop := ∃ t ∈ (ts.drop k).getLast?, t.kind = .semicolon

namespace EndsBehind

variable {j k : Nat} {ts : List Token}

theorem lt_length (h : EndsBehind k ts) : k < ts.length := by
  obtain ⟨t, ht, -⟩ := h
  have hne : ts.drop k ≠ [] := by
    intro hnil
    rw [hnil] at ht
    cases ht
  rw [Ne, List.drop_eq_nil_iff] at hne
  omega

theorem ne_nil (h : EndsBehind k ts) : ts ≠ [] :=
  List.ne_nil_of_length_pos (Nat.zero_lt_of_lt h.lt_length)

theorem iff_getLast? :
    EndsBehind k ts ↔ k < ts.length ∧ ∃ t ∈ ts.getLast?, t.kind = .semicolon := by
  constructor
  · intro h
    refine ⟨h.lt_length, ?_⟩
    obtain ⟨t, ht, hk⟩ := h
    rw [List.getLast?_drop] at ht
    split at ht
    · cases ht
    · exact ⟨t, ht, hk⟩
  · rintro ⟨hlt, t, ht, hk⟩
    refine ⟨t, ?_, hk⟩
    rwa [List.getLast?_drop, if_neg (by omega)]

theorem mono (h : EndsBehind k ts) (hjk : j ≤ k) : EndsBehind j ts := by
  rw [iff_getLast?] at h ⊢
  exact ⟨Nat.lt_of_le_of_lt hjk h.1, h.2⟩

theorem tail (h : EndsBehind (k + 1) ts) : EndsBehind k ts.tail := by
  rwa [EndsBehind, List.drop_tail]

theorem tail_cases (h : EndsBehind 0 ts) : ts.tail = [] ∨ EndsBehind 0 ts.tail := by
  match ts, h with
  | [_], _ => exact .inl rfl
  | t :: u :: us, h =>
    obtain ⟨v, hv, hk⟩ := h
    exact .inr ⟨v, by simpa using hv, hk⟩

/-- A token that is no semicolon is not the last. -/
theorem succ (h : EndsBehind k ts) (hk : ((ts.drop k).headD .endOfInput).kind ≠ .semicolon) :
    EndsBehind (k + 1) ts := by
  obtain ⟨t, ht, hsemicolon⟩ := h
  rw [EndsBehind, ← List.tail_drop]
  match hus : ts.drop k with
  | [] =>
    rw [hus] at ht
    cases ht
  | [u] =>
    rw [hus] at ht hk
    obtain rfl : u = t := by simpa using ht
    exact absurd hsemicolon hk
  | u :: v :: vs =>
    rw [hus] at ht
    exact ⟨t, by simpa using ht, hsemicolon⟩

end EndsBehind

namespace Parser

variable {α β : Type} {i j k : Nat}

/-- The outcome `o'` is `o` with the tokens `us` behind all others. It stops before the last
semicolon and, where it gives a value, with that behind the first `k` tokens. -/
structure Keeps (k : Nat) (us : List Token) (o o' : Outcome (Except Diagnostic α)) : Prop where
  eq : o' = o.extended us
  before : EndsBehind 0 o.ahead
  behind : ∀ a, o.value = .ok a → EndsBehind k o.ahead

/-- Started where the last semicolon stands behind the first `j` tokens, the parser does the
same whatever follows, unless a block is left open. -/
def Stable (j : Nat) (p : Parser α) (k : Nat) : Prop :=
  ∀ ts us, EndsBehind j ts → openBlocks (p.run ts).calls = 0 →
    Keeps k us (p.run ts) (p.run (ts ++ us))

theorem Keeps.value {us : List Token} {o o' : Outcome (Except Diagnostic α)} (h : Keeps k us o o') :
    o'.value = o.value := by
  rw [h.eq]
  rfl

namespace Stable

variable {p : Parser α} {f : α → Parser β}

theorem mono (h : Stable j p k) {j' k' : Nat} (hj : j ≤ j') (hk : k' ≤ k) : Stable j' p k' := by
  intro ts us hts ho
  have hkeeps := h ts us (hts.mono hj) ho
  exact ⟨hkeeps.eq, hkeeps.before, fun a ha => (hkeeps.behind a ha).mono hk⟩

theorem pure (a : α) : Stable k (pure a) k := by
  intro ts us hts _
  exact ⟨rfl, hts.mono (Nat.zero_le k), fun _ _ => hts⟩

theorem current : Stable k current k := by
  intro ts us hts _
  obtain ⟨t, ts, rfl⟩ := List.exists_cons_of_ne_nil hts.ne_nil
  exact ⟨rfl, hts.mono (Nat.zero_le k), fun _ _ => hts⟩

theorem fail (d : Diagnostic) : Stable j (fail d : Parser α) k := by
  intro ts us hts _
  exact ⟨rfl, hts.mono (Nat.zero_le j), fun a ha => nomatch ha⟩

theorem bind (hp : Stable i p j) (hf : ∀ a, Stable j (f a) k) : Stable i (p >>= f) k := by
  intro ts us hts ho
  cases hv : (p.run ts).value with
  | error d =>
    rw [run_bind_error hv] at ho ⊢
    have hkeeps := hp ts us hts ho
    rw [run_bind_error (hkeeps.value.trans hv), hkeeps.eq]
    exact ⟨rfl, hkeeps.before, fun b hb => nomatch hb⟩
  | ok a =>
    rw [run_bind_ok hv] at ho ⊢
    rw [Outcome.followedBy, openBlocks_append, Nat.add_eq_zero_iff] at ho
    have hkeeps := hp ts us hts ho.1
    have hrest := hf a (p.run ts).ahead us (hkeeps.behind a hv) ho.2
    rw [run_bind_ok (hkeeps.value.trans hv), hkeeps.eq]
    refine ⟨?_, hrest.before, hrest.behind⟩
    rw [Outcome.extended_followedBy, ← hrest.eq]
    rfl

theorem rule {r : Rule} (hr : r ≠ .block) (hp : Stable j p k) : Stable j (rule r p) k := by
  intro ts us hts ho
  rw [Parser.rule, openBlocks_rule hr] at ho
  have hkeeps := hp ts us hts ho
  refine ⟨?_, hkeeps.before, hkeeps.behind⟩
  simp only [Parser.rule, hkeeps.eq]
  rfl

/-! ### Tokens -/

theorem advance : Stable (k + 1) advance k := by
  intro ts us hts _
  have htail : (ts ++ us).tail = ts.tail ++ us := List.tail_append_of_ne_nil hts.ne_nil
  refine ⟨?_, hts.tail.mono (Nat.zero_le k), fun _ _ => hts.tail⟩
  simp only [Parser.advance, htail]
  rfl

/-- The current token is a semicolon, or has the semicolon behind it. -/
theorem current_bind {f : Token → Parser β} (hs : ∀ t, t.kind = .semicolon → Stable 0 (f t) k)
    (hf : ∀ t, t.kind ≠ .semicolon → Stable 1 (f t) k) : Stable 0 (Parser.current >>= f) k := by
  intro ts us hts ho
  obtain ⟨t, ts, rfl⟩ := List.exists_cons_of_ne_nil hts.ne_nil
  rw [run_bind_silent (c := t) rfl] at ho ⊢
  rw [run_bind_silent (c := t) rfl]
  by_cases ht : t.kind = .semicolon
  · exact hs t ht _ us hts ho
  · exact hf t ht _ us (hts.succ ht) ho

/-- The following token is a semicolon, or has the semicolon behind it. -/
theorem following_bind {f : Token → Parser β} (hs : ∀ t, t.kind = .semicolon → Stable 1 (f t) k)
    (hf : ∀ t, t.kind ≠ .semicolon → Stable 2 (f t) k) : Stable 1 (following >>= f) k := by
  intro ts us hts ho
  obtain ⟨t, u, ts, rfl⟩ : ∃ t u us, ts = t :: u :: us := by
    match ts, hts.lt_length with
    | t :: u :: us, _ => exact ⟨t, u, us, rfl⟩
  rw [run_bind_silent (c := u) rfl] at ho ⊢
  rw [run_bind_silent (c := u) rfl]
  by_cases hu : u.kind = .semicolon
  · exact hs u hu _ us hts ho
  · exact hf u hu _ us (hts.succ hu) ho

theorem expect {want : Kind} (hk : want ≠ .semicolon) : Stable 1 (expect want) 1 := by
  refine following_bind (fun t ht => ?_) fun t _ => ?_
  · rw [if_neg (by rw [ht]; exact hk.symm)]
    exact fail _
  · split
    · exact advance.bind fun _ => pure t
    · exact (fail _).mono (Nat.le_succ 1) (Nat.le_refl 1)

theorem accept (want : Kind) : Stable 1 (accept want) 0 := by
  have hmove (t : Token) : Stable 1 (if t.kind = want then Parser.advance else Pure.pure ()) 0 := by
    split
    · exact advance
    · exact (pure ()).mono (Nat.zero_le 1) (Nat.le_refl 0)
  refine following_bind (fun t _ => hmove t) fun t _ => ?_
  exact (hmove t).mono (Nat.le_succ 1) (Nat.le_refl 0)

/-! ### Repetition -/

theorem extend {ready : Token → Bool} {step : α → Parser α} (a : α)
    (hr : ∀ t, ready t = true → t.kind ≠ .semicolon) (hs : ∀ a, Stable 1 (step a) 1) :
    Stable 1 (extend ready step a) 1 := by
  intro ts us
  change EndsBehind 1 ts → openBlocks (extending ready step a ts).calls = 0 →
    Keeps 1 us (extending ready step a ts) (extending ready step a (ts ++ us))
  fun_induction extending ready step a ts
  case case1 a t u ts hu o b hv ih =>
    intro hts ho
    rw [Outcome.followedBy, openBlocks_append, Nat.add_eq_zero_iff] at ho
    have hkeeps := hs a (u :: ts) us (hts.succ (hr u hu)).tail ho.1
    have hrest := ih (hkeeps.behind b hv) ho.2
    refine ⟨?_, hrest.before, hrest.behind⟩
    have hv' := hkeeps.value.trans hv
    have heq := hkeeps.eq
    rw [List.cons_append] at hv' heq
    simp only [List.cons_append, extending, hu, if_true, hv']
    rw [Outcome.extended_followedBy, ← hrest.eq, heq]
    rfl
  case case2 a t u ts hu o d hv =>
    intro hts ho
    have hkeeps := hs a (u :: ts) us (hts.succ (hr u hu)).tail ho
    refine ⟨?_, hkeeps.before, hkeeps.behind⟩
    have hv' := hkeeps.value.trans hv
    rw [List.cons_append] at hv'
    simp only [List.cons_append, extending, hu, if_true, hv']
    exact hkeeps.eq
  case case3 a t u ts hu =>
    intro hts _
    refine ⟨?_, hts.mono (Nat.zero_le 1), fun _ _ => hts⟩
    simp only [List.cons_append, extending, if_neg hu]
    rfl
  case case4 a ts hshort =>
    intro hts _
    have hlength := hts.lt_length
    rcases ts with _ | ⟨t, _ | ⟨u, ts⟩⟩
    · cases hlength
    · exact absurd hlength (Nat.lt_irrefl 1)
    · exact absurd rfl (hshort t u ts)

end Stable

/-- Items that stop before the end are the same whatever follows. Items that reach the end
are followed by those of what is put there. -/
theorem items_append {stop : Token → Bool} {item : Parser α} (hi : Stable 0 item 0)
    {ts : List Token} (us : List Token) (hts : ts = [] ∨ EndsBehind 0 ts)
    (ho : openBlocks (items stop item ts).calls = 0) :
    ((items stop item ts).ahead = [] ∧ items stop item (ts ++ us) =
      ((items stop item ts).extended us).join (items stop item us)) ∨
    (EndsBehind 0 (items stop item ts).ahead ∧
      items stop item (ts ++ us) = (items stop item ts).extended us) := by
  induction ts using items_induction stop item with
  | nil =>
    rw [items]
    exact .inl ⟨rfl, rfl⟩
  | done t ts ht =>
    rw [List.cons_append, items, items, if_pos ht, if_pos ht]
    exact .inr ⟨hts.resolve_left (List.cons_ne_nil t ts), rfl⟩
  | step t ts ht ih =>
    rw [items_cons ht, Outcome.beforeItems_calls, openBlocks_append, Nat.add_eq_zero_iff] at ho
    have hkeeps := hi (t :: ts) us (hts.resolve_left (List.cons_ne_nil t ts)) ho.1
    have hitem : item.run (t :: (ts ++ us)) = (item.run (t :: ts)).extended us := hkeeps.eq
    have htail := (item.run (t :: ts)).extended_tail us hkeeps.before.ne_nil
    rw [List.cons_append, items_cons ht, items_cons ht, hitem, htail, Outcome.beforeItems_ahead]
    rcases ih hkeeps.before.tail_cases ho.2 with ⟨hahead, hjoin⟩ | ⟨hahead, hsame⟩
    · exact .inl ⟨hahead, by rw [hjoin, Outcome.beforeItems_join, Outcome.extended_beforeItems]⟩
    · exact .inr ⟨hahead, by rw [hsame, Outcome.extended_beforeItems]⟩

end Parser

namespace Grammar

open Monkey.Parser

section Rules

variable {expr : Precedence → Parser Expr} (hx : ∀ p, Stable 0 (expr p) 1)

include hx

/-! ### Statements -/

theorem letStatement_stable : Stable 1 (letStatement expr) 0 :=
  Stable.current.bind fun _ => (Stable.expect (by decide)).bind fun _ =>
    (Stable.expect (by decide)).bind fun _ => Stable.advance.bind fun _ => (hx _).bind fun _ =>
      (Stable.accept _).bind fun _ => .pure _

theorem returnStatement_stable : Stable 1 (returnStatement expr) 0 :=
  Stable.current.bind fun _ => Stable.advance.bind fun _ => (hx _).bind fun _ =>
    (Stable.accept _).bind fun _ => .pure _

theorem exprStatement_stable : Stable 0 (exprStatement expr) 0 :=
  Stable.current.bind fun _ => (hx _).bind fun _ => (Stable.accept _).bind fun _ => .pure _

theorem statement_stable : Stable 0 (statement expr) 0 := by
  refine .rule (by decide) (.current_bind (fun t ht => ?_) fun t _ => ?_)
  · rw [ht]
    exact .rule (by decide) (exprStatement_stable hx)
  · split
    · exact .rule (by decide) (letStatement_stable hx)
    · exact .rule (by decide) (returnStatement_stable hx)
    · exact .rule (by decide) ((exprStatement_stable hx).mono (Nat.zero_le 1) (Nat.le_refl 0))

omit hx in
theorem block_run (ts : List Token) : (block expr).run ts =
    let o := items endsBlock (statement expr) ts.tail
    ⟨.ok ⟨ts.headD .endOfInput, o.value⟩, o.ahead, o.diagnostics,
      [⟨.block, ts, o.ahead, true, o.calls⟩]⟩ := by
  simp only [block, Parser.rule]
  rw [run_bind_silent rfl, run_bind_silent rfl, run_bind_ok rfl]
  simp [Outcome.followedBy, itemsUntil, Except.isOk, Except.toBool]

/-- A block that is not left open stops at a token that ends it, so not at the semicolon. -/
theorem block_stable : Stable 1 (block expr) 1 := by
  intro ts us hts ho
  have hhead : (ts ++ us).headD .endOfInput = ts.headD .endOfInput := by
    obtain ⟨t, ts, rfl⟩ := List.exists_cons_of_ne_nil hts.ne_nil
    rfl
  have htail : (ts ++ us).tail = ts.tail ++ us := List.tail_append_of_ne_nil hts.ne_nil
  rw [block_run, openBlocks_block, Nat.add_eq_zero_iff] at ho
  obtain ⟨ho, hopen⟩ := ho
  have hstop := items_stop endsBlock (statement expr) ts.tail
  rw [block_run, block_run, hhead, htail]
  rcases items_append (statement_stable hx) us (.inr hts.tail) ho with ⟨hnil, -⟩ | ⟨hahead, hsame⟩
  · rw [if_pos hnil] at hopen
    cases hopen
  · have hbehind : EndsBehind 1 (items endsBlock (statement expr) ts.tail).ahead := by
      refine hahead.succ fun hk => ?_
      obtain ⟨t, vs, hvs⟩ := List.exists_cons_of_ne_nil hahead.ne_nil
      rw [hvs] at hk hstop
      have hends := hstop t rfl
      rw [endsBlock, show t.kind = .semicolon from hk] at hends
      cases hends
    refine ⟨?_, hahead, fun _ _ => hbehind⟩
    rw [hsame]
    rfl

/-! ### Operands and operators -/

omit hx in
theorem parenthesized_stable {α : Type} {item : Parser α} (hi : Stable 1 item 1) :
    Stable 1 (parenthesized item) 1 := by
  have hcomma : ∀ t : Token, decide (t.kind = .comma) = true → t.kind ≠ .semicolon := by
    intro t ht
    rw [of_decide_eq_true ht]
    decide
  have hclose : Stable 1 (expect .rightParen) 1 := .expect (by decide)
  have hitems := hi.bind fun a => (Stable.extend [a] hcomma fun as => hi.bind fun b =>
    .pure (as ++ [b])).bind fun as => hclose.bind fun _ => .pure as
  refine .following_bind (fun t ht => ?_) fun t _ => ?_
  · rw [if_neg (by rw [ht]; decide)]
    exact hitems
  · split
    · exact Stable.advance.bind fun _ => .pure []
    · exact hitems.mono (Nat.le_succ 1) (Nat.le_refl 1)

omit hx in
theorem integer_stable (t : Token) : Stable 1 (integer t) 1 := by
  unfold integer
  split
  · exact .pure _
  · exact .fail _

theorem unary_stable (t : Token) (op : UnaryOp) : Stable 1 (unary expr t op) 1 :=
  Stable.advance.bind fun _ => (hx _).bind fun _ => .pure _

theorem group_stable : Stable 1 (group expr) 1 :=
  Stable.advance.bind fun _ => (hx _).bind fun _ =>
    (Stable.expect (by decide)).bind fun _ => .pure _

theorem alternative_stable : Stable 1 (alternative expr) 1 := by
  refine .following_bind (fun t ht => ?_) fun t _ => ?_
  · rw [if_neg (by rw [ht]; decide)]
    exact .pure _
  · split
    · exact Stable.advance.bind fun _ => (Stable.expect (by decide)).bind fun _ =>
        (block_stable hx).bind fun _ => .pure _
    · exact (Stable.pure _).mono (Nat.le_succ 1) (Nat.le_refl 1)

theorem conditional_stable (t : Token) : Stable 1 (conditional expr t) 1 :=
  (Stable.expect (by decide)).bind fun _ => Stable.advance.bind fun _ => (hx _).bind fun _ =>
    (Stable.expect (by decide)).bind fun _ => (Stable.expect (by decide)).bind fun _ =>
      (block_stable hx).bind fun _ => (alternative_stable hx).bind fun _ => .pure _

theorem function_stable (t : Token) : Stable 1 (function expr t) 1 :=
  (Stable.expect (by decide)).bind fun _ =>
    (parenthesized_stable (Stable.expect (by decide))).bind fun _ =>
      (Stable.expect (by decide)).bind fun _ => (block_stable hx).bind fun _ => .pure _

theorem operand_stable : Stable 0 (operand expr) 1 := by
  refine .current_bind (fun t ht => ?_) fun t _ => ?_
  · rw [ht]
    exact .fail _
  · split
    · exact .rule (by decide) (.pure _)
    · exact .rule (by decide) (integer_stable t)
    · exact .rule (by decide) (.pure _)
    · exact .rule (by decide) (.pure _)
    · exact .rule (by decide) (unary_stable hx t _)
    · exact .rule (by decide) (unary_stable hx t _)
    · exact .rule (by decide) (group_stable hx)
    · exact .rule (by decide) (conditional_stable hx t)
    · exact .rule (by decide) (function_stable hx t)
    · exact .fail _

theorem suffix_stable (left : Expr) : Stable 1 (suffix expr left) 1 := by
  refine Stable.current.bind fun t => ?_
  split
  · exact .rule (by decide) (Stable.advance.bind fun _ => (hx _).bind fun _ => .pure _)
  · refine .rule (by decide) ((parenthesized_stable ?_).bind fun _ => .pure _)
    exact Stable.advance.bind fun _ => hx _

theorem chain_stable (p : Precedence) : Stable 0 (chain expr p) 1 := by
  refine (operand_stable hx).bind fun left => .extend left (fun t ht => ?_) (suffix_stable hx)
  rintro hk
  rw [hk] at ht
  exact absurd (of_decide_eq_true ht) (Nat.not_lt_zero _)

end Rules

theorem expression_stable (n : Nat) (p : Precedence) : Stable 0 (expression n p) 1 := by
  induction n generalizing p with
  | zero => exact .fail _
  | succ n ih => exact .rule (by decide) (chain_stable ih p)

/-- Statements up to a semicolon at the end of the tokens, and those of what follows it. -/
theorem program_append {ts : List Token} (us : List Token) (hts : EndsBehind 0 ts)
    (hu : Unmarked ts) (ho : openBlocks (program ts).calls = 0) :
    (program (ts ++ us)).value.statements =
      (program ts).value.statements ++ (program us).value.statements ∧
    (program (ts ++ us)).diagnostics = (program ts).diagnostics ++ (program us).diagnostics ∧
    (program (ts ++ us)).calls =
      Call.extendedAll us (program ts).calls ++ (program us).calls := by
  rcases items_append (statement_stable (expression_stable maxNesting)) us (.inr hts) ho with
    ⟨-, hjoin⟩ | ⟨hbehind, -⟩
  · simp only [program, hjoin]
    exact ⟨rfl, rfl, rfl⟩
  · exact absurd (program_ahead hu) hbehind.ne_nil

end Grammar

/-- Statements, diagnostics and traces of a text that ends with a semicolon and leaves no block
open are followed by those of whatever text is put behind it. -/
theorem parse_append {a : String} (b : String) (hn : '\x00' ∉ a.toList)
    (hl : ∃ t ∈ (lex a).getLast?, t.kind = .semicolon) (ho : openBlocks (parse a).calls = 0) :
    (parse (a ++ b)).value.statements = (parse a).value.statements ++ (parse b).value.statements ∧
    (parse (a ++ b)).diagnostics = (parse a).diagnostics ++ (parse b).diagnostics ∧
    traceText (parse (a ++ b)).calls =
      traceText (parse a).calls ++ traceText (parse b).calls := by
  rw [lex_eq_tokens hn] at hl
  have htokens : (Lexer.ofString (a ++ b)).tokens =
      (Lexer.ofString a).tokens ++ (Lexer.ofString b).tokens := by
    obtain ⟨t, ht, hk⟩ := hl
    have hlast : ∀ u ∈ (Token.stream a.toList).getLast?, u.kind = .semicolon := by
      intro u hu
      obtain rfl : t = u := Option.some.inj (ht.symm.trans hu)
      exact hk
    have happend := Token.stream_append hlast b.toList
    rwa [← String.toList_append] at happend
  have hends : EndsBehind 0 (Lexer.ofString a).tokens := hl
  obtain ⟨hs, hd, hc⟩ := Grammar.program_append (Lexer.ofString b).tokens hends
    (Token.stream_unmarked hn) ho
  rw [parse, htokens]
  refine ⟨hs, hd, ?_⟩
  rw [hc, traceText_append, traceText_extendedAll]
  rfl

theorem parse_append_malformed :
    let a := "let = 1; f(1 2); if (x) \x7b y \x7d else z; (a; "
    let b := "return g(1, +);"
    '\x00' ∉ a.toList ∧ (∃ t ∈ (lex a).getLast?, t.kind = .semicolon) ∧
    openBlocks (parse a).calls = 0 ∧ (parse a).diagnostics.length = 8 ∧
    (parse (a ++ b)).value.statements = (parse a).value.statements ++ (parse b).value.statements ∧
    (parse (a ++ b)).diagnostics = (parse a).diagnostics ++ (parse b).diagnostics ∧
    traceText (parse (a ++ b)).calls = traceText (parse a).calls ++ traceText (parse b).calls := by
  intro a b
  have hn : '\x00' ∉ a.toList := by decide
  have hl : ∃ t ∈ (lex a).getLast?, t.kind = .semicolon := by
    refine ⟨⟨.semicolon, ";"⟩, ?_, rfl⟩
    decide +kernel
  have ho : openBlocks (parse a).calls = 0 := by decide +kernel
  exact ⟨hn, hl, ho, by decide +kernel, parse_append b hn hl ho⟩

end Monkey
