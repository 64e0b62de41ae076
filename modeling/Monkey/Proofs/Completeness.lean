import Monkey.Proofs.Calls
import Monkey.Proofs.CleanRun
import Monkey.Proofs.Derivation
import Monkey.Proofs.Lexing
import Monkey.Proofs.Nesting
import Monkey.Reading

/-! What is derivable is read. On the tokens of a derivation the grammar gives the tree of
the derivation and drops nothing, provided it has as many levels to spend as the derivation
takes; it then has exactly so many expressions open at once. Braces that the derivation
has at its very end may be missing from the input. -/

namespace Monkey

open Monkey.Parser Monkey.Derivation

/-- The input `us` is `ts`, but for closing braces that it lacks at its end. -/
def Cut (us ts : List Token) : Prop := ∃ k, us ++ List.replicate k .rightBrace = ts

namespace Cut

variable {us ts : List Token} {t : Token}

theorem nil (h : Cut us []) : us = [] := by
  obtain ⟨k, h⟩ := h
  exact (List.append_eq_nil_iff.1 h).1

theorem tail (h : Cut us (t :: ts)) : Cut us.tail ts := by
  obtain ⟨k, h⟩ := h
  cases us with
  | nil =>
    cases k with
    | zero => simp at h
    | succ k => exact ⟨k, (List.cons.inj h).2⟩
  | cons u us => exact ⟨k, (List.cons.inj h).2⟩

/-- A token other than a closing brace is there. -/
theorem cons {k : Kind} (h : Cut us (t :: ts)) (hk : t.kind = k) (hne : k ≠ .rightBrace) :
    us = t :: us.tail := by
  obtain ⟨n, h⟩ := h
  cases us with
  | nil =>
    have hmem : t ∈ List.replicate n Token.rightBrace := by simp_all
    have hbrace : t.kind = .rightBrace := congrArg Token.kind (List.eq_of_mem_replicate hmem)
    exact absurd (hk.symm.trans hbrace) hne
  | cons u us => exact congrArg (· :: us) (List.cons.inj h).1

theorem head?_eq {k : Kind} (h : Cut us (t :: ts)) (hk : t.kind = k) (hne : k ≠ .rightBrace) :
    us.head? = some t := by
  rw [h.cons hk hne]
  rfl

theorem headD_eq {k : Kind} (h : Cut us (t :: ts)) (hk : t.kind = k) (hne : k ≠ .rightBrace) :
    us.headD .endOfInput = t := by
  rw [h.cons hk hne]
  rfl

theorem head? (h : Cut us ts) {u : Token} (hu : u ∈ us.head?) : u ∈ ts.head? := by
  obtain ⟨k, rfl⟩ := h
  obtain ⟨us, rfl⟩ := List.head?_eq_some_iff.1 hu
  rfl

/-- What the next token is not, the next token of the input is not, unless it is missing. -/
theorem headD_kind_ne (h : Cut us ts) {k : Kind} (hk : k ≠ .endOfInput)
    (hts : ∀ t ∈ ts.head?, t.kind ≠ k) : (us.headD .endOfInput).kind ≠ k := by
  cases us with
  | nil => exact hk.symm
  | cons u us => exact hts u (h.head? rfl)

end Cut

/-- What may stand behind an expression: no alternative, and no operator that binds more
tightly than `r`. -/
def Follows (r : Nat) (rest : List Token) : Prop :=
  ∀ t ∈ rest.head?, t.kind ≠ .kwElse ∧ t.kind.precedence.rank ≤ r

theorem Follows.mono {r s : Nat} {rest : List Token} (h : Follows r rest) (hrs : r ≤ s) :
    Follows s rest := fun t ht => ⟨(h t ht).1, Nat.le_trans (h t ht).2 hrs⟩

theorem Follows.ofKind {r : Nat} {rest : List Token} {t : Token} {k : Kind} (hk : t.kind = k)
    (hne : k ≠ .kwElse) (hr : k.precedence.rank ≤ r) : Follows r (t :: rest) := by
  rintro _ ⟨⟩
  exact ⟨hk ▸ hne, hk ▸ hr⟩

namespace Grammar

/-! ### Expressions -/

/-- On the tokens `xs` the operators read so far amount to `e`: the loop over operators is
led there, with `h` expressions open at once around it and inside. -/
def Chains (h l : Nat) (xs : List Token) (e : Expr) : Prop :=
  ∀ {n : Nat} {p : Precedence} {rest us : List Token}, h ≤ n + 1 → p.layer ≤ l → p.rank ≤ 5 →
    Follows (l + 1) rest → Cut us (xs ++ rest) →
    ∃ vs cs, Leads (operand (expression n)) id (fun t => decide (p < t.kind.precedence))
      (suffix (expression n)) us e vs cs ∧ Cut vs.tail rest ∧ Call.nestingAll cs + 1 = h

/-- The expressions of `expr` are read from the tokens `xs`. -/
def Read (h l : Nat) (xs : List Token) (e : Expr) : Prop :=
  ∀ {n : Nat} {p : Precedence} {rest us : List Token}, h ≤ n → p.layer ≤ l → p.rank ≤ 5 →
    Follows p.rank rest → Cut us (xs ++ rest) →
    ∃ vs cs, (expression n p).Runs us e vs cs ∧ Cut vs.tail rest ∧ Call.nestingAll cs = h

variable {h l : Nat} {xs : List Token} {e : Expr}

theorem Chains.read (hc : Chains h l xs e) : Read h l xs e := by
  intro n p rest us hn hp hrank hrest hcut
  have hle : p.rank ≤ l + 1 := by
    unfold Precedence.layer at hp
    omega
  match n with
  | 0 =>
    obtain ⟨_, _, _, _, hh⟩ := hc (n := 0) (Nat.le_succ_of_le hn) hp hrank (hrest.mono hle) hcut
    omega
  | n + 1 =>
    obtain ⟨vs, cs, hleads, hvs, hh⟩ := hc hn hp hrank (hrest.mono hle) hcut
    have hstop : ∀ u ∈ vs.tail.head?, decide (p < u.kind.precedence) = false := fun u hu =>
      decide_eq_false (Nat.not_lt.2 (hrest u (hvs.head? hu)).2)
    exact ⟨vs, _, runs_rule_iff.2 ⟨cs, hleads.runs hstop, rfl⟩, hvs,
      by rw [Call.nestingAll_expression, hh]⟩

theorem Chains.looser {k : Nat} (hc : Chains h l xs e) (hk : k < l) : Chains h k xs e :=
  fun hn hp hrank hrest => hc hn (Nat.le_trans hp (Nat.le_of_lt hk)) hrank
    (hrest.mono (Nat.succ_le_succ (Nat.le_of_lt hk)))

/-- An operand alone is where the loop starts. The first token decides for a rule. -/
theorem chains_of_rule {t : Token} {k : Kind} {r : Rule}
    {q : (Precedence → Parser Expr) → Parser Expr}
    (ht : t.kind = k) (hk : k ≠ .rightBrace) (hr : r ≠ .expression)
    (hop : ∀ expr us, (operand expr).run (t :: us) = (rule r (q expr)).run (t :: us))
    (hq : ∀ {n : Nat} {rest us : List Token}, h ≤ n + 1 → Follows (l + 1) rest →
      Cut us (xs ++ rest) → ∃ vs cs, (q (expression n)).Runs (t :: us) e vs cs ∧
        Cut vs.tail rest ∧ Call.nestingAll cs + 1 = h) : Chains h l (t :: xs) e := by
  intro n p rest us hn _ _ hrest hcut
  rw [hcut.cons ht hk]
  obtain ⟨vs, cs, hrun, hvs, hh⟩ := hq hn hrest hcut.tail
  refine ⟨vs, [⟨r, t :: us.tail, vs, true, cs⟩], Leads.start (g := id) ?_, hvs, ?_⟩
  · rw [Runs, hop]
    exact runs_rule_iff.2 ⟨cs, hrun, rfl⟩
  · rw [Call.nestingAll_rule hr, hh]

theorem chains_identifier {t : Token} (hk : t.kind = .identifier) :
    Chains 1 6 [t] (.identifier (.ofToken t)) := by
  refine chains_of_rule hk (by decide) (r := .identifier)
    (q := fun _ => pure (.identifier (.ofToken t))) (by decide) (fun expr us => ?_) ?_
  · rw [operand, run_bind_silent rfl]
    simp only [List.headD_cons, hk]
  · intro n rest us _ _ hcut
    exact ⟨_, [], runs_pure _ _, hcut, rfl⟩

theorem chains_integer {t : Token} (hk : t.kind = .integer) (hv : t.decimal ≤ 0x7fffffffffffffff) :
    Chains 1 6 [t] (.integer t (.ofNat t.decimal)) := by
  refine chains_of_rule hk (by decide) (r := .integer) (q := fun _ => integer t) (by decide)
    (fun expr us => ?_) ?_
  · rw [operand, run_bind_silent rfl]
    simp only [List.headD_cons, hk]
  · intro n rest us _ _ hcut
    refine ⟨t :: us, [], ?_, hcut, rfl⟩
    rw [integer, Token.integerValue?_eq_some_iff.2 ⟨hv, rfl⟩]
    exact runs_pure _ _

theorem chains_boolean {t : Token} {v : Bool} (hk : t.kind = if v then .kwTrue else .kwFalse) :
    Chains 1 6 [t] (.boolean t v) := by
  refine chains_of_rule hk (by cases v <;> decide) (r := .boolean)
    (q := fun _ => pure (.boolean t v)) (by decide) (fun expr us => ?_) ?_
  · rw [operand, run_bind_silent rfl]
    cases v <;> simp only [List.headD_cons, hk, if_true, Bool.false_eq_true, if_false]
  · intro n rest us _ _ hcut
    exact ⟨_, [], runs_pure _ _, hcut, rfl⟩

theorem chains_unary {t : Token} {op : UnaryOp} (hk : t.kind = op.kind) (he : Read h 4 xs e) :
    Chains (h + 1) 4 (t :: xs) (.unary t op e) := by
  refine chains_of_rule hk (by cases op <;> decide) (r := .unary)
    (q := fun expr => unary expr t op) (by decide) (fun expr us => ?_) ?_
  · rw [operand, run_bind_silent rfl]
    cases op <;> simp only [List.headD_cons, hk, UnaryOp.kind]
  · intro n rest us hn hrest hcut
    obtain ⟨vs, cs, hrun, hvs, hh⟩ := he (p := .unary) (Nat.le_of_succ_le_succ hn) (by decide)
      (by decide) hrest hcut
    refine ⟨vs, cs, ?_, hvs, by rw [hh]⟩
    rw [unary, runs_advance_bind]
    exact hrun.map

theorem chains_group {t r : Token} (hk : t.kind = .leftParen) (he : Read h 0 xs e)
    (hr : r.kind = .rightParen) : Chains (h + 1) 6 (t :: xs ++ [r]) e := by
  rw [List.cons_append]
  refine chains_of_rule hk (by decide) (r := .group) (q := group) (by decide) (fun expr us => ?_) ?_
  · rw [operand, run_bind_silent rfl]
    simp only [List.headD_cons, hk]
  · intro n rest us hn hrest hcut
    rw [List.append_assoc] at hcut
    obtain ⟨vs, cs, hrun, hvs, hh⟩ := he (p := .lowest) (Nat.le_of_succ_le_succ hn) (by decide)
      (by decide) (.ofKind hr (by decide) (by decide)) hcut
    refine ⟨vs.tail, cs, ?_, hvs.tail, by rw [hh]⟩
    rw [group, runs_advance_bind]
    have hclose : vs.tail.head? = some r := hvs.head?_eq hr (by decide)
    exact hrun.bind_silent (.expect hclose hr (runs_pure _ _))

/-! ### Lists between parentheses -/

/-- The repetition behind the first item leads from `us` to the items `as` at `vs`. -/
def Lists {α : Type} (item : Parser α) (us : List Token) (as : List α) (vs : List Token)
    (cs : List Call) : Prop :=
  Leads item (fun a => [a]) (·.kind = .comma) (fun as => return as ++ [← item]) us as vs cs

section Lists

variable {α : Type} {item : Parser α} {us vs ws : List Token} {a : α} {as : List α}
  {cs ds : List Call}

theorem Lists.one (h : item.Runs us a vs cs) : Lists item us [a] vs cs := Leads.start h

theorem Lists.more {t : Token} (h : Lists item us as vs cs) (ht : vs.tail.head? = some t)
    (hk : t.kind = .comma) (ha : item.Runs vs.tail a ws ds) :
    Lists item us (as ++ [a]) ws (cs ++ ds) :=
  Leads.more h ht (decide_eq_true hk) ha.map

theorem parenthesized_nil {t : Token} (ht : us.tail.head? = some t) (hk : t.kind = .rightParen) :
    (parenthesized item).Runs us [] us.tail [] := by
  obtain ⟨us', hus⟩ := List.head?_eq_some_iff.1 ht
  rw [parenthesized, runs_following_bind, hus, List.headD_cons, if_pos hk, runs_advance_bind, hus]
  exact runs_pure _ _

theorem Lists.parenthesized {t r : Token} (h : Lists item us as vs cs) (ht : us.tail.head? = some t)
    (hne : t.kind ≠ .rightParen) (hr : vs.tail.head? = some r) (hk : r.kind = .rightParen) :
    (parenthesized item).Runs us as vs.tail cs := by
  obtain ⟨us', hus⟩ := List.head?_eq_some_iff.1 ht
  have hstop : ∀ u ∈ vs.tail.head?, decide (u.kind = .comma) = false := by
    intro u hu
    obtain rfl : r = u := Option.some.inj (hr.symm.trans hu)
    rw [hk]
    rfl
  rw [Grammar.parenthesized, runs_following_bind, hus, List.headD_cons, if_neg hne, ← bind_assoc]
  exact (Leads.runs h hstop).bind_silent (.expect hr hk (runs_pure _ _))

end Lists

theorem names_lists {ns : List Identifier} (d : Names xs ns) :
    ∀ {rest us : List Token}, Cut us.tail (xs ++ rest) → ∃ names vs,
      Lists (expect .identifier) us names vs [] ∧ names.map .ofToken = ns ∧ Cut vs.tail rest := by
  have hname {us rest : List Token} {t : Token} (hk : t.kind = .identifier)
      (hcut : Cut us.tail (t :: rest)) : (expect .identifier).Runs us t us.tail [] := by
    have hrun := Runs.expect (g := pure) (hcut.head?_eq hk (by decide)) hk
      (runs_pure _ _)
    rwa [bind_pure] at hrun
  induction d with
  | one hk => exact fun hcut => ⟨_, _, .one (hname hk hcut), rfl, hcut.tail⟩
  | @more xs ns comma t _ hcomma hk ih =>
    intro rest us hcut
    rw [List.append_assoc] at hcut
    obtain ⟨names, vs, hlists, rfl, hvs⟩ := ih hcut
    have hvs' := hvs.head?_eq hcomma (by decide)
    exact ⟨_, _, hlists.more hvs' hcomma (hname hk hvs.tail), by simp, hvs.tail.tail⟩

theorem parameters_runs {ns : List Identifier} {r : Token} {rest us : List Token}
    (d : Parameters xs ns) (hr : r.kind = .rightParen) (hcut : Cut us.tail (xs ++ r :: rest)) :
    ∃ names vs, (parenthesized (expect .identifier)).Runs us names vs [] ∧
      names.map .ofToken = ns ∧ Cut vs.tail rest := by
  cases d with
  | none => exact ⟨[], _, parenthesized_nil (hcut.head?_eq hr (by decide)) hr, rfl, hcut.tail⟩
  | names d =>
    obtain ⟨names, vs, hlists, rfl, hvs⟩ := names_lists d hcut
    obtain ⟨t, ys, rfl, ht⟩ := d.head
    have hrun := hlists.parenthesized (hcut.head?_eq ht (by decide)) (by rw [ht]; decide)
      (hvs.head?_eq hr (by decide)) hr
    exact ⟨names, _, hrun, rfl, hvs.tail⟩

/-- The loop over arguments is led to the expressions `es`. -/
def ListsExpressions (h : Nat) (xs : List Token) (es : List Expr) : Prop :=
  ∀ {n : Nat} {rest us : List Token}, h ≤ n → Follows 0 rest → Cut us.tail (xs ++ rest) →
    ∃ vs cs, Lists (do advance; expression n .lowest) us es vs cs ∧ Cut vs.tail rest ∧
      Call.nestingAll cs = h

theorem lists_one (he : Read h 0 xs e) : ListsExpressions h xs [e] := by
  intro n rest us hn hrest hcut
  obtain ⟨vs, cs, hrun, hvs, hh⟩ := he (p := .lowest) hn (by decide) (by decide) hrest hcut
  exact ⟨vs, cs, .one (runs_advance_bind.2 hrun), hvs, hh⟩

theorem lists_more {h' : Nat} {ys : List Token} {es : List Expr} {comma : Token}
    (hs : ListsExpressions h xs es) (hk : comma.kind = .comma) (he : Read h' 0 ys e) :
    ListsExpressions (max h h') (xs ++ comma :: ys) (es ++ [e]) := by
  intro n rest us hn hrest hcut
  obtain ⟨hn, hn'⟩ := Nat.max_le.1 hn
  rw [List.append_assoc] at hcut
  obtain ⟨vs, cs, hlists, hvs, hh⟩ := hs hn (.ofKind hk (by decide) (by decide)) hcut
  obtain ⟨ws, ds, hrun, hws, hh'⟩ := he (p := .lowest) hn' (by decide) (by decide) hrest hvs.tail
  refine ⟨ws, cs ++ ds, hlists.more (hvs.head?_eq hk (by decide)) hk ?_, hws, ?_⟩
  · exact runs_advance_bind.2 hrun
  · rw [Call.nestingAll_append, hh, hh']

/-- Expressions between parentheses are read, those of an argument list. -/
def ReadArguments (h : Nat) (xs : List Token) (es : List Expr) : Prop :=
  ∀ {n : Nat} {r : Token} {rest us : List Token}, h ≤ n → r.kind = .rightParen →
    Cut us.tail (xs ++ r :: rest) → ∃ vs cs,
      (parenthesized (do advance; expression n .lowest)).Runs us es vs cs ∧ Cut vs.tail rest ∧
        Call.nestingAll cs = h

theorem arguments_none : ReadArguments 0 [] [] := by
  intro n r rest us _ hr hcut
  exact ⟨_, [], parenthesized_nil (hcut.head?_eq hr (by decide)) hr, hcut.tail, rfl⟩

theorem arguments_expressions {es : List Expr} (d : Expressions h xs es)
    (hs : ListsExpressions h xs es) : ReadArguments h xs es := by
  intro n r rest us hn hr hcut
  obtain ⟨vs, cs, hlists, hvs, hh⟩ := hs hn (.ofKind hr (by decide) (by decide)) hcut
  obtain ⟨t, ys, rfl, ht⟩ := d.opens
  have hne (k : Kind) (hk : k.opens = false) : t.kind ≠ k := by
    rintro rfl
    exact Bool.noConfusion (ht.symm.trans hk)
  have hrun := hlists.parenthesized (hcut.head?_eq rfl (hne _ rfl)) (hne _ rfl)
    (hvs.head?_eq hr (by decide)) hr
  exact ⟨_, cs, hrun, hvs.tail, hh⟩

/-! ### Operators -/

theorem chains_call {ha : Nat} {t r : Token} {as : List Token} {es : List Expr}
    (hf : Chains h 5 xs e) (ht : t.kind = .leftParen) (has : ReadArguments ha as es)
    (hr : r.kind = .rightParen) :
    Chains (max h (ha + 1)) 5 (xs ++ t :: as ++ [r]) (.call t e es) := by
  intro n p rest us hn hp hrank hrest hcut
  obtain ⟨hn, hna⟩ := Nat.max_le.1 hn
  simp only [List.append_assoc, List.cons_append] at hcut
  obtain ⟨vs, cs, hleads, hvs, hh⟩ := hf hn hp hrank (.ofKind ht (by decide) (by decide)) hcut
  have hbrace : Kind.leftParen ≠ .rightBrace := by decide
  have hprec : p < t.kind.precedence := by
    rw [ht]
    exact Nat.lt_succ_of_le hrank
  obtain ⟨ws, ds, hrun, hws, hha⟩ := has (Nat.le_of_succ_le_succ hna) hr hvs.tail
  have hstep : (suffix (expression n) e).Runs vs.tail (.call t e es) ws
      [⟨.call, vs.tail, ws, true, ds⟩] := by
    rw [suffix, runs_current_bind, hvs.headD_eq ht hbrace, ht]
    exact runs_rule_iff.2 ⟨ds, hrun.map, rfl⟩
  refine ⟨ws, _, hleads.more (hvs.head?_eq ht hbrace) (decide_eq_true hprec) hstep, hws, ?_⟩
  rw [Call.nestingAll_append, Call.nestingAll_rule (by decide), hha]
  omega

theorem chains_binary {hr k : Nat} {t : Token} {op : BinaryOp} {ys : List Token} {r : Expr}
    (hl : Chains h op.layer xs e) (ht : t.kind = op.kind) (hk : op.layer < k)
    (hr' : Read hr k ys r) :
    Chains (max h (hr + 1)) op.layer (xs ++ t :: ys) (.binary t op e r) := by
  intro n p rest us hn hp hrank hrest hcut
  obtain ⟨hn, hnr⟩ := Nat.max_le.1 hn
  have hop := op.rank_precedence
  have hlt := op.layer_lt
  have hprec : p < t.kind.precedence := by
    rw [Precedence.lt_iff_rank_lt, ht, hop]
    unfold Precedence.layer at hp
    omega
  have hbrace : op.kind ≠ .rightBrace := by cases op <;> decide
  rw [List.append_assoc] at hcut
  have hfollows : Follows (op.layer + 1) (t :: (ys ++ rest)) :=
    .ofKind ht (by cases op <;> decide) (Nat.le_of_eq hop)
  obtain ⟨vs, cs, hleads, hvs, hh⟩ := hl hn hp hrank hfollows hcut
  obtain ⟨ws, ds, hrun, hws, hhr⟩ := hr' (p := t.kind.precedence) (Nat.le_of_succ_le_succ hnr)
    (by rw [ht, op.layer_precedence]; omega) (by rw [ht, hop]; omega) (by rwa [ht, hop]) hvs.tail
  have hstep : (suffix (expression n) e).Runs vs.tail (.binary t op e r) ws
      [⟨.binary, vs.tail, ws, true, ds⟩] := by
    rw [suffix, runs_current_bind, hvs.headD_eq ht hbrace, BinaryOp.ofKind?_eq_some_iff.2 ht.symm]
    exact runs_rule_iff.2 ⟨ds, runs_advance_bind.2 hrun.map, rfl⟩
  refine ⟨ws, _, hleads.more (hvs.head?_eq ht hbrace) (decide_eq_true hprec) hstep, hws, ?_⟩
  rw [Call.nestingAll_append, Call.nestingAll_rule (by decide), hhr]
  omega

/-! ### Statements -/

/-- What is left of the tokens behind a statement once its semicolon, if it has one, is
passed over. -/
def Ended (rest tail : List Token) : Prop :=
  (∃ t : Token, t.kind = .semicolon ∧ rest = t :: tail) ∨
    rest = tail ∧ ∀ t ∈ tail.head?, t.kind ≠ .semicolon

/-- The statement `s` is read from the tokens `xs`. -/
def ReadsSentence (h : Nat) (xs : List Token) (s : Statement) : Prop :=
  ∀ {n : Nat} {rest tail us : List Token}, h ≤ n → Follows 0 rest → Ended rest tail →
    Cut us (xs ++ rest) → ∃ vs cs, (statement (expression n)).Runs us s vs cs ∧
      Cut vs.tail tail ∧ Call.nestingAll cs = h

theorem ending_runs {n : Nat} {f : Expr → Statement} {rest tail us : List Token}
    (he : Read h 0 xs e) (hn : h ≤ n) (hrest : Follows 0 rest) (hend : Ended rest tail)
    (hcut : Cut us (xs ++ rest)) : ∃ vs cs,
      (do
        let value ← expression n .lowest
        accept .semicolon
        return f value : Parser Statement).Runs us (f e) vs cs ∧ Cut vs.tail tail ∧ Call.nestingAll cs = h := by
  obtain ⟨vs, cs, hrun, hvs, hh⟩ := he (p := .lowest) hn (by decide) (by decide) hrest hcut
  rcases hend with ⟨t, ht, rfl⟩ | ⟨rfl, hnone⟩
  · refine ⟨vs.tail, cs, hrun.bind_silent ?_, hvs.tail, hh⟩
    rw [runs_accept_bind, hvs.headD_eq ht (by decide), if_pos ht]
    exact runs_pure _ _
  · refine ⟨vs, cs, hrun.bind_silent ?_, hvs, hh⟩
    rw [runs_accept_bind, if_neg (hvs.headD_kind_ne (by decide) hnone)]
    exact runs_pure _ _

theorem reads_letStmt {t name eq : Token} (ht : t.kind = .kwLet) (hname : name.kind = .identifier)
    (heq : eq.kind = .assign) (he : Read h 0 xs e) :
    ReadsSentence h (t :: name :: eq :: xs) (.letStmt t (.ofToken name) e) := by
  intro n rest tail us hn hrest hend hcut
  obtain ⟨vs, cs, hrun, hvs, hh⟩ :=
    ending_runs (f := .letStmt t (.ofToken name)) he hn hrest hend hcut.tail.tail.tail
  have hlet : (letStatement (expression n)).Runs us (.letStmt t (.ofToken name) e) vs cs := by
    rw [letStatement, runs_current_bind, hcut.headD_eq ht (by decide)]
    refine .expect (hcut.tail.head?_eq hname (by decide)) hname ?_
    refine .expect (hcut.tail.tail.head?_eq heq (by decide)) heq ?_
    exact runs_advance_bind.2 hrun
  refine ⟨vs, _, runs_rule_iff.2 ⟨[⟨.letStmt, us, vs, true, cs⟩], ?_, rfl⟩, hvs, ?_⟩
  · rw [runs_current_bind, hcut.headD_eq ht (by decide), ht]
    exact runs_rule_iff.2 ⟨cs, hlet, rfl⟩
  · rwa [Call.nestingAll_rule (by decide), Call.nestingAll_rule (by decide)]

theorem reads_returnStmt {t : Token} (ht : t.kind = .kwReturn) (he : Read h 0 xs e) :
    ReadsSentence h (t :: xs) (.returnStmt t e) := by
  intro n rest tail us hn hrest hend hcut
  obtain ⟨vs, cs, hrun, hvs, hh⟩ := ending_runs (f := .returnStmt t) he hn hrest hend hcut.tail
  have hreturn : (returnStatement (expression n)).Runs us (.returnStmt t e) vs cs := by
    rw [returnStatement, runs_current_bind, hcut.headD_eq ht (by decide)]
    exact runs_advance_bind.2 hrun
  refine ⟨vs, _, runs_rule_iff.2 ⟨[⟨.returnStmt, us, vs, true, cs⟩], ?_, rfl⟩, hvs, ?_⟩
  · rw [runs_current_bind, hcut.headD_eq ht (by decide), ht]
    exact runs_rule_iff.2 ⟨cs, hreturn, rfl⟩
  · rwa [Call.nestingAll_rule (by decide), Call.nestingAll_rule (by decide)]

theorem reads_exprStmt {t : Token} (ht : t.kind.opens = true) (he : Read h 0 (t :: xs) e) :
    ReadsSentence h (t :: xs) (.exprStmt t e) := by
  intro n rest tail us hn hrest hend hcut
  have hne (k : Kind) (hk : k.opens = false) : t.kind ≠ k := by
    rintro rfl
    exact Bool.noConfusion (ht.symm.trans hk)
  obtain ⟨vs, cs, hrun, hvs, hh⟩ := ending_runs (f := .exprStmt t) he hn hrest hend hcut
  have hexpr : (exprStatement (expression n)).Runs us (.exprStmt t e) vs cs := by
    rwa [exprStatement, runs_current_bind, hcut.headD_eq rfl (hne _ rfl)]
  refine ⟨vs, _, runs_rule_iff.2 ⟨[⟨.exprStmt, us, vs, true, cs⟩], ?_, rfl⟩, hvs, ?_⟩
  · rw [runs_current_bind, hcut.headD_eq rfl (hne _ rfl)]
    split
    · next hk => exact absurd hk (hne _ rfl)
    · next hk => exact absurd hk (hne _ rfl)
    · exact runs_rule_iff.2 ⟨cs, hexpr, rfl⟩
  · rwa [Call.nestingAll_rule (by decide), Call.nestingAll_rule (by decide)]

/-- The statements `ss` are read from the tokens `xs`, up to the end or a token that is no
first token of a statement. -/
def ReadsSentences (h : Nat) (xs : List Token) (ss : List Statement) : Prop :=
  ∀ {n : Nat} {stop : Token → Bool} {rest us : List Token}, h ≤ n →
    (∀ t, t.kind.starts = true → stop t = false) →
    (∀ t ∈ rest.head?, stop t = true ∧ t.kind = .rightBrace) → Cut us (xs ++ rest) →
    ∃ vs cs, (itemsUntil stop (statement (expression n))).Runs us ss vs cs ∧ Cut vs rest ∧
      Call.nestingAll cs = h

theorem reads_nil : ReadsSentences 0 [] [] := by
  intro n stop rest us _ _ hrest hcut
  exact ⟨us, [], runs_items_stop fun t ht => (hrest t (hcut.head? ht)).1, hcut, rfl⟩

theorem reads_cons {h' : Nat} {ys tail : List Token} {s : Statement} {ss : List Statement}
    (d : Sentence h xs s) (hs : ReadsSentence h xs s) (hss : ReadsSentences h' tail ss)
    (hend : ∀ {rest : List Token}, (∀ t ∈ rest.head?, t.kind = .rightBrace) →
      Follows 0 (ys ++ rest) ∧ Ended (ys ++ rest) (tail ++ rest)) :
    ReadsSentences (max h h') (xs ++ ys) (s :: ss) := by
  intro n stop rest us hn hstop hrest hcut
  obtain ⟨hn, hn'⟩ := Nat.max_le.1 hn
  obtain ⟨hfollows, hended⟩ := hend fun t ht => (hrest t ht).2
  rw [List.append_assoc] at hcut
  obtain ⟨vs, cs, hrun, hvs, hh⟩ := hs hn hfollows hended hcut
  obtain ⟨ws, ds, hruns, hws, hh'⟩ := hss hn' hstop hrest hvs
  obtain ⟨t, xs, rfl, ht⟩ := d.starts
  have hus := hcut.cons (t := t) rfl (by rintro hk; rw [hk] at ht; cases ht)
  refine ⟨ws, cs ++ ds, ?_, hws, by rw [Call.nestingAll_append, hh, hh']⟩
  rw [hus] at hrun ⊢
  exact runs_items_step (hstop t ht) hrun hruns

theorem reads_ended {h' : Nat} {t : Token} {ys : List Token} {s : Statement} {ss : List Statement}
    (d : Sentence h xs s) (hs : ReadsSentence h xs s) (ht : t.kind = .semicolon)
    (hss : ReadsSentences h' ys ss) : ReadsSentences (max h h') (xs ++ t :: ys) (s :: ss) :=
  reads_cons d hs hss fun _ =>
    ⟨.ofKind ht (by decide) (by decide), .inl ⟨t, ht, List.cons_append⟩⟩

theorem reads_unended {h' : Nat} {ys : List Token} {s : Statement} {ss : List Statement}
    (d : Sentence h xs s) (hs : ReadsSentence h xs s) (hnext : ∀ t ∈ ys.head?, ¬ t.Continues)
    (ds : Sentences h' ys ss) (hss : ReadsSentences h' ys ss) :
    ReadsSentences (max h h') (xs ++ ys) (s :: ss) := by
  refine reads_cons d hs hss fun {rest} hrest => ?_
  cases ys with
  | nil =>
    refine ⟨fun t ht => ?_, .inr ⟨rfl, fun t ht => ?_⟩⟩
    · rw [hrest t ht]
      decide
    · rw [hrest t ht]
      decide
  | cons y ys =>
    have hy : y.kind.starts = true := ds.starts y rfl
    have hne (k : Kind) (hk : k.starts = false) : y.kind ≠ k := by
      rintro rfl
      exact Bool.noConfusion (hy.symm.trans hk)
    have hrank := hnext y rfl
    rw [Token.continues_iff] at hrank
    refine ⟨?_, .inr ⟨rfl, ?_⟩⟩
    · rintro _ ⟨⟩
      exact ⟨hne _ rfl, Nat.not_lt.1 hrank⟩
    · rintro _ ⟨⟩
      exact hne _ rfl

/-! ### Blocks -/

/-- The block `b` is read from the tokens `xs`, which start with a brace. -/
def ReadsBlock (h : Nat) (xs : List Token) (b : Block) : Prop :=
  ∀ {n : Nat} {rest us : List Token}, h ≤ n → Cut us (xs ++ rest) →
    (us.headD .endOfInput).kind = .leftBrace ∧ ∃ vs cs, (block (expression n)).Runs us b vs cs ∧
      Cut vs.tail rest ∧ Call.nestingAll cs = h

theorem reads_braces {l r : Token} {ss : List Statement} (hl : l.kind = .leftBrace)
    (hss : ReadsSentences h xs ss) (hr : r.kind = .rightBrace) :
    ReadsBlock h (l :: xs ++ [r]) ⟨l, ss⟩ := by
  intro n rest us hn hcut
  simp only [List.append_assoc, List.cons_append, List.nil_append] at hcut
  have hstop : ∀ t : Token, t.kind.starts = true → endsBlock t = false := by
    intro t ht
    rw [endsBlock]
    revert ht
    cases t.kind <;> decide
  have hrest : ∀ t ∈ (r :: rest).head?, endsBlock t = true ∧ t.kind = .rightBrace := by
    rintro _ ⟨⟩
    exact ⟨by rw [endsBlock, hr]; rfl, hr⟩
  obtain ⟨vs, cs, hrun, hvs, hh⟩ := hss hn hstop hrest hcut.tail
  have hhead := hcut.headD_eq hl (by decide)
  refine ⟨by rw [hhead, hl], vs, _, runs_rule_iff.2 ⟨cs, ?_, rfl⟩, hvs.tail, ?_⟩
  · rw [runs_current_bind, runs_advance_bind, hhead]
    exact hrun.map
  · rwa [Call.nestingAll_rule (by decide)]

/-- The alternative `a` of a conditional is read from the tokens `xs`. -/
def ReadsAlternative (h : Nat) (xs : List Token) (a : Option Block) : Prop :=
  ∀ {n : Nat} {rest us : List Token}, h ≤ n → Follows 6 rest → Cut us.tail (xs ++ rest) →
    ∃ vs cs, (alternative (expression n)).Runs us a vs cs ∧ Cut vs.tail rest ∧
      Call.nestingAll cs = h

theorem alternative_none : ReadsAlternative 0 [] none := by
  intro n rest us _ hrest hcut
  refine ⟨us, [], ?_, hcut, rfl⟩
  rw [alternative, runs_following_bind, if_neg]
  · exact runs_pure _ _
  · exact hcut.headD_kind_ne (by decide) fun t ht => (hrest t ht).1

theorem alternative_block {t : Token} {b : Block} (ht : t.kind = .kwElse) (hb : ReadsBlock h xs b) :
    ReadsAlternative h (t :: xs) (some b) := by
  intro n rest us hn _ hcut
  have hhead := hcut.headD_eq ht (by decide)
  obtain ⟨hbrace, vs, cs, hrun, hvs, hh⟩ := hb hn hcut.tail
  refine ⟨vs, cs, ?_, hvs, hh⟩
  rw [alternative, runs_following_bind, hhead, if_pos ht, runs_advance_bind, runs_expect_bind]
  exact ⟨hbrace, hrun.map⟩

theorem chains_conditional {hb ha : Nat} {t l r : Token} {bs as : List Token} {b : Block}
    {a : Option Block} (ht : t.kind = .kwIf) (hl : l.kind = .leftParen) (he : Read h 0 xs e)
    (hr : r.kind = .rightParen) (hbs : ReadsBlock hb bs b) (has : ReadsAlternative ha as a) :
    Chains (max (max h hb) ha + 1) 6 (t :: l :: xs ++ r :: bs ++ as) (.ifElse t e b a) := by
  simp only [List.append_assoc, List.cons_append]
  refine chains_of_rule ht (by decide) (r := .ifElse) (q := fun expr => conditional expr t)
    (by decide) (fun expr us => ?_) ?_
  · rw [operand, run_bind_silent rfl]
    simp only [List.headD_cons, ht]
  · intro n rest us hn hrest hcut
    have hn' := Nat.max_le.1 (Nat.le_of_succ_le_succ hn)
    obtain ⟨hne, hnb⟩ := Nat.max_le.1 hn'.1
    simp only [List.append_assoc, List.cons_append] at hcut
    obtain ⟨vs, cs, hrun, hvs, hh⟩ := he (p := .lowest) hne (by decide) (by decide)
      (.ofKind hr (by decide) (by decide)) hcut.tail
    obtain ⟨hbrace, ws, ds, hblock, hws, hhb⟩ := hbs hnb hvs.tail
    obtain ⟨zs, es, halt, hzs, hha⟩ := has hn'.2 (fun u hu => ⟨(hrest u hu).1, u.kind.rank_le⟩) hws
    refine ⟨zs, cs ++ (ds ++ es), ?_, hzs, ?_⟩
    · refine .expect (hcut.head?_eq hl (by decide)) hl ?_
      rw [runs_advance_bind]
      refine hrun.bind (.expect (hvs.head?_eq hr (by decide)) hr ?_)
      rw [runs_expect_bind]
      exact ⟨hbrace, hblock.bind halt.map⟩
    · rw [Call.nestingAll_append, Call.nestingAll_append, hh, hhb, hha, Nat.max_assoc]

theorem chains_function {t l r : Token} {bs : List Token} {ps : List Identifier} {b : Block}
    (ht : t.kind = .kwFn) (hl : l.kind = .leftParen) (d : Parameters xs ps)
    (hr : r.kind = .rightParen) (hb : ReadsBlock h bs b) :
    Chains (h + 1) 6 (t :: l :: xs ++ r :: bs) (.function t ps b) := by
  simp only [List.cons_append]
  refine chains_of_rule ht (by decide) (r := .function) (q := fun expr => function expr t)
    (by decide) (fun expr us => ?_) ?_
  · rw [operand, run_bind_silent rfl]
    simp only [List.headD_cons, ht]
  · intro n rest us hn _ hcut
    simp only [List.append_assoc, List.cons_append] at hcut
    obtain ⟨names, vs, hrun, rfl, hvs⟩ := parameters_runs d hr hcut.tail
    obtain ⟨hbrace, ws, cs, hblock, hws, hh⟩ := hb (Nat.le_of_succ_le_succ hn) hvs
    refine ⟨ws, cs, .expect (hcut.head?_eq hl (by decide)) hl ?_, hws, by rw [hh]⟩
    have hbody := hblock.map (g := Expr.function t (names.map .ofToken))
    exact hrun.bind (runs_expect_bind.2 ⟨hbrace, hbody⟩)

/-! ### Derivations -/

mutual

theorem chains {h l : Nat} {xs : List Token} {e : Expr} :
    Expression h l xs e → Chains h l xs e
  | .identifier hk => chains_identifier hk
  | .integer hk hv => chains_integer hk hv
  | .boolean hk => chains_boolean hk
  | .group hk d hr => chains_group hk (Chains.read (chains d)) hr
  | .conditional ht hl d hr db da =>
    chains_conditional ht hl (Chains.read (chains d)) hr (readsBlock db) (readsAlternative da)
  | .function ht hl dp hr db => chains_function ht hl dp hr (readsBlock db)
  | .call d hl da hr => chains_call (chains d) hl (readArguments da) hr
  | .unary hk d => chains_unary hk (Chains.read (chains d))
  | .binary dl ht hk dr => chains_binary (chains dl) ht hk (Chains.read (chains dr))
  | .looser hk d => Chains.looser (chains d) hk

theorem listsExpressions {h : Nat} {xs : List Token} {es : List Expr} :
    Expressions h xs es → ListsExpressions h xs es
  | .one d => lists_one (Chains.read (chains d))
  | .more ds hk d => lists_more (listsExpressions ds) hk (Chains.read (chains d))

theorem readArguments {h : Nat} {xs : List Token} {es : List Expr} :
    Arguments h xs es → ReadArguments h xs es
  | .none => arguments_none
  | .expressions d => arguments_expressions d (listsExpressions d)

theorem readsAlternative {h : Nat} {xs : List Token} {a : Option Block} :
    Alternative h xs a → ReadsAlternative h xs a
  | .none => alternative_none
  | .block ht d => alternative_block ht (readsBlock d)

theorem readsBlock {h : Nat} {xs : List Token} {b : Block} : Braces h xs b → ReadsBlock h xs b
  | .mk hl d hr => reads_braces hl (readsSentences d) hr

theorem readsSentence {h : Nat} {xs : List Token} {s : Statement} :
    Sentence h xs s → ReadsSentence h xs s
  | .letStmt ht hname heq d => reads_letStmt ht hname heq (Chains.read (chains d))
  | .returnStmt ht d => reads_returnStmt ht (Chains.read (chains d))
  | .exprStmt d => by
    obtain ⟨t, ys, hxs, ht⟩ := d.opens
    obtain ⟨rfl, rfl⟩ := List.cons.inj hxs
    exact reads_exprStmt ht (Chains.read (chains d))

theorem readsSentences {h : Nat} {xs : List Token} {ss : List Statement} :
    Sentences h xs ss → ReadsSentences h xs ss
  | .nil => reads_nil
  | .ended d ht ds => reads_ended d (readsSentence d) ht (readsSentences ds)
  | .unended d hnext ds => reads_unended d (readsSentence d) hnext ds (readsSentences ds)

end

theorem program_of_runs {ts us : List Token} {ss : List Statement} {cs : List Call}
    (hr : (itemsUntil (·.kind = .endOfInput)
      (statement (expression maxNesting))).Runs ts ss us cs) :
    (program ts).diagnostics = [] ∧ (program ts).value = ⟨ss⟩ := by
  obtain ⟨hv, -, hd, -⟩ := runs_iff.1 hr
  exact ⟨hd, congrArg Program.mk (Except.ok.inj hv)⟩

/-- The tokens of a derivation are read as its tree, unless the derivation takes more levels
than there are. -/
theorem program_of_sentences {h k : Nat} {ts : List Token} {ss : List Statement}
    (d : Sentences h (ts ++ List.replicate k .rightBrace) ss) :
    if h ≤ maxNesting then (program ts).diagnostics = [] ∧ (program ts).value = ⟨ss⟩
    else .nestingTooDeep maxNesting ∈ (program ts).diagnostics := by
  have hstop : ∀ t : Token, t.kind.starts = true → decide (t.kind = .endOfInput) = false := by
    intro t ht
    revert ht
    cases t.kind <;> decide
  have hcut : Cut ts ((ts ++ List.replicate k .rightBrace) ++ []) := ⟨k, (List.append_nil _).symm⟩
  split
  · next hle =>
    obtain ⟨vs, cs, hrun, -, -⟩ := readsSentences d hle hstop (by simp) hcut
    exact program_of_runs hrun
  · next hlt =>
    -- With as many levels as it takes the derivation is read, and has too many open at once.
    obtain ⟨vs, cs, hrun, -, hh⟩ := readsSentences d (Nat.le_refl h) hstop (by simp) hcut
    have hle : maxNesting ≤ h := Nat.le_of_not_le hlt
    have hagree := agreement_congruence.itemsUntil (expression_agreesWith hle)
      (·.kind = .endOfInput) ts
    rcases hagree with (hdeep | hdeep) | heq
    · exact hdeep
    · cases hdeep
    · have hcalls := nesting_items_le maxNesting (·.kind = .endOfInput) ts
      have hopen : Call.nestingAll (items (·.kind = .endOfInput)
          (statement (expression maxNesting)) ts).calls = h := by
        rw [← hh, ← (runs_iff.1 hrun).2.2.2, ← heq]
        rfl
      omega

end Grammar

/-- Whatever is derivable from the tokens of a source, braces that it lacks at its end put
there, is read without a diagnostic as the tree of the derivation, if it takes at most 64
levels. Otherwise the nesting is reported. -/
theorem parse_of_sentences {source : String} {h k : Nat} {ss : List Statement}
    (hn : '\x00' ∉ source.toList)
    (d : Sentences h (lex source ++ List.replicate k .rightBrace) ss) :
    if h ≤ 64 then (parse source).diagnostics = [] ∧ (parse source).value = ⟨ss⟩
    else .nestingTooDeep 64 ∈ (parse source).diagnostics := by
  rw [lex_eq_tokens hn] at d
  exact Grammar.program_of_sentences d

theorem parse_unclosed_conditional :
    let source := "if (a) \x7b -b(c * 2)"
    ∃ ss, '\x00' ∉ source.toList ∧
      Sentences 5 (lex source ++ List.replicate 1 .rightBrace) ss ∧
      (parse source).diagnostics = [] ∧ (parse source).value = ⟨ss⟩ := by
  intro source
  have hn : '\x00' ∉ source.toList := by decide
  have hlex : lex source ++ List.replicate 1 .rightBrace =
      ⟨.kwIf, "if"⟩ :: ⟨.leftParen, "("⟩ :: [⟨.identifier, "a"⟩] ++ ⟨.rightParen, ")"⟩ ::
        (⟨.leftBrace, "\x7b"⟩ :: (⟨.minus, "-"⟩ :: ([⟨.identifier, "b"⟩] ++ ⟨.leftParen, "("⟩ ::
          ([⟨.identifier, "c"⟩] ++ ⟨.star, "*"⟩ :: [⟨.integer, "2"⟩]) ++ [⟨.rightParen, ")"⟩])) ++
            [.rightBrace]) ++ [] ++ [] := by
    decide +kernel
  have times := Expression.binary (k := 6) (t := ⟨.star, "*"⟩)
    (.looser (by decide) (.identifier (t := ⟨.identifier, "c"⟩) rfl))
    (show _ = BinaryOp.kind .star from rfl) (by decide)
    (.integer (t := ⟨.integer, "2"⟩) rfl (by decide))
  have call := Expression.call (l := ⟨.leftParen, "("⟩) (r := ⟨.rightParen, ")"⟩)
    (.looser (by decide) (.identifier (t := ⟨.identifier, "b"⟩) rfl)) rfl
    (.expressions (.one (.looser (by decide) times))) rfl
  have negated := Expression.unary (t := ⟨.minus, "-"⟩)
    (show _ = UnaryOp.kind .minus from rfl) (.looser (by decide) call)
  have braces := Braces.mk (l := ⟨.leftBrace, "\x7b"⟩) (r := .rightBrace) rfl
    (.unended (.exprStmt (.looser (by decide) negated)) (by simp) .nil) rfl
  have conditional := Expression.conditional (t := ⟨.kwIf, "if"⟩) (l := ⟨.leftParen, "("⟩)
    (r := ⟨.rightParen, ")"⟩) rfl rfl
    (.looser (by decide) (.identifier (t := ⟨.identifier, "a"⟩) rfl)) rfl braces .none
  have sentences := Sentences.unended (.exprStmt (.looser (by decide) conditional)) (by simp) .nil
  obtain ⟨ss, d⟩ : ∃ ss, Sentences 5 (lex source ++ List.replicate 1 .rightBrace) ss := by
    rw [hlex]
    exact ⟨_, sentences⟩
  exact ⟨ss, hn, d, parse_of_sentences hn d⟩

end Monkey
