import Monkey.Proofs.Concatenation

/-! The braces that blocks end at. A statement that is given up is resumed behind the token that it
was given up on. Where that token is a brace, the loop over the statements steps over it without
opening or closing a block, and the block around takes another brace for its own. A block inside
which this does not happen ends at the brace that closes it by counting, however many statements in
it are dropped. -/

namespace Monkey

open Monkey.Parser

/-! ### Counting braces -/

def Kind.isBrace (k : Kind) : Bool := k = .leftBrace || k = .rightBrace

/-- The tokens from the brace on that closes a block in which `n` others are open. There are none
where it is not closed. -/
def closing : Nat → List Token → List Token
  | _, [] => []
  | n, t :: ts =>
    if t.kind = .leftBrace then closing (n + 1) ts
    else if t.kind = .rightBrace then
      match n with
      | 0 => t :: ts
      | m + 1 => closing m ts
    else closing n ts

/-- The number of blocks open behind the tokens, of `n` in front of them, unless these are closed
and one more. -/
def openBehind : Nat → List Token → Option Nat
  | n, [] => some n
  | n, t :: ts =>
    if t.kind = .leftBrace then openBehind (n + 1) ts
    else if t.kind = .rightBrace then
      match n with
      | 0 => none
      | m + 1 => openBehind m ts
    else openBehind n ts

section Closing

variable {n : Nat} {t : Token} {ts us vs : List Token}

theorem closing_leftBrace (h : t.kind = .leftBrace) : closing n (t :: ts) = closing (n + 1) ts := by
  cases n <;> simp [closing, h]

theorem closing_succ_rightBrace (h : t.kind = .rightBrace) :
    closing (n + 1) (t :: ts) = closing n ts := by
  simp [closing, h]

theorem closing_cons (h : t.kind.isBrace = false) : closing n (t :: ts) = closing n ts := by
  obtain ⟨hl, hr⟩ : t.kind ≠ .leftBrace ∧ t.kind ≠ .rightBrace := by simpa [Kind.isBrace] using h
  cases n <;> simp [closing, hl, hr]

/-- A closing brace closes the block around it, and so does the end of the input. -/
theorem closing_eq_self (h : ∀ t ∈ ts.head?, t.kind = .rightBrace) : closing 0 ts = ts := by
  cases ts with
  | nil => rfl
  | cons t ts => simp [closing, h t rfl]

/-- The tokens from the brace on that closes any block are the same in both lists. -/
def Balances (ts us : List Token) : Prop := ∀ n, closing n ts = closing n us

namespace Balances

theorem refl (ts : List Token) : Balances ts ts := fun _ => rfl

theorem trans (h : Balances ts us) (h' : Balances us vs) : Balances ts vs :=
  fun n => (h n).trans (h' n)

/-- A token that is no brace makes no difference. -/
theorem tail (h : (ts.headD .endOfInput).kind.isBrace = false) : Balances ts ts.tail := by
  cases ts with
  | nil => exact refl []
  | cons t ts => exact fun n => closing_cons h

theorem of_openBehind {xs : List Token} {m k : Nat} (h : openBehind m xs = some k) (n : Nat) :
    closing (n + m) (xs ++ us) = closing (n + k) us := by
  fun_induction openBehind m xs with
  | case1 m =>
    obtain rfl := Option.some.inj h
    rfl
  | case2 m t ts hl ih => rw [List.cons_append, closing_leftBrace hl, ← ih h, Nat.add_assoc]
  | case3 t ts hl hr => cases h
  | case4 t ts hl hr m ih =>
    rw [List.cons_append, ← ih h]
    exact closing_succ_rightBrace hr
  | case5 m t ts hl hr ih =>
    have hbrace : t.kind.isBrace = false := by simp [Kind.isBrace, hl, hr]
    rw [List.cons_append, closing_cons hbrace, ih h]

/-- A block that ends with the input or at a brace of its own makes no difference. -/
theorem block (h : (ts.headD .endOfInput).kind = .leftBrace) (hb : Balances ts.tail us)
    (hu : ∀ t ∈ us.head?, t.kind = .rightBrace) : Balances ts us.tail := by
  intro n
  cases ts with
  | nil => cases h
  | cons t ts =>
    apply (closing_leftBrace h).trans
    apply (hb (n + 1)).trans
    cases us with
    | nil => rfl
    | cons u us => exact closing_succ_rightBrace (hu u rfl)

end Balances

end Closing

/-! ### Calls -/

mutual

/-- A call and the calls made inside it, at any depth. -/
def Call.within : Call → List Call
  | ⟨rule, start, stop, complete, calls⟩ =>
    ⟨rule, start, stop, complete, calls⟩ :: Call.withinAll calls

def Call.withinAll : List Call → List Call
  | [] => []
  | c :: cs => c.within ++ Call.withinAll cs

end

namespace Call

theorem withinAll_append (cs ds : List Call) :
    withinAll (cs ++ ds) = withinAll cs ++ withinAll ds := by
  induction cs with
  | nil => rfl
  | cons c cs ih => simp only [List.cons_append, withinAll, ih, List.append_assoc]

/-- Whether a call is a statement given up on a brace that, with the tokens in front of it, leaves the
count of open blocks changed. -/
def strays (c : Call) : Bool :=
  c.rule = .statement && !c.complete && c.stop.head?.any (·.kind.isBrace) &&
    openBehind 0 (c.start.take (c.start.length - c.stop.length + 1)) ≠ some 0

theorem strays_statement {ts us : List Token} {ok : Bool} {cs : List Call}
    (h : countAll strays [⟨.statement, ts, us, ok, cs⟩] = 0) :
    countAll strays cs = 0 ∧ strays ⟨.statement, ts, us, ok, cs⟩ = false := by
  simpa [countAll, count] using h

theorem balances_of_not_strays {ts us : List Token} {cs : List Call} (hsuffix : us <:+ ts)
    (hbrace : (us.headD .endOfInput).kind.isBrace = true)
    (h : strays ⟨.statement, ts, us, false, cs⟩ = false) : Balances ts us.tail := by
  obtain ⟨xs, rfl⟩ := hsuffix
  cases us with
  | nil => cases hbrace
  | cons u us =>
    have hlength : (xs ++ u :: us).length - (u :: us).length + 1 = (xs ++ [u]).length := by simp
    have hcount : openBehind 0 (xs ++ [u]) = some 0 := by
      rw [strays, hlength, List.append_cons, List.take_left] at h
      simpa [show u.kind.isBrace = true from hbrace] using h
    intro n
    rw [List.append_cons]
    exact Balances.of_openBehind hcount n

/-- A block starts on its opening brace. It ends at the brace that closes it, or with the input, if
no statement inside it is given up on a stray brace. -/
structure EndsAtBrace (c : Call) : Prop where
  opens : ∃ t ∈ c.start.head?, t.kind = .leftBrace
  stop_eq : countAll strays c.calls = 0 → c.stop = closing 0 c.start.tail

theorem EndsAtBrace.of_balances {ts us : List Token} {ok : Bool} {cs : List Call}
    (hbrace : (ts.headD .endOfInput).kind = .leftBrace)
    (hclosed : ∀ t ∈ us.head?, t.kind = .rightBrace)
    (hbalances : countAll strays cs = 0 → Balances ts.tail us) :
    EndsAtBrace ⟨.block, ts, us, ok, cs⟩ where
  opens := by
    cases ts with
    | nil => cases hbrace
    | cons t ts => exact ⟨t, rfl, hbrace⟩
  stop_eq hs := ((hbalances hs 0).trans (closing_eq_self hclosed)).symm

/-- All blocks among the calls, at any depth, end at their braces. -/
def BlocksEnd (cs : List Call) : Prop := ∀ c ∈ withinAll cs, c.rule = .block → c.EndsAtBrace

theorem BlocksEnd.nil : BlocksEnd [] := nofun

theorem BlocksEnd.append {cs ds : List Call} (hc : BlocksEnd cs) (hd : BlocksEnd ds) :
    BlocksEnd (cs ++ ds) := by
  rw [BlocksEnd, withinAll_append]
  exact List.forall_mem_append.2 ⟨hc, hd⟩

theorem BlocksEnd.call {r : Rule} {ts us : List Token} {ok : Bool} {cs : List Call}
    (h : r = .block → EndsAtBrace ⟨r, ts, us, ok, cs⟩) (hc : BlocksEnd cs) :
    BlocksEnd [⟨r, ts, us, ok, cs⟩] := by
  rw [BlocksEnd, withinAll, withinAll, List.append_nil, within]
  exact List.forall_mem_cons.2 ⟨h, hc⟩

theorem strays_of_ne {r : Rule} (hr : r ≠ .statement) (ts us : List Token) (ok : Bool)
    (cs : List Call) : countAll strays [⟨r, ts, us, ok, cs⟩] = countAll strays cs := by
  simp [countAll, count, strays, hr]

end Call

/-! ### Outcomes -/

/-- What an outcome leaves balances the tokens `ts`: where a value is had, what stands behind the first
`j` tokens ahead; where it is not, what stands behind the current token, if this is no brace. -/
structure Outcome.Balanced {α : Type} (ts : List Token) (j : Nat)
    (o : Outcome (Except Diagnostic α)) : Prop where
  blocks : Call.BlocksEnd o.calls
  value : Call.countAll Call.strays o.calls = 0 → ∀ a, o.value = .ok a →
    Balances ts (o.ahead.drop j)
  failure : Call.countAll Call.strays o.calls = 0 → ∀ d, o.value = .error d →
    (o.ahead.headD .endOfInput).kind.isBrace = false → Balances ts o.ahead.tail

theorem Outcome.Balanced.after {α : Type} {ts us : List Token} {j : Nat}
    {o : Outcome (Except Diagnostic α)} (ho : o.Balanced us j) (h : Balances ts us) :
    o.Balanced ts j :=
  ⟨ho.blocks, fun hs a ha => h.trans (ho.value hs a ha),
    fun hs d hd hbrace => h.trans (ho.failure hs d hd hbrace)⟩

namespace Parser

variable {α β : Type} {i j k : Nat}

/-- Behind the first `i` tokens that the parser starts with, and behind the first `j` that it ends
with, braces are balanced alike. A rule that starts on a token that is no brace may take `i` to be 0
or 1; it is 0 where a brace may be the current token, so that failing on it is seen. -/
def Balanced (i : Nat) (p : Parser α) (j : Nat) : Prop :=
  ∀ ts, Unmarked ts → (p.run ts).Balanced (ts.drop i) j

namespace Balanced

variable {p : Parser α} {f : α → Parser β}

theorem bind_run {ts us : List Token} (hp : (p.run ts).Balanced us j)
    (hf : ∀ a, (p.run ts).value = .ok a →
      ((f a).run (p.run ts).ahead).Balanced ((p.run ts).ahead.drop j) k) :
    ((p >>= f).run ts).Balanced us k := by
  cases hv : (p.run ts).value with
  | error d =>
    rw [run_bind_error hv]
    exact ⟨hp.blocks, (fun _ _ hb => nomatch hb), fun hs _ _ => hp.failure hs d hv⟩
  | ok a =>
    rw [run_bind_ok hv]
    have hrest := hf a hv
    have hsplit (hs : Call.countAll Call.strays
        ((p.run ts).followedBy ((f a).run (p.run ts).ahead)).calls = 0) :
        Balances us ((p.run ts).ahead.drop j) ∧
          Call.countAll Call.strays ((f a).run (p.run ts).ahead).calls = 0 := by
      rw [Outcome.followedBy, Call.countAll_append, Nat.add_eq_zero_iff] at hs
      exact ⟨hp.value hs.1 a hv, hs.2⟩
    refine ⟨hp.blocks.append hrest.blocks, fun hs b hb => ?_, fun hs d hd hbrace => ?_⟩
    · exact (hsplit hs).1.trans (hrest.value (hsplit hs).2 b hb)
    · exact (hsplit hs).1.trans (hrest.failure (hsplit hs).2 d hd hbrace)

theorem bind (hp : Balanced i p j) (hf : ∀ a, Balanced j (f a) k) : Balanced i (p >>= f) k :=
  fun ts hu => bind_run (hp ts hu) fun a _ => hf a _ (hu.suffix (p.ahead_suffix ts))

/-- What gives a value at once. -/
theorem silent_run {ts us : List Token} {o : Outcome (Except Diagnostic α)} {a : α}
    (ho : o = ⟨.ok a, us, [], []⟩) (h : Balances ts (us.drop j)) : o.Balanced ts j := by
  rw [ho]
  exact ⟨.nil, fun _ _ _ => h, fun _ _ hd => nomatch hd⟩

theorem pure (a : α) : Balanced k (pure a) k := fun _ _ => silent_run rfl (.refl _)

theorem current : Balanced k current k := fun _ _ => silent_run rfl (.refl _)

theorem advance : Balanced (k + 1) advance k := by
  intro ts _
  refine silent_run rfl ?_
  rw [List.drop_tail]
  exact .refl _

theorem fail_run {ts us : List Token} (d : Diagnostic)
    (h : (us.headD .endOfInput).kind.isBrace = false → Balances ts us.tail) :
    ((fail d : Parser α).run us).Balanced ts j :=
  ⟨.nil, (fun _ _ ha => nomatch ha), fun _ _ _ => h⟩

/-- Failing on the current token, counted or not. -/
theorem fail (d : Diagnostic) (hi : i ≤ 1) : Balanced i (fail d : Parser α) j := by
  intro ts _
  apply fail_run
  match i, hi with
  | 0, _ => exact Balances.tail
  | 1, _ => exact fun _ => List.drop_one ▸ .refl _

theorem rule {r : Rule} (hr : r ≠ .statement ∧ r ≠ .block) (hp : Balanced i p j) :
    Balanced i (rule r p) j := by
  intro ts hu
  obtain ⟨hblocks, hvalue, hfailure⟩ := hp ts hu
  refine ⟨.call (fun h => absurd h hr.2) hblocks, fun hs => ?_, fun hs => ?_⟩
  · exact hvalue ((Call.strays_of_ne hr.1 _ _ _ _).symm.trans hs)
  · exact hfailure ((Call.strays_of_ne hr.1 _ _ _ _).symm.trans hs)

/-- A current token that is no brace may be counted at once. -/
theorem current_bind {f : Token → Parser β}
    (hf : ∀ t, Balanced 0 (f t) k ∨ t.kind.isBrace = false ∧ Balanced 1 (f t) k) :
    Balanced 0 (Parser.current >>= f) k := by
  intro ts hu
  rw [run_bind_silent rfl]
  rcases hf (ts.headD .endOfInput) with h | ⟨ht, h⟩
  · exact h ts hu
  · have hrest := h ts hu
    rw [List.drop_one] at hrest
    exact hrest.after (.tail ht)

/-- And so may a following token. -/
theorem following_bind {f : Token → Parser β}
    (hf : ∀ t, Balanced 1 (f t) k ∨ t.kind.isBrace = false ∧ Balanced 2 (f t) k) :
    Balanced 1 (following >>= f) k := by
  intro ts hu
  rw [run_bind_silent rfl]
  rcases hf (ts.tail.headD .endOfInput) with h | ⟨ht, h⟩
  · exact h ts hu
  · have hrest := h ts hu
    rw [← List.tail_drop, List.drop_one] at hrest
    rw [List.drop_one]
    exact hrest.after (.tail ht)

theorem expect {want : Kind} (h : want.isBrace = false) :
    Balanced 1 (expect want) 1 := by
  refine following_bind fun t => ?_
  by_cases ht : t.kind = want
  · rw [if_pos ht]
    exact .inr ⟨ht ▸ h, advance.bind fun _ => pure t⟩
  · rw [if_neg ht]
    exact .inl (fail _ (Nat.le_refl 1))

theorem accept {want : Kind} (h : want.isBrace = false) :
    Balanced 1 (accept want) 1 := by
  refine following_bind fun t => ?_
  by_cases ht : t.kind = want
  · rw [if_pos ht]
    exact .inr ⟨ht ▸ h, advance⟩
  · rw [if_neg ht]
    exact .inl (pure ())

/-! ### Repetition -/

theorem extend {ready : Token → Bool} {step : α → Parser α} (a : α)
    (hr : ∀ t, ready t = true → t.kind.isBrace = false) (hs : ∀ a, Balanced 1 (step a) 1) :
    Balanced 1 (extend ready step a) 1 := by
  intro ts hu
  change (extending ready step a ts).Balanced (ts.drop 1) 1
  induction a, ts using extending.induct ready step with
  | case1 a t u ts hready o b hv ih =>
    have hu' : Unmarked (u :: ts) := hu.suffix (List.suffix_cons t _)
    rw [extending_ready hready]
    refine (bind_run (hs a (u :: ts) hu') fun b' hv' => ?_).after (Balances.tail (hr u hready))
    obtain rfl : b = b' := Except.ok.inj (hv.symm.trans hv')
    exact ih (hu'.suffix ((step a).ahead_suffix _))
  | case2 a t u ts hready o d hv =>
    have hu' : Unmarked (u :: ts) := hu.suffix (List.suffix_cons t _)
    rw [extending_ready hready]
    refine (bind_run (hs a (u :: ts) hu') fun b hv' => ?_).after (Balances.tail (hr u hready))
    exact nomatch hv.symm.trans hv'
  | case3 a t u ts hready =>
    simp only [extending, if_neg hready]
    exact silent_run rfl (.refl _)
  | case4 a ts hshort =>
    have hrun : extending ready step a ts = ⟨.ok a, ts, [], []⟩ := by
      rcases ts with _ | ⟨t, _ | ⟨u, ts⟩⟩
      · rw [extending]
        exact hshort
      · rw [extending]
        exact hshort
      · exact absurd rfl (hshort t u ts)
    exact silent_run hrun (.refl _)

end Balanced

/-- What stands behind the token that the parser stops on balances the tokens it started with. -/
def Resumes (p : Parser α) : Prop :=
  ∀ ts, Unmarked ts → Call.BlocksEnd (p.run ts).calls ∧
    (Call.countAll Call.strays (p.run ts).calls = 0 → Balances ts (p.run ts).ahead.tail)

/-- Statements are resumed behind the token that one has stopped on. -/
theorem Balanced.resumes {p : Parser α} (hp : Balanced 0 p 1) :
    (Parser.rule .statement p).Resumes := by
  intro ts hu
  obtain ⟨hblocks, hvalue, hfailure⟩ := hp ts hu
  refine ⟨.call nofun hblocks, fun hs => ?_⟩
  obtain ⟨hs, hstray⟩ := Call.strays_statement hs
  cases hv : (p.run ts).value with
  | ok a =>
    have hbalances := hvalue hs a hv
    rwa [List.drop_one] at hbalances
  | error d =>
    by_cases hbrace : ((p.run ts).ahead.headD .endOfInput).kind.isBrace = true
    · rw [hv] at hstray
      exact Call.balances_of_not_strays (p.ahead_suffix ts) hbrace hstray
    · exact hfailure hs d hv (Bool.not_eq_true _ ▸ hbrace)

/-- Reading items goes over balanced braces if each of them does. -/
theorem Resumes.items {item : Parser α} (hi : item.Resumes) (stop : Token → Bool)
    {ts : List Token} (hu : Unmarked ts) : Call.BlocksEnd (items stop item ts).calls ∧
      (Call.countAll Call.strays (items stop item ts).calls = 0 →
        Balances ts (items stop item ts).ahead) := by
  induction ts using items_induction stop item with
  | nil =>
    rw [Parser.items]
    exact ⟨.nil, fun _ => .refl []⟩
  | done t ts ht =>
    rw [Parser.items, if_pos ht]
    exact ⟨.nil, fun _ => .refl _⟩
  | step t ts ht ih =>
    obtain ⟨hblocks, hbalances⟩ := hi (t :: ts) hu
    obtain ⟨hrest, hrestBalances⟩ :=
      ih (hu.suffix ((List.tail_suffix _).trans (item.ahead_suffix (t :: ts))))
    rw [items_cons ht, Outcome.beforeItems_calls, Outcome.beforeItems_ahead, Call.countAll_append,
      Nat.add_eq_zero_iff]
    exact ⟨hblocks.append hrest, fun hs => (hbalances hs.1).trans (hrestBalances hs.2)⟩

end Parser

namespace Grammar

section Rules

variable {expr : Precedence → Parser Expr} (hx : ∀ p, Balanced 0 (expr p) 1)

include hx

/-! ### Statements and blocks -/

theorem letStatement_balanced : Balanced 1 (letStatement expr) 1 :=
  Balanced.current.bind fun _ => (Balanced.expect (by decide)).bind fun _ =>
    (Balanced.expect (by decide)).bind fun _ => Balanced.advance.bind fun _ => (hx _).bind fun _ =>
      (Balanced.accept (by decide)).bind fun _ => .pure _

theorem returnStatement_balanced : Balanced 1 (returnStatement expr) 1 :=
  Balanced.current.bind fun _ => Balanced.advance.bind fun _ => (hx _).bind fun _ =>
    (Balanced.accept (by decide)).bind fun _ => .pure _

theorem exprStatement_balanced : Balanced 0 (exprStatement expr) 1 :=
  Balanced.current.bind fun _ => (hx _).bind fun _ =>
    (Balanced.accept (by decide)).bind fun _ => .pure _

theorem statement_resumes : (statement expr).Resumes := by
  refine Balanced.resumes (.current_bind fun t => ?_)
  split
  · next hk => exact .inr ⟨hk ▸ rfl, .rule (by decide) (letStatement_balanced hx)⟩
  · next hk => exact .inr ⟨hk ▸ rfl, .rule (by decide) (returnStatement_balanced hx)⟩
  · exact .inl (.rule (by decide) (exprStatement_balanced hx))

omit hx in
/-- The statements of a block are read up to a closing brace or to the end of the input. -/
theorem block_closed {ts : List Token} (hu : Unmarked ts) :
    ∀ t ∈ (items endsBlock (statement expr) ts).ahead.head?, t.kind = .rightBrace := by
  intro t ht
  have hends := items_stop endsBlock (statement expr) ts t ht
  have hmark := hu.suffix (items_suffix _ _ _) t (List.mem_of_mem_head? ht)
  simpa [endsBlock, hmark] using hends

/-- A block that starts on a brace goes over it and the one that closes it. -/
theorem block_balanced {ts : List Token} (hu : Unmarked ts)
    (hbrace : (ts.headD .endOfInput).kind = .leftBrace) : ((block expr).run ts).Balanced ts 1 := by
  have hu' : Unmarked ts.tail := hu.suffix (List.tail_suffix ts)
  have hclosed : ∀ t ∈ (items endsBlock (statement expr) ts.tail).ahead.head?,
      t.kind = .rightBrace := block_closed hu'
  obtain ⟨hblocks, hbalances⟩ := (statement_resumes hx).items endsBlock hu'
  rw [block_run]
  refine ⟨.call (fun _ => .of_balances hbrace hclosed hbalances) hblocks, fun hs _ _ => ?_,
    fun _ _ hd => ?_⟩
  · have hnone := (Call.strays_of_ne (by decide) _ _ _ _).symm.trans hs
    rw [List.drop_one]
    exact .block hbrace (hbalances hnone) hclosed
  · cases hd

/-- Where an opening brace follows, it is moved onto and its block read. -/
theorem expect_block_bind {β : Type} {f : Block → Parser β} {k : Nat}
    (hf : ∀ b, Balanced 1 (f b) k) :
    Balanced 1 (Parser.expect .leftBrace >>= fun _ => block expr >>= f) k := by
  have hblock : Balanced 1 (Parser.expect .leftBrace >>= fun _ => block expr) 1 := by
    intro ts hu
    rw [List.drop_one]
    by_cases hk : (ts.tail.headD .endOfInput).kind = .leftBrace
    · rw [run_bind_silent (run_expect_of_eq hk)]
      exact block_balanced hx (hu.suffix (List.tail_suffix ts)) hk
    · rw [run_bind_error (by rw [run_expect_of_ne hk]), run_expect_of_ne hk]
      exact Balanced.fail_run _ fun _ => .refl _
  rw [← bind_assoc]
  exact hblock.bind hf

/-! ### Operands and operators -/

omit hx in
theorem parenthesized_balanced {α : Type} {item : Parser α} (hi : Balanced 1 item 1) :
    Balanced 1 (parenthesized item) 1 := by
  refine .following_bind fun t => ?_
  split
  · next hk => exact .inr ⟨hk ▸ rfl, Balanced.advance.bind fun _ => .pure []⟩
  · refine .inl (hi.bind fun a => (Balanced.extend [a] (fun t ht => ?_) fun as =>
      hi.bind fun b => .pure (as ++ [b])).bind fun as => ?_)
    · rw [of_decide_eq_true ht]
      rfl
    · exact (Balanced.expect (by decide)).bind fun _ => .pure as

theorem alternative_balanced : Balanced 1 (alternative expr) 1 := by
  refine .following_bind fun t => ?_
  split
  · next hk =>
    exact .inr ⟨hk ▸ rfl, Balanced.advance.bind fun _ => expect_block_bind hx fun _ => .pure _⟩
  · exact .inl (.pure _)

theorem conditional_balanced (t : Token) : Balanced 1 (conditional expr t) 1 :=
  (Balanced.expect (by decide)).bind fun _ => Balanced.advance.bind fun _ => (hx _).bind fun _ =>
    (Balanced.expect (by decide)).bind fun _ => expect_block_bind hx fun _ =>
      (alternative_balanced hx).bind fun _ => .pure _

theorem function_balanced (t : Token) : Balanced 1 (function expr t) 1 :=
  (Balanced.expect (by decide)).bind fun _ =>
    (parenthesized_balanced (.expect (by decide))).bind fun _ => expect_block_bind hx fun _ =>
      .pure _

theorem operand_balanced : Balanced 0 (operand expr) 1 := by
  have hunary (t : Token) (op : UnaryOp) : Balanced 1 (unary expr t op) 1 :=
    Balanced.advance.bind fun _ => (hx _).bind fun _ => .pure _
  have hgroup : Balanced 1 (group expr) 1 :=
    Balanced.advance.bind fun _ => (hx _).bind fun _ =>
      (Balanced.expect (by decide)).bind fun _ => .pure _
  have hinteger (t : Token) : Balanced 1 (integer t) 1 := by
    unfold integer
    split
    · exact .pure _
    · exact .fail _ (Nat.le_refl 1)
  have hrule {t : Token} {k : Kind} {r : Rule} {p : Parser Expr} (hk : t.kind = k)
      (hr : r ≠ .statement ∧ r ≠ .block) (hb : k.isBrace = false) (hp : Balanced 1 p 1) :
      Balanced 0 (rule r p) 1 ∨ t.kind.isBrace = false ∧ Balanced 1 (rule r p) 1 :=
    .inr ⟨hk ▸ hb, .rule hr hp⟩
  refine .current_bind fun t => ?_
  split
  · next hk => exact hrule hk (by decide) rfl (.pure _)
  · next hk => exact hrule hk (by decide) rfl (hinteger t)
  · next hk => exact hrule hk (by decide) rfl (.pure _)
  · next hk => exact hrule hk (by decide) rfl (.pure _)
  · next hk => exact hrule hk (by decide) rfl (hunary t _)
  · next hk => exact hrule hk (by decide) rfl (hunary t _)
  · next hk => exact hrule hk (by decide) rfl hgroup
  · next hk => exact hrule hk (by decide) rfl (conditional_balanced hx t)
  · next hk => exact hrule hk (by decide) rfl (function_balanced hx t)
  · exact .inl (.fail _ (Nat.zero_le 1))

theorem suffix_balanced (left : Expr) : Balanced 1 (suffix expr left) 1 := by
  refine Balanced.current.bind fun t => ?_
  split
  · refine .rule (by decide) (Balanced.advance.bind fun _ => (hx _).bind fun _ => ?_)
    exact .pure _
  · refine .rule (by decide) ((parenthesized_balanced ?_).bind fun _ => .pure _)
    exact Balanced.advance.bind fun _ => hx _

theorem chain_balanced (p : Precedence) : Balanced 0 (chain expr p) 1 := by
  refine (operand_balanced hx).bind fun left => .extend left (fun t ht => ?_) (suffix_balanced hx)
  have hrank : p.rank < t.kind.precedence.rank := of_decide_eq_true ht
  rw [Kind.isBrace]
  cases hk : t.kind <;> simp_all [Kind.precedence, Precedence.rank]

end Rules

theorem expression_balanced (n : Nat) (p : Precedence) : Balanced 0 (expression n p) 1 := by
  induction n generalizing p with
  | zero => exact .fail _ (Nat.zero_le 1)
  | succ n ih => exact .rule (by decide) (chain_balanced ih p)

end Grammar

/-- Every block starts on its opening brace. It ends at the brace that closes it by counting, or with
the input where there is none, if no statement inside it is given up on a brace that it leaves
unbalanced. -/
theorem parse_blocks_end (source : String) (hn : '\x00' ∉ source.toList) :
    ∀ c ∈ Call.withinAll (parse source).calls, c.rule = .block → c.EndsAtBrace :=
  have hstatement := Grammar.statement_resumes (Grammar.expression_balanced Grammar.maxNesting)
  (hstatement.items _ (Token.stream_unmarked hn)).1

theorem parse_blocks_end_malformed :
    let source := "fn()\x7blet 1; if x; 2 \x7d; (fn(a)\x7bfn(\x7d"
    '\x00' ∉ source.toList ∧ (parse source).diagnostics.length = 4 ∧
    (∀ c ∈ Call.withinAll (parse source).calls, Call.countAll Call.strays c.calls = 0) ∧
    ∀ c ∈ Call.withinAll (parse source).calls, c.rule = .block →
      c.stop = closing 0 c.start.tail := by
  intro source
  have hn : '\x00' ∉ source.toList := by decide
  have hnone : ∀ c ∈ Call.withinAll (parse source).calls,
      Call.countAll Call.strays c.calls = 0 := by decide +kernel
  exact ⟨hn, by decide +kernel, hnone, fun c hc hb =>
    (parse_blocks_end source hn c hc hb).stop_eq (hnone c hc)⟩

/-- A block goes past its end where a statement in it is given up on its closing brace, and stops
short of it where one is given up on an opening brace. -/
theorem parse_block_past_brace :
    (∃ c ∈ Call.withinAll (parse "fn()\x7blet x=\x7dy").calls, c.rule = .block ∧
      c.stop.length < (closing 0 c.start.tail).length) ∧
    ∃ c ∈ Call.withinAll (parse "fn()\x7bif x\x7by\x7dz\x7d").calls, c.rule = .block ∧
      (closing 0 c.start.tail).length < c.stop.length := by
  decide +kernel

end Monkey
