import Monkey.Proofs.Machine.Refinement

/-! Every routine of the machine ends, whatever state it is started in. A call has less to read
than the call it is made in, or as much and one more expression open around it, or is a call
of a routine of lower rank; the iterations of a loop are such calls too. A mark of a null
character may stand anywhere, so the tokens in view are weighed beside the text ahead. -/

namespace Monkey

open Monkey.Parser

namespace Machine

variable {α β : Type} {s s₀ : State}

/-! ### What is left to read -/

/-- A mark of the end does not count as something to read. -/
def tokenWeight (t : Token) : Nat := if t.kind = .endOfInput then 0 else 1

theorem tokenWeight_le (t : Token) : tokenWeight t ≤ 1 := by
  unfold tokenWeight
  split <;> omega

theorem tokenWeight_pos {t : Token} (h : t.kind ≠ .endOfInput) : 0 < tokenWeight t := by
  rw [tokenWeight, if_neg h]
  exact Nat.one_pos

/-- The text ahead and the tokens in view. What is farther from being passed over weighs more. -/
def State.weight (s : State) : Nat :=
  3 * s.lexer.ahead.length + 2 * tokenWeight s.following + tokenWeight s.current

theorem next_length (l : Lexer) : l.next.2.ahead.length < l.ahead.length ∨
    l.next.2.ahead.length = 0 ∧ tokenWeight l.next.1 = 0 := by
  unfold Lexer.next
  split
  · exact .inr ⟨rfl, rfl⟩
  · next hs => exact .inl (Token.scan?_length hs)

/-- Moving on leaves less to read, until nothing is left. -/
theorem weight_advance (s : State) : (Action.advance.perform s).weight < s.weight ∨
    (Action.advance.perform s).weight = 0 := by
  have hnext := tokenWeight_le s.lexer.next.1
  simp only [Action.perform, State.weight]
  rcases next_length s.lexer with hl | ⟨hl, hk⟩
  · omega
  · rw [hl, hk]
    omega

theorem weight_pos_of_current (h : s.current.kind ≠ .endOfInput) : 0 < s.weight := by
  have := tokenWeight_pos h
  rw [State.weight]
  omega

theorem weight_pos_of_following (h : s.following.kind ≠ .endOfInput) : 0 < s.weight := by
  have := tokenWeight_pos h
  rw [State.weight]
  omega

/-! ### Below a call -/

/-- The place of a routine among those that are called before anything is read. -/
def Routine.rank : Routine → Nat
  | expression _ => 0
  | operators _ _ => 0
  | moreParameters _ => 0
  | letStatement => 1
  | returnStatement => 1
  | exprStatement => 1
  | operand _ => 1
  | parameters => 1
  | moreArguments _ => 1
  | statement => 2
  | chain _ => 2
  | arguments => 2
  | statements _ _ => 3
  | suffix _ _ => 3
  | block => 4
  | program => 4

/-- What gets less from call to call: what is left to read, the expressions that may still be
opened, and the rank. -/
def Routine.measure (c : Routine) (s : State) : Nat × Nat × Nat :=
  (s.weight, Grammar.maxNesting - s.nesting, c.rank)

/-- The first of the numbers that differ gets less. -/
def Smaller : Nat × Nat × Nat → Nat × Nat × Nat → Prop :=
  Prod.Lex (· < ·) (Prod.Lex (· < ·) (· < ·))

theorem smaller_wf : WellFounded Smaller :=
  (Prod.lex Nat.lt_wfRel (Prod.lex Nat.lt_wfRel Nat.lt_wfRel)).wf

/-- An event inside a call: if it is a call it is smaller than that one, and so on inside. -/
inductive Event.Below : Routine → State → Event → Prop where
  | action {c : Routine} {s s' : State} {a : Action} : Event.Below c s (.action a s')
  | call {c c' : Routine} {s s' s'' : State} {r : Option c'.Result} {es : List Event} :
    Smaller (c'.measure s') (c.measure s) → (∀ e ∈ es, Event.Below c' s' e) →
    Event.Below c s (.call c' s' r s'' es)

/-- There is not more to read than at the beginning, and the same expressions are open. -/
structure Within (s₀ s : State) : Prop where
  weight_le : s.weight ≤ s₀.weight
  nesting_eq : s.nesting = s₀.nesting

/-- The code of a routine, entered in this state, calls smaller ones only, each of which leaves
not more to read than it found. -/
def descent (c : Routine) (s : State) : Contract where
  action _ _ := True
  entry c' s' := Smaller (c'.measure s') (c.measure s)
  exit _ s' _ s'' := Within s' s''

/-- When the code of every routine does so, every call comes to an end. -/
theorem exists_run
    (hK : ∀ (c : Routine) s, c.body.Meets (descent c s) (fun _ s' => Within s s') s)
    (c : Routine) (s : State) :
    ∃ r s' es, c.Runs s r s' es ∧ Within s s' ∧ ∀ e ∈ es, e.Below c s := by
  -- The code is followed from call to call; a smaller call ends by the outer induction.
  induction hm : c.measure s using smaller_wf.induction generalizing c s with
  | _ μ ih =>
    subst hm
    have hrun {α : Type} {Q : Option α → State → Prop} (m : Code α) :
        ∀ x, m.Meets (descent c s) Q x →
          ∃ r x' es, Eval m x r x' es ∧ Q r x' ∧ ∀ e ∈ es, e.Below c s := by
      induction m with
      | done a => exact fun x hQ => ⟨_, _, _, .done, hQ, by simp⟩
      | giveUp => exact fun x hQ => ⟨_, _, _, .giveUp, hQ, by simp⟩
      | act a next ihnext =>
        intro x hx
        obtain ⟨r, x', es, he, hQ, hes⟩ := ihnext _ hx.2
        exact ⟨r, x', _, .act he, hQ, List.forall_mem_cons.2 ⟨.action, hes⟩⟩
      | look next ihnext =>
        intro x hx
        obtain ⟨r, x', es, he, hQ, hes⟩ := ihnext x x hx
        exact ⟨r, x', es, .look he, hQ, hes⟩
      | call c' next ihnext =>
        rintro x ⟨hsmaller, hnext⟩
        obtain ⟨r', x', es', he', hexit, hes'⟩ := ih _ hsmaller c' x rfl
        obtain ⟨r, x'', es, he, hQ, hes⟩ := ihnext r' x' (hnext r' x' hexit)
        exact ⟨r, x'', _, .call he' he, hQ, List.forall_mem_cons.2 ⟨.call hsmaller hes', hes⟩⟩
    exact hrun c.body s (hK c s)

/-! ### The code of the routines -/

/-- Not more is left to read than at the beginning, and less once something has been read. -/
structure At (s₀ : State) (moved : Bool) (s : State) : Prop extends Within s₀ s where
  weight_lt : moved = true → s.weight < s₀.weight

/-- In the course of the routine `c`, entered in `s₀`, the code calls smaller routines only.
Something has been read before, or may not have been. -/
def Falls (c : Routine) (s₀ : State) (moved : Bool) (m : Code α) : Prop :=
  ∀ s, At s₀ moved s → m.Meets (descent c s₀) (fun _ s' => At s₀ moved s') s

variable {c c' : Routine} {moved : Bool}

namespace At

theorem start (s₀ : State) : At s₀ false s₀ := ⟨⟨Nat.le_refl _, rfl⟩, by simp⟩

theorem pos (h : At s₀ moved s) (hs : 0 < s.weight) : 0 < s₀.weight :=
  Nat.lt_of_lt_of_le hs h.weight_le

theorem weaken (h : At s₀ true s) : At s₀ moved s := ⟨h.toWithin, fun _ => h.weight_lt rfl⟩

theorem trans {s' : State} (h : At s₀ moved s) (h' : Within s s') : At s₀ moved s' :=
  ⟨⟨Nat.le_trans h'.weight_le h.weight_le, h'.nesting_eq.trans h.nesting_eq⟩,
    fun hm => Nat.lt_of_le_of_lt h'.weight_le (h.weight_lt hm)⟩

theorem smaller (h : At s₀ moved s) (hc : moved = true ∨ c'.rank < c.rank) :
    Smaller (c'.measure s) (c.measure s₀) := by
  rcases Nat.lt_or_eq_of_le h.weight_le with hlt | heq
  · exact .left _ _ hlt
  · have hrank := hc.resolve_left fun hm => Nat.ne_of_lt (h.weight_lt hm) heq
    rw [Routine.measure, Routine.measure, heq, h.nesting_eq]
    exact .right _ (.right _ hrank)

theorem advance (h : At s₀ moved s) : At s₀ moved (Action.advance.perform s) := by
  refine h.trans ⟨?_, rfl⟩
  rcases weight_advance s with hlt | hzero
  · exact Nat.le_of_lt hlt
  · rw [hzero]
    exact Nat.zero_le _

/-- Moving on passes the beginning, if something was left to read there. -/
theorem past (h : At s₀ moved s) (h₀ : 0 < s₀.weight) : At s₀ true (Action.advance.perform s) := by
  refine ⟨h.advance.toWithin, fun _ => ?_⟩
  have hle := h.weight_le
  rcases weight_advance s with hlt | hzero <;> omega

end At

namespace Falls

open Code

variable {m : Code α} {f : α → Code β}

theorem pure (a : α) : Falls c s₀ moved (pure a) := fun _ hs => hs

theorem fail (d : Diagnostic) : Falls c s₀ moved (fail d : Code α) :=
  fun _ hs => ⟨trivial, ⟨hs.weight_le, hs.nesting_eq⟩, hs.weight_lt⟩

theorem bind (hm : Falls c s₀ moved m) (hf : ∀ a, Falls c s₀ moved (f a)) :
    Falls c s₀ moved (m >>= f) := by
  intro s hs
  rw [meets_bind]
  refine (hm s hs).imp fun r s' hs' => ?_
  cases r with
  | none => exact hs'
  | some a => exact hf a s' hs'

/-- What is done once something has been read may as well be done before. -/
theorem weaken (h : Falls c s₀ true m) (hs : At s₀ true s) :
    m.Meets (descent c s₀) (fun _ s' => At s₀ moved s') s :=
  (h s hs).imp fun _ _ h' => h'.weaken

theorem current : Falls c s₀ moved current := fun _ hs => hs

theorem advance : Falls c s₀ moved (perform .advance) := fun _ hs => ⟨trivial, hs.advance⟩

theorem advance_bind {f : Unit → Code β} (h₀ : 0 < s₀.weight) (hf : Falls c s₀ true (f ())) :
    Falls c s₀ moved (Code.perform .advance >>= f) :=
  fun _ hs => ⟨trivial, hf.weaken (hs.past h₀)⟩

theorem expect_bind {k : Kind} {f : Token → Code β} (hk : k ≠ .endOfInput)
    (hf : ∀ t, Falls c s₀ true (f t)) : Falls c s₀ moved (expect k >>= f) := by
  intro s hs
  rw [meets_bind, meets_expect]
  split
  · next hfollow =>
    have h₀ := hs.pos (weight_pos_of_following (hfollow ▸ hk))
    exact ⟨trivial, (hf _).weaken (hs.past h₀)⟩
  · exact ⟨trivial, ⟨hs.weight_le, hs.nesting_eq⟩, hs.weight_lt⟩

theorem accept (k : Kind) : Falls c s₀ moved (accept k) := by
  intro s hs
  rw [meets_accept]
  split
  · exact ⟨trivial, hs.advance⟩
  · exact hs

theorem invoke (hc : moved = true ∨ c'.rank < c.rank) : Falls c s₀ moved (invoke c') := by
  intro s hs
  rw [meets_invoke]
  exact ⟨hs.smaller hc, fun _ _ hs' => hs.trans hs'⟩

/-- Expressions have the lowest rank. -/
theorem expression {p : Precedence} (hc : 0 < c.rank) :
    Falls c s₀ moved (Code.invoke (.expression p)) := .invoke (.inr hc)

theorem attempt (hm : Falls c s₀ moved m) : Falls c s₀ moved m.attempt := by
  intro s hs
  rw [meets_attempt]
  exact hm s hs

theorem perform {a : Action} (ha : ∀ s, Within s (a.perform s)) :
    Falls c s₀ moved (perform a) := fun s hs => ⟨trivial, hs.trans (ha s)⟩

theorem ofOption (o : Option α) : Falls c s₀ moved (ofOption o) := by
  intro s hs
  rw [meets_ofOption]
  exact hs

theorem traced {r : Rule} (hm : Falls c s₀ moved m) : Falls c s₀ moved (traced r m) :=
  (perform fun _ => ⟨Nat.le_refl _, rfl⟩).bind fun _ =>
    (perform fun _ => ⟨Nat.le_refl _, rfl⟩).bind fun _ => hm.attempt.bind fun a =>
      (perform fun _ => ⟨Nat.le_refl _, rfl⟩).bind fun _ =>
        (perform fun _ => ⟨Nat.le_refl _, rfl⟩).bind fun _ => ofOption a

/-- Moving onto a following token that is no mark of the end. -/
theorem following_bind {test : Token → Prop} [DecidablePred test] {f g : Token → Code β}
    (ht : ∀ t, test t → t.kind ≠ .endOfInput) (hf : ∀ t, Falls c s₀ true (f t))
    (hg : ∀ t, Falls c s₀ moved (g t)) : Falls c s₀ moved (following >>= fun t =>
      if test t then Code.perform .advance >>= fun _ => f t else g t) := by
  intro s hs
  change (if test s.following then _ else _ : Code β).Meets _ _ s
  split
  · next h => exact ⟨trivial, (hf _).weaken (hs.past (hs.pos (weight_pos_of_following (ht _ h))))⟩
  · exact hg _ s hs

end Falls

/-! ### Routines -/

section Routines

open Code

theorem parenthesized_falls {first : Code α} {more : List α → Code (List α)}
    (hfirst : Falls c s₀ moved first) (hmore : ∀ as, Falls c s₀ moved (more as)) :
    Falls c s₀ moved (parenthesized first more) := by
  refine .following_bind (fun t ht => by rw [ht]; decide) (fun _ => .pure _) fun _ => ?_
  exact hfirst.bind fun a => (hmore _).bind fun as => .expect_bind (by decide) fun _ => .pure _

theorem moreItems_falls {item : Code α} {more : List α → Code (List α)} (as : List α)
    (hitem : Falls c s₀ true item) (hmore : ∀ as, Falls c s₀ true (more as)) :
    Falls c s₀ moved (moreItems item more as) :=
  .following_bind (fun t ht => by rw [ht]; decide) (fun _ => hitem.bind fun _ => hmore _)
    fun _ => .pure _

theorem parameter_falls : Falls c s₀ moved parameter :=
  .expect_bind (by decide) fun _ => .pure _

theorem argument_falls (hc : moved = true ∨ 0 < c.rank) : Falls c s₀ moved argument :=
  Falls.advance.bind fun _ => .invoke hc

theorem block_falls : Falls c s₀ true (traced .block (invoke .block)) :=
  .traced (.invoke (.inl rfl))

theorem alternative_falls : Falls c s₀ moved alternative :=
  .following_bind (fun t ht => by rw [ht]; decide)
    (fun _ => .expect_bind (by decide) fun _ => block_falls.bind fun _ => .pure _)
    fun _ => .pure _

theorem statements_falls (scope : Scope) (soFar : List Statement) (h : 3 ≤ c.rank) :
    Falls c s₀ moved (statements scope soFar) := by
  intro s hs
  change (if scope.ends s.current then _ else _ : Code _).Meets _ _ s
  split
  · exact hs
  · next hends =>
    have hcurrent : s.current.kind ≠ .endOfInput := by
      intro hk
      cases scope <;> simp [Scope.ends, Grammar.endsBlock, hk] at hends
    have h₀ := hs.pos (weight_pos_of_current hcurrent)
    have hstatement : Falls c s₀ moved (invoke .statement).attempt :=
      .attempt (.invoke (.inr (Nat.lt_of_lt_of_le (by decide) h)))
    exact (hstatement.bind fun _ => .advance_bind h₀ (.invoke (.inl rfl))) s hs

theorem statement_falls (h : 2 ≤ c.rank) : Falls c s₀ moved statement := by
  refine .traced (Falls.current.bind fun t => ?_)
  split
  · exact .traced (.invoke (.inr h))
  · exact .traced (.invoke (.inr h))
  · exact .traced (.invoke (.inr h))

theorem letStatement_falls : Falls c s₀ moved letStatement :=
  Falls.current.bind fun _ => .expect_bind (by decide) fun _ => .expect_bind (by decide) fun _ =>
    Falls.advance.bind fun _ => (Falls.invoke (.inl rfl)).bind fun _ =>
      (Falls.accept _).bind fun _ => .pure _

theorem returnStatement_falls (h : 0 < c.rank) : Falls c s₀ moved returnStatement :=
  Falls.current.bind fun _ => Falls.advance.bind fun _ => (Falls.expression h).bind fun _ =>
    (Falls.accept _).bind fun _ => .pure _

theorem exprStatement_falls (h : 0 < c.rank) : Falls c s₀ moved exprStatement :=
  Falls.current.bind fun _ => (Falls.expression h).bind fun _ =>
    (Falls.accept _).bind fun _ => .pure _

/-- One more expression is open around the code of an expression, and no more than may be. -/
theorem expression_falls (p : Precedence) (s₀ : State) :
    Falls (.expression p) s₀ false (expression p) := by
  intro s hs
  change (if s.nesting < Grammar.maxNesting then _ else _ : Code _).Meets _ _ s
  split
  · next hopen =>
    refine ⟨trivial, ?_⟩
    change ((traced .expression (invoke (.chain p))).attempt >>= fun e =>
      Code.perform .leave >>= fun _ => ofOption e).Meets _ _ _
    rw [meets_bind, meets_attempt, meets_traced, meets_invoke]
    refine ⟨trivial, trivial, ?_, fun r s' hs' => ⟨trivial, trivial, trivial, ?_⟩⟩
    · change Smaller (s.weight, Grammar.maxNesting - (s.nesting + 1), _)
        (s₀.weight, Grammar.maxNesting - s₀.nesting, _)
      rcases Nat.lt_or_eq_of_le hs.weight_le with hlt | heq
      · exact .left _ _ hlt
      · rw [heq, ← hs.nesting_eq]
        exact .right _ (.left _ _ (by omega))
    · refine meets_ofOption.2 (hs.trans ⟨hs'.weight_le, ?_⟩)
      change s'.nesting - 1 = s.nesting
      rw [hs'.nesting_eq]
      rfl
  · exact Falls.fail _ s hs

theorem integer_falls : Falls c s₀ moved integer := by
  refine Falls.current.bind fun t => ?_
  split
  · exact .pure _
  · exact .fail _

theorem unary_falls (h : 0 < c.rank) : Falls c s₀ moved unary :=
  Falls.current.bind fun _ => Falls.advance.bind fun _ => (Falls.expression h).bind fun _ =>
    .pure _

theorem group_falls (h : 0 < c.rank) : Falls c s₀ moved group :=
  Falls.advance.bind fun _ => (Falls.expression h).bind fun _ =>
    .expect_bind (by decide) fun _ => .pure _

theorem conditional_falls : Falls c s₀ moved conditional :=
  Falls.current.bind fun _ => .expect_bind (by decide) fun _ => Falls.advance.bind fun _ =>
    (Falls.invoke (.inl rfl)).bind fun _ => .expect_bind (by decide) fun _ =>
      .expect_bind (by decide) fun _ => block_falls.bind fun _ =>
        alternative_falls.bind fun _ => .pure _

theorem function_falls : Falls c s₀ moved function :=
  Falls.current.bind fun _ => .expect_bind (by decide) fun _ =>
    (Falls.invoke (.inl rfl)).bind fun _ => .expect_bind (by decide) fun _ =>
      block_falls.bind fun _ => .pure _

theorem operators_falls (p : Precedence) (left : Expr) : Falls c s₀ moved (operators p left) := by
  intro s hs
  change (if s.following.kind ≠ .semicolon ∧ p < s.following.kind.precedence then _ else _ :
    Code _).Meets _ _ s
  split
  · next h =>
    split
    · next form _ =>
      have hfollow : s.following.kind ≠ .endOfInput := by
        intro hk
        rw [hk] at h
        exact absurd h.2 (Nat.not_lt_zero _)
      have h₀ := hs.pos (weight_pos_of_following hfollow)
      have hsuffix : Falls c s₀ true (traced form.rule (invoke (.suffix form left))) :=
        .traced (.invoke (.inl rfl))
      have hmore (left : Expr) : Falls c s₀ true (invoke (.operators p left)) := .invoke (.inl rfl)
      exact (Falls.advance_bind h₀ (hsuffix.bind hmore)) s hs
    · exact hs
  · exact hs

theorem chain_falls (p : Precedence) (h : 2 ≤ c.rank) : Falls c s₀ moved (chain p) := by
  refine Falls.current.bind fun t => ?_
  split
  · next form _ =>
    have hoperand : Falls c s₀ moved (traced form.rule (invoke (.operand form))) :=
      .traced (.invoke (.inr h))
    have hmore (left : Expr) : Falls c s₀ moved (invoke (.operators p left)) :=
      .invoke (.inr (Nat.zero_lt_of_lt h))
    exact hoperand.bind hmore
  · exact .fail _

theorem binaryOperation_falls (left : Expr) (h : 0 < c.rank) :
    Falls c s₀ moved (binaryOperation left) :=
  Falls.current.bind fun _ => Falls.advance.bind fun _ => (Falls.expression h).bind fun _ =>
    .pure _

theorem callOperation_falls (left : Expr) (h : 3 ≤ c.rank) :
    Falls c s₀ moved (callOperation left) := by
  have harguments : Falls c s₀ moved (invoke .arguments) := .invoke (.inr h)
  exact Falls.current.bind fun _ => harguments.bind fun _ => .pure _

end Routines

/-- Whatever the routine, its code calls smaller routines only. -/
theorem Routine.falls (c : Routine) (s : State) : Falls c s false c.body := by
  cases c with
  | program => exact (Falls.invoke (.inr (by decide))).bind fun _ => .pure _
  | statements scope soFar => exact statements_falls scope soFar (Nat.le_refl 3)
  | statement => exact statement_falls (Nat.le_refl 2)
  | letStatement => exact letStatement_falls
  | returnStatement => exact returnStatement_falls Nat.one_pos
  | exprStatement => exact exprStatement_falls Nat.one_pos
  | block => exact Falls.current.bind fun _ => Falls.advance.bind fun _ =>
      (Falls.invoke (.inr (by decide))).bind fun _ => .pure _
  | expression p => exact expression_falls p s
  | chain p => exact chain_falls p (Nat.le_refl 2)
  | operators p left => exact operators_falls p left
  | operand form =>
    cases form with
    | identifier => exact Falls.current.bind fun _ => .pure _
    | integer => exact integer_falls
    | boolean => exact Falls.current.bind fun _ => .pure _
    | unary => exact unary_falls Nat.one_pos
    | group => exact group_falls Nat.one_pos
    | conditional => exact conditional_falls
    | function => exact function_falls
  | suffix form left =>
    cases form with
    | binary => exact binaryOperation_falls left (Nat.succ_pos 2)
    | call => exact callOperation_falls left (Nat.le_refl 3)
  | parameters =>
    have hmore (soFar : List Identifier) : Falls .parameters s false
        (Code.invoke (.moreParameters soFar)) := .invoke (.inr Nat.one_pos)
    exact parenthesized_falls parameter_falls hmore
  | moreParameters soFar =>
    have hmore (soFar' : List Identifier) : Falls (.moreParameters soFar) s true
        (Code.invoke (.moreParameters soFar')) := .invoke (.inl rfl)
    exact moreItems_falls soFar parameter_falls hmore
  | arguments =>
    have hargument : Falls .arguments s false Code.argument :=
      argument_falls (.inr (Nat.succ_pos 1))
    have hmore (soFar : List Expr) : Falls .arguments s false
        (Code.invoke (.moreArguments soFar)) := .invoke (.inr (Nat.lt_succ_self 1))
    exact parenthesized_falls hargument hmore
  | moreArguments soFar =>
    have hmore (soFar' : List Expr) : Falls (.moreArguments soFar) s true
        (Code.invoke (.moreArguments soFar')) := .invoke (.inl rfl)
    exact moreItems_falls soFar (argument_falls (.inl rfl)) hmore

/-- A call of a routine comes to an end, with nothing more to read than before. -/
theorem Routine.exists_runs (c : Routine) (s : State) :
    ∃ r s' es, c.Runs s r s' es ∧ Within s s' ∧ ∀ e ∈ es, e.Below c s :=
  exists_run (fun c s => (c.falls s s (.start s)).imp fun _ _ h => h.toWithin) c s

/-! ### Programs -/

end Machine

/-- A program is read up to a mark of the end, or to the end. -/
theorem Grammar.program_ends (ts : List Token) :
    ((program ts).ahead.headD .endOfInput).kind = .endOfInput := by
  have h : ∀ t ∈ (program ts).ahead.head?, decide (t.kind = .endOfInput) = true :=
    items_stop (·.kind = .endOfInput) (statement (expression maxNesting)) ts
  cases hts : (program ts).ahead with
  | nil => rfl
  | cons t us =>
    rw [hts] at h
    exact of_decide_eq_true (h t rfl)

theorem Grammar.program_of_end {ts : List Token} (h : (ts.headD .endOfInput).kind = .endOfInput) :
    program ts = ⟨⟨[]⟩, ts, [], []⟩ := by
  cases ts with
  | nil => simp [program, items]
  | cons t us =>
    rw [List.headD_cons] at h
    simp [program, items, h]

/-- At the end there is only the empty program to read, again and again. -/
theorem Reading.program_of_end {r : Reading} (h : (r.ahead.headD .endOfInput).kind = .endOfInput) :
    r.program = (⟨[]⟩, r) := by
  obtain ⟨ahead, diagnostics, sink⟩ := r
  have hsink : sink.map (fun k => (k.write (traceText [])).1) = sink := by
    cases sink with
    | none => rfl
    | some k => exact congrArg some k.write_empty
  simp only [Reading.program, Grammar.program_of_end h, List.append_nil, hsink]

namespace Machine

theorem program_runs_of_end {s : State} (h : s.current.kind = .endOfInput) :
    Routine.program.Runs s (some ⟨[]⟩) s [.call (.statements .program []) s (some []) s []] := by
  have hends : Scope.ends .program s.current = true := decide_eq_true h
  refine .call (.look ?_) .done
  change Eval (if Scope.ends .program s.current then _ else _ : Code _) s _ s _
  rw [if_pos hends]
  exact .done

/-- The machine reads a program to the end, off whatever lexer and with whatever sink. -/
theorem exists_program_runs (l : Lexer) (sink : Option Sink) :
    ∃ s es, Routine.program.Runs (State.ofLexer l sink)
      (some (Reading.program { Reading.ofLexer l with sink := sink }).1) s es ∧
      s.Holds (Reading.program { Reading.ofLexer l with sink := sink }).2 := by
  obtain ⟨r, s, es, hrun, -, -⟩ := Routine.program.exists_runs (State.ofLexer l sink)
  obtain ⟨rfl, hs⟩ := hrun.program_holds (State.ofLexer_holds l sink)
  exact ⟨s, es, hrun, hs⟩

/-- Every call ends, in one way only, and the calls inside are smaller by an order that is
well-founded. Reading a program ends at a mark of the end, from where on nothing changes. -/
theorem every_call_ends :
    WellFounded Smaller ∧
    (∀ (c : Routine) (s : State), ∃ r s' es, c.Runs s r s' es ∧ (∀ e ∈ es, e.Below c s) ∧
      ∀ r₁ s₁ es₁, c.Runs s r₁ s₁ es₁ → r₁ = r ∧ s₁ = s' ∧ es₁ = es) ∧
    ∀ (source : String) (skipped : Nat) (sink : Option Sink),
      let l := (Lexer.ofString source).skip skipped
      let read := Reading.program { Reading.ofLexer l with sink := sink }
      (∃ s es, Routine.program.Runs (State.ofLexer l sink) (some read.1) s es ∧ s.Holds read.2 ∧
        s.current.kind = .endOfInput ∧ ∃ es', Routine.program.Runs s (some ⟨[]⟩) s es') ∧
      read.2.program = (⟨[]⟩, read.2) := by
  refine ⟨smaller_wf, fun c s => ?_, fun source skipped sink => ?_⟩
  · obtain ⟨r, s', es, hrun, -, hes⟩ := c.exists_runs s
    exact ⟨r, s', es, hrun, hes, fun r₁ s₁ es₁ h => Eval.unique h hrun⟩
  · intro l read
    obtain ⟨r, s, es, hrun, -, -⟩ := Routine.program.exists_runs (State.ofLexer l sink)
    obtain ⟨rfl, hs⟩ := hrun.program_holds (State.ofLexer_holds l sink)
    have hend : (read.2.ahead.headD .endOfInput).kind = .endOfInput := Grammar.program_ends _
    have hcurrent : s.current.kind = .endOfInput := by rwa [hs.reads.current]
    exact ⟨⟨s, es, hrun, hs, hcurrent, _, program_runs_of_end hcurrent⟩,
      Reading.program_of_end hend⟩

end Machine

end Monkey
