import Monkey.Proofs.Machine.Termination
import Monkey.Proofs.Nesting

/-! One report for each statement that is dropped. In the grammar the reports of a parse are
counted against the calls it is made of. In the machine a failure is reported where it is found
and then passed on from call to call, until the statement around it is given up; code is read
as owing a statement for what it has reported, and the code of every routine settles. -/

namespace Monkey

open Monkey.Parser

/-! ### The grammar -/

/-- Whether a call is a statement that was not completed. -/
def Call.dropsStatement (c : Call) : Bool := c.rule = .statement && !c.complete

/-- The number of statements dropped at any depth of these calls. -/
def droppedStatements (cs : List Call) : Nat := Call.countAll Call.dropsStatement cs

theorem droppedStatements_append (cs ds : List Call) :
    droppedStatements (cs ++ ds) = droppedStatements cs + droppedStatements ds :=
  Call.countAll_append _ cs ds

theorem droppedStatements_rule {r : Rule} (hr : r ≠ .statement) (ts us : List Token) (ok : Bool)
    (cs : List Call) : droppedStatements [⟨r, ts, us, ok, cs⟩] = droppedStatements cs := by
  simp [droppedStatements, Call.countAll, Call.count, Call.dropsStatement, hr]

theorem droppedStatements_statement (ts us : List Token) (ok : Bool) (cs : List Call) :
    droppedStatements [⟨.statement, ts, us, ok, cs⟩] = droppedStatements cs + (!ok).toNat := by
  cases ok <;> simp [droppedStatements, Call.countAll, Call.count, Call.dropsStatement]

/-- The causes recorded on the way are as many as the statements dropped on the way. -/
def Parser.Accounts {α : Type} (p : Parser α) : Prop :=
  ∀ ts, (p.run ts).diagnostics.length = droppedStatements (p.run ts).calls

theorem items_accounts {α : Type} {p : Parser α} (hp : p.Accounts) (stop : Token → Bool)
    (ts : List Token) : (items stop (rule .statement p) ts).diagnostics.length =
      droppedStatements (items stop (rule .statement p) ts).calls := by
  induction ts using items_induction stop (rule .statement p) with
  | nil => rw [items]; rfl
  | done t ts ht => rw [items, if_pos ht]; rfl
  | step t ts ht ih =>
    have hhead := droppedStatements_statement (t :: ts) (p.run (t :: ts)).ahead
      (p.run (t :: ts)).value.isOk (p.run (t :: ts)).calls
    rw [items_cons ht, Outcome.beforeItems_calls, droppedStatements_append, ← ih]
    simp only [Parser.rule] at hhead ⊢
    rw [hhead, ← hp (t :: ts)]
    cases hv : (p.run (t :: ts)).value with
    | ok a => simp [Outcome.beforeItems, Outcome.followedBy, Except.isOk, Except.toBool]
    | error d =>
      simp [Outcome.beforeItems, Outcome.followedBy, Except.isOk, Except.toBool, Nat.add_assoc,
        Nat.add_comm 1]

theorem accounts_congruence : Congruence fun p _ => p.Accounts where
  pure _ _ := rfl
  current _ := rfl
  following _ := rfl
  advance _ := rfl
  fail _ _ := rfl
  rule _ hr hp ts := (hp ts).trans (droppedStatements_rule hr _ _ _ _).symm
  bind {α β p q f g} hp hf ts := by
    rw [run_bind]
    split
    · simp only [Outcome.followedBy, List.length_append, droppedStatements_append]
      rw [hp ts, hf _ _]
    · exact hp ts
  extend {α ready step step'} a _ hstep ts := by
    change (extending ready step a ts).diagnostics.length =
      droppedStatements (extending ready step a ts).calls
    fun_induction extending ready step a ts
    case case1 a t u us _ o b _ ih =>
      simp only [Outcome.followedBy, List.length_append, droppedStatements_append]
      rw [ih, hstep a (u :: us)]
    case case2 a t u us _ o d _ => exact hstep a (u :: us)
    case case3 => rfl
    case case4 => rfl
  statements _ _ hp ts := items_accounts hp _ ts

theorem expression_accounts (n : Nat) (p : Precedence) : (Grammar.expression n p).Accounts := by
  induction n generalizing p with
  | zero => exact fun _ => rfl
  | succ n ih =>
    have hchain := @Congruence.chain _ accounts_congruence (Grammar.expression n)
      (Grammar.expression n) ih p
    exact fun ts => (hchain ts).trans (droppedStatements_rule (by decide) _ _ _ _).symm

/-- The reports of a program are as many as the statements dropped in it. -/
theorem Grammar.program_accounts (ts : List Token) :
    (program ts).diagnostics.length = droppedStatements (program ts).calls :=
  @Congruence.itemsUntil _ accounts_congruence (expression maxNesting) (expression maxNesting)
    (expression_accounts maxNesting) _ ts

namespace Machine

variable {α β : Type}

/-! ### The machine -/

/-- The statements that a call drops itself: one if it is that of a statement which fails. -/
def Routine.drops : (c : Routine) → Option c.Result → Nat
  | .statement, none => 1
  | _, _ => 0

/-- What a call leaves to be accounted for by a statement around it: its failure, unless it is
the statement itself that fails. -/
def Routine.owes : (c : Routine) → Option c.Result → Nat
  | .statement, _ => 0
  | _, none => 1
  | _, some _ => 0

mutual

/-- The number of statements dropped in an event, at any depth. -/
def Event.dropped : Event → Nat
  | .action _ _ => 0
  | .call c _ r _ inside => c.drops r + Event.droppedAll inside

def Event.droppedAll : List Event → Nat
  | [] => 0
  | e :: es => e.dropped + Event.droppedAll es

end

theorem Routine.drops_add_owes (c : Routine) (r : Option c.Result) :
    c.drops r + c.owes r = r.isNone.toNat := by
  cases c <;> cases r <;> rfl

/-- Having reported `n` failures that no statement has been dropped for, the code reports more
or calls routines, and where it ends there is one such failure left if it gives up and none
otherwise. -/
def Code.Owes : Code α → Nat → Prop
  | .done _, n => n = 0
  | .giveUp, n => n = 1
  | .act (.report _) next, n => next.Owes (n + 1)
  | .act _ next, n => next.Owes n
  | .look next, n => ∀ s, (next s).Owes n
  | .call c next, n => ∀ r, (next r).Owes (n + c.owes r)

theorem Eval.accounts {m : Code α} {s s' : State} {r : Option α} {es : List Event} {n : Nat}
    (h : Eval m s r s' es) (hbody : ∀ c : Routine, c.body.Owes 0) (hm : m.Owes n) :
    ∃ ds, s'.diagnostics = s.diagnostics ++ ds ∧
      n + ds.length = Event.droppedAll es + r.isNone.toNat := by
  induction h generalizing n with
  | done => exact ⟨[], (List.append_nil _).symm, hm⟩
  | giveUp => exact ⟨[], (List.append_nil _).symm, hm⟩
  | @act α a next s s' r es _ ih =>
    cases a with
    | report d =>
      obtain ⟨ds, hds, hn⟩ := ih hm
      refine ⟨d :: ds, ?_, ?_⟩
      · rw [hds]
        exact List.append_assoc _ [d] ds
      · rw [Event.droppedAll, Event.dropped, List.length_cons]
        omega
    | _ =>
      obtain ⟨ds, hds, hn⟩ := ih hm
      refine ⟨ds, hds, ?_⟩
      rw [Event.droppedAll, Event.dropped]
      omega
  | look _ ih => exact ih (hm _)
  | @call α c next s s₁ s₂ r r' es es' _ _ ihcall ihnext =>
    obtain ⟨ds, hds, hn⟩ := ihcall (hbody c)
    obtain ⟨ds', hds', hn'⟩ := ihnext (hm r)
    refine ⟨ds ++ ds', by rw [hds', hds, List.append_assoc], ?_⟩
    -- A failure of the call is settled here by a statement, or else owed by the code behind it.
    have hr := c.drops_add_owes r
    rw [Event.droppedAll, Event.dropped, List.length_append]
    omega

/-! ### What occurs in a run -/

/-- An action adds behind the reports there are, or leaves them as they are. -/
theorem perform_diagnostics (a : Action) (s : State) :
    s.diagnostics <+: (a.perform s).diagnostics := by
  cases a with
  | report d => exact List.prefix_append _ _
  | _ => exact List.prefix_refl _

theorem Eval.diagnostics_prefix {m : Code α} {s s' : State} {r : Option α} {es : List Event}
    (h : Eval m s r s' es) : s.diagnostics <+: s'.diagnostics := by
  induction h with
  | done => exact List.prefix_refl _
  | giveUp => exact List.prefix_refl _
  | act _ ih => exact (perform_diagnostics _ _).trans ih
  | look _ ih => exact ih
  | call _ _ ihcall ihnext => exact ihcall.trans ihnext

/-- The event is one of these or inside one of them, at any depth. -/
inductive Event.Occurs (e : Event) : List Event → Prop where
  | here {es : List Event} : e ∈ es → Event.Occurs e es
  | inside {c : Routine} {s s' : State} {r : Option c.Result} {es es' : List Event} :
    .call c s r s' es ∈ es' → Event.Occurs e es → Event.Occurs e es'

theorem Event.not_occurs_nil (e : Event) : ¬ e.Occurs [] := by
  rintro (⟨⟨⟩⟩ | ⟨⟨⟩⟩)

theorem Event.occurs_cons {e e' : Event} {es : List Event} (h : e.Occurs (e' :: es)) :
    e = e' ∨ (∃ c s r s' inside, e' = .call c s r s' inside ∧ e.Occurs inside) ∨ e.Occurs es := by
  cases h with
  | here hmem => exact (List.mem_cons.1 hmem).imp_right fun h => .inr (.here h)
  | inside hmem hin =>
    rcases List.mem_cons.1 hmem with rfl | hmem
    · exact .inr (.inl ⟨_, _, _, _, _, rfl, hin⟩)
    · exact .inr (.inr (.inside hmem hin))

theorem Event.Occurs.cons {e e' : Event} {es : List Event} (h : e.Occurs es) :
    e.Occurs (e' :: es) := by
  cases h with
  | here hmem => exact .here (List.mem_cons_of_mem _ hmem)
  | inside hmem hin => exact .inside (List.mem_cons_of_mem _ hmem) hin

theorem Event.dropped_le {e : Event} {es : List Event} (h : e ∈ es) :
    e.dropped ≤ Event.droppedAll es := by
  induction h with
  | head => exact Nat.le_add_right _ _
  | tail _ _ ih => exact Nat.le_trans ih (Nat.le_add_left _ _)

theorem Event.Occurs.dropped_le {e : Event} {es : List Event} (h : e.Occurs es) :
    e.dropped ≤ Event.droppedAll es := by
  induction h with
  | here hmem => exact Event.dropped_le hmem
  | inside hmem _ ih =>
    refine Nat.le_trans ih (Nat.le_trans ?_ (Event.dropped_le hmem))
    exact Nat.le_add_left _ _

/-- What is counted does occur. -/
theorem Event.exists_dropped : ∀ es : List Event, 0 < Event.droppedAll es →
    ∃ s s' inside, (Event.call .statement s none s' inside).Occurs es
  | .action _ _ :: es, h => by
    obtain ⟨s, s', inside, ho⟩ := Event.exists_dropped es (by simpa [droppedAll, dropped] using h)
    exact ⟨s, s', inside, ho.cons⟩
  | .call c t r t' inside :: es, h => by
    rcases Nat.eq_zero_or_pos (Event.droppedAll inside) with hinside | hinside
    · rcases Nat.eq_zero_or_pos (Event.droppedAll es) with hes | hes
      · rw [droppedAll, dropped, hinside, hes] at h
        unfold Routine.drops at h
        split at h
        · exact ⟨t, t', inside, .here List.mem_cons_self⟩
        · cases h
      · obtain ⟨s, s', inside', ho⟩ := Event.exists_dropped es hes
        exact ⟨s, s', inside', ho.cons⟩
    · obtain ⟨s, s', inside', ho⟩ := Event.exists_dropped inside hinside
      exact ⟨s, s', inside', .inside List.mem_cons_self ho⟩

/-- No statement is counted as dropped just if no call of one has failed, at any depth. -/
theorem Event.droppedAll_eq_zero_iff {es : List Event} : Event.droppedAll es = 0 ↔
    ∀ s s' inside, ¬ (Event.call .statement s none s' inside).Occurs es := by
  constructor
  · intro h s s' inside ho
    have hle := ho.dropped_le
    rw [dropped, Routine.drops] at hle
    omega
  · intro h
    refine Nat.eq_zero_of_not_pos fun hpos => ?_
    obtain ⟨s, s', inside, ho⟩ := Event.exists_dropped es hpos
    exact h s s' inside ho

/-- A call that is made in the course of a run is a run itself, and what it reported is among the
reports in the end. -/
theorem Eval.of_occurs {m : Code α} {s s' : State} {r : Option α} {es : List Event}
    (h : Eval m s r s' es) {c : Routine} {t t' : State} {q : Option c.Result} {inside : List Event}
    (ho : (Event.call c t q t' inside).Occurs es) :
    c.Runs t q t' inside ∧ t'.diagnostics <+: s'.diagnostics := by
  induction h with
  | done => exact absurd ho (Event.not_occurs_nil _)
  | giveUp => exact absurd ho (Event.not_occurs_nil _)
  | act _ ih =>
    rcases Event.occurs_cons ho with heq | ⟨_, _, _, _, _, heq, -⟩ | ho
    · cases heq
    · cases heq
    · exact ih ho
  | look _ ih => exact ih ho
  | call hcall hnext ihcall ihnext =>
    rcases Event.occurs_cons ho with heq | ⟨_, _, _, _, _, heq, ho⟩ | ho
    · cases heq
      exact ⟨hcall, hnext.diagnostics_prefix⟩
    · cases heq
      obtain ⟨hrun, hle⟩ := ihcall ho
      exact ⟨hrun, hle.trans hnext.diagnostics_prefix⟩
    · exact ihnext ho

/-! ### Code that settles -/

namespace Code

variable {m : Code α} {n : Nat}

theorem Owes.bind {f : α → Code β} (hm : m.Owes n) (hf : ∀ a, (f a).Owes 0) : (m >>= f).Owes n := by
  induction m generalizing n with
  | done a => exact hm ▸ hf a
  | giveUp => exact hm
  | act a next ih => cases a <;> exact ih hm
  | look next ih => exact fun s => ih s (hm s)
  | call c next ih => exact fun r => ih r (hm r)

/-- Code that is attempted owes what it would, in the continuation. -/
theorem Owes.attempt_bind {f : Option α → Code β} (hm : m.Owes n) (hf : ∀ a, (f (some a)).Owes 0)
    (hnone : (f none).Owes 1) : (m.attempt >>= f).Owes n := by
  induction m generalizing n with
  | done a => exact hm ▸ hf a
  | giveUp => exact hm ▸ hnone
  | act a next ih => cases a <;> exact ih hm
  | look next ih => exact fun s => ih s (hm s)
  | call c next ih => exact fun r => ih r (hm r)

theorem owes_pure (a : α) : (pure a : Code α).Owes 0 := rfl

theorem owes_fail (d : Diagnostic) : (fail d : Code α).Owes 0 := rfl

theorem owes_current : current.Owes 0 := fun _ => rfl

theorem owes_following : following.Owes 0 := fun _ => rfl

theorem owes_advance : (perform .advance).Owes 0 := rfl

theorem owes_expect (k : Kind) : (expect k).Owes 0 := by
  refine owes_following.bind fun t => ?_
  split
  · exact owes_advance.bind fun _ => owes_current
  · exact owes_fail _

/-- A routine other than that of statements passes its failure on. -/
theorem owes_invoke {c : Routine} (hc : c ≠ .statement) : (invoke c).Owes 0 := by
  intro r
  have hdrops : c.drops r = 0 := by
    cases c with
    | statement => exact absurd rfl hc
    | _ => rfl
  have hsum := c.drops_add_owes r
  rw [hdrops, Nat.zero_add] at hsum
  rw [hsum]
  cases r <;> rfl

theorem owes_traced {rule : Rule} (hm : m.Owes 0) : (traced rule m).Owes 0 :=
  hm.attempt_bind (fun _ => rfl) rfl

end Code

open Code

theorem owes_correspondence : Correspondence 0 fun _ _ m _ => m.Owes 0 where
  pure := owes_pure
  bind := .bind
  current := owes_current
  following := owes_following
  advance := owes_advance
  fail := owes_fail
  expect := owes_expect
  invoke hc _ := owes_invoke hc
  -- Nothing is owed behind a statement, whether or not it was dropped.
  attempt _ hf r := by cases r <;> exact hf _
  traced := owes_traced
  expression p s := by
    change (if s.nesting < Grammar.maxNesting then _ else _ : Code Expr).Owes 0
    split
    · have hchain : (traced .expression (invoke (.chain p))).Owes 0 :=
        owes_traced (owes_invoke nofun)
      exact hchain.attempt_bind (fun _ => rfl) rfl
    · exact owes_fail _

/-- A failure is reported once, where it is found, and owed until a statement is dropped. -/
theorem Routine.settles (c : Routine) : c.body.Owes 0 := owes_correspondence.body c

/-- From any state a call adds to the reports one for each statement dropped inside, itself
included, and one for its own failure if that is not such a statement; programs and blocks do
not fail. So a source is read without a report just if no statement is dropped anywhere. -/
theorem reports_eq_dropped :
    (∀ (a : Action) (s : State), s.diagnostics <+: (a.perform s).diagnostics) ∧
    (∀ (c : Routine) (s : State), ∃ r s' es, c.Runs s r s' es ∧
      (c = .program ∨ c = .block → r.isSome = true) ∧
      ∃ ds, s'.diagnostics = s.diagnostics ++ ds ∧
        ds.length = (Event.call c s r s' es).dropped + c.owes r) ∧
    ∀ (source : String) (sink : Option Sink), ∃ s es,
      Routine.program.Runs (State.ofLexer (Lexer.ofString source) sink)
        (some (parse source).value) s es ∧
      s.diagnostics = (parse source).diagnostics ∧
      s.diagnostics.length = Event.droppedAll es ∧
      s.diagnostics.length = droppedStatements (parse source).calls ∧
      (s.diagnostics = [] ↔
        ∀ t t' inside, ¬ (Event.call .statement t none t' inside).Occurs es) := by
  have hcall (c : Routine) (s : State) : ∃ r s' es, c.Runs s r s' es ∧
      (c = .program ∨ c = .block → r.isSome = true) ∧
      ∃ ds, s'.diagnostics = s.diagnostics ++ ds ∧
        ds.length = (Event.call c s r s' es).dropped + c.owes r := by
    obtain ⟨r, s', es, hrun, -, -⟩ := c.exists_runs s
    obtain ⟨ds, hds, hn⟩ := Eval.accounts hrun Routine.settles c.settles
    refine ⟨r, s', es, hrun, hrun.isSome, ds, hds, ?_⟩
    have hr := c.drops_add_owes r
    rw [Event.dropped]
    omega
  refine ⟨perform_diagnostics, hcall, fun source sink => ?_⟩
  obtain ⟨r, s, es, hrun, -, ds, hds, hn⟩ :=
    hcall .program (State.ofLexer (Lexer.ofString source) sink)
  obtain ⟨rfl, hs⟩ := hrun.program_holds (State.ofLexer_holds _ sink)
  have hparse : s.diagnostics = (parse source).diagnostics := hs.diagnostics
  have hlength : s.diagnostics.length = Event.droppedAll es := by
    have hnone : (State.ofLexer (Lexer.ofString source) sink).diagnostics = [] := rfl
    rw [hds, hnone, List.nil_append]
    simpa [Event.dropped, Routine.drops, Routine.owes] using hn
  refine ⟨s, es, hrun, hparse, hlength, ?_, ?_⟩
  · rw [hparse]
    exact Grammar.program_accounts _
  · rw [← Event.droppedAll_eq_zero_iff, ← hlength, List.length_eq_zero_iff]

end Machine

end Monkey
