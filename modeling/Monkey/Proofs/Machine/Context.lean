import Monkey.Proofs.Machine.Actions
import Monkey.Proofs.Machine.Termination
import Monkey.Tree.Printer

/-! A phrase is read in the same way wherever it stands. The machine goes by the tokens in view, and
by the count of open expressions only to refuse one more. So two machines that have the same tokens
in view and the same text ahead do the same actions, whatever else their states hold, unless the
one with more expressions open refuses one. -/

namespace Monkey.Machine

open Grammar (maxNesting)

variable {α β : Type} {s t : State}

/-- The same tokens are in view, with the same text ahead. -/
structure State.SameView (s t : State) : Prop where
  lexer : t.lexer = s.lexer
  current : t.current = s.current
  following : t.following = s.following

/-- The second state has the same view, and not more expressions open. -/
structure State.Covers (s t : State) : Prop extends State.SameView s t where
  nesting_le : t.nesting ≤ s.nesting

/-- An action moves on in both states, or counts in both. -/
theorem State.Covers.perform (h : s.Covers t) (a : Action) :
    (a.perform s).Covers (a.perform t) := by
  obtain ⟨⟨hlexer, hcurrent, hfollowing⟩, hnesting⟩ := h
  cases a with
  | advance =>
    exact ⟨⟨congrArg (·.next.2) hlexer, hfollowing, congrArg (·.next.1) hlexer⟩, hnesting⟩
  | enter => exact ⟨⟨hlexer, hcurrent, hfollowing⟩, Nat.succ_le_succ hnesting⟩
  | leave => exact ⟨⟨hlexer, hcurrent, hfollowing⟩, Nat.sub_le_sub_right hnesting 1⟩
  | _ => exact ⟨⟨hlexer, hcurrent, hfollowing⟩, hnesting⟩

/-! ### Code that goes by the view -/

/-- The action of refusing one more expression. -/
def refusal : Action := .report (.nestingTooDeep maxNesting)

/-- Wherever the code looks at the state it goes on in the same way in all states that this one
covers, or refuses an expression first of all. -/
def Code.ByView : Code α → Prop
  | .done _ => True
  | .giveUp => True
  | .act _ next => next.ByView
  | .look next => ∀ s, (next s).ByView ∧ ∀ t, s.Covers t →
      next t = next s ∨ ∃ m, next s = .act refusal m
  | .call _ next => ∀ r, (next r).ByView

/-- A run that refuses nothing is followed action by action in a state that its own covers. -/
theorem Eval.followed {m : Code α} {s' : State} {r : Option α} {es : List Event}
    (h : Eval m s r s' es) (hbody : ∀ c : Routine, c.body.ByView) (hm : m.ByView)
    (hst : s.Covers t) (hes : refusal ∉ Event.actionsAll es) :
    ∃ t' es', Eval m t r t' es' ∧ s'.Covers t' ∧ Event.actionsAll es' = Event.actionsAll es := by
  induction h generalizing t with
  | done => exact ⟨t, [], .done, hst, rfl⟩
  | giveUp => exact ⟨t, [], .giveUp, hst, rfl⟩
  | @act α a next s s' r es _ ih =>
    obtain ⟨t', es', hrun, hst', heq⟩ :=
      ih hm (hst.perform a) fun hmem => hes (List.mem_cons_of_mem a hmem)
    exact ⟨t', .action a t :: es', .act hrun, hst', congrArg (a :: ·) heq⟩
  | @look α next s s' r es hnext ih =>
    rcases (hm s).2 t hst with heq | ⟨m, heq⟩
    · obtain ⟨t', es', hrun, h⟩ := ih (hm s).1 hst hes
      rw [← heq] at hrun
      exact ⟨t', es', .look hrun, h⟩
    -- The run does refuse an expression.
    · rw [heq] at hnext
      cases hnext
      exact absurd List.mem_cons_self hes
  | @call α c next s s₁ s₂ r r' es es' _ _ ihcall ihnext =>
    rw [Event.actionsAll, Event.actions, List.mem_append, not_or] at hes
    obtain ⟨t₁, fs, hcall, hst₁, hfs⟩ := ihcall (hbody c) hst hes.1
    obtain ⟨t₂, fs', hnext, hst₂, hfs'⟩ := ihnext (hm r) hst₁ hes.2
    refine ⟨t₂, .call c t r t₁ fs :: fs', .call hcall hnext, hst₂, ?_⟩
    rw [Event.actionsAll, Event.actionsAll, Event.actions, Event.actions, hfs, hfs']

namespace Code

variable {m : Code α}

theorem ByView.bind {f : α → Code β} (hm : m.ByView) (hf : ∀ a, (f a).ByView) :
    (m >>= f).ByView := by
  induction m with
  | done a => exact hf a
  | giveUp => trivial
  | act a next ih => exact ih hm
  | look next ih =>
    refine fun s => ⟨ih s (hm s).1, fun t hst => ((hm s).2 t hst).imp ?_ ?_⟩
    · exact fun heq => congrArg (Code.bind f) heq
    · exact fun ⟨m, heq⟩ => ⟨m.bind f, congrArg (Code.bind f) heq⟩
  | call c next ih => exact fun r => ih r (hm r)

theorem ByView.attempt (hm : m.ByView) : m.attempt.ByView := by
  induction m with
  | done a => trivial
  | giveUp => trivial
  | act a next ih => exact ih hm
  | look next ih =>
    refine fun s => ⟨ih s (hm s).1, fun t hst => ((hm s).2 t hst).imp ?_ ?_⟩
    · exact fun heq => congrArg Code.attempt heq
    · exact fun ⟨m, heq⟩ => ⟨m.attempt, congrArg Code.attempt heq⟩
  | call c next ih => exact fun r => ih r (hm r)

theorem byView_current : current.ByView :=
  fun _ => ⟨trivial, fun _ hst => .inl (congrArg done hst.current)⟩

theorem byView_following : following.ByView :=
  fun _ => ⟨trivial, fun _ hst => .inl (congrArg done hst.following)⟩

theorem byView_ofOption (o : Option α) : (ofOption o).ByView := by
  cases o <;> trivial

theorem byView_expect (kind : Kind) : (expect kind).ByView := by
  refine byView_following.bind fun t => ?_
  split
  · exact byView_current
  · trivial

theorem byView_invoke (c : Routine) : (invoke c).ByView := fun _ => byView_ofOption _

theorem byView_traced {rule : Rule} (hm : m.ByView) : (traced rule m).ByView :=
  hm.attempt.bind fun a => byView_ofOption a

/-- Where an expression is not refused, one is not refused either with fewer of them open. -/
theorem byView_expression (p : Precedence) : (expression p).ByView := by
  have hchain : (traced .expression (invoke (.chain p))).ByView := byView_traced (byView_invoke _)
  intro s
  change (if s.nesting < maxNesting then _ else _ : Code Expr).ByView ∧ ∀ t, s.Covers t →
    (if t.nesting < maxNesting then _ else _ : Code Expr) =
      (if s.nesting < maxNesting then _ else _ : Code Expr) ∨
    ∃ m, (if s.nesting < maxNesting then _ else _ : Code Expr) = .act refusal m
  by_cases hs : s.nesting < maxNesting
  · refine ⟨?_, fun t hst => .inl ?_⟩
    · rw [if_pos hs]
      exact hchain.attempt.bind fun e => byView_ofOption e
    · rw [if_pos hs, if_pos (Nat.lt_of_le_of_lt hst.nesting_le hs)]
  · simp only [if_neg hs]
    exact ⟨trivial, fun t _ => .inr ⟨.giveUp, rfl⟩⟩

end Code

open Code

theorem byView_correspondence : Correspondence 0 fun _ _ m _ => m.ByView where
  pure _ := trivial
  bind := .bind
  current := byView_current
  following := byView_following
  advance := trivial
  fail _ := trivial
  expect := byView_expect
  invoke _ _ := byView_invoke _
  attempt _ hf := (byView_invoke .statement).attempt.bind hf
  traced := byView_traced
  expression := byView_expression

/-! ### Phrases -/

/-- A phrase does not depend on what it stands in. If a routine refuses no expression, it gives the
same result from every state with the same view and not more expressions open, leaves the same view
behind it, adds the same reports to those that there are, and writes the same lines, moved in by the
depth at its entry. -/
theorem phrase_independent (c : Routine) (hview : s.SameView t) (hnesting : t.nesting ≤ s.nesting) :
    ∃ r s' es, c.Runs s r s' es ∧
      let as := Event.actionsAll es
      let lines := Action.lines 0 as
      s'.diagnostics = s.diagnostics ++ Action.reports as ∧
      s'.sink = s.sink.map (·.writeLines (lines.map (indented s.depth))) ∧
      (.nestingTooDeep maxNesting ∉ Action.reports as →
        ∃ t' es', c.Runs t r t' es' ∧ Event.actionsAll es' = as ∧ s'.SameView t' ∧
          t'.diagnostics = t.diagnostics ++ Action.reports as ∧
          t'.sink = t.sink.map (·.writeLines (lines.map (indented t.depth)))) := by
  have hbody (c : Routine) : c.body.ByView := byView_correspondence.body c
  obtain ⟨r, s', es, hrun, -, -⟩ := c.exists_runs s
  refine ⟨r, s', es, hrun, ?_, ?_, fun hdeep => ?_⟩
  · rw [Eval.after hrun, State.after_diagnostics]
  · rw [Eval.after hrun, State.after_sink, hrun.lines_eq]
  · have hes : refusal ∉ Event.actionsAll es := fun hmem => hdeep (Action.mem_reports.2 hmem)
    obtain ⟨t', es', hrun', hst', heq⟩ := Eval.followed hrun hbody (hbody c) ⟨hview, hnesting⟩ hes
    refine ⟨t', es', hrun', heq, hst'.toSameView, ?_, ?_⟩
    · rw [Eval.after hrun', State.after_diagnostics, heq]
    · rw [Eval.after hrun', State.after_sink, Routine.Runs.lines_eq hrun', heq]

/-- With three more expressions to open, inside of others and behind an error, `-a * f(b)` is read
as it is at the beginning of a text. -/
theorem phrase_independent_at_limit :
    let t := State.ofLexer (Lexer.ofString "-a * f(b); c") none
    let s : State := { t with
      diagnostics := [.noOperand .semicolon]
      nesting := 61
      sink := some (.empty (some 20))
      depth := 9 }
    s.SameView t ∧ t.nesting ≤ s.nesting ∧
      ∃ e s' es t' es', (Routine.expression .lowest).Runs s (some e) s' es ∧
        (Routine.expression .lowest).Runs t (some e) t' es' ∧ e.render = "((-a) * f(b))" ∧
        Event.actionsAll es' = Event.actionsAll es ∧ s'.SameView t' ∧
        s'.diagnostics = s.diagnostics ∧ t'.diagnostics = t.diagnostics := by
  intro t s
  have hview : s.SameView t := ⟨rfl, rfl, rfl⟩
  have hnesting : t.nesting ≤ s.nesting := Nat.zero_le _
  obtain ⟨r, s', es, hrun, hds, -, h⟩ :=
    phrase_independent (.expression .lowest) hview hnesting
  have hfollows := hrun.follows s.reads_ahead
  have hvalue : ((Grammar.expression 3 .lowest).run s.ahead).value.toOption.map Expr.render =
      some "((-a) * f(b))" := by decide +kernel
  have hreports : ((Grammar.expression 3 .lowest).run s.ahead).reports = [] := by decide +kernel
  obtain ⟨e, he, hrender⟩ := Option.map_eq_some_iff.1 hvalue
  obtain rfl : r = some e := hfollows.result.trans he
  have hnone : Action.reports (Event.actionsAll es) = [] :=
    List.append_cancel_left (hds.symm.trans (hfollows.diagnostics.trans (congrArg _ hreports)))
  rw [hnone, List.append_nil] at hds h
  obtain ⟨t', es', hrun', has, hview', hds', -⟩ := h List.not_mem_nil
  exact ⟨hview, hnesting, e, s', es, t', es', hrun, hrun', hrender, has, hview', hds, hds'⟩

end Monkey.Machine
