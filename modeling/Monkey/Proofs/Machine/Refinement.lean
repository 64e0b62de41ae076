import Monkey.Proofs.Machine.Contracts
import Monkey.Proofs.Machine.Correspondence
import Monkey.Reading

/-! The machine reads what the grammar reads. A run of a routine gives what its parser gives on
the tokens that the machine has in view and ahead: the same result, the same reports added to
those there were, and the lines of the same calls written to the sink. The parsers of
expressions are those for as many levels as are left at the machine's count. -/

namespace Monkey

/-! ### Sinks -/

namespace Sink

/-- The sink after the lines have been written to it, one by one. -/
def writeLines (k : Sink) (lines : List String) : Sink :=
  lines.foldl (fun k line => (k.write (line ++ "\n")).1) k

theorem writeLines_append (k : Sink) (as bs : List String) :
    k.writeLines (as ++ bs) = (k.writeLines as).writeLines bs := List.foldl_append

/-- Where a text is cut in two does not matter to the sink. -/
theorem write_append (k : Sink) (a b : String) :
    ((k.write a).1.write b).1 = (k.write (a ++ b)).1 := by
  obtain ⟨accepted, room⟩ := k
  cases room with
  | none => simp [write, ByteArray.append_assoc]
  | some n => simp [write, ByteArray.append_assoc, ByteArray.extract_append, Nat.sub_sub]

theorem write_empty (k : Sink) : (k.write "").1 = k := by
  obtain ⟨accepted, room⟩ := k
  cases room with
  | none => simp [write]
  | some n =>
    have hnothing : ByteArray.empty.extract 0 n = ByteArray.empty := by
      rw [← ByteArray.size_eq_zero_iff, ByteArray.size_extract]
      simp
    simp [write, hnothing]

theorem writeLines_eq (k : Sink) (lines : List String) :
    k.writeLines lines = (k.write (String.join (lines.map (· ++ "\n")))).1 := by
  induction lines generalizing k with
  | nil => exact (write_empty k).symm
  | cons line lines ih =>
    rw [List.map_cons, String.join_cons, ← write_append]
    exact ih _

end Sink

namespace Machine

variable {α β : Type}

/-! ### Tokens in view -/

/-- The tokens in view and those that the lexer has left are these. -/
structure State.Reads (s : State) (ts : List Token) : Prop where
  current : s.current = ts.headD .endOfInput
  following : s.following = ts.tail.headD .endOfInput
  tokens : s.lexer.tokens = ts.tail.tail

/-- The tokens in view and ahead, with those beyond the end of the text that are in view. -/
def State.ahead (s : State) : List Token := s.current :: s.following :: s.lexer.tokens

theorem State.reads_ahead (s : State) : s.Reads s.ahead := ⟨rfl, rfl, rfl⟩

theorem State.Reads.advance {s : State} {ts : List Token} (h : s.Reads ts) :
    (Action.advance.perform s).Reads ts.tail := by
  refine ⟨h.following, ?_, ?_⟩
  · rw [← h.tokens]
    exact s.lexer.next_fst
  · rw [← h.tokens]
    exact s.lexer.tokens_next

theorem State.ofLexer_reads (l : Lexer) (sink : Option Sink) :
    (State.ofLexer l sink).Reads l.tokens := by
  have h : (⟨l, .endOfInput, .endOfInput, [], 0, sink, 0⟩ : State).Reads
      (.endOfInput :: .endOfInput :: l.tokens) := ⟨rfl, rfl, rfl⟩
  exact h.advance.advance

/-! ### Following a parser -/

/-- From one state to the other the machine has done what the outcome says. -/
structure Follows (s : State) (o : Outcome (Except Diagnostic α)) (r : Option α) (s' : State) :
    Prop where
  result : r = o.value.toOption
  reads : s'.Reads o.ahead
  diagnostics : s'.diagnostics = s.diagnostics ++ o.reports
  sink : s'.sink = s.sink.map (·.writeLines (Call.linesAll s.depth o.calls))
  nesting : s'.nesting = s.nesting
  depth : s'.depth = s.depth

/-- The routines that the machine calls do what their parsers do. -/
def refinement : Contract where
  action _ _ := True
  entry _ _ := True
  exit c s r s' := ∀ ts, s.Reads ts →
    Follows s ((c.parser (Grammar.maxNesting - s.nesting)).run ts) r s'

/-- At this count of open expressions, the code does what the parser does. -/
def Refines (k : Nat) (m : Code α) (p : Parser α) : Prop :=
  ∀ s ts, s.nesting = k → s.Reads ts → m.Meets refinement (Follows s (p.run ts)) s

open Code

variable {k : Nat} {m : Code α} {p : Parser α} {f : α → Code β} {g : α → Parser β}

namespace Follows

variable {s s₁ s₂ : State} {ts : List Token} {r : Option β}

theorem silent {a : α} (h : s.Reads ts) : Follows s ⟨.ok a, ts, [], []⟩ (some a) s where
  result := rfl
  reads := h
  diagnostics := (List.append_nil _).symm
  sink := by simp [Sink.writeLines, Call.linesAll]
  nesting := rfl
  depth := rfl

theorem fail {d : Diagnostic} (h : s.Reads ts) :
    Follows s ((Parser.fail d : Parser α).run ts) none (Action.perform (.report d) s) where
  result := rfl
  reads := ⟨h.current, h.following, h.tokens⟩
  diagnostics := rfl
  sink := by simp [Sink.writeLines, Call.linesAll, Parser.fail, Action.perform]
  nesting := rfl
  depth := rfl

theorem bind_some {a : α} (hp : Follows s (p.run ts) (some a) s₁)
    (hg : Follows s₁ ((g a).run (p.run ts).ahead) r s₂) : Follows s ((p >>= g).run ts) r s₂ := by
  have hv : (p.run ts).value = .ok a := by
    cases hv : (p.run ts).value with
    | ok b => rw [Option.some.inj (hp.result.trans (congrArg Except.toOption hv))]
    | error d => cases hp.result.trans (congrArg Except.toOption hv)
  rw [Parser.run_bind_ok hv]
  refine ⟨hg.result, hg.reads, ?_, ?_, hg.nesting.trans hp.nesting, hg.depth.trans hp.depth⟩
  · rw [hg.diagnostics, hp.diagnostics]
    simp only [Outcome.reports, Outcome.followedBy, hv]
    split <;> simp only [List.append_assoc]
  · rw [hg.sink, hp.sink, hp.depth, Option.map_map]
    simp only [Outcome.followedBy, Call.linesAll_append, Sink.writeLines_append]
    rfl

theorem bind_none (hp : Follows s (p.run ts) none s₁) : Follows s ((p >>= g).run ts) none s₁ := by
  obtain ⟨d, hv⟩ : ∃ d, (p.run ts).value = .error d := by
    cases hv : (p.run ts).value with
    | ok b => cases hp.result.trans (congrArg Except.toOption hv)
    | error d => exact ⟨d, rfl⟩
  rw [Parser.run_bind_error hv]
  refine ⟨rfl, hp.reads, ?_, hp.sink, hp.nesting, hp.depth⟩
  rw [hp.diagnostics]
  simp only [Outcome.reports, hv]

theorem attempt {r : Option α} (h : Follows s (p.run ts) r s₁) :
    Follows s (p.attempt.run ts) (some r) s₁ :=
  ⟨congrArg some h.result, h.reads, h.diagnostics, h.sink, h.nesting, h.depth⟩

end Follows

namespace Refines

theorem pure (a : α) : Refines k (Pure.pure a) (Pure.pure a) := fun _ _ _ hts => .silent hts

theorem fail (d : Diagnostic) : Refines k (fail d : Code α) (Parser.fail d) :=
  fun _ _ _ hts => ⟨trivial, .fail hts⟩

theorem bind (hm : Refines k m p) (hf : ∀ a, Refines k (f a) (g a)) :
    Refines k (m >>= f) (p >>= g) := by
  intro s ts hk hts
  rw [meets_bind]
  refine (hm s ts hk hts).imp fun r s₁ hs₁ => ?_
  cases r with
  | none => exact hs₁.bind_none
  | some a =>
    refine (hf a s₁ _ (hs₁.nesting.trans hk) hs₁.reads).imp fun r s₂ hs₂ => ?_
    exact hs₁.bind_some hs₂

theorem current : Refines k current Parser.current := by
  intro s ts _ hts
  change Follows s (Parser.current.run ts) (some s.current) s
  rw [hts.current]
  exact .silent hts

theorem following : Refines k following Parser.following := by
  intro s ts _ hts
  change Follows s (Parser.following.run ts) (some s.following) s
  rw [hts.following]
  exact .silent hts

theorem advance : Refines k (perform .advance) Parser.advance :=
  fun _ _ _ hts => ⟨trivial, { Follows.silent hts.advance with }⟩

theorem expect (kind : Kind) : Refines k (expect kind) (Parser.expect kind) := by
  intro s ts _ hts
  rw [meets_expect, Parser.expect, Parser.run_following_bind, ← hts.following]
  split
  · exact ⟨trivial, { Follows.silent hts.advance with }⟩
  · exact ⟨trivial, .fail hts⟩

theorem attempt (hm : Refines k m p) : Refines k m.attempt p.attempt := by
  intro s ts hk hts
  rw [meets_attempt]
  exact (hm s ts hk hts).imp fun _ _ h => h.attempt

theorem invoke (c : Routine) : Refines k (invoke c) (c.parser (Grammar.maxNesting - k)) := by
  intro s ts hk hts
  rw [meets_invoke]
  exact ⟨trivial, fun _ _ h => hk ▸ h ts hts⟩

theorem traced (rule : Rule) (hm : Refines k m p) :
    Refines k (traced rule m) (Parser.rule rule p) := by
  intro s ts hk hts
  rw [meets_traced]
  have hinside := hm (Action.perform .indent (Action.perform (.line ("BEGIN " ++ rule.name)) s)) ts
    hk ⟨hts.current, hts.following, hts.tokens⟩
  refine ⟨trivial, trivial, hinside.imp fun r s' h => ⟨trivial, trivial, ?_⟩⟩
  have hdepth : s'.depth - 1 = s.depth := by
    rw [h.depth]
    rfl
  refine ⟨h.result, ⟨h.reads.current, h.reads.following, h.reads.tokens⟩, h.diagnostics, ?_,
    h.nesting, hdepth⟩
  change s'.sink.map (fun k =>
    (k.write ("".pushn '\t' (s'.depth - 1) ++ ("END " ++ rule.name) ++ "\n")).1) = _
  rw [hdepth, h.sink]
  cases hs : s.sink with
  | none => simp [Action.perform, hs]
  | some k =>
    simp [Action.perform, hs, Parser.rule, Call.linesAll, Call.lines, Sink.writeLines,
      String.append_assoc]

theorem expression (p : Precedence) : Refines k (expression p)
    (Grammar.expression (Grammar.maxNesting - k) p) := by
  intro s ts hk hts
  change (if s.nesting < Grammar.maxNesting then _ else _ : Code Expr).Meets _ _ s
  rw [hk]
  split
  · next hlt =>
    obtain ⟨n, hn⟩ : ∃ n, Grammar.maxNesting - k = n + 1 :=
      Nat.exists_eq_add_one.2 (Nat.sub_pos_of_lt hlt)
    have hchain : Refines (k + 1) (Code.traced .expression (Code.invoke (.chain p)))
        (Grammar.expression (n + 1) p) := by
      have h : Refines (k + 1) _ _ := traced .expression (invoke (.chain p))
      rwa [show Grammar.maxNesting - (k + 1) = n by omega] at h
    have hinside := hchain (Action.enter.perform s) ts (congrArg (· + 1) hk)
      ⟨hts.current, hts.following, hts.tokens⟩
    rw [hn]
    refine ⟨trivial, ?_⟩
    change ((Code.traced .expression (Code.invoke (.chain p))).attempt >>= fun e =>
      perform .leave >>= fun _ => ofOption e).Meets _ _ _
    rw [meets_bind, meets_attempt]
    refine hinside.imp fun r s' h => ⟨trivial, meets_ofOption.2 ?_⟩
    exact ⟨h.result, ⟨h.reads.current, h.reads.following, h.reads.tokens⟩, h.diagnostics, h.sink,
      congrArg (· - 1) h.nesting, h.depth⟩
  · next hle =>
    rw [Nat.sub_eq_zero_of_le (Nat.le_of_not_lt hle)]
    exact fail _ s ts hk hts

end Refines

theorem refinement_correspondence (k : Nat) : Correspondence k fun _ _ => Refines k where
  pure := .pure
  bind := .bind
  current := .current
  following := .following
  advance := .advance
  fail := .fail
  expect := .expect
  invoke _ _ := .invoke _
  attempt _ := (Refines.invoke .statement).attempt.bind
  traced := .traced _
  expression := .expression

/-- The code of a routine does what its parser does. -/
theorem Routine.refines (c : Routine) (k : Nat) :
    Refines k c.body (c.parser (Grammar.maxNesting - k)) := (refinement_correspondence k).body c

/-- A run of a routine does what its parser does on the tokens in view and ahead. -/
theorem Routine.Runs.follows {c : Routine} {s s' : State} {r : Option c.Result} {es : List Event}
    (h : c.Runs s r s' es) {ts : List Token} (hts : s.Reads ts) :
    Follows s ((c.parser (Grammar.maxNesting - s.nesting)).run ts) r s' := by
  refine (Eval.honours (fun c s _ => ?_) h (c.refines _ s ts rfl hts)).1
  have : Nonempty { ts // s.Reads ts } := ⟨⟨_, s.reads_ahead⟩⟩
  exact (Meets.all fun ts : { ts // s.Reads ts } => c.refines _ s ts rfl ts.2).imp
    fun r s' h ts hts => h ⟨ts, hts⟩

/-! ### Programs -/

/-- Statements that fail are left out of programs and blocks, which do not fail themselves. -/
theorem Routine.Runs.isSome {c : Routine} {s s' : State} {r : Option c.Result} {es : List Event}
    (h : c.Runs s r s' es) (hc : c = .program ∨ c = .block) : r.isSome = true := by
  rcases hc with rfl | rfl
  · rw [(h.follows s.reads_ahead).result]
    rfl
  · rw [(h.follows s.reads_ahead).result]
    rfl

/-- Between two programs the machine is where a reading is, with nothing open. -/
structure State.Holds (s : State) (r : Reading) : Prop where
  reads : s.Reads r.ahead
  diagnostics : s.diagnostics = r.diagnostics
  sink : s.sink = r.sink
  nesting : s.nesting = 0
  depth : s.depth = 0

theorem State.ofLexer_holds (l : Lexer) (sink : Option Sink) :
    (State.ofLexer l sink).Holds { Reading.ofLexer l with sink := sink } :=
  ⟨State.ofLexer_reads l sink, rfl, rfl, rfl, rfl⟩

/-- The machine reads the next program as a reading does. -/
theorem Routine.Runs.program_holds {s s' : State} {o : Option Program} {es : List Event}
    (h : Routine.program.Runs s o s' es) {r : Reading} (hs : s.Holds r) :
    o = some r.program.1 ∧ s'.Holds r.program.2 := by
  have hf := h.follows hs.reads
  rw [hs.nesting, Nat.sub_zero, Routine.parser, Parser.run_map] at hf
  refine ⟨hf.result, hf.reads, ?_, ?_, hf.nesting.trans hs.nesting, hf.depth.trans hs.depth⟩
  · rw [hf.diagnostics, hs.diagnostics]
    rfl
  · rw [hf.sink, hs.sink, hs.depth]
    simp only [Sink.writeLines_eq]
    rfl

end Machine

end Monkey
