import Monkey.Proofs.Machine.Termination
import Monkey.Proofs.Nesting

/-! The machine's two counters. From one expression to the next inside it at most five lines of the
trace are opened: its own, one for its form, one for a block, and two for a statement. So the bound
on the expressions that are open bounds the depth too, and what is counted up is counted down again
however the code ends. -/

namespace Monkey.Machine

open Grammar (maxNesting)

variable {α β : Type}

/-! ### Bounds -/

/-- The most lines of the trace that are open at once; the last of them is indented one less. -/
def maxDepth : Nat := 5 * maxNesting + 2

structure State.InBounds (s : State) : Prop where
  nesting_le : s.nesting ≤ maxNesting
  depth_le : s.depth ≤ maxDepth

/-- What an action needs: something to count down, or a line that may be indented this far. -/
def Action.Guarded : Action → State → Prop
  | .leave, s => 0 < s.nesting
  | .outdent, s => 0 < s.depth
  | .line _, s => s.depth < maxDepth
  | _, _ => True

/-- The counters are in bounds before and behind the action, which does not count below zero. -/
structure Action.Fits (a : Action) (s : State) : Prop where
  before : s.InBounds
  behind : (a.perform s).InBounds
  guarded : a.Guarded s

/-- For each open expression at most five lines are open, and two more less this much. -/
structure Room (n : Nat) (s : State) : Prop where
  nesting_le : s.nesting ≤ maxNesting
  depth_le : s.depth + n ≤ 5 * s.nesting + 2

theorem Room.inBounds {n : Nat} {s : State} (h : Room n s) : s.InBounds := by
  refine ⟨h.nesting_le, ?_⟩
  have hn := h.nesting_le
  have hd := h.depth_le
  rw [maxDepth]
  omega

/-- The counters are what they were. -/
structure Restored (s s' : State) : Prop where
  nesting_eq : s'.nesting = s.nesting
  depth_eq : s'.depth = s.depth

/-- Every action fits, routines are called with room, and return with the counters restored. -/
def counting : Contract where
  action := Action.Fits
  entry c s := Room c.level s
  exit _ s _ s' := Restored s s'

/-- Code that with this much room keeps in bounds and restores the counters. -/
def Restores (n : Nat) (m : Code α) : Prop :=
  ∀ s, Room n s → m.Meets counting (fun _ s' => Restored s s') s

variable {n k : Nat} {s s' : State} {m : Code α}

namespace Room

theorem mono (h : Room n s) (hk : k ≤ n) : Room k s := by
  refine ⟨h.nesting_le, ?_⟩
  have hd := h.depth_le
  omega

theorem restored (h : Room n s) (hs : Restored s s') : Room n s' :=
  ⟨hs.nesting_eq ▸ h.nesting_le, by rw [hs.nesting_eq, hs.depth_eq]; exact h.depth_le⟩

end Room

namespace Restores

open Code

theorem mono (h : Restores k m) (hk : k ≤ n) : Restores n m := fun s hs => h s (hs.mono hk)

theorem pure (a : α) : Restores n (Pure.pure a) := fun _ _ => ⟨rfl, rfl⟩

theorem bind {f : α → Code β} (hm : Restores n m) (hf : ∀ a, Restores n (f a)) :
    Restores n (m >>= f) := by
  intro s hs
  rw [meets_bind]
  refine (hm s hs).imp fun r s₁ hs₁ => ?_
  cases r with
  | none => exact hs₁
  | some a =>
    refine (hf a s₁ (hs.restored hs₁)).imp fun _ s₂ hs₂ => ?_
    exact ⟨hs₂.nesting_eq.trans hs₁.nesting_eq, hs₂.depth_eq.trans hs₁.depth_eq⟩

/-- An action that leaves the counters alone. -/
theorem fits {a : Action} (hs : Room n s) (h : Restored s (a.perform s)) (hg : a.Guarded s) :
    a.Fits s := ⟨hs.inBounds, (hs.restored h).inBounds, hg⟩

theorem fits_advance (hs : Room n s) : Action.advance.Fits s := fits hs ⟨rfl, rfl⟩ trivial

theorem fits_report (d : Diagnostic) (hs : Room n s) : (Action.report d).Fits s :=
  fits hs ⟨rfl, rfl⟩ trivial

theorem fits_line (text : String) (hs : Room (n + 1) s) : (Action.line text).Fits s := by
  refine fits hs ⟨rfl, rfl⟩ ?_
  have hn := hs.nesting_le
  have hd := hs.depth_le
  change s.depth < 5 * maxNesting + 2
  omega

theorem fail (d : Diagnostic) : Restores n (fail d : Code α) :=
  fun _ hs => ⟨fits_report d hs, rfl, rfl⟩

theorem current : Restores n current := fun _ _ => ⟨rfl, rfl⟩

theorem following : Restores n following := fun _ _ => ⟨rfl, rfl⟩

theorem advance : Restores n (perform .advance) := fun _ hs => ⟨fits_advance hs, rfl, rfl⟩

theorem expect (kind : Kind) : Restores n (expect kind) := by
  intro s hs
  rw [meets_expect]
  split
  · exact ⟨fits_advance hs, rfl, rfl⟩
  · exact ⟨fits_report _ hs, rfl, rfl⟩

theorem attempt (hm : Restores n m) : Restores n m.attempt := by
  intro s hs
  rw [meets_attempt]
  exact hm s hs

theorem invoke {c : Routine} (hc : c.level ≤ n) : Restores n (invoke c) := by
  intro s hs
  rw [meets_invoke]
  exact ⟨hs.mono hc, fun _ _ h => h⟩

/-- Between its two lines code has one level less. -/
theorem traced {rule : Rule} (hm : Restores n m) : Restores (n + 1) (traced rule m) := by
  intro s hs
  have hline : Room (n + 1) (Action.perform (.line ("BEGIN " ++ rule.name)) s) :=
    hs.restored ⟨rfl, rfl⟩
  have hinside : Room n
      (Action.perform .indent (Action.perform (.line ("BEGIN " ++ rule.name)) s)) :=
    ⟨hs.nesting_le, Nat.le_trans (Nat.le_of_eq (Nat.add_right_comm _ _ _)) hs.depth_le⟩
  rw [meets_traced]
  refine ⟨fits_line _ hs, ⟨hline.inBounds, hinside.inBounds, trivial⟩, (hm _ hinside).imp ?_⟩
  intro r s' hs'
  have hout : Restored s (Action.outdent.perform s') :=
    ⟨hs'.nesting_eq, congrArg (· - 1) hs'.depth_eq⟩
  have hdepth : 0 < s'.depth := hs'.depth_eq ▸ Nat.succ_pos s.depth
  exact ⟨⟨(hinside.restored hs').inBounds, (hs.restored hout).inBounds, hdepth⟩,
    fits_line _ (hs.restored hout), hout.nesting_eq, hout.depth_eq⟩

/-- One more expression is open around the code of an expression, if one more may be. -/
theorem expression (p : Precedence) : Restores 0 (expression p) := by
  intro s hs
  change (if s.nesting < maxNesting then _ else _ : Code Expr).Meets _ _ s
  split
  · next hlt =>
    -- The one more that is open makes room for five lines.
    have henter : Room 5 (Action.enter.perform s) := by
      refine ⟨hlt, ?_⟩
      have hd := hs.depth_le
      change s.depth + 5 ≤ 5 * (s.nesting + 1) + 2
      omega
    have hchain : Restores 5 (Code.traced .expression (Code.invoke (.chain p))) :=
      traced (invoke (Nat.le_refl 4))
    refine ⟨⟨hs.inBounds, henter.inBounds, trivial⟩, ?_⟩
    change ((Code.traced .expression (Code.invoke (.chain p))).attempt >>= fun e =>
      perform .leave >>= fun _ => ofOption e).Meets _ _ _
    rw [meets_bind, meets_attempt]
    refine (hchain _ henter).imp fun r s' hs' => ?_
    have hleave : Restored s (Action.leave.perform s') :=
      ⟨congrArg (· - 1) hs'.nesting_eq, hs'.depth_eq⟩
    have hopen : 0 < s'.nesting := hs'.nesting_eq ▸ Nat.succ_pos s.nesting
    exact ⟨⟨(henter.restored hs').inBounds, (hs.restored hleave).inBounds, hopen⟩,
      meets_ofOption.2 hleave⟩
  · exact fail _ s hs

end Restores

theorem restoring_correspondence : Correspondence 0 fun n _ m _ => Restores n m where
  pure := .pure
  bind := .bind
  current := .current
  following := .following
  advance := .advance
  fail := .fail
  expect := .expect
  invoke _ := .invoke
  attempt hn hf := (Restores.invoke hn).attempt.bind hf
  traced := .traced
  expression := .expression

/-- The code of a routine restores the counters, with the room that it is called with. -/
theorem Routine.restores (c : Routine) : Restores c.level c.body := restoring_correspondence.body c

/-- At the bound an expression is refused, with nothing done but the report. -/
theorem expression_refused (p : Precedence) {s : State} (h : maxNesting ≤ s.nesting) :
    (Routine.expression p).Runs s none (Action.perform (.report (.nestingTooDeep maxNesting)) s)
      [.action (.report (.nestingTooDeep maxNesting)) s] := by
  refine .look ?_
  change Eval (if s.nesting < maxNesting then _ else _ : Code Expr) _ _ _ _
  rw [if_neg (Nat.not_lt.2 h)]
  exact .act .giveUp

/-- A run that starts with enough room keeps in bounds at every moment. -/
theorem Routine.Runs.counts {c : Routine} {r : Option c.Result} {es : List Event}
    (h : c.Runs s r s' es) (hs : Room c.level s) :
    Restored s s' ∧ ∀ e ∈ es, e.Honours counting :=
  Eval.honours (fun c s hs => c.restores s hs) h (c.restores s hs)

/-- Every call returns with the counters as they were, from any state. In the course of reading
a source they stay in bounds and are never counted below zero; at the bound an expression is
refused at once, so that not more are ever open. -/
theorem counters_bounded :
    maxNesting = 64 ∧ maxDepth = 322 ∧
    (∀ (c : Routine) (s : State), ∃ r s' es, c.Runs s r s' es ∧ Restored s s') ∧
    (∀ (p : Precedence) (s : State), s.nesting = maxNesting → ∃ d,
      (Routine.expression p).Runs s none (Action.perform (.report d) s) [.action (.report d) s]) ∧
    ∀ (source : String) (sink : Option Sink),
      let start := State.ofLexer (Lexer.ofString source) sink
      let read := Reading.program { Reading.ofLexer (Lexer.ofString source) with sink := sink }
      (∃ s es, Routine.program.Runs start (some read.1) s es ∧ s.Holds read.2 ∧
        Restored start s ∧ ∀ e ∈ es, e.Honours counting) ∧
      Call.nestingAll (parse source).calls ≤ maxNesting := by
  refine ⟨rfl, rfl, fun c s => ?_, fun p s hs => ?_, fun source sink => ?_⟩
  · obtain ⟨r, s', es, hrun, -, -⟩ := c.exists_runs s
    have hf := hrun.follows s.reads_ahead
    exact ⟨r, s', es, hrun, hf.nesting, hf.depth⟩
  · exact ⟨_, expression_refused p (Nat.le_of_eq hs.symm)⟩
  · intro start read
    obtain ⟨r, s, es, hrun, -, -⟩ := Routine.program.exists_runs start
    obtain ⟨rfl, hs⟩ := hrun.program_holds (State.ofLexer_holds _ sink)
    have hroom : Room Routine.program.level start := ⟨Nat.zero_le _, Nat.le_refl 2⟩
    obtain ⟨hrestored, hes⟩ := hrun.counts hroom
    exact ⟨⟨s, es, hrun, hs, hrestored, hes⟩, nesting_items_le maxNesting _ _⟩

end Monkey.Machine
