import Monkey.Proofs.Machine.Refinement

/-! The actions of a run, in order and at any depth. They say all that a run does to the state: how
far it moves on, what it reports, and the lines that it writes to the trace. Every routine opens its
lines before it closes them and closes all of them, so at another depth the same actions write the
same lines, only that all of them are indented by so much more or less. -/

namespace Monkey.Machine

variable {α β : Type}

mutual

/-- The actions of an event, at any depth. -/
def Event.actions : Event → List Action
  | .action a _ => [a]
  | .call _ _ _ _ inside => Event.actionsAll inside

def Event.actionsAll : List Event → List Action
  | [] => []
  | e :: es => e.actions ++ Event.actionsAll es

end

/-- The state after some actions. -/
def State.after (s : State) (as : List Action) : State := as.foldl (fun s a => a.perform s) s

theorem State.after_append (s : State) (as bs : List Action) :
    s.after (as ++ bs) = (s.after as).after bs := List.foldl_append

/-- A run leaves the state that its actions lead to. -/
theorem Eval.after {m : Code α} {s s' : State} {r : Option α} {es : List Event}
    (h : Eval m s r s' es) : s' = s.after (Event.actionsAll es) := by
  induction h with
  | done => rfl
  | giveUp => rfl
  | act _ ih => exact ih
  | look _ ih => exact ih
  | call _ _ ihcall ihnext =>
    rw [Event.actionsAll, Event.actions, State.after_append, ← ihcall, ← ihnext]

/-! ### Reports -/

def Action.report? : Action → Option Diagnostic
  | report d => some d
  | _ => none

/-- What is reported by some actions. -/
def Action.reports (as : List Action) : List Diagnostic := as.filterMap Action.report?

theorem Action.mem_reports {as : List Action} {d : Diagnostic} :
    d ∈ reports as ↔ report d ∈ as := by
  simp only [reports, List.mem_filterMap]
  constructor
  · rintro ⟨a, ha, had⟩
    cases a <;> cases had
    exact ha
  · exact fun h => ⟨_, h, rfl⟩

theorem State.after_diagnostics (s : State) (as : List Action) :
    (s.after as).diagnostics = s.diagnostics ++ Action.reports as := by
  induction as generalizing s with
  | nil => exact (List.append_nil _).symm
  | cons a as ih =>
    rw [State.after, List.foldl_cons]
    refine (ih _).trans ?_
    cases a with
    | report d => exact List.append_assoc _ [d] _
    | _ => rfl

/-! ### Lines -/

/-- A line that is moved in by so many tabs. -/
def indented (d : Nat) (line : String) : String := "".pushn '\t' d ++ line

theorem indented_indented (d n : Nat) (line : String) :
    indented d (indented n line) = indented (d + n) line := by
  simp [indented, ← String.toList_inj, toList_pushn, ← List.replicate_append_replicate]

/-- The depth after an action. -/
def Action.depth (d : Nat) : Action → Nat
  | indent => d + 1
  | outdent => d - 1
  | _ => d

theorem perform_depth (a : Action) (s : State) : (a.perform s).depth = a.depth s.depth := by
  cases a <;> rfl

def Action.line? : Action → Option String
  | line text => some text
  | _ => none

/-- The lines that actions write when the first of them is done at this depth. -/
def Action.lines : Nat → List Action → List String
  | _, [] => []
  | d, a :: as => (a.line?.map (indented d)).toList ++ lines (a.depth d) as

theorem State.after_sink (s : State) (as : List Action) :
    (s.after as).sink = s.sink.map (·.writeLines (Action.lines s.depth as)) := by
  induction as generalizing s with
  | nil => exact Option.map_id'.symm
  | cons a as ih =>
    rw [State.after, List.foldl_cons]
    refine (ih _).trans ?_
    rw [perform_depth]
    cases a with
    | line text => exact Option.map_map _ _ _
    | _ => rfl

/-! ### Lines that are closed -/

/-- With `n` lines of its own open, the code opens and closes lines, but none that was open before,
and where it ends it has closed all of its own. -/
def Code.Closes : Code α → Nat → Prop
  | .done _, n => n = 0
  | .giveUp, n => n = 0
  | .act .indent next, n => next.Closes (n + 1)
  | .act .outdent next, n => 0 < n ∧ next.Closes (n - 1)
  | .act _ next, n => next.Closes n
  | .look next, n => ∀ s, (next s).Closes n
  | .call _ next, n => ∀ r, (next r).Closes n

/-- The lines of a run are moved in by the depth at its entry, where `n` lines are open already,
and what is done behind it is done at that depth again. -/
theorem Eval.lines_append {m : Code α} {s s' : State} {r : Option α} {es : List Event} {n : Nat}
    (h : Eval m s r s' es) (hbody : ∀ c : Routine, c.body.Closes 0) (hm : m.Closes n) (d : Nat)
    (as : List Action) : Action.lines (d + n) (Event.actionsAll es ++ as) =
      (Action.lines n (Event.actionsAll es)).map (indented d) ++ Action.lines d as := by
  induction h generalizing n d as with
  | done => rw [show n = 0 from hm]; rfl
  | giveUp => rw [show n = 0 from hm]; rfl
  | @act α a next s s' r es _ ih =>
    cases a with
    | indent => exact ih hm d as
    | outdent =>
      have hn : d + n - 1 = d + (n - 1) := Nat.add_sub_assoc hm.1 d
      refine (congrArg (fun k => Action.lines k (Event.actionsAll es ++ as)) hn).trans ?_
      exact ih hm.2 d as
    | line text =>
      change indented (d + n) text :: _ = indented d (indented n text) :: _
      rw [indented_indented]
      exact congrArg _ (ih hm d as)
    | _ => exact ih hm d as
  | look _ ih => exact ih (hm _) d as
  | @call α c next s s₁ s₂ r r' es es' _ _ ihcall ihnext =>
    have houter := ihcall (hbody c) (d + n) (Event.actionsAll es' ++ as)
    have hinner := ihcall (hbody c) n (Event.actionsAll es')
    rw [Nat.add_zero] at houter hinner
    rw [Event.actionsAll, Event.actions, List.append_assoc, houter, hinner, ihnext (hm r) d as,
      List.map_append, List.map_map, List.append_assoc]
    refine congrArg (· ++ _) (List.map_congr_left fun line _ => ?_)
    exact (indented_indented d n line).symm

namespace Code

variable {m : Code α} {n k : Nat}

theorem Closes.bind {f : α → Code β} (hm : m.Closes n) (hf : ∀ a, (f a).Closes 0) :
    (m >>= f).Closes n := by
  induction m generalizing n with
  | done a => exact hm ▸ hf a
  | giveUp => exact hm
  | act a next ih =>
    cases a with
    | outdent => exact ⟨hm.1, ih hm.2⟩
    | _ => exact ih hm
  | look next ih => exact fun s => ih s (hm s)
  | call c next ih => exact fun r => ih r (hm r)

/-- What goes on behind attempted code closes the lines that were open around it. -/
theorem Closes.attempt_bind {f : Option α → Code β} (hm : m.Closes n) (hf : ∀ a, (f a).Closes k) :
    (m.attempt >>= f).Closes (n + k) := by
  induction m generalizing n with
  | done a => rw [show n = 0 from hm, Nat.zero_add]; exact hf _
  | giveUp => rw [show n = 0 from hm, Nat.zero_add]; exact hf _
  | act a next ih =>
    cases a with
    | indent =>
      have h := ih hm
      rwa [Nat.add_right_comm] at h
    | outdent =>
      have h := ih hm.2
      rw [← Nat.sub_add_comm hm.1] at h
      exact ⟨Nat.add_pos_left hm.1 k, h⟩
    | _ => exact ih hm
  | look next ih => exact fun s => ih s (hm s)
  | call c next ih => exact fun r => ih r (hm r)

theorem closes_expect (kind : Kind) : (expect kind).Closes 0 := by
  have hfollowing : following.Closes 0 := fun _ => rfl
  refine hfollowing.bind fun t => ?_
  split
  · exact fun _ => rfl
  · rfl

theorem closes_invoke (c : Routine) : (invoke c).Closes 0 := by
  intro r
  cases r <;> rfl

theorem closes_traced {rule : Rule} (hm : m.Closes 0) : (traced rule m).Closes 0 := by
  refine hm.attempt_bind (k := 1) fun a => ⟨Nat.one_pos, ?_⟩
  cases a <;> rfl

end Code

open Code

theorem closing_correspondence : Correspondence 0 fun _ _ m _ => m.Closes 0 where
  pure _ := rfl
  bind := .bind
  current _ := rfl
  following _ := rfl
  advance := rfl
  fail _ := rfl
  expect := closes_expect
  invoke _ _ := closes_invoke _
  attempt _ hf := (closes_invoke .statement).attempt_bind hf
  traced := closes_traced
  expression p s := by
    change (if s.nesting < Grammar.maxNesting then _ else _ : Code Expr).Closes 0
    split
    · have hchain : (traced .expression (invoke (.chain p))).Closes 0 :=
        closes_traced (closes_invoke _)
      refine hchain.attempt_bind (k := 0) fun a => ?_
      cases a <;> rfl
    · rfl

/-- The lines of a run of a routine are the same at every depth, moved in by so much. -/
theorem Routine.Runs.lines_eq {c : Routine} {s s' : State} {r : Option c.Result} {es : List Event}
    (h : c.Runs s r s' es) (d : Nat) : Action.lines d (Event.actionsAll es) =
      (Action.lines 0 (Event.actionsAll es)).map (indented d) := by
  have hbody (c : Routine) : c.body.Closes 0 := closing_correspondence.body c
  have hlines := Eval.lines_append h hbody (hbody c) d []
  rwa [List.append_nil, Action.lines, List.append_nil] at hlines

end Monkey.Machine
