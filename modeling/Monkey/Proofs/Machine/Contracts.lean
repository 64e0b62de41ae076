import Monkey.Machine.Routines

/-! Contracts for the machine's routines. A contract says which actions may be done, in which
states a routine may be called, and what holds when it returns. Code that keeps to it, provided
that the routines it calls do, is checked without running it; when the code of every routine
does, so does every run. -/

namespace Monkey.Machine

structure Contract where
  action : Action → State → Prop
  entry : Routine → State → Prop
  exit : (c : Routine) → State → Option c.Result → State → Prop

variable {α β : Type} {K : Contract}

/-- Started in this state the code keeps to the contract and ends as `Q` says, provided that
the routines it calls return as the contract says. -/
def Code.Meets (K : Contract) (Q : Option α → State → Prop) : Code α → State → Prop
  | .done a, s => Q (some a) s
  | .giveUp, s => Q none s
  | .act a next, s => K.action a s ∧ next.Meets K Q (a.perform s)
  | .look next, s => (next s).Meets K Q s
  | .call c next, s => K.entry c s ∧ ∀ r s', K.exit c s r s' → (next r).Meets K Q s'

/-- An event that keeps to the contract, and so does all that was done inside. -/
inductive Event.Honours (K : Contract) : Event → Prop where
  | action {a : Action} {s : State} : K.action a s → Event.Honours K (.action a s)
  | call {c : Routine} {s s' : State} {r : Option c.Result} {es : List Event} :
    K.entry c s → K.exit c s r s' → (∀ e ∈ es, Event.Honours K e) →
    Event.Honours K (.call c s r s' es)

/-- When the code of every routine meets the contract, runs of such code end as it says. -/
theorem Eval.honours (hK : ∀ c s, K.entry c s → c.body.Meets K (K.exit c s) s) {m : Code α}
    {s s' : State} {r : Option α} {es : List Event} (h : Eval m s r s' es)
    {Q : Option α → State → Prop} (hm : m.Meets K Q s) :
    Q r s' ∧ ∀ e ∈ es, e.Honours K := by
  induction h with
  | done => exact ⟨hm, by simp⟩
  | giveUp => exact ⟨hm, by simp⟩
  | act _ ih =>
    obtain ⟨hQ, hes⟩ := ih hm.2
    exact ⟨hQ, List.forall_mem_cons.2 ⟨.action hm.1, hes⟩⟩
  | look _ ih => exact ih hm
  | @call α c next s s₁ s₂ r r' es es' _ _ ihcall ihnext =>
    obtain ⟨hexit, hes⟩ := ihcall (hK c s hm.1)
    obtain ⟨hQ, hes'⟩ := ihnext (hm.2 r s₁ hexit)
    exact ⟨hQ, List.forall_mem_cons.2 ⟨.call hm.1 hexit hes, hes'⟩⟩

/-- Code has one run at most. -/
theorem Eval.unique {m : Code α} {s s₁ s₂ : State} {r₁ r₂ : Option α} {es₁ es₂ : List Event}
    (h₁ : Eval m s r₁ s₁ es₁) (h₂ : Eval m s r₂ s₂ es₂) : r₁ = r₂ ∧ s₁ = s₂ ∧ es₁ = es₂ := by
  induction h₁ generalizing s₂ es₂ with
  | done =>
    cases h₂
    exact ⟨rfl, rfl, rfl⟩
  | giveUp =>
    cases h₂
    exact ⟨rfl, rfl, rfl⟩
  | act _ ih =>
    cases h₂ with
    | act h₂ =>
      obtain ⟨rfl, rfl, rfl⟩ := ih h₂
      exact ⟨rfl, rfl, rfl⟩
  | look _ ih =>
    cases h₂ with
    | look h₂ => exact ih h₂
  | call _ _ ihcall ihnext =>
    cases h₂ with
    | call hcall hnext =>
      obtain ⟨rfl, rfl, rfl⟩ := ihcall hcall
      obtain ⟨rfl, rfl, rfl⟩ := ihnext hnext
      exact ⟨rfl, rfl, rfl⟩

namespace Code

/-! ### Rules -/

variable {Q Q' : Option α → State → Prop} {s : State}

theorem Meets.imp {m : Code α} (h : m.Meets K Q s) (hQ : ∀ r s', Q r s' → Q' r s') :
    m.Meets K Q' s := by
  induction m generalizing s with
  | done a => exact hQ _ _ h
  | giveUp => exact hQ _ _ h
  | act a next ih => exact ⟨h.1, ih h.2⟩
  | look next ih => exact ih s h
  | call c next ih => exact ⟨h.1, fun r s' hr => ih r (h.2 r s' hr)⟩

/-- What holds at the end for each of several reasons holds for all of them. -/
theorem Meets.all {ι : Type} [Nonempty ι] {Q : ι → Option α → State → Prop} {m : Code α}
    (h : ∀ i, m.Meets K (Q i) s) : m.Meets K (fun r s' => ∀ i, Q i r s') s := by
  obtain ⟨i⟩ := ‹Nonempty ι›
  induction m generalizing s with
  | done a => exact h
  | giveUp => exact h
  | act a next ih => exact ⟨(h i).1, ih fun j => (h j).2⟩
  | look next ih => exact ih s h
  | call c next ih => exact ⟨(h i).1, fun r s' hr => ih r fun j => (h j).2 r s' hr⟩

theorem meets_bind {m : Code α} {f : α → Code β} {Q : Option β → State → Prop} :
    (m >>= f).Meets K Q s ↔
      m.Meets K (fun r s' => r.elim (Q none s') fun a => (f a).Meets K Q s') s := by
  induction m generalizing s with
  | done a => exact Iff.rfl
  | giveUp => exact Iff.rfl
  | act a next ih => exact and_congr_right fun _ => ih
  | look next ih => exact ih s
  | call c next ih => exact and_congr_right fun _ => forall₃_congr fun r _ _ => ih r

theorem meets_attempt {m : Code α} {Q : Option (Option α) → State → Prop} :
    m.attempt.Meets K Q s ↔ m.Meets K (fun r s' => Q (some r) s') s := by
  induction m generalizing s with
  | done a => exact Iff.rfl
  | giveUp => exact Iff.rfl
  | act a next ih => exact and_congr_right fun _ => ih
  | look next ih => exact ih s
  | call c next ih => exact and_congr_right fun _ => forall₃_congr fun r _ _ => ih r

theorem meets_ofOption {o : Option α} : (ofOption o).Meets K Q s ↔ Q o s := by
  cases o <;> exact Iff.rfl

theorem meets_invoke {c : Routine} {Q : Option c.Result → State → Prop} :
    (invoke c).Meets K Q s ↔ K.entry c s ∧ ∀ r s', K.exit c s r s' → Q r s' :=
  and_congr_right fun _ => forall₃_congr fun _ _ _ => meets_ofOption

theorem meets_expect {k : Kind} {Q : Option Token → State → Prop} : (expect k).Meets K Q s ↔
    if s.following.kind = k then
      K.action .advance s ∧ Q (some s.following) (Action.perform .advance s)
    else
      K.action (.report (.unexpected k s.following.kind)) s ∧
        Q none (Action.perform (.report (.unexpected k s.following.kind)) s) := by
  change (if s.following.kind = k then _ else _ : Code Token).Meets K Q s ↔ _
  split <;> exact Iff.rfl

theorem meets_accept {k : Kind} {Q : Option Unit → State → Prop} : (accept k).Meets K Q s ↔
    if s.following.kind = k then
      K.action .advance s ∧ Q (some ()) (Action.perform .advance s)
    else Q (some ()) s := by
  change (if s.following.kind = k then _ else _ : Code Unit).Meets K Q s ↔ _
  split <;> exact Iff.rfl

/-- The lines of the trace around code are written whether or not it gives up. -/
theorem meets_traced {r : Rule} {m : Code α} : (traced r m).Meets K Q s ↔
    K.action (.line ("BEGIN " ++ r.name)) s ∧
    K.action .indent (Action.perform (.line ("BEGIN " ++ r.name)) s) ∧
    m.Meets K (fun o s' => K.action .outdent s' ∧
        K.action (.line ("END " ++ r.name)) (Action.perform .outdent s') ∧
        Q o (Action.perform (.line ("END " ++ r.name)) (Action.perform .outdent s')))
      (Action.perform .indent (Action.perform (.line ("BEGIN " ++ r.name)) s)) := by
  refine and_congr_right fun _ => and_congr_right fun _ => ?_
  change (m.attempt >>= fun a => perform .outdent >>= fun _ =>
    perform (.line ("END " ++ r.name)) >>= fun _ => ofOption a).Meets K Q _ ↔ _
  rw [meets_bind, meets_attempt]
  constructor
  · exact fun h => h.imp fun o s' ⟨hout, hline, hQ⟩ => ⟨hout, hline, meets_ofOption.1 hQ⟩
  · exact fun h => h.imp fun o s' ⟨hout, hline, hQ⟩ => ⟨hout, hline, meets_ofOption.2 hQ⟩

end Code

end Monkey.Machine
