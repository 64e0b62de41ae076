import Monkey.Grammar.Expression
import Monkey.Proofs.Lexing

/-! Clean runs. A run of a parser is clean when it gives a value and drops no statement on
the way. A clean run of a composite is made of clean runs of its parts, so the rules of
the grammar can be read as equivalences, in either direction. -/

namespace Monkey

open Monkey.Parser

namespace Parser

variable {α β γ : Type}

/-- Started at `ts` the parser gives `a` and drops no statement. It ends at `us` and has
made the calls `cs`. -/
def Runs (p : Parser α) (ts : List Token) (a : α) (us : List Token) (cs : List Call) : Prop :=
  p.run ts = ⟨.ok a, us, [], cs⟩

variable {p : Parser α} {f : α → Parser β} {ts us vs : List Token} {a : α} {b : β}
  {cs ds : List Call}

theorem runs_iff : p.Runs ts a us cs ↔ (p.run ts).value = .ok a ∧ (p.run ts).ahead = us ∧
    (p.run ts).diagnostics = [] ∧ (p.run ts).calls = cs := by
  unfold Runs
  constructor
  · intro h
    simp [h]
  · rintro ⟨hv, ha, hd, hc⟩
    rw [← hv, ← ha, ← hd, ← hc]

theorem Runs.suffix (h : p.Runs ts a us cs) : us <:+ ts := by
  have hs := p.ahead_suffix ts
  rwa [h] at hs

theorem runs_pure_iff {b : α} :
    (pure a : Parser α).Runs ts b us cs ↔ b = a ∧ us = ts ∧ cs = [] := by
  simp only [Runs, run_pure, Outcome.mk.injEq, Except.ok.injEq, true_and]
  grind

theorem runs_pure (a : α) (ts : List Token) : (pure a : Parser α).Runs ts a ts [] :=
  runs_pure_iff.2 ⟨rfl, rfl, rfl⟩

theorem runs_bind_iff : (p >>= f).Runs ts b vs ds ↔
    ∃ a us cs cs', p.Runs ts a us cs ∧ (f a).Runs us b vs cs' ∧ ds = cs ++ cs' := by
  constructor
  · intro h
    unfold Runs at h
    cases hv : (p.run ts).value with
    | error d =>
      rw [run_bind_error hv] at h
      cases congrArg Outcome.value h
    | ok a =>
      rw [run_bind_ok hv] at h
      simp only [Outcome.followedBy, Outcome.mk.injEq, List.append_eq_nil_iff] at h
      obtain ⟨hb, hvs, ⟨hd, hd'⟩, hc⟩ := h
      exact ⟨a, _, _, _, runs_iff.2 ⟨hv, rfl, hd, rfl⟩, runs_iff.2 ⟨hb, hvs, hd', rfl⟩, hc.symm⟩
  · rintro ⟨a, us, cs, cs', hp, hf, rfl⟩
    have hv : (p.run ts).value = .ok a := by rw [hp]
    rw [Runs, run_bind_ok hv, hp]
    simp only [Outcome.followedBy, List.nil_append]
    rw [hf]

theorem Runs.bind {cs' : List Call} (hp : p.Runs ts a us cs) (hf : (f a).Runs us b vs cs') :
    (p >>= f).Runs ts b vs (cs ++ cs') :=
  runs_bind_iff.2 ⟨a, us, cs, cs', hp, hf, rfl⟩

/-- What a run is followed by may make no calls. -/
theorem Runs.bind_silent (hp : p.Runs ts a us cs) (hf : (f a).Runs us b vs []) :
    (p >>= f).Runs ts b vs cs := by
  have h := hp.bind hf
  rwa [List.append_nil] at h

theorem runs_map_iff {g : α → β} : (p >>= fun a => pure (g a)).Runs ts b us cs ↔
    ∃ a, p.Runs ts a us cs ∧ b = g a := by
  constructor
  · intro h
    obtain ⟨a, vs, cs, _, hp, hpure, rfl⟩ := runs_bind_iff.1 h
    obtain ⟨rfl, rfl, rfl⟩ := runs_pure_iff.1 hpure
    rw [List.append_nil]
    exact ⟨a, hp, rfl⟩
  · rintro ⟨a, hp, rfl⟩
    exact hp.bind_silent (runs_pure _ us)

theorem Runs.map {g : α → β} (hp : p.Runs ts a us cs) :
    (p >>= fun a => pure (g a)).Runs ts (g a) us cs := runs_map_iff.2 ⟨a, hp, rfl⟩

theorem not_runs_fail {d : Diagnostic} : ¬ (fail d : Parser α).Runs ts a us cs := by
  simp [Runs, fail]

theorem runs_rule_iff {r : Rule} : (rule r p).Runs ts a us cs ↔
    ∃ ds, p.Runs ts a us ds ∧ cs = [⟨r, ts, us, true, ds⟩] := by
  simp only [runs_iff, rule]
  constructor
  · rintro ⟨hv, hu, hd, hc⟩
    refine ⟨_, ⟨hv, hu, hd, rfl⟩, ?_⟩
    rw [← hc, hv, hu]
    rfl
  · rintro ⟨ds, ⟨hv, hu, hd, rfl⟩, rfl⟩
    refine ⟨hv, hu, hd, ?_⟩
    rw [hv, hu]
    rfl

/-! ### Tokens

A step that makes no calls is passed over: what runs after it runs from where it ends. -/

section Tokens

variable {k : Kind}

theorem run_bind_silent {q : Parser γ} {g : γ → Parser β} {c : γ}
    (h : q.run ts = ⟨.ok c, us, [], []⟩) : (q >>= g).run ts = (g c).run us := by
  rw [run_bind, h]
  simp [Outcome.followedBy]

theorem runs_current_bind {g : Token → Parser β} :
    (current >>= g).Runs ts b vs ds ↔ (g (ts.headD .endOfInput)).Runs ts b vs ds := by
  rw [Runs, run_bind_silent rfl, Runs]

theorem runs_following_bind {g : Token → Parser β} :
    (following >>= g).Runs ts b vs ds ↔ (g (ts.tail.headD .endOfInput)).Runs ts b vs ds := by
  rw [Runs, run_bind_silent rfl, Runs]

theorem runs_advance_bind {g : Unit → Parser β} :
    (advance >>= g).Runs ts b vs ds ↔ (g ()).Runs ts.tail b vs ds := by
  rw [Runs, run_bind_silent rfl, Runs]

/-- Where a token of the right kind follows, it is moved onto. -/
theorem run_expect_of_eq (hk : (ts.tail.headD .endOfInput).kind = k) :
    (expect k).run ts = ⟨.ok (ts.tail.headD .endOfInput), ts.tail, [], []⟩ := by
  rw [expect, run_bind_silent rfl, if_pos hk]
  rfl

/-- Where another one follows, the parser fails and stays where it is. -/
theorem run_expect_of_ne (hk : (ts.tail.headD .endOfInput).kind ≠ k) : (expect k).run ts =
    ⟨.error (.unexpected k (ts.tail.headD .endOfInput).kind), ts, [], []⟩ := by
  rw [expect, run_bind_silent rfl, if_neg hk]
  rfl

theorem runs_expect_iff {t : Token} : (expect k).Runs ts t us cs ↔
    (ts.tail.headD .endOfInput).kind = k ∧ t = ts.tail.headD .endOfInput ∧
      us = ts.tail ∧ cs = [] := by
  rw [expect, runs_following_bind]
  split
  · next hk => simp only [runs_advance_bind, runs_pure_iff, hk, true_and]
  · next hk => simp only [not_runs_fail, hk, false_and]

theorem runs_expect_bind {g : Token → Parser β} : (expect k >>= g).Runs ts b vs ds ↔
    (ts.tail.headD .endOfInput).kind = k ∧
      (g (ts.tail.headD .endOfInput)).Runs ts.tail b vs ds := by
  simp only [runs_bind_iff, runs_expect_iff]
  constructor
  · rintro ⟨t, us, cs, cs', ⟨hk, rfl, rfl, rfl⟩, h, rfl⟩
    exact ⟨hk, h⟩
  · rintro ⟨hk, h⟩
    exact ⟨_, _, _, ds, ⟨hk, rfl, rfl, rfl⟩, h, rfl⟩

/-- A token of the right kind is there and is moved onto. -/
theorem Runs.expect {t : Token} {g : Token → Parser β} (ht : us.tail.head? = some t)
    (hk : t.kind = k) (h : (g t).Runs us.tail b vs ds) : (expect k >>= g).Runs us b vs ds := by
  obtain ⟨us', hus⟩ := List.head?_eq_some_iff.1 ht
  rw [runs_expect_bind, hus]
  rw [hus] at h
  exact ⟨hk, h⟩

theorem runs_accept_bind {g : Unit → Parser β} : (accept k >>= g).Runs ts b vs ds ↔
    (g ()).Runs (if (ts.tail.headD .endOfInput).kind = k then ts.tail else ts) b vs ds := by
  rw [accept, bind_assoc, runs_following_bind]
  split
  · exact runs_advance_bind
  · rw [pure_bind]

end Tokens

/-! ### Repetition -/

section Extend

variable {ready : Token → Bool} {step : α → Parser α}

theorem runs_extend_stop (a : α) (h : ∀ u ∈ ts.tail.head?, ready u = false) :
    (extend ready step a).Runs ts a ts [] := by
  unfold Runs extend
  match ts with
  | [] => simp [extending]
  | [t] => simp [extending]
  | t :: u :: us => simp [extending, h u (by simp)]

theorem runs_extend_step {u : Token} {a' b : α} {cs' : List Call} (hu : u ∈ ts.tail.head?)
    (hr : ready u = true) (hs : (step a).Runs ts.tail a' us cs)
    (he : (extend ready step a').Runs us b vs cs') :
    (extend ready step a).Runs ts b vs (cs ++ cs') := by
  match ts with
  | [] => simp at hu
  | [t] => simp at hu
  | t :: v :: ws =>
    obtain rfl : v = u := by simpa using hu
    change (step a).run (v :: ws) = _ at hs
    change extending ready step a' us = _ at he
    change extending ready step a (t :: v :: ws) = _
    simp only [extending, hr, if_true, hs, Outcome.followedBy, he, List.nil_append]

/-- What holds before a repetition and is kept by every step of it holds afterwards, and the
next token is not ready. -/
theorem Runs.extend_invariant {I : α → List Token → List Call → Prop} {b : α} {c : List Call}
    (h : (extend ready step a).Runs ts b vs ds) (h₀ : I a ts c)
    (hs : ∀ a ts u a' us cs ds, I a ts ds → u ∈ ts.tail.head? → ready u = true →
      (step a).Runs ts.tail a' us cs → I a' us (ds ++ cs)) :
    I b vs (c ++ ds) ∧ ∀ u ∈ vs.tail.head?, ready u = false := by
  change extending ready step a ts = _ at h
  revert c ds
  fun_induction extending ready step a ts
  case case1 a t u us hr o a' hv ih =>
    intro ds c h₀ h
    simp only [Outcome.followedBy, Outcome.mk.injEq, List.append_eq_nil_iff] at h
    obtain ⟨hb, hvs, ⟨hd, hd'⟩, rfl⟩ := h
    have hstep : (step a).Runs (u :: us) a' o.ahead o.calls := runs_iff.2 ⟨hv, rfl, hd, rfl⟩
    rw [← List.append_assoc]
    exact ih (hs a (t :: u :: us) u a' _ _ _ h₀ rfl hr hstep) (by rw [← hb, ← hvs, ← hd'])
  case case2 a t u us hr o d hv =>
    intro ds c h₀ h
    rw [h] at hv
    cases hv
  case case3 a t u us hr =>
    intro ds c h₀ h
    simp only [Outcome.mk.injEq, Except.ok.injEq, true_and] at h
    obtain ⟨rfl, rfl, rfl⟩ := h
    exact ⟨by rwa [List.append_nil], by simpa using hr⟩
  case case4 a ts hts =>
    intro ds c h₀ h
    simp only [Outcome.mk.injEq, Except.ok.injEq, true_and] at h
    obtain ⟨rfl, rfl, rfl⟩ := h
    refine ⟨by rwa [List.append_nil], fun u hu => ?_⟩
    rcases ts with _ | ⟨t, _ | ⟨v, ws⟩⟩
    · cases hu
    · cases hu
    · exact absurd rfl (hts t v ws)

/-- Behind `p` the steps of a repetition lead from `ts` to the value `a` at `us`: what the
repetition makes of it from there on, it makes of the tokens as a whole. -/
def Leads (p : Parser β) (f : β → α) (ready : Token → Bool) (step : α → Parser α) (ts : List Token)
    (a : α) (us : List Token) (cs : List Call) : Prop :=
  ∀ (b : α) (vs : List Token) (ds : List Call), (extend ready step a).Runs us b vs ds →
    (p >>= fun b => extend ready step (f b)).Runs ts b vs (cs ++ ds)

variable {q : Parser β} {g : β → α}

theorem Leads.start (h : q.Runs ts b us cs) : Leads q g ready step ts (g b) us cs :=
  fun _ _ _ hloop => h.bind hloop

theorem Leads.more {a' : α} {u : Token} {ds : List Call} (h : Leads q g ready step ts a us cs)
    (hu : u ∈ us.tail.head?) (hr : ready u = true) (hs : (step a).Runs us.tail a' vs ds) :
    Leads q g ready step ts a' vs (cs ++ ds) := by
  intro b ws es hloop
  rw [List.append_assoc]
  exact h _ _ _ (runs_extend_step hu hr hs hloop)

theorem Leads.runs (h : Leads q g ready step ts a us cs)
    (hr : ∀ u ∈ us.tail.head?, ready u = false) :
    (q >>= fun b => extend ready step (g b)).Runs ts a us cs := by
  have hrun := h _ _ _ (runs_extend_stop a hr)
  rwa [List.append_nil] at hrun

end Extend

section Items

variable {stop : Token → Bool} {item : Parser α} {as : List α}

theorem runs_items_stop (h : ∀ t ∈ ts.head?, stop t = true) :
    (itemsUntil stop item).Runs ts [] ts [] := by
  match ts with
  | [] => simp [Runs, itemsUntil, items]
  | t :: ts => simp [Runs, itemsUntil, items, h t rfl]

theorem runs_items_step {t : Token} (ht : stop t = false) (hi : item.Runs (t :: ts) a us cs)
    (h : (itemsUntil stop item).Runs us.tail as vs ds) :
    (itemsUntil stop item).Runs (t :: ts) (a :: as) vs (cs ++ ds) := by
  simp only [runs_iff, itemsUntil, Except.ok.injEq] at h ⊢
  unfold Runs at hi
  simpa [items, ht, hi, Outcome.followedBy] using h

/-- Clean runs of items, one item after another from the last. -/
theorem Runs.items_induction {motive : List Token → List α → List Token → List Call → Prop}
    (h : (itemsUntil stop item).Runs ts as us ds)
    (done : ∀ ts, (∀ t ∈ ts.head?, stop t = true) → motive ts [] ts [])
    (step : ∀ t ts a us cs as vs ds, stop t = false → item.Runs (t :: ts) a us cs →
      motive us.tail as vs ds → motive (t :: ts) (a :: as) vs (cs ++ ds)) :
    motive ts as us ds := by
  simp only [runs_iff, itemsUntil, Except.ok.injEq] at h
  revert as ds
  fun_induction items stop item ts
  case case1 =>
    rintro ds as ⟨rfl, rfl, -, rfl⟩
    exact done [] (by simp)
  case case2 t ts ht =>
    rintro ds as ⟨rfl, rfl, -, rfl⟩
    exact done (t :: ts) (by simpa using ht)
  case case3 t ts ht o p a hv ih =>
    rintro ds as ⟨rfl, rfl, hd, rfl⟩
    obtain ⟨hd, hd'⟩ := List.append_eq_nil_iff.1 hd
    exact step t ts a o.ahead o.calls _ _ _ (by simpa using ht)
      (runs_iff.2 ⟨hv, rfl, hd, rfl⟩) (ih ⟨rfl, rfl, hd', rfl⟩)
  case case4 t ts ht o p d hv ih =>
    rintro ds as ⟨-, -, hd, -⟩
    simp [Outcome.followedBy] at hd

end Items

end Parser

/-- Without an end-of-input mark among them, all tokens of a program are read. -/
theorem Grammar.program_ahead {ts : List Token} (hu : Unmarked ts) : (program ts).ahead = [] := by
  have hstop := items_stop (·.kind = .endOfInput) (statement (expression maxNesting)) ts
  have hsuffix := items_suffix (·.kind = .endOfInput) (statement (expression maxNesting)) ts
  change (items _ _ ts).ahead = []
  cases hahead : (items (·.kind = .endOfInput) (statement (expression maxNesting)) ts).ahead with
  | nil => rfl
  | cons t us =>
    rw [hahead] at hstop hsuffix
    exact absurd (of_decide_eq_true (hstop t rfl)) (hu t (hsuffix.mem List.mem_cons_self))

end Monkey
