import Monkey.Diagnostic
import Monkey.Trace

/-! Parsers over a list of tokens. The first token of the list is the current one and
the second follows it; beyond the end of the list every token is an end-of-input mark.
A parser gives a value or the cause of its failure, and only ever moves forward: the
tokens ahead of it afterwards are a suffix of those before. Failing does not move back.
Causes are recorded where a failure is absorbed, by `Parser.itemsUntil`, so an outcome's
diagnostics are those of statements dropped on the way. -/

namespace Monkey

/-- What reading gives: a value, the tokens ahead, the causes of the statements dropped
on the way, and the calls made. -/
structure Outcome (α : Type) where
  value : α
  ahead : List Token
  diagnostics : List Diagnostic
  calls : List Call

/-- The second outcome, with what was reported on the way to it put before its own reports. -/
def Outcome.followedBy {α β : Type} (o : Outcome α) (p : Outcome β) : Outcome β :=
  { p with diagnostics := o.diagnostics ++ p.diagnostics, calls := o.calls ++ p.calls }

namespace Outcome

variable {α : Type} (o : Outcome (Except Diagnostic α)) (p : Outcome (List α))

/-- What an item gave put before what the items behind it gave: its value before theirs, or
the cause of its failure before their causes. -/
def beforeItems : Outcome (List α) :=
  match o.value with
  | .ok a => o.followedBy { p with value := a :: p.value }
  | .error d => o.followedBy { p with diagnostics := d :: p.diagnostics }

theorem beforeItems_ahead : (o.beforeItems p).ahead = p.ahead := by
  unfold beforeItems
  split <;> rfl

theorem beforeItems_calls : (o.beforeItems p).calls = o.calls ++ p.calls := by
  unfold beforeItems
  split <;> rfl

theorem mem_beforeItems_diagnostics {d : Diagnostic} : d ∈ (o.beforeItems p).diagnostics ↔
    (d ∈ o.diagnostics ∨ o.value = .error d) ∨ d ∈ p.diagnostics := by
  unfold beforeItems
  split <;> next hv => simp [followedBy, hv, or_assoc, eq_comm]

end Outcome

/-- A parser that only moves forward. -/
@[ext] structure Parser (α : Type) where
  run : List Token → Outcome (Except Diagnostic α)
  ahead_suffix : ∀ ts, (run ts).ahead <:+ ts

namespace Parser

variable {α β γ : Type}

theorem ahead_length_le (p : Parser α) (ts : List Token) : (p.run ts).ahead.length ≤ ts.length :=
  (p.ahead_suffix ts).length_le

/-! ### Sequencing -/

instance : Monad Parser where
  pure a := ⟨fun ts => ⟨.ok a, ts, [], []⟩, fun ts => List.suffix_refl ts⟩
  bind p f :=
    { run := fun ts =>
        let o := p.run ts
        match o.value with
        | .ok a => o.followedBy ((f a).run o.ahead)
        | .error d => { o with value := .error d }
      ahead_suffix := fun ts => by
        dsimp only
        split
        · exact ((f _).ahead_suffix _).trans (p.ahead_suffix ts)
        · exact p.ahead_suffix ts }

@[simp] theorem run_pure (a : α) (ts : List Token) :
    (pure a : Parser α).run ts = ⟨.ok a, ts, [], []⟩ := rfl

theorem run_bind (p : Parser α) (f : α → Parser β) (ts : List Token) :
    (p >>= f).run ts = match (p.run ts).value with
      | .ok a => (p.run ts).followedBy ((f a).run (p.run ts).ahead)
      | .error d => { p.run ts with value := .error d } := rfl

theorem run_bind_ok {p : Parser α} {f : α → Parser β} {ts : List Token} {a : α}
    (h : (p.run ts).value = .ok a) :
    (p >>= f).run ts = (p.run ts).followedBy ((f a).run (p.run ts).ahead) := by
  rw [run_bind, h]

theorem run_bind_error {p : Parser α} {f : α → Parser β} {ts : List Token} {d : Diagnostic}
    (h : (p.run ts).value = .error d) :
    (p >>= f).run ts = { p.run ts with value := .error d } := by
  rw [run_bind, h]

protected theorem pure_bind (a : α) (f : α → Parser β) : (pure a >>= f) = f a := by
  ext1
  funext ts
  simp [run_bind, Outcome.followedBy]

protected theorem bind_pure (p : Parser α) : (p >>= pure) = p := by
  ext1
  funext ts
  rw [run_bind]
  split <;> next h => simp [Outcome.followedBy, ← h]

protected theorem bind_assoc (p : Parser α) (f : α → Parser β) (g : β → Parser γ) :
    (p >>= f >>= g) = p >>= fun a => f a >>= g := by
  ext1
  funext ts
  cases h : (p.run ts).value with
  | error d => rw [run_bind_error h, run_bind, run_bind_error h]
  | ok a =>
    rw [run_bind_ok h, run_bind, run_bind_ok h]
    cases h' : ((f a).run (p.run ts).ahead).value with
    | error d => rw [run_bind_error h']; simp [Outcome.followedBy, h']
    | ok b => rw [run_bind_ok h']; simp [Outcome.followedBy, h', List.append_assoc]

instance : LawfulMonad Parser :=
  LawfulMonad.mk' _ Parser.bind_pure Parser.pure_bind Parser.bind_assoc

/-! ### Tokens -/

/-- The current token. -/
def current : Parser Token where
  run ts := ⟨.ok (ts.headD .endOfInput), ts, [], []⟩
  ahead_suffix := List.suffix_refl

/-- The token behind the current one. -/
def following : Parser Token where
  run ts := ⟨.ok (ts.tail.headD .endOfInput), ts, [], []⟩
  ahead_suffix := List.suffix_refl

/-- Moves on by one token. -/
def advance : Parser Unit where
  run ts := ⟨.ok (), ts.tail, [], []⟩
  ahead_suffix := List.tail_suffix

def fail (d : Diagnostic) : Parser α where
  run ts := ⟨.error d, ts, [], []⟩
  ahead_suffix := List.suffix_refl

/-- Moves onto the following token if it is of this kind, and fails otherwise. -/
def expect (k : Kind) : Parser Token := do
  let token ← following
  if token.kind = k then
    advance
    return token
  else
    fail (.unexpected k token.kind)

/-- Moves onto the following token if it is of this kind. -/
def accept (k : Kind) : Parser Unit := do
  if (← following).kind = k then
    advance

/-- Applies a parser as a rule of the grammar, which makes one call of all its calls. -/
def rule (r : Rule) (p : Parser α) : Parser α where
  run ts :=
    let o := p.run ts
    { o with calls := [⟨r, ts, o.ahead, o.value.isOk, o.calls⟩] }
  ahead_suffix := p.ahead_suffix

/-! ### Repetition -/

/-- The run of `extend`. At the last token there is nothing to move onto. -/
def extending (ready : Token → Bool) (step : α → Parser α) (a : α) :
    List Token → Outcome (Except Diagnostic α)
  | t :: u :: us =>
    if ready u then
      let o := (step a).run (u :: us)
      match o.value with
      | .ok b => o.followedBy (extending ready step b o.ahead)
      | .error _ => o
    else ⟨.ok a, t :: u :: us, [], []⟩
  | ts => ⟨.ok a, ts, [], []⟩
termination_by ts => ts.length
decreasing_by exact Nat.lt_succ_of_le ((step a).ahead_length_le (u :: us))

theorem extending_suffix (ready : Token → Bool) (step : α → Parser α) (a : α) (ts : List Token) :
    (extending ready step a ts).ahead <:+ ts := by
  fun_induction extending ready step a ts with
  | case1 a t u us _ o b h ih =>
    exact ih.trans (((step a).ahead_suffix (u :: us)).trans (List.suffix_cons t _))
  | case2 a t u us _ o d h => exact ((step a).ahead_suffix (u :: us)).trans (List.suffix_cons t _)
  | case3 => exact List.suffix_refl _
  | case4 => exact List.suffix_refl _

/-- Lets `step` extend a value for as long as the following token is `ready`; each step
starts on that token. -/
def extend (ready : Token → Bool) (step : α → Parser α) (a : α) : Parser α where
  run := extending ready step a
  ahead_suffix := extending_suffix ready step a

/-- Where the following token is ready, a value is extended by a step and what comes behind it. -/
theorem extending_ready {ready : Token → Bool} {step : α → Parser α} {a : α} {t u : Token}
    {ts : List Token} (hu : ready u = true) :
    extending ready step a (t :: u :: ts) = (step a >>= extend ready step).run (u :: ts) := by
  simp only [extending, if_pos hu]
  cases hv : ((step a).run (u :: ts)).value with
  | ok b =>
    rw [run_bind_ok hv]
    rfl
  | error d =>
    simp only [run_bind_error hv]
    rw [← hv]

/-- Reads items until the current token satisfies `stop` or nothing is ahead. One token is
passed over after each item. An item that fails is left out and its cause recorded. -/
def items (stop : Token → Bool) (item : Parser α) : List Token → Outcome (List α)
  | [] => ⟨[], [], [], []⟩
  | t :: ts =>
    if stop t then ⟨[], t :: ts, [], []⟩
    else
      let o := item.run (t :: ts)
      let p := items stop item o.ahead.tail
      match o.value with
      | .ok a => o.followedBy { p with value := a :: p.value }
      | .error d => o.followedBy { p with diagnostics := d :: p.diagnostics }
termination_by ts => ts.length
decreasing_by
  have := item.ahead_length_le (t :: ts)
  rw [List.length_tail, List.length_cons] at *
  omega

theorem items_suffix (stop : Token → Bool) (item : Parser α) (ts : List Token) :
    (items stop item ts).ahead <:+ ts := by
  fun_induction items stop item ts with
  | case1 => exact List.suffix_refl _
  | case2 => exact List.suffix_refl _
  | case3 t ts _ o p a h ih => exact ih.trans ((List.tail_suffix _).trans (item.ahead_suffix _))
  | case4 t ts _ o p d h ih => exact ih.trans ((List.tail_suffix _).trans (item.ahead_suffix _))

/-- The items from the first on are that item, kept or left out, and the items behind it. -/
theorem items_cons {stop : Token → Bool} {item : Parser α} {t : Token} {ts : List Token}
    (ht : ¬ stop t = true) : items stop item (t :: ts) =
      (item.run (t :: ts)).beforeItems (items stop item (item.run (t :: ts)).ahead.tail) := by
  rw [items, if_neg ht]
  rfl

/-- Induction along the tokens that items start at, from the last of them back. -/
theorem items_induction (stop : Token → Bool) (item : Parser α) {motive : List Token → Prop}
    (nil : motive []) (done : ∀ t ts, stop t = true → motive (t :: ts))
    (step : ∀ t ts, ¬ stop t = true → motive (item.run (t :: ts)).ahead.tail → motive (t :: ts))
    (ts : List Token) : motive ts := by
  induction ts using items.induct stop item with
  | case1 => exact nil
  | case2 t ts ht => exact done t ts ht
  | case3 t ts ht o a hv ih => exact step t ts ht ih
  | case4 t ts ht o d hv ih => exact step t ts ht ih

/-- Where reading items stops, nothing is left or an item may not start. -/
theorem items_stop (stop : Token → Bool) (item : Parser α) (ts : List Token) :
    ∀ t ∈ (items stop item ts).ahead.head?, stop t = true := by
  induction ts using items_induction stop item with
  | nil => simp [items]
  | done t ts ht => simp [items, ht]
  | step t ts ht ih => rwa [items_cons ht, Outcome.beforeItems_ahead]

/-- The items before the first current token that satisfies `stop`. -/
def itemsUntil (stop : Token → Bool) (item : Parser α) : Parser (List α) where
  run ts :=
    let o := items stop item ts
    { o with value := .ok o.value }
  ahead_suffix := items_suffix stop item

end Parser

end Monkey
