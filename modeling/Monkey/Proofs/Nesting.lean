import Monkey.Proofs.Calls
import Monkey.Proofs.Congruence

/-! The number of expressions that may be open at once. A parser of expressions with `n`
levels to spend never has more than `n` of them open. Spending more levels changes
nothing unless the limit was hit: a run with few levels reports that it ran out of them,
or it is the run with many. -/

namespace Monkey

open Monkey.Parser

/-! ### Properties of the calls made -/

/-- A property of call forests that holds when no calls are made, of forests side by side, and
of the call made by each rule but that of expressions is respected by the grammar. A call of a
statement is made of one call of a form. -/
theorem Congruence.ofCalls {Q : List Call → Prop} (nil : Q [])
    (append : ∀ cs ds, Q cs → Q ds → Q (cs ++ ds))
    (rule : ∀ r ts us ok cs, r ≠ .expression →
      (r = .statement → ∃ c, cs = [c] ∧ c.rule.isStatementForm = true) →
      Q cs → Q [⟨r, ts, us, ok, cs⟩]) :
    Congruence fun p _ => ∀ ts, Q (p.run ts).calls where
  pure _ _ := nil
  current _ := nil
  following _ := nil
  advance _ := nil
  fail _ _ := nil
  rule hr hs hp ts := rule _ _ _ _ _ hr (fun h => absurd h hs) (hp ts)
  bind {α β p q f g} hp hf ts := by
    rw [run_bind]
    split
    · exact append _ _ (hp ts) (hf _ _)
    · exact hp ts
  extend {α ready step step'} a _ hstep ts := by
    change Q (extending ready step a ts).calls
    fun_induction extending ready step a ts
    case case1 a t u us _ o b _ ih => exact append _ _ (hstep a (u :: us)) ih
    case case2 a t u us _ o d _ => exact hstep a (u :: us)
    case case3 => exact nil
    case case4 => exact nil
  statements {α stop p q} hform _ hp ts := by
    change Q (items stop (Parser.rule .statement p) ts).calls
    have hitem (ts : List Token) : Q ((Parser.rule .statement p).run ts).calls :=
      rule _ _ _ _ _ (by decide) (fun _ => hform ts) (hp ts)
    induction ts using items_induction stop (Parser.rule .statement p) with
    | nil => simpa [items] using nil
    | done t ts ht => simpa [items, ht] using nil
    | step t ts ht ih =>
      rw [items_cons ht, Outcome.beforeItems_calls]
      exact append _ _ (hitem (t :: ts)) ih

theorem nesting_congruence (n : Nat) :
    Congruence fun p _ => ∀ ts, Call.nestingAll (p.run ts).calls ≤ n := by
  refine .ofCalls (Q := fun cs => Call.nestingAll cs ≤ n) (Nat.zero_le n) (fun cs ds hc hd => ?_)
    fun r ts us ok cs hr _ hc => ?_
  · rw [Call.nestingAll_append]
    exact Nat.max_le.2 ⟨hc, hd⟩
  · simpa [Call.nestingAll, Call.nesting, hr] using hc

/-- No more expressions are open at once than may be. -/
theorem nesting_expression_le (n : Nat) (p : Precedence) (ts : List Token) :
    Call.nestingAll ((Grammar.expression n p).run ts).calls ≤ n := by
  induction n generalizing p ts with
  | zero => exact Nat.le_refl 0
  | succ n ih =>
    have hchain := @Congruence.chain _ (nesting_congruence n) (Grammar.expression n)
      (Grammar.expression n) ih p ts
    simpa [Grammar.expression, Parser.rule, Call.nestingAll, Call.nesting] using hchain

/-! ### More levels -/

/-- Whether an outcome reports that expressions were nested too deeply: as its own failure or
as that of a statement dropped on the way. -/
def Outcome.TooDeep {α : Type} (o : Outcome (Except Diagnostic α)) : Prop :=
  .nestingTooDeep Grammar.maxNesting ∈ o.diagnostics ∨
    o.value = .error (.nestingTooDeep Grammar.maxNesting)

/-- The two parsers give the same outcome, unless the first one is too deep. -/
def Parser.AgreesWith {α : Type} (p q : Parser α) : Prop :=
  ∀ ts, (p.run ts).TooDeep ∨ p.run ts = q.run ts

namespace Parser

variable {α β : Type} {p q : Parser α}

theorem AgreesWith.refl (p : Parser α) : p.AgreesWith p := fun _ => .inr rfl

theorem AgreesWith.bind {f g : α → Parser β} (hp : p.AgreesWith q)
    (hf : ∀ a, (f a).AgreesWith (g a)) : (p >>= f).AgreesWith (q >>= g) := by
  intro ts
  rcases hp ts with hdeep | heq
  · left
    rcases hdeep with hd | hv
    · rw [run_bind]
      split
      · exact .inl (List.mem_append_left _ hd)
      · exact .inl hd
    · rw [run_bind_error hv]
      exact .inr rfl
  · cases hv : (p.run ts).value with
    | error d =>
      right
      rw [run_bind_error hv, heq, run_bind_error (heq ▸ hv)]
    | ok a =>
      rw [run_bind_ok hv, run_bind_ok (heq ▸ hv), ← heq]
      rcases hf a (p.run ts).ahead with hd | hfg
      · exact .inl (hd.imp (List.mem_append_right _) id)
      · exact .inr (by rw [hfg])

theorem AgreesWith.rule (r : Rule) (hp : p.AgreesWith q) : (rule r p).AgreesWith (rule r q) := by
  intro ts
  rcases hp ts with hd | heq
  · exact .inl hd
  · exact .inr (by simp only [Parser.rule, heq])

theorem AgreesWith.extend {ready : Token → Bool} {step step' : α → Parser α} (a : α)
    (hs : ∀ a, (step a).AgreesWith (step' a)) :
    (extend ready step a).AgreesWith (extend ready step' a) := by
  intro ts
  change (extending ready step a ts).TooDeep ∨
    extending ready step a ts = extending ready step' a ts
  fun_induction extending ready step a ts
  case case1 a t u us hr o b hv ih =>
    have hother : o = (step' a).run (u :: us) → extending ready step' a (t :: u :: us) =
        o.followedBy (extending ready step' b o.ahead) := by
      intro heq
      simp only [extending, hr, if_true, ← heq, hv]
    rcases hs a (u :: us) with hd | heq
    · exact .inl (.inl (List.mem_append_left _ (hd.resolve_right (by simp [o, hv]))))
    · rw [hother heq]
      rcases ih with hd | hrest
      · exact .inl (hd.imp (List.mem_append_right _) id)
      · exact .inr (by rw [hrest])
  case case2 a t u us hr o d hv =>
    rcases hs a (u :: us) with hd | heq
    · exact .inl hd
    · right
      simp only [extending, hr, if_true, ← heq]
      simp only [o] at hv
      simp only [o, hv]
  case case3 a t u us hr =>
    right
    simp only [extending, if_neg hr]
  case case4 a ts hts =>
    right
    rw [extending]
    exact hts

theorem AgreesWith.itemsUntil {stop : Token → Bool} (hp : p.AgreesWith q) :
    (itemsUntil stop p).AgreesWith (itemsUntil stop q) := by
  intro ts
  suffices h : .nestingTooDeep Grammar.maxNesting ∈ (items stop p ts).diagnostics ∨
      items stop p ts = items stop q ts by
    rcases h with hd | heq
    · exact .inl (.inl hd)
    · exact .inr (by simp only [Parser.itemsUntil, heq])
  induction ts using items_induction stop p with
  | nil => exact .inr (by rw [items, items])
  | done t ts ht => exact .inr (by rw [items, items, if_pos ht, if_pos ht])
  | step t ts ht ih =>
    rw [items_cons ht, items_cons ht, Outcome.mem_beforeItems_diagnostics]
    rcases hp (t :: ts) with hd | heq
    · exact .inl (.inl hd)
    · rcases ih with hd | hrest
      · exact .inl (.inr hd)
      · right
        rw [← heq, hrest]

end Parser

theorem agreement_congruence : Congruence Parser.AgreesWith where
  pure _ := .refl _
  bind := .bind
  current := .refl _
  following := .refl _
  advance := .refl _
  fail _ := .refl _
  rule _ _ := .rule _
  extend a _ := .extend a
  statements _ _ hp := .itemsUntil (.rule _ hp)

/-- A run that spends few levels and does not run out of them is the run with more. -/
theorem expression_agreesWith {m n : Nat} (h : m ≤ n) (p : Precedence) :
    (Grammar.expression m p).AgreesWith (Grammar.expression n p) := by
  induction m generalizing n p with
  | zero => exact fun _ => .inl (.inr rfl)
  | succ m ih =>
    obtain ⟨n, rfl⟩ := Nat.exists_eq_add_of_le' h
    exact .rule _ (agreement_congruence.chain (fun p => ih (Nat.le_add_left m n) p) p)

/-- No more expressions are open at once in statements than in the expressions in them. -/
theorem nesting_items_le (n : Nat) (stop : Token → Bool) (ts : List Token) :
    Call.nestingAll (items stop (Grammar.statement (Grammar.expression n)) ts).calls ≤ n :=
  @Congruence.itemsUntil _ (nesting_congruence n) (Grammar.expression n) (Grammar.expression n)
    (nesting_expression_le n) stop ts

end Monkey
