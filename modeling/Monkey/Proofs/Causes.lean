import Monkey.Proofs.CleanRun
import Monkey.Proofs.Derivation
import Monkey.Reading

/-! Why statements are dropped. A statement is given up where the parser stands, and the cause that is
reported is true of the tokens there: so every diagnostic is about tokens that the source has. Reading
goes on behind the token that a statement was given up on, so the places follow one another. -/

namespace Monkey

open Monkey.Parser

/-- The kinds of tokens that have to follow others. -/
def Kind.isRequired : Kind → Bool
  | .identifier | .assign | .leftParen | .rightParen | .leftBrace => true
  | _ => false

/-- The diagnostic is true of a statement given up where the first of the tokens is the current one. -/
def Diagnostic.Fits : Diagnostic → List Token → Prop
  | .unexpected want got, ts =>
    want.isRequired = true ∧ got ≠ want ∧ (ts.tail.headD .endOfInput).kind = got
  | .noOperand got, ts => got.opens = false ∧ (ts.headD .endOfInput).kind = got
  | .integerTooLarge literal, ts =>
    (ts.headD .endOfInput).kind = .integer ∧ (ts.headD .endOfInput).literal = literal ∧
      0x7fffffffffffffff < (ts.headD .endOfInput).decimal
  | .nestingTooDeep limit, _ => limit = Grammar.maxNesting

/-- On the way from one place to another these causes have been reported. Each is true where a
statement was given up, and what follows is behind the token there. -/
inductive Trail : List Token → List Diagnostic → List Token → Prop where
  | nil {ts us : List Token} : us <:+ ts → Trail ts [] us
  | cons {ts us vs : List Token} {d : Diagnostic} {ds : List Diagnostic} :
    us <:+ ts → d.Fits us → Trail us.tail ds vs → Trail ts (d :: ds) vs

namespace Trail

variable {ts us vs : List Token} {ds es : List Diagnostic}

theorem of_suffix (h : Trail us ds vs) (hs : us <:+ ts) : Trail ts ds vs := by
  cases h with
  | nil hsuffix => exact .nil (hsuffix.trans hs)
  | cons hsuffix hfits hrest => exact .cons (hsuffix.trans hs) hfits hrest

theorem append (h : Trail ts ds us) (h' : Trail us es vs) : Trail ts (ds ++ es) vs := by
  induction h with
  | nil hs => exact h'.of_suffix hs
  | cons hs hfits _ ih => exact .cons hs hfits (ih h')

theorem fits (h : Trail ts ds vs) : ∀ d ∈ ds, ∃ us, us <:+ ts ∧ d.Fits us := by
  induction h with
  | nil => exact List.forall_mem_nil _
  | @cons ts us vs d ds hs hfits _ ih =>
    refine List.forall_mem_cons.2 ⟨⟨us, hs, hfits⟩, fun e he => ?_⟩
    obtain ⟨ws, hws, hfits⟩ := ih e he
    exact ⟨ws, hws.trans ((List.tail_suffix us).trans hs), hfits⟩

end Trail

/-- Started at the tokens `ts`, the failure of an outcome fits where it was left, and those of the
statements dropped on the way fit one behind another. -/
structure Outcome.Truthful {α : Type} (ts : List Token) (o : Outcome (Except Diagnostic α)) :
    Prop where
  failure : ∀ d, o.value = .error d → d.Fits o.ahead
  dropped : Trail ts o.diagnostics o.ahead

theorem Outcome.Truthful.of_suffix {α : Type} {ts us : List Token}
    {o : Outcome (Except Diagnostic α)} (h : o.Truthful us) (hs : us <:+ ts) : o.Truthful ts :=
  ⟨h.failure, h.dropped.of_suffix hs⟩

namespace Parser

variable {α β : Type}

/-- What the parser reports is true of the tokens it was reported at. -/
def Truthful (p : Parser α) : Prop := ∀ ts, (p.run ts).Truthful ts

namespace Truthful

variable {p : Parser α} {f : α → Parser β} {ts : List Token}

theorem silent_run {us : List Token} {a : α} {cs : List Call} (h : us <:+ ts) :
    Outcome.Truthful ts (⟨.ok a, us, [], cs⟩ : Outcome (Except Diagnostic α)) :=
  ⟨nofun, .nil h⟩

theorem pure (a : α) : (pure a : Parser α).Truthful := fun ts => silent_run (List.suffix_refl ts)

theorem current : current.Truthful := fun ts => silent_run (List.suffix_refl ts)

theorem following : following.Truthful := fun ts => silent_run (List.suffix_refl ts)

theorem advance : advance.Truthful := fun ts => silent_run (List.tail_suffix ts)

theorem fail_run {d : Diagnostic} (h : d.Fits ts) : ((fail d : Parser α).run ts).Truthful ts where
  failure := by
    rintro _ ⟨⟩
    exact h
  dropped := .nil (List.suffix_refl ts)

theorem bind_run (hp : (p.run ts).Truthful ts)
    (hf : ∀ a, (p.run ts).value = .ok a →
      ((f a).run (p.run ts).ahead).Truthful (p.run ts).ahead) :
    ((p >>= f).run ts).Truthful ts := by
  cases hv : (p.run ts).value with
  | error d =>
    rw [run_bind_error hv]
    refine ⟨?_, hp.dropped⟩
    rintro _ ⟨⟩
    exact hp.failure d hv
  | ok a =>
    rw [run_bind_ok hv]
    exact ⟨(hf a hv).failure, hp.dropped.append (hf a hv).dropped⟩

theorem bind (hp : p.Truthful) (hf : ∀ a, (f a).Truthful) : (p >>= f).Truthful :=
  fun ts => bind_run (hp ts) fun a _ => hf a _

theorem rule (r : Rule) (hp : p.Truthful) : (rule r p).Truthful :=
  fun ts => ⟨(hp ts).failure, (hp ts).dropped⟩

theorem expect {k : Kind} (hk : k.isRequired = true) : (expect k).Truthful := by
  intro ts
  rw [Parser.expect, run_bind_silent rfl]
  split
  · exact silent_run (List.tail_suffix ts)
  · next hne => exact fail_run ⟨hk, hne, rfl⟩

theorem accept (k : Kind) : (accept k).Truthful := by
  refine following.bind fun t => ?_
  split
  · exact advance
  · exact pure ()

theorem extend {ready : Token → Bool} {step : α → Parser α} (a : α)
    (hs : ∀ a, (step a).Truthful) : (extend ready step a).Truthful := by
  intro ts
  change (extending ready step a ts).Truthful ts
  induction a, ts using extending.induct ready step with
  | case1 a t u ts hu o b hv ih =>
    rw [extending_ready hu]
    refine (bind_run (hs a (u :: ts)) fun b' hv' => ?_).of_suffix (List.suffix_cons t _)
    obtain rfl : b = b' := Except.ok.inj (hv.symm.trans hv')
    exact ih
  | case2 a t u ts hu o d hv =>
    rw [extending_ready hu]
    refine (bind_run (hs a (u :: ts)) fun b hv' => ?_).of_suffix (List.suffix_cons t _)
    exact nomatch hv.symm.trans hv'
  | case3 a t u ts hu =>
    simp only [extending, if_neg hu]
    exact silent_run (List.suffix_refl _)
  | case4 a ts hshort =>
    rw [extending]
    · exact silent_run (List.suffix_refl ts)
    · exact hshort

end Truthful

/-- Where items are dropped, their causes fit, and the next item stands behind. -/
theorem items_trail {item : Parser α} (hi : item.Truthful) (stop : Token → Bool) (ts : List Token) :
    Trail ts (items stop item ts).diagnostics (items stop item ts).ahead := by
  induction ts using items_induction stop item with
  | nil =>
    rw [items]
    exact .nil (List.suffix_refl [])
  | done t ts ht =>
    rw [items, if_pos ht]
    exact .nil (List.suffix_refl _)
  | step t ts ht ih =>
    have hitem := hi (t :: ts)
    rw [items_cons ht, Outcome.beforeItems]
    split
    · exact hitem.dropped.append (ih.of_suffix (List.tail_suffix _))
    · next d hv =>
      exact hitem.dropped.append (.cons (List.suffix_refl _) (hitem.failure d hv) ih)

theorem Truthful.itemsUntil {item : Parser α} (stop : Token → Bool) (hi : item.Truthful) :
    (itemsUntil stop item).Truthful :=
  fun ts => ⟨nofun, items_trail hi stop ts⟩

end Parser

namespace Grammar

section Rules

variable {expr : Precedence → Parser Expr} (hx : ∀ p, (expr p).Truthful)

include hx

/-! ### Statements -/

theorem statement_truthful : (statement expr).Truthful := by
  refine .rule _ (Truthful.current.bind fun t => ?_)
  split
  · exact .rule _ (Truthful.current.bind fun _ => (Truthful.expect rfl).bind fun _ =>
      (Truthful.expect rfl).bind fun _ => Truthful.advance.bind fun _ => (hx _).bind fun _ =>
        (Truthful.accept _).bind fun _ => .pure _)
  · exact .rule _ (Truthful.current.bind fun _ => Truthful.advance.bind fun _ =>
      (hx _).bind fun _ => (Truthful.accept _).bind fun _ => .pure _)
  · exact .rule _ (Truthful.current.bind fun _ => (hx _).bind fun _ =>
      (Truthful.accept _).bind fun _ => .pure _)

theorem block_truthful : (block expr).Truthful :=
  .rule _ (Truthful.current.bind fun _ => Truthful.advance.bind fun _ =>
    (Truthful.itemsUntil _ (statement_truthful hx)).bind fun _ => .pure _)

/-! ### Operands and operators -/

omit hx in
theorem parenthesized_truthful {α : Type} {item : Parser α} (hi : item.Truthful) :
    (parenthesized item).Truthful := by
  refine Truthful.following.bind fun t => ?_
  split
  · exact Truthful.advance.bind fun _ => .pure _
  · refine hi.bind fun a => (Truthful.extend _ fun as => ?_).bind fun _ =>
      (Truthful.expect rfl).bind fun _ => .pure _
    exact hi.bind fun _ => .pure _

theorem conditional_truthful (t : Token) : (conditional expr t).Truthful := by
  have halternative : (alternative expr).Truthful := by
    refine Truthful.following.bind fun t => ?_
    split
    · exact Truthful.advance.bind fun _ => (Truthful.expect rfl).bind fun _ =>
        (block_truthful hx).bind fun _ => .pure _
    · exact .pure _
  exact (Truthful.expect rfl).bind fun _ => Truthful.advance.bind fun _ => (hx _).bind fun _ =>
    (Truthful.expect rfl).bind fun _ => (Truthful.expect rfl).bind fun _ =>
      (block_truthful hx).bind fun _ => halternative.bind fun _ => .pure _

theorem function_truthful (t : Token) : (function expr t).Truthful :=
  (Truthful.expect rfl).bind fun _ => (parenthesized_truthful (Truthful.expect rfl)).bind fun _ =>
    (Truthful.expect rfl).bind fun _ => (block_truthful hx).bind fun _ => .pure _

omit hx in
/-- A number is given up only where it is the current token and no node can hold it. -/
theorem integer_truthful {ts : List Token} (hk : (ts.headD .endOfInput).kind = .integer) :
    ((integer (ts.headD .endOfInput)).run ts).Truthful ts := by
  unfold integer
  split
  · exact Truthful.silent_run (List.suffix_refl ts)
  · next hnone =>
    refine Truthful.fail_run ⟨hk, rfl, Nat.lt_of_not_le fun hle => ?_⟩
    rw [Token.integerValue?_eq_some_iff.2 ⟨hle, rfl⟩] at hnone
    cases hnone

theorem operand_truthful : (operand expr).Truthful := by
  have hunary (t : Token) (op : UnaryOp) : (unary expr t op).Truthful :=
    Truthful.advance.bind fun _ => (hx _).bind fun _ => .pure _
  have hgroup : (group expr).Truthful :=
    Truthful.advance.bind fun _ => (hx _).bind fun _ => (Truthful.expect rfl).bind fun _ => .pure _
  intro ts
  rw [operand, run_bind_silent rfl]
  split
  · exact Truthful.silent_run (List.suffix_refl ts)
  · next hk =>
    have hinteger := integer_truthful hk
    exact ⟨hinteger.failure, hinteger.dropped⟩
  · exact Truthful.silent_run (List.suffix_refl ts)
  · exact Truthful.silent_run (List.suffix_refl ts)
  · exact (hunary _ _).rule _ ts
  · exact (hunary _ _).rule _ ts
  · exact hgroup.rule _ ts
  · exact (conditional_truthful hx _).rule _ ts
  · exact (function_truthful hx _).rule _ ts
  · refine Truthful.fail_run ⟨?_, rfl⟩
    unfold Kind.opens
    split <;> simp_all

theorem suffix_truthful (left : Expr) : (suffix expr left).Truthful := by
  have hargument : (do advance; expr .lowest : Parser Expr).Truthful :=
    Truthful.advance.bind fun _ => hx _
  refine Truthful.current.bind fun t => ?_
  split
  · exact .rule _ (Truthful.advance.bind fun _ => (hx _).bind fun _ => .pure _)
  · exact .rule _ ((parenthesized_truthful hargument).bind fun _ => .pure _)

theorem chain_truthful (p : Precedence) : (chain expr p).Truthful :=
  (operand_truthful hx).bind fun left => .extend left (suffix_truthful hx)

end Rules

theorem expression_truthful (n : Nat) (p : Precedence) : (expression n p).Truthful := by
  induction n generalizing p with
  | zero => exact fun _ => Truthful.fail_run rfl
  | succ n ih => exact .rule _ (chain_truthful ih p)

end Grammar

/-- The diagnostics of a source are true of its tokens, at one place behind another. -/
theorem parse_trail (source : String) :
    Trail (Lexer.ofString source).tokens (parse source).diagnostics (parse source).ahead :=
  items_trail (Grammar.statement_truthful (Grammar.expression_truthful Grammar.maxNesting)) _ _

/-- Every diagnostic of a source is true of tokens that the source has. -/
theorem parse_diagnostics_fit (source : String) : ∀ d ∈ (parse source).diagnostics,
    ∃ ts, ts <:+ (Lexer.ofString source).tokens ∧ d.Fits ts := (parse_trail source).fits

end Monkey
