import Monkey.Proofs.Concatenation
import Monkey.Proofs.Congruence

/-! A null character inside a text. It is read as an end-of-input mark, with the text behind it
still there. A parser that ends in front of the mark does the same whatever stands behind; one
that comes to the mark may look at what is there. The loop over the statements of a program stops
at the mark where it finds it as the current token, but takes one step behind each statement: the
text in front of the mark is read as if it stood alone unless a statement ends on the mark itself,
and then the program goes on behind it. -/

namespace Monkey

open Monkey.Parser

variable {α β : Type} {us : List Token}

/-! ### Outcomes in front of a mark -/

/-- The second outcome is had where a mark and the tokens `us` stand behind those of the first. -/
structure Outcome.UpToMark (us : List Token) (o o' : Outcome α) : Prop where
  same : o.ahead ≠ [] → o' = o.extended (.endOfInput :: us)
  reached : o.ahead = [] → o'.ahead <:+ .endOfInput :: us

/-- Whatever stands behind a mark, the parser does the same unless it comes to the mark. -/
def Parser.UpToMark (p : Parser α) : Prop :=
  ∀ ts us, (p.run ts).UpToMark us (p.run (ts ++ .endOfInput :: us))

namespace Parser

variable {p : Parser α} {f : α → Parser β}

theorem bind_ahead_suffix (p : Parser α) (f : α → Parser β) (ts : List Token) :
    ((p >>= f).run ts).ahead <:+ (p.run ts).ahead := by
  rw [run_bind]
  split
  · exact (f _).ahead_suffix _
  · exact List.suffix_refl _

theorem items_ahead_suffix {stop : Token → Bool} {t : Token} {ts : List Token}
    (ht : ¬ stop t = true) : (items stop p (t :: ts)).ahead <:+ (p.run (t :: ts)).ahead.tail := by
  rw [items_cons ht, Outcome.beforeItems_ahead]
  exact items_suffix stop p _

namespace UpToMark

/-- What comes to the mark in its first part has come to it. -/
theorem of_reached {o o' : Outcome α} {q q' : Outcome β} (h : q.UpToMark us q') (hq : q.ahead = [])
    (ho : o.ahead <:+ q.ahead) (ho' : o'.ahead <:+ q'.ahead) : o.UpToMark us o' where
  same hne := by
    rw [hq] at ho
    exact absurd (List.suffix_nil.1 ho) hne
  reached _ := ho'.trans (h.reached hq)

theorem pure (a : α) : (pure a : Parser α).UpToMark := by
  intro ts us
  refine ⟨fun _ => rfl, fun hnil => ?_⟩
  rw [show ts = [] from hnil]
  exact List.suffix_refl _

theorem fail (d : Diagnostic) : (fail d : Parser α).UpToMark := by
  intro ts us
  refine ⟨fun _ => rfl, fun hnil => ?_⟩
  rw [show ts = [] from hnil]
  exact List.suffix_refl _

theorem current : UpToMark current := by
  intro ts us
  cases ts with
  | nil => exact ⟨fun hne => absurd rfl hne, fun _ => List.suffix_refl _⟩
  | cons t ts => exact ⟨fun _ => rfl, fun hnil => by cases hnil⟩

theorem following : UpToMark following := by
  intro ts us
  rcases ts with _ | ⟨t, _ | ⟨u, ts⟩⟩
  · exact ⟨fun hne => absurd rfl hne, fun _ => List.suffix_refl _⟩
  · exact ⟨fun _ => rfl, fun hnil => by cases hnil⟩
  · exact ⟨fun _ => rfl, fun hnil => by cases hnil⟩

theorem advance : UpToMark advance := by
  intro ts us
  cases ts with
  | nil => exact ⟨fun hne => absurd rfl hne, fun _ => List.suffix_cons _ _⟩
  | cons t ts =>
    refine ⟨fun _ => rfl, fun hnil => ?_⟩
    rw [show ts = [] from hnil]
    exact List.suffix_refl _

theorem bind_run {ts : List Token} (hp : p.UpToMark)
    (hf : ∀ a, (p.run ts).value = .ok a → ((f a).run (p.run ts).ahead).UpToMark us
      ((f a).run ((p.run ts).ahead ++ .endOfInput :: us))) :
    ((p >>= f).run ts).UpToMark us ((p >>= f).run (ts ++ .endOfInput :: us)) := by
  by_cases hahead : (p.run ts).ahead = []
  · exact of_reached (hp ts us) hahead (bind_ahead_suffix p f ts) (bind_ahead_suffix p f _)
  · have hsame := (hp ts us).same hahead
    cases hv : (p.run ts).value with
    | error d =>
      rw [run_bind_error hv, run_bind_error (by rw [hsame]; exact hv), hsame]
      exact ⟨fun _ => rfl, fun hnil => absurd hnil hahead⟩
    | ok a =>
      rw [run_bind_ok hv, run_bind_ok (by rw [hsame]; exact hv), hsame]
      refine ⟨fun hne => ?_, (hf a hv).reached⟩
      rw [Outcome.extended_followedBy, ← (hf a hv).same hne]
      rfl

theorem bind (hp : p.UpToMark) (hf : ∀ a, (f a).UpToMark) : (p >>= f).UpToMark :=
  fun _ _ => bind_run hp fun a _ => hf a _ _

theorem rule (r : Rule) (hp : p.UpToMark) : (rule r p).UpToMark := by
  intro ts us
  refine ⟨fun hne => ?_, (hp ts us).reached⟩
  simp only [Parser.rule, (hp ts us).same hne]
  rfl

theorem extend {ready : Token → Bool} {step : α → Parser α} (a : α)
    (hr : ready .endOfInput = false) (hs : ∀ a, (step a).UpToMark) :
    (extend ready step a).UpToMark := by
  intro ts us
  change (extending ready step a ts).UpToMark us (extending ready step a (ts ++ .endOfInput :: us))
  induction a, ts using extending.induct ready step with
  | case1 a t u ts hu o b hv ih =>
    rw [List.cons_append, List.cons_append, extending_ready hu, extending_ready hu]
    refine bind_run (hs a) fun b' hv' => ?_
    obtain rfl : b = b' := Except.ok.inj (hv.symm.trans hv')
    exact ih
  | case2 a t u ts hu o d hv =>
    rw [List.cons_append, List.cons_append, extending_ready hu, extending_ready hu]
    exact bind_run (hs a) fun b hv' => nomatch hv.symm.trans hv'
  | case3 a t u ts hu =>
    simp only [List.cons_append, extending, if_neg hu]
    exact ⟨fun _ => rfl, fun hnil => by cases hnil⟩
  | case4 a ts hshort =>
    rcases ts with _ | ⟨t, _ | ⟨u, ts⟩⟩
    · simp only [List.nil_append, extending]
      exact ⟨fun hne => absurd rfl hne, fun _ => extending_suffix ready step a _⟩
    · simp only [List.cons_append, List.nil_append, extending, hr]
      exact ⟨fun _ => rfl, fun hnil => by cases hnil⟩
    · exact absurd rfl (hshort t u ts)

theorem items (stop : Token → Bool) (hp : p.UpToMark) (ts us : List Token) :
    (items stop p ts).UpToMark us (items stop p (ts ++ .endOfInput :: us)) := by
  induction ts using items_induction stop p with
  | nil =>
    rw [Parser.items]
    exact ⟨fun hne => absurd rfl hne, fun _ => items_suffix stop p _⟩
  | done t ts ht =>
    rw [List.cons_append, Parser.items, Parser.items, if_pos ht, if_pos ht]
    exact ⟨fun _ => rfl, fun hnil => by cases hnil⟩
  | step t ts ht ih =>
    by_cases hahead : (p.run (t :: ts)).ahead = []
    · apply of_reached (hp (t :: ts) us) hahead
      · exact (items_ahead_suffix ht).trans (List.tail_suffix _)
      · exact (items_ahead_suffix ht).trans (List.tail_suffix _)
    · have hsame := (hp (t :: ts) us).same hahead
      rw [List.cons_append] at hsame
      rw [List.cons_append, items_cons ht, items_cons ht, hsame,
        (p.run (t :: ts)).extended_tail _ hahead]
      refine ⟨fun hne => ?_, fun hnil => ?_⟩
      · rw [Outcome.beforeItems_ahead] at hne
        rw [ih.same hne, Outcome.extended_beforeItems]
      · rw [Outcome.beforeItems_ahead] at hnil ⊢
        exact ih.reached hnil

end UpToMark

end Parser

theorem upToMark_congruence : Congruence fun p _ => p.UpToMark where
  pure := .pure
  bind := .bind
  current := .current
  following := .following
  advance := .advance
  fail := .fail
  rule _ _ := .rule _
  extend := .extend
  statements {α stop p q} _ _ hp ts us := by
    have hitems := UpToMark.items stop (.rule .statement hp) ts us
    exact ⟨fun hne => by simp only [itemsUntil, hitems.same hne]; rfl, hitems.reached⟩

theorem expression_upToMark (n : Nat) (p : Precedence) : (Grammar.expression n p).UpToMark := by
  induction n generalizing p with
  | zero => exact .fail _
  | succ n ih =>
    exact .rule _ (@Congruence.chain _ upToMark_congruence (Grammar.expression n)
      (Grammar.expression n) ih p)

/-! ### Statements in front of a mark -/

section Statements

variable {p : Parser α} {r : Rule} {stop : Token → Bool} (hp : p.UpToMark)

include hp

/-- Where no item ends on the mark, the loop over the items stops at it. -/
theorem items_extended (hstop : stop .endOfInput = true) (ts us : List Token)
    (h : ∀ c ∈ (items stop (rule r p) ts).calls, c.stop ≠ []) :
    items stop (rule r p) (ts ++ .endOfInput :: us) =
      (items stop (rule r p) ts).extended (.endOfInput :: us) := by
  induction ts using items_induction stop (rule r p) with
  | nil =>
    rw [List.nil_append, items, items, if_pos hstop]
    rfl
  | done t ts ht =>
    rw [List.cons_append, items, items, if_pos ht, if_pos ht]
    rfl
  | step t ts ht ih =>
    rw [items_cons ht, Outcome.beforeItems_calls] at h
    have hahead : ((rule r p).run (t :: ts)).ahead ≠ [] :=
      h ⟨r, _, _, _, _⟩ (List.mem_append_left _ (List.mem_singleton.2 rfl))
    have hsame := (UpToMark.rule r hp (t :: ts) us).same hahead
    rw [List.cons_append] at hsame
    rw [List.cons_append, items_cons ht, items_cons ht, hsame,
      ((rule r p).run (t :: ts)).extended_tail _ hahead,
      ih fun c hc => h c (List.mem_append_right _ hc), Outcome.extended_beforeItems]

/-- Where an item ends on the mark, the loop over the items steps over it. -/
theorem items_past_mark (ts us : List Token)
    (h : ∃ c ∈ (items stop (rule r p) ts).calls, c.stop = []) :
    (items stop (rule r p) (ts ++ .endOfInput :: us)).ahead <:+ us := by
  induction ts using items_induction stop (rule r p) with
  | nil =>
    rw [items] at h
    obtain ⟨c, hc, -⟩ := h
    cases hc
  | done t ts ht =>
    rw [items, if_pos ht] at h
    obtain ⟨c, hc, -⟩ := h
    cases hc
  | step t ts ht ih =>
    by_cases hahead : ((rule r p).run (t :: ts)).ahead = []
    · have hreached := (UpToMark.rule r hp (t :: ts) us).reached hahead
      rw [List.cons_append] at hreached ⊢
      apply (items_ahead_suffix ht).trans
      rcases List.suffix_cons_iff.1 hreached with heq | hsuffix
      · rw [heq]
        exact List.suffix_refl us
      · exact (List.tail_suffix _).trans hsuffix
    · have hsame := (UpToMark.rule r hp (t :: ts) us).same hahead
      rw [List.cons_append] at hsame
      rw [items_cons ht, Outcome.beforeItems_calls] at h
      obtain ⟨c, hc, hstop⟩ := h
      rw [List.cons_append, items_cons ht, Outcome.beforeItems_ahead, hsame,
        ((rule r p).run (t :: ts)).extended_tail _ hahead]
      apply ih
      rcases List.mem_append.1 hc with hc | hc
      · obtain rfl : c = _ := by simpa [rule] using hc
        exact absurd hstop hahead
      · exact ⟨c, hc, hstop⟩

end Statements

theorem stream_null (as bs : List Char) : Token.stream (as ++ '\x00' :: bs) =
    Token.stream as ++ .endOfInput :: Token.stream bs := by
  have hapart : Token.Apart ('\x00' :: bs) := by
    rintro c ⟨⟩
    decide
  have hscan : Token.scan? ('\x00' :: bs) = some (.endOfInput, bs) := rfl
  rw [Token.stream_append_apart hapart, Token.stream_of_some hscan]

namespace Grammar

theorem statement_upToMark (n : Nat) :
    ∃ p, statement (expression n) = rule .statement p ∧ p.UpToMark := by
  obtain ⟨p, -, hp, -, -, -, hmark⟩ := @Congruence.statement _ upToMark_congruence (expression n)
    (expression n) (expression_upToMark n)
  exact ⟨p, hp, hmark⟩

theorem program_extended (ts us : List Token) (h : ∀ c ∈ (program ts).calls, c.stop ≠ []) :
    program (ts ++ .endOfInput :: us) = (program ts).extended (.endOfInput :: us) := by
  obtain ⟨p, hp, hmark⟩ := statement_upToMark maxNesting
  unfold program at h ⊢
  rw [hp] at h ⊢
  rw [items_extended hmark (by decide) ts us h]
  rfl

theorem program_past_mark (ts us : List Token) (h : ∃ c ∈ (program ts).calls, c.stop = []) :
    (program (ts ++ .endOfInput :: us)).ahead <:+ us := by
  obtain ⟨p, hp, hmark⟩ := statement_upToMark maxNesting
  unfold program at h ⊢
  rw [hp] at h ⊢
  exact items_past_mark hmark ts us h

end Grammar

/-- A text in front of a null character is read as if it stood alone where none of its statements,
kept or dropped, ends with the text: the program then stops at the null character. Otherwise the
program has gone past it, into the text behind. -/
theorem parse_null (a b : String) :
    ((∀ c ∈ (parse a).calls, c.stop ≠ []) →
      (parse (a ++ "\x00" ++ b)).value = (parse a).value ∧
      (parse (a ++ "\x00" ++ b)).diagnostics = (parse a).diagnostics ∧
      traceText (parse (a ++ "\x00" ++ b)).calls = traceText (parse a).calls ∧
      (parse (a ++ "\x00" ++ b)).ahead =
        (parse a).ahead ++ .endOfInput :: (Lexer.ofString b).tokens) ∧
    ((∃ c ∈ (parse a).calls, c.stop = []) →
      (parse (a ++ "\x00" ++ b)).ahead <:+ (Lexer.ofString b).tokens) := by
  have hparse : parse (a ++ "\x00" ++ b) = Grammar.program
      ((Lexer.ofString a).tokens ++ .endOfInput :: (Lexer.ofString b).tokens) := by
    have hstream := stream_null a.toList b.toList
    have htext : (a ++ "\x00" ++ b).toList = a.toList ++ '\x00' :: b.toList := by simp
    rw [← htext] at hstream
    exact congrArg Grammar.program hstream
  rw [hparse]
  constructor
  · intro h
    rw [Grammar.program_extended _ _ h]
    exact ⟨rfl, rfl, traceText_extendedAll _ _, rfl⟩
  · intro h
    exact Grammar.program_past_mark _ _ h

/-- A block that is still open ends on the null character, and the program goes on behind it. -/
theorem parse_null_open_block :
    ¬ ∀ a b : String, '\x00' ∉ a.toList →
      (parse (a ++ "\x00" ++ b)).value = (parse a).value ∧
      (parse (a ++ "\x00" ++ b)).diagnostics = (parse a).diagnostics ∧
      traceText (parse (a ++ "\x00" ++ b)).calls = traceText (parse a).calls := by
  intro h
  have hvalue := (h "fn()\x7b" "x" (by decide)).1
  have hlength : (parse ("fn()\x7b" ++ "\x00" ++ "x")).value.statements.length = 2 ∧
      (parse "fn()\x7b").value.statements.length = 1 := by decide +kernel
  rw [hvalue, hlength.2] at hlength
  exact absurd hlength.1 (by decide)

/-- A closed block stops in front of the null character, an open one does not. -/
theorem parse_null_blocks :
    ((∀ c ∈ (parse "fn()\x7b\x7d").calls, c.stop ≠ []) ∧
      (parse ("fn()\x7b\x7d" ++ "\x00" ++ "x")).value = (parse "fn()\x7b\x7d").value) ∧
    ((∃ c ∈ (parse "fn()\x7b").calls, c.stop = []) ∧
      (parse ("fn()\x7b" ++ "\x00" ++ "x")).ahead <:+ (Lexer.ofString "x").tokens) := by
  have hclosed : ∀ c ∈ (parse "fn()\x7b\x7d").calls, c.stop ≠ [] := by decide +kernel
  have hopen : ∃ c ∈ (parse "fn()\x7b").calls, c.stop = [] := by decide +kernel
  exact ⟨⟨hclosed, ((parse_null _ _).1 hclosed).1⟩, hopen, (parse_null _ _).2 hopen⟩

end Monkey
