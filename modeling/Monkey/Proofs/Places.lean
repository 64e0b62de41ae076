import Monkey.Proofs.Causes

/-! Where diagnostics sit. What is missing is blamed on the token behind the current one and everything
else on the current token itself. A statement is given up at one token and reading goes on behind it,
so the places do not go back, and a token is blamed for one thing missing in front of it and for one
other thing at most. Beyond the last token diagnostics may pile up. -/

namespace Monkey

/-- The token at a place: what is given when that many tokens have been given before. -/
def Lexer.token (l : Lexer) (p : Nat) : Token := (l.skip p).next.1

theorem Lexer.token_eq (l : Lexer) (p : Nat) : l.token p = l.tokens.getD p .endOfInput := by
  induction p generalizing l with
  | zero =>
    have hhead : l.token 0 = l.tokens.headD .endOfInput := l.next_fst
    rw [hhead, List.headD_eq_head?_getD, List.head?_eq_getElem?, List.getD_eq_getElem?_getD]
  | succ p ih =>
    have htail : l.token (p + 1) = l.next.2.tokens.getD p .endOfInput := ih l.next.2
    rw [htail, l.tokens_next, List.getD_eq_getElem?_getD, List.getElem?_tail,
      ← List.getD_eq_getElem?_getD]

namespace Diagnostic

/-- Another token should stand here. -/
def isUnexpected : Diagnostic → Bool
  | unexpected .. => true
  | _ => false

/-- What the diagnostic says is true of the token it sits on. -/
def SitsOn : Diagnostic → Token → Prop
  | unexpected want got, t =>
    want ∈ [Kind.identifier, .assign, .leftParen, .rightParen, .leftBrace] ∧ got ≠ want ∧
      t.kind = got
  | noOperand got, t =>
    t.kind = got ∧ ∀ u : Token, u.kind = got → ∀ h l us e, ¬ Derivation.Expression h l (u :: us) e
  | integerTooLarge literal, t =>
    t.kind = .integer ∧ t.literal = literal ∧ 0x7fffffffffffffff < t.decimal
  | nestingTooDeep limit, _ => limit = 64

/-- How many tokens behind the current one the diagnostic sits. -/
def reach (d : Diagnostic) : Nat := if d.isUnexpected then 1 else 0

theorem Fits.sitsOn {d : Diagnostic} {us : List Token} (h : d.Fits us) :
    d.SitsOn ((us.drop d.reach).headD .endOfInput) := by
  cases d with
  | unexpected want got =>
    obtain ⟨hwant, hne, hgot⟩ := h
    refine ⟨?_, hne, by rwa [← List.drop_one] at hgot⟩
    revert hwant
    cases want <;> decide
  | noOperand got =>
    refine ⟨h.2, fun u hu _ _ _ _ he => ?_⟩
    obtain ⟨_, _, ⟨⟩, hopens⟩ := he.opens
    rw [hu, h.1] at hopens
    cases hopens
  | integerTooLarge literal => exact h
  | nestingTooDeep limit => exact h

end Diagnostic

/-! ### Places along a trail -/

/-- A diagnostic and the place of the token it sits on. -/
structure Placed where
  place : Nat
  diagnostic : Diagnostic

/-- A diagnostic with its place among `n` tokens of which the tokens `us` are left. -/
def Diagnostic.placed (d : Diagnostic) (n : Nat) (us : List Token) : Placed :=
  ⟨n - (us.drop d.reach).length, d⟩

/-- The second stands no earlier than the first. Both are at one of the `n` tokens there are only if
something is missing in front of it and the second is about the token itself. -/
structure Placed.Precedes (n : Nat) (a b : Placed) : Prop where
  le : a.place ≤ b.place
  apart : a.place = b.place → a.place < n →
    a.diagnostic.isUnexpected = true ∧ b.diagnostic.isUnexpected = false

theorem getD_of_suffix {α : Type} {as us : List α} (h : us <:+ as) (a : α) :
    as.getD (as.length - us.length) a = us.headD a := by
  obtain ⟨ws, rfl⟩ := h
  rw [List.length_append, Nat.add_sub_cancel, List.getD_eq_getElem?_getD,
    List.getElem?_append_right (Nat.le_refl _), Nat.sub_self, ← List.head?_eq_getElem?,
    List.headD_eq_head?_getD]

/-- What sits somewhere behind the current token stands behind what sits here. -/
theorem Diagnostic.placed_precedes {n : Nat} {us : List Token} (hn : us.length ≤ n) (d : Diagnostic)
    {b : Placed} (hb : n - (us.tail.drop b.diagnostic.reach).length ≤ b.place) :
    (d.placed n us).Precedes n b := by
  obtain ⟨p, e⟩ := b
  simp only [reach, List.length_drop, List.length_tail] at hb
  refine ⟨?_, fun heq hlt => ?_⟩
  · simp only [placed, reach, List.length_drop]
    split at hb <;> split <;> omega
  · simp only [placed, reach, List.length_drop] at heq hlt ⊢
    cases he : e.isUnexpected <;> cases hd : d.isUnexpected <;>
      simp [he, hd] at hb heq hlt ⊢ <;> omega

/-- The causes on a trail have places one behind another. -/
theorem Trail.placed {all ts vs : List Token} {ds : List Diagnostic} (h : Trail ts ds vs)
    (hall : ts <:+ all) : ∃ places : List Placed, places.map Placed.diagnostic = ds ∧
      (∀ a ∈ places, all.length - (ts.drop a.diagnostic.reach).length ≤ a.place ∧
        a.diagnostic.SitsOn (all.getD a.place .endOfInput)) ∧
      places.Pairwise (Placed.Precedes all.length) := by
  -- On the way the places found so far stay behind the tokens that the trail starts from.
  induction h with
  | nil _ => exact ⟨[], rfl, List.forall_mem_nil _, .nil⟩
  | @cons ts us vs d ds hs hfits _ ih =>
    have hus := hs.trans hall
    obtain ⟨places, rfl, hsit, hpairwise⟩ := ih ((List.tail_suffix us).trans hus)
    refine ⟨d.placed all.length us :: places, rfl, List.forall_mem_cons.2 ⟨⟨?_, ?_⟩, ?_⟩,
      .cons (fun b hb => d.placed_precedes hus.length_le (hsit b hb).1) hpairwise⟩
    · have := hs.length_le
      simp only [Diagnostic.placed, List.length_drop]
      omega
    · rw [Diagnostic.placed, getD_of_suffix ((List.drop_suffix _ us).trans hus)]
      exact hfits.sitsOn
    · intro b hb
      refine ⟨Nat.le_trans ?_ (hsit b hb).1, (hsit b hb).2⟩
      have := hs.length_le
      simp only [List.length_drop, List.length_tail]
      omega

theorem countP_le_one {α : Type} {p : α → Bool} {as : List α}
    (h : as.Pairwise fun a b => ¬ (p a = true ∧ p b = true)) : as.countP p ≤ 1 := by
  induction h with
  | nil => exact Nat.zero_le 1
  | @cons a as ha _ ih =>
    by_cases hp : p a = true
    · have hnone : as.countP p = 0 := List.countP_eq_zero.2 fun b hb hpb => ha b hb ⟨hp, hpb⟩
      exact Nat.le_of_eq (by rw [List.countP_cons_of_pos hp, hnone])
    · rwa [List.countP_cons_of_neg hp]

/-- The diagnostics of a source sit on its tokens, in order, and each is true of its token. A token
that does not end the input is blamed for one thing missing and for one other thing at most. -/
theorem diagnostics_placed (source : String) : ∃ places : List Placed,
    places.map Placed.diagnostic = (parse source).diagnostics ∧
    places.Pairwise (fun a b => a.place ≤ b.place) ∧
    (∀ a ∈ places, a.diagnostic.SitsOn ((Lexer.ofString source).token a.place)) ∧
    ∀ p, ((Lexer.ofString source).token p).kind ≠ .endOfInput →
      places.countP (fun a => a.place = p && a.diagnostic.isUnexpected) ≤ 1 ∧
      places.countP (fun a => a.place = p && !a.diagnostic.isUnexpected) ≤ 1 := by
  obtain ⟨places, hmap, hsit, hpairwise⟩ := (parse_trail source).placed (List.suffix_refl _)
  simp only [Lexer.token_eq]
  refine ⟨places, hmap, hpairwise.imp Placed.Precedes.le, fun a ha => (hsit a ha).2, fun p hp => ?_⟩
  have hlt : p < (Lexer.ofString source).tokens.length := by
    refine Nat.lt_of_not_le fun hle => hp ?_
    rw [List.getD_eq_getElem?_getD, List.getElem?_eq_none hle]
    rfl
  constructor
  · refine countP_le_one (hpairwise.imp fun {a b} h => ?_)
    rintro ⟨ha, hb⟩
    simp only [Bool.and_eq_true, decide_eq_true_eq] at ha hb
    have hlater := (h.apart (ha.1.trans hb.1.symm) (ha.1 ▸ hlt)).2
    rw [hb.2] at hlater
    cases hlater
  · refine countP_le_one (hpairwise.imp fun {a b} h => ?_)
    rintro ⟨ha, hb⟩
    simp only [Bool.and_eq_true, decide_eq_true_eq, Bool.not_eq_true'] at ha hb
    have hearlier := (h.apart (ha.1.trans hb.1.symm) (ha.1 ▸ hlt)).1
    rw [ha.2] at hearlier
    cases hearlier

end Monkey
