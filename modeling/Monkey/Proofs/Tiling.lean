import Monkey.Proofs.Spelling

/-! How a text is cut into tokens. Each token is read from the characters behind a run of blanks,
as many of them as fit: a run of letters or of digits, an operator of two characters, or a single
character; a null character is read as an end-of-input mark, and so is nothing at all at the end of
the text. The pieces tile the text, and the tokens of a text are those of its one tiling. -/

namespace Monkey

/-! ### Symbols -/

theorem Kind.name_ofSymbol {c : Char} (h : ofSymbol c ≠ illegal) :
    (ofSymbol c).name = c.toString := by
  revert h
  unfold ofSymbol
  split
  case h_15 => exact fun h => absurd rfl h
  all_goals exact fun _ => rfl

/-- A kind whose name is a single character is that of a symbol. -/
theorem Kind.ofSymbol_of_name {c : Char} {k : Kind} (h : k.name = c.toString) :
    ofSymbol c = k ∧ isLetter c = false ∧ c.isDigit = false ∧ c ≠ '\x00' := by
  have hlist : k.name.toList = [c] := by rw [h]; simp
  cases k <;> simp [Kind.name] at hlist <;> subst hlist <;> decide

namespace Token

/-! ### Pieces -/

/-- A token is read from the characters `m`, with the text `rest` behind them. -/
inductive Munches : List Char → List Char → Token → Prop where
  | word {m rest : List Char} : m ≠ [] → (∀ c ∈ m, isLetter c = true) →
    (∀ c ∈ rest.head?, isLetter c = false) → Munches m rest (ofWord (String.ofList m))
  | number {m rest : List Char} : m ≠ [] → (∀ c ∈ m, c.isDigit = true) →
    (∀ c ∈ rest.head?, c.isDigit = false) → Munches m rest ⟨.integer, String.ofList m⟩
  | equal {rest : List Char} : Munches ['=', '='] rest ⟨.equal, "=="⟩
  | notEqual {rest : List Char} : Munches ['!', '='] rest ⟨.notEqual, "!="⟩
  | symbol {c : Char} {rest : List Char} {k : Kind} : k.name = c.toString →
    ¬ (rest.head? = some '=' ∧ (c = '=' ∨ c = '!')) → Munches [c] rest ⟨k, c.toString⟩
  | foreign {c : Char} {rest : List Char} : isLetter c = false → c.isDigit = false →
    c ≠ '\x00' → (∀ k : Kind, k.name ≠ c.toString) → Munches [c] rest ⟨.illegal, c.toString⟩
  | null {rest : List Char} : Munches ['\x00'] rest .endOfInput
  | ended : Munches [] [] .endOfInput

theorem head?_dropWhile {α : Type} (p : α → Bool) (as : List α) :
    ∀ a ∈ (as.dropWhile p).head?, p a = false := by
  intro a ha
  have hnot := List.head?_dropWhile_not p as
  rw [Option.mem_def.1 ha] at hnot
  simpa using hnot

/-- A single character is a symbol or foreign, unless it ends the input. -/
theorem munches_ofChar {c : Char} {rest : List Char} (hl : isLetter c = false)
    (hd : c.isDigit = false) (h2 : ¬ (rest.head? = some '=' ∧ (c = '=' ∨ c = '!'))) :
    Munches [c] rest (ofChar c) := by
  unfold ofChar
  split
  · next h0 =>
    subst h0
    exact .null
  · next h0 =>
    by_cases hk : Kind.ofSymbol c = .illegal
    · rw [hk]
      refine .foreign hl hd h0 fun k hname => ?_
      have hsymbol := (Kind.ofSymbol_of_name hname).1
      rw [hk] at hsymbol
      subst hsymbol
      simpa [Kind.name] using congrArg String.toList hname
    · exact .symbol (Kind.name_ofSymbol hk) h2

/-- A lexeme is read from the characters in front of what it leaves. -/
theorem lexeme_munches (c : Char) (cs : List Char) :
    ∃ m, c :: cs = m ++ (lexeme c cs).2 ∧ Munches m (lexeme c cs).2 (lexeme c cs).1 := by
  by_cases hl : isLetter c = true
  · unfold lexeme
    rw [if_pos hl]
    refine ⟨c :: cs.takeWhile isLetter, by simp, .word (by simp) ?_ ?_⟩
    · exact List.forall_mem_cons.2 ⟨hl, List.all_eq_true.1 List.all_takeWhile⟩
    · exact head?_dropWhile isLetter cs
  by_cases hd : c.isDigit = true
  · unfold lexeme
    rw [if_neg hl, if_pos hd]
    refine ⟨c :: cs.takeWhile Char.isDigit, by simp, .number (by simp) ?_ ?_⟩
    · exact List.forall_mem_cons.2 ⟨hd, List.all_eq_true.1 List.all_takeWhile⟩
    · exact head?_dropWhile Char.isDigit cs
  rw [Bool.not_eq_true] at hl hd
  by_cases h2 : cs.head? = some '=' ∧ (c = '=' ∨ c = '!')
  · obtain ⟨hcs, hc⟩ := h2
    obtain ⟨ds, rfl⟩ := List.head?_eq_some_iff.1 hcs
    rcases hc with rfl | rfl
    · exact ⟨['=', '='], rfl, .equal⟩
    · exact ⟨['!', '='], rfl, .notEqual⟩
  · rw [lexeme_single hl hd (by simpa using h2)]
    exact ⟨[c], rfl, munches_ofChar hl hd h2⟩

theorem ofSymbol_eq_illegal {c : Char} (h : ∀ k : Kind, k.name ≠ c.toString) :
    Kind.ofSymbol c = .illegal := by
  apply Decidable.byContradiction
  intro hk
  exact h _ (Kind.name_ofSymbol hk)

/-- What a token is read from is read as that token. -/
theorem Munches.lexeme_eq {c : Char} {m rest : List Char} {t : Token}
    (h : Munches (c :: m) rest t) : lexeme c (m ++ rest) = (t, rest) := by
  cases h with
  | word _ hm hrest =>
    obtain ⟨hc, hm⟩ := List.forall_mem_cons.1 hm
    unfold lexeme
    rw [if_pos hc, takeWhile_run hm hrest, dropWhile_run hm hrest]
  | number _ hm hrest =>
    obtain ⟨hc, hm⟩ := List.forall_mem_cons.1 hm
    unfold lexeme
    rw [if_neg (by simp [isLetter_of_isDigit hc]), if_pos hc, takeWhile_run hm hrest,
      dropWhile_run hm hrest]
  | equal => rfl
  | notEqual => rfl
  | symbol hname h2 =>
    obtain ⟨rfl, hl, hd, h0⟩ := Kind.ofSymbol_of_name hname
    rw [List.nil_append, lexeme_single hl hd (by simpa using h2), ofChar, if_neg h0]
  | foreign hl hd h0 hname =>
    have h2 : rest.head? = some '=' → c ≠ '=' ∧ c ≠ '!' := by
      refine fun _ => ⟨?_, ?_⟩
      · rintro rfl
        exact hname .assign rfl
      · rintro rfl
        exact hname .bang rfl
    rw [List.nil_append, lexeme_single hl hd h2, ofChar, if_neg h0, ofSymbol_eq_illegal hname]
  | null => rfl

theorem Munches.rest_eq_nil {rest : List Char} {t : Token} (h : Munches [] rest t) :
    rest = [] ∧ t = .endOfInput := by
  cases h with
  | word hm => exact absurd rfl hm
  | number hm => exact absurd rfl hm
  | ended => exact ⟨rfl, rfl⟩

/-! ### Tilings -/

/-- The text is cut into the pieces of these tokens, each behind all blanks that stand there, and
what is left of it. -/
inductive Tiles : List Char → List Token → List Char → Prop where
  | nil {text : List Char} : Tiles text [] text
  | cons {w m text rest : List Char} {t : Token} {ts : List Token} :
    (∀ c ∈ w, c.isWhitespace = true) → (∀ c ∈ (m ++ text).head?, c.isWhitespace = false) →
    Munches m text t → Tiles text ts rest → Tiles (w ++ m ++ text) (t :: ts) rest

end Token

namespace Lexer

/-- The next `n` tokens, and the lexer behind them. -/
def take : Nat → Lexer → List Token × Lexer
  | 0, l => ([], l)
  | n + 1, l => (l.next.1 :: (take n l.next.2).1, (take n l.next.2).2)

theorem take_length (n : Nat) (l : Lexer) : (take n l).1.length = n := by
  induction n generalizing l with
  | zero => rfl
  | succ n ih => rw [take, List.length_cons, ih]

open Token

/-- The next token is read from the piece behind the blanks. -/
theorem next_eq_iff {text rest : List Char} {t : Token} : next ⟨text⟩ = (t, ⟨rest⟩) ↔
    ∃ w m, text = w ++ m ++ rest ∧ (∀ c ∈ w, c.isWhitespace = true) ∧
      (∀ c ∈ (m ++ rest).head?, c.isWhitespace = false) ∧ Munches m rest t := by
  constructor
  · intro h
    have hw : ∀ c ∈ text.takeWhile Char.isWhitespace, c.isWhitespace = true :=
      List.all_eq_true.1 List.all_takeWhile
    have hsplit := List.takeWhile_append_dropWhile (p := Char.isWhitespace) (l := text)
    have hhead := head?_dropWhile Char.isWhitespace text
    unfold next at h
    cases hs : scan? text with
    | none =>
      rw [hs] at h
      obtain ⟨rfl, hrest⟩ := Prod.mk.inj h
      obtain rfl : [] = rest := congrArg ahead hrest
      rw [scan?_eq_none_iff.1 hs] at hsplit
      exact ⟨_, [], by simpa using hsplit.symm, hw, by simp, .ended⟩
    | some r =>
      rw [hs] at h
      obtain ⟨c, cs, hd, hl⟩ := scan?_eq_some_iff.1 hs
      obtain ⟨rfl, hrest⟩ := Prod.mk.inj h
      obtain rfl : r.2 = rest := congrArg ahead hrest
      obtain ⟨m, hm, hmunches⟩ := lexeme_munches c cs
      rw [hl] at hm hmunches
      rw [hd, hm] at hsplit hhead
      exact ⟨_, m, by rw [List.append_assoc, hsplit], hw, hhead, hmunches⟩
  · rintro ⟨w, m, rfl, hw, hhead, hmunches⟩
    have hd : (w ++ m ++ rest).dropWhile Char.isWhitespace = m ++ rest := by
      rw [List.append_assoc]
      exact dropWhile_run hw hhead
    unfold next
    cases m with
    | nil =>
      obtain ⟨rfl, rfl⟩ := hmunches.rest_eq_nil
      rw [scan?_eq_none_iff.2 hd]
    | cons c m =>
      rw [scan?_eq_some_iff.2 ⟨c, m ++ rest, hd, hmunches.lexeme_eq⟩]

/-- The tokens of a text are those of its tiling. -/
theorem take_eq_iff {text rest : List Char} {ts : List Token} :
    take ts.length ⟨text⟩ = (ts, ⟨rest⟩) ↔ Tiles text ts rest := by
  induction ts generalizing text with
  | nil =>
    constructor
    · intro h
      obtain rfl : text = rest := congrArg ahead (Prod.mk.inj h).2
      exact .nil
    · rintro ⟨⟩
      rfl
  | cons t ts ih =>
    constructor
    · intro h
      obtain ⟨⟨u, l⟩, hnext⟩ : ∃ r, next ⟨text⟩ = r := ⟨_, rfl⟩
      rw [List.length_cons, take, hnext] at h
      obtain ⟨hcons, hrest⟩ := Prod.mk.inj h
      obtain ⟨rfl, hts⟩ := List.cons.inj hcons
      obtain ⟨w, m, rfl, hw, hhead, hmunches⟩ := next_eq_iff.1 hnext
      exact .cons hw hhead hmunches (ih.1 (Prod.ext hts hrest))
    · intro h
      cases h with
      | @cons w m text rest t ts hw hhead hmunches htiles =>
        have hnext := next_eq_iff.2 ⟨w, m, rfl, hw, hhead, hmunches⟩
        rw [List.length_cons, take, hnext, ih.2 htiles]

end Lexer

end Monkey
