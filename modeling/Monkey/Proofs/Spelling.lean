import Monkey.Proofs.Lexing

/-! How tokens are spelled. A token read off a text is a word, a number, one of the two
operators of two characters, or a single character, so all but names, numbers and foreign
characters have one spelling for their kind. A spelling is read back as its token where
the text behind it does not go on with it. -/

namespace Monkey

theorem isWhitespace_of_isLetter {c : Char} (h : isLetter c = true) : c.isWhitespace = false := by
  rw [Bool.eq_false_iff]
  intro hw
  simp only [Char.isWhitespace, Bool.or_eq_true, decide_eq_true_eq] at hw
  rcases hw with ((rfl | rfl) | rfl) | rfl <;> cases h

theorem isWhitespace_of_isDigit {c : Char} (h : c.isDigit = true) : c.isWhitespace = false := by
  rw [Bool.eq_false_iff]
  intro hw
  simp only [Char.isWhitespace, Bool.or_eq_true, decide_eq_true_eq] at hw
  rcases hw with ((rfl | rfl) | rfl) | rfl <;> cases h

theorem isLetter_of_isDigit {c : Char} (h : c.isDigit = true) : isLetter c = false := by
  rw [Bool.eq_false_iff]
  intro hl
  simp only [Char.isDigit, Bool.and_eq_true, decide_eq_true_eq] at h
  change (decide (65 ≤ c.val ∧ c.val ≤ 90) || decide (97 ≤ c.val) && decide (c.val ≤ 122) ||
    c == '_') = true at hl
  simp only [Bool.or_eq_true, Bool.and_eq_true, decide_eq_true_eq, beq_iff_eq] at hl
  have hdigit : c.val.toNat ≤ 57 := h.2
  rcases hl with (hupper | hlower) | rfl
  · have : 65 ≤ c.val.toNat := hupper.1
    omega
  · have : 97 ≤ c.val.toNat := hlower.1
    omega
  · exact absurd hdigit (by decide)

/-- The text that all tokens of a kind have, unless it varies with the token. -/
def Kind.spelling? : Kind → Option String
  | illegal => none
  | identifier => none
  | integer => none
  | endOfInput => some ""
  | kwFn => some "fn"
  | kwLet => some "let"
  | kind => some kind.name

/-- Whether tokens of a kind are words or numbers. -/
def Kind.wordlike : Kind → Bool
  | identifier | integer | kwFn | kwLet | kwIf | kwElse | kwReturn | kwTrue | kwFalse => true
  | _ => false

namespace Token

/-- What can be read off a text. -/
inductive Lexed : Token → Prop where
  | word {c : Char} {cs : List Char} : isLetter c = true → (∀ d ∈ cs, isLetter d = true) →
    Lexed (ofWord (String.ofList (c :: cs)))
  | number {c : Char} {cs : List Char} : c.isDigit = true → (∀ d ∈ cs, d.isDigit = true) →
    Lexed ⟨.integer, String.ofList (c :: cs)⟩
  | equal : Lexed ⟨.equal, "=="⟩
  | notEqual : Lexed ⟨.notEqual, "!="⟩
  | single {c : Char} : isLetter c = false → c.isDigit = false → Lexed (ofChar c)

theorem lexed_endOfInput : Lexed .endOfInput := .single (c := '\x00') rfl rfl

theorem lexeme_lexed (c : Char) (cs : List Char) : (lexeme c cs).1.Lexed := by
  unfold lexeme
  split
  · next hl => exact .word hl (List.all_eq_true.1 List.all_takeWhile)
  · next hl =>
    split
    · next hd => exact .number hd (List.all_eq_true.1 List.all_takeWhile)
    · next hd =>
      split
      · exact .equal
      · exact .notEqual
      · exact .single (by simpa using hl) (by simpa using hd)

/-- Every token of a text is one that can be read. -/
theorem stream_lexed (text : List Char) : ∀ t ∈ stream text, t.Lexed := by
  fun_induction stream text with
  | case1 => simp
  | case2 text t rest hs ih =>
    obtain ⟨c, cs, -, hl⟩ := scan?_eq_some_iff.1 hs
    have hlexed := lexeme_lexed c cs
    rw [hl] at hlexed
    simpa [hlexed] using ih

theorem Lexed.literal_eq {t : Token} {w : String} (h : t.Lexed) (hw : t.kind.spelling? = some w) :
    t.literal = w := by
  cases h with
  | word _ _ =>
    unfold ofWord Kind.ofWord at hw ⊢
    split at hw <;> simp_all [Kind.spelling?, Kind.name]
  | number _ _ => cases hw
  | equal => simpa [Kind.spelling?, Kind.name] using hw
  | notEqual => simpa [Kind.spelling?, Kind.name] using hw
  | @single c _ _ =>
    unfold ofChar at hw ⊢
    split
    · simp_all [Kind.spelling?, endOfInput]
    · next hc =>
      rw [if_neg hc] at hw
      unfold Kind.ofSymbol at hw
      split at hw <;> simp_all [Kind.spelling?, Kind.name]

/-! ### Reading a spelling -/

theorem stream_lexeme {c : Char} {cs : List Char} (hc : c.isWhitespace = false) :
    stream (c :: cs) = (lexeme c cs).1 :: stream (lexeme c cs).2 := by
  have hd : (c :: cs).dropWhile Char.isWhitespace = c :: cs := by simp [hc]
  exact stream_of_some (scan?_eq_some_iff.2 ⟨c, cs, hd, rfl⟩)

theorem stream_blank {c : Char} {cs : List Char} (hc : c.isWhitespace = true) :
    stream (c :: cs) = stream cs := stream_congr (List.dropWhile_cons_of_pos hc)

theorem takeWhile_run {p : Char → Bool} {cs rest : List Char} (hcs : ∀ d ∈ cs, p d = true)
    (hrest : ∀ d ∈ rest.head?, p d = false) : (cs ++ rest).takeWhile p = cs := by
  rw [List.takeWhile_append_of_pos hcs]
  cases rest with
  | nil => simp
  | cons d rest => simp [hrest d rfl]

theorem dropWhile_run {p : Char → Bool} {cs rest : List Char} (hcs : ∀ d ∈ cs, p d = true)
    (hrest : ∀ d ∈ rest.head?, p d = false) : (cs ++ rest).dropWhile p = rest := by
  rw [List.dropWhile_append_of_pos hcs]
  cases rest with
  | nil => rfl
  | cons d rest => simp [hrest d rfl]

theorem stream_word {c : Char} {cs rest : List Char} (hc : isLetter c = true)
    (hcs : ∀ d ∈ cs, isLetter d = true) (hrest : ∀ d ∈ rest.head?, isLetter d = false) :
    stream (c :: cs ++ rest) = ofWord (String.ofList (c :: cs)) :: stream rest := by
  have hlexeme : lexeme c (cs ++ rest) = (ofWord (String.ofList (c :: cs)), rest) := by
    unfold lexeme
    rw [if_pos hc, takeWhile_run hcs hrest, dropWhile_run hcs hrest]
  rw [List.cons_append, stream_lexeme (isWhitespace_of_isLetter hc), hlexeme]

theorem stream_number {c : Char} {cs rest : List Char} (hc : c.isDigit = true)
    (hcs : ∀ d ∈ cs, d.isDigit = true) (hrest : ∀ d ∈ rest.head?, d.isDigit = false) :
    stream (c :: cs ++ rest) = ⟨.integer, String.ofList (c :: cs)⟩ :: stream rest := by
  have hlexeme : lexeme c (cs ++ rest) = (⟨.integer, String.ofList (c :: cs)⟩, rest) := by
    unfold lexeme
    rw [if_neg (by simp [isLetter_of_isDigit hc]), if_pos hc, takeWhile_run hcs hrest,
      dropWhile_run hcs hrest]
  rw [List.cons_append, stream_lexeme (isWhitespace_of_isDigit hc), hlexeme]

theorem stream_single {c : Char} {rest : List Char} (hw : c.isWhitespace = false)
    (hl : isLetter c = false) (hd : c.isDigit = false)
    (hrest : rest.head? = some '=' → c ≠ '=' ∧ c ≠ '!') :
    stream (c :: rest) = ofChar c :: stream rest := by
  rw [stream_lexeme hw, lexeme_single hl hd hrest]

/-- Text that goes on neither with a word nor with a number. -/
def Delimited (rest : List Char) : Prop := ∀ c ∈ rest.head?, isLetter c = false ∧ c.isDigit = false

theorem Delimited.cons {c : Char} {rest : List Char} (hl : isLetter c = false)
    (hd : c.isDigit = false) : Delimited (c :: rest) := by
  rintro _ ⟨⟩
  exact ⟨hl, hd⟩

theorem ofSymbol_wordlike (c : Char) : (Kind.ofSymbol c).wordlike = false := by
  unfold Kind.ofSymbol
  split <;> rfl

theorem Lexed.stream_literal {t : Token} {rest : List Char} (h : t.Lexed)
    (hk : t.kind.wordlike = true) (hrest : Delimited rest) :
    stream (t.literal.toList ++ rest) = t :: stream rest := by
  cases h with
  | @word c cs hc hcs =>
    rw [ofWord, String.toList_ofList]
    exact stream_word hc hcs fun d hd => (hrest d hd).1
  | @number c cs hc hcs =>
    rw [String.toList_ofList]
    exact stream_number hc hcs fun d hd => (hrest d hd).2
  | equal => cases hk
  | notEqual => cases hk
  | @single c _ _ =>
    unfold ofChar at hk
    split at hk
    · cases hk
    · rw [ofSymbol_wordlike c] at hk
      cases hk

/-- A word or number has a first character, and it is not that of an operator. -/
theorem Lexed.literal_head {t : Token} (h : t.Lexed) (hk : t.kind.wordlike = true) :
    ∃ c cs, t.literal.toList = c :: cs ∧ c ≠ '=' := by
  cases h with
  | @word c cs hc _ =>
    refine ⟨c, cs, String.toList_ofList, ?_⟩
    rintro rfl
    cases hc
  | @number c cs hc _ =>
    refine ⟨c, cs, String.toList_ofList, ?_⟩
    rintro rfl
    cases hc
  | equal => cases hk
  | notEqual => cases hk
  | @single c _ _ =>
    unfold ofChar at hk
    split at hk
    · cases hk
    · rw [ofSymbol_wordlike c] at hk
      cases hk

end Token

end Monkey
